import Cognate.Proofs.Number.WordSteps
import Cognate.Proofs.Number.WideInt
import Mathlib.Data.List.ModifyLast

/-!
# Integers as they are stored

An integer of a width is stored in as many words as the width needs. The words are filled, written over, and masked on
top; an index behind the last word stops, and so do a shift by as many bits as a word has and a difference below zero.
`StoredInt` does it step by step and never stops. What it leaves is the width and the words of the integer that is kept
without zeros on top (`ofWords_eq`, `ofInt_eq`, `readInteger_eq`, `swapBytes_eq`, `isNegative_eq`).
-/

namespace Cognate

/-- An integer in a vector of words. -/
structure StoredInt where
  bits : Nat
  words : Limbs
deriving DecidableEq

/-- The integer with all words that its width needs. -/
def WideInt.stored (v : WideInt) : StoredInt := ⟨v.bits, v.words⟩

namespace StoredInt

open Limbs.Machine

/-! ## Steps -/

/-- Writes over what stands in front, as far as both go. -/
def overwrite {α : Type} : List α → List α → List α
  | _ :: stored, x :: xs => x :: overwrite stored xs
  | stored, _ => stored

/-- Clears the bits of the last word that are above the width. -/
def clearUnused (v : StoredInt) : Option StoredInt :=
  if v.bits % 64 = 0 then some v
  else do
    let mask ← subWord? (← shl? 1 (v.bits % 64)) 1
    return { v with words := v.words.modifyLast (· &&& mask) }

/-- Zeros for a width of at least one bit, the given words written over them, and the last word masked. -/
def ofWords (bits : Nat) (words : Limbs) : Option StoredInt :=
  clearUnused ⟨max bits 1, overwrite (List.replicate (wordsFor (max bits 1)) 0) words⟩

def ofWord (bits : Nat) (word : UInt64) : Option StoredInt := ofWords bits [word]

/-- Writes the word of that index. -/
def setWord? (words : Limbs) (index : Nat) (word : UInt64) : Option Limbs :=
  if index < words.length then some (words.set index word) else none

/-- Words filled with the sign of a number, and its two low words written over them. -/
def signedWords? (count : Nat) (value : Int) : Option Limbs := do
  let fill := if value < 0 then UInt64.ofNat (limbBase - 1) else 0
  let words ← setWord? (List.replicate count fill) 0 (UInt64.ofNat (value % limbBase).toNat)
  if 1 < words.length then setWord? words 1 (UInt64.ofNat (value / limbBase % limbBase).toNat) else some words

/-- The two's complement of a number. -/
def ofInt (bits : Nat) (value : Int) : Option StoredInt := do
  ofWords (max bits 1) (← signedWords? (wordsFor (max bits 1)) value)

/-- The words of whole groups of eight bytes. -/
def wholeWords (bytes : List UInt8) : Limbs :=
  if 8 ≤ bytes.length then UInt64.ofNat (ofBytes (bytes.take 8)) :: wholeWords (bytes.drop 8) else []
termination_by bytes.length
decreasing_by simp only [List.length_drop]; omega

/-- The integer of some bytes of a trace. -/
def readInteger (bits : Nat) (bytes : List UInt8) : Option StoredInt :=
  ofWords bits ((wholeWords bytes).take (wordsFor (max bits 1)))

/-- The words of groups of eight bytes, zeros standing behind the last ones. -/
def paddedWords : List UInt8 → Limbs
  | [] => []
  | b :: bytes =>
    UInt64.ofNat (ofBytes (overwrite (List.replicate 8 0) ((b :: bytes).take 8))) :: paddedWords (bytes.drop 7)
termination_by bytes => bytes.length
decreasing_by simp only [List.length_drop, List.length_cons]; omega

/-- The whole bytes in reverse order; the bytes of the width are at least as many. -/
def swapBytes (v : StoredInt) : Option StoredInt :=
  let bytes := v.words.toByteList.take ((v.bits + 7) / 8)
  if v.bits / 8 ≤ bytes.length then
    ofWords v.bits (paddedWords ((bytes.take (v.bits / 8)).reverse ++ bytes.drop (v.bits / 8)))
  else none

/-- The bit of the sign, in the word that it stands in. -/
def isNegative (v : StoredInt) : Option Bool := do
  let top ← sub? v.bits 1
  let word ← v.words[top / 64]?
  return (← shr? word (top % 64)) &&& 1 == 1

variable {bits : Nat} {ks ls : Limbs} {bytes : List UInt8} {v : WideInt}

/-! ## Words in place -/

theorem overwrite_replicate {α : Type} (k : Nat) (x : α) (xs : List α) :
    overwrite (List.replicate k x) xs = xs.take k ++ List.replicate (k - xs.length) x := by
  induction k generalizing xs with
  | zero => simp [overwrite]
  | succ k ih =>
    cases xs with
    | nil => simp [overwrite, List.replicate_succ]
    | cons y ys => simp [overwrite, List.replicate_succ, ih]

theorem length_overwrite {α : Type} (stored xs : List α) : (overwrite stored xs).length = stored.length := by
  induction stored generalizing xs with
  | nil => cases xs <;> rfl
  | cons s stored ih =>
    cases xs with
    | nil => rfl
    | cons x xs => simp [overwrite, ih]

theorem toNat_overwrite_zeros (k : Nat) (ls : Limbs) :
    Limbs.toNat (overwrite (List.replicate k 0) ls) = ls.toNat % limbBase ^ k := by
  rw [overwrite_replicate, Limbs.toNat_append, Limbs.toNat_replicate_zero, Nat.mul_zero, Nat.add_zero,
    Limbs.toNat_take]

/-- The mask of the last word keeps its low bits. -/
theorem exists_mask (bits : Nat) :
    ∃ power mask, shl? 1 (bits % 64) = some power ∧ subWord? power 1 = some mask ∧
      ∀ l : UInt64, (l &&& mask).toNat = l.toNat % 2 ^ (bits % 64) := by
  have hlt : bits % 64 < 64 := Nat.mod_lt _ (by decide)
  obtain ⟨power, hpower, hnat⟩ := Limbs.Machine.shl?_eq hlt 1
  have hone : (1 : Nat) % 2 ^ (64 - bits % 64) = 1 := Nat.mod_eq_of_lt (Nat.one_lt_two_pow (by omega))
  have hnat : power.toNat = 2 ^ (bits % 64) := by rw [hnat, UInt64.toNat_one, hone, Nat.one_mul]
  have hle : 1 ≤ power := by
    rw [UInt64.le_iff_toNat_le, hnat]
    exact Nat.one_le_two_pow
  refine ⟨power, power - 1, hpower, if_pos hle, fun l => ?_⟩
  rw [UInt64.toNat_and, UInt64.toNat_sub_of_le _ _ hle, hnat, UInt64.toNat_one, Nat.and_two_pow_sub_one_eq_mod]

/-- As many words as the width needs are masked to the number of the width. -/
theorem clearUnused_eq (hpos : 1 ≤ bits) (hlength : ls.length = wordsFor bits) :
    ∃ words, clearUnused ⟨bits, ls⟩ = some ⟨bits, words⟩ ∧ words.length = wordsFor bits ∧
      Limbs.toNat words = ls.toNat % 2 ^ bits := by
  have hwords := Limbs.two_pow_eq bits
  by_cases hused : bits % 64 = 0
  · refine ⟨ls, if_pos hused, hlength, ?_⟩
    have hcount : bits / 64 = ls.length := by rw [hlength, wordsFor]; omega
    rw [hused, Nat.pow_zero, Nat.mul_one, hcount] at hwords
    rw [hwords, Nat.mod_eq_of_lt (Limbs.toNat_lt ls)]
  · obtain ⟨power, mask, hpower, hmask, hlow⟩ := exists_mask bits
    have hne : ls ≠ [] := by
      rintro rfl
      simp only [List.length_nil, wordsFor] at hlength
      omega
    obtain ⟨below, top, rfl⟩ : ∃ below top, ls = below ++ [top] :=
      ⟨ls.dropLast, ls.getLast hne, (List.dropLast_append_getLast hne).symm⟩
    have hcount : bits / 64 = below.length := by
      simp only [List.length_append, List.length_singleton, wordsFor] at hlength
      omega
    refine ⟨below ++ [top &&& mask], ?_, by simpa using hlength, ?_⟩
    · rw [clearUnused, if_neg hused, hpower, Option.bind_eq_bind, Option.bind_some, hmask, Option.bind_some]
      dsimp only
      rw [List.modifyLast_concat]
      rfl
    · rw [hwords, hcount, Nat.mod_mul, Limbs.toNat_append, Limbs.toNat_append, Limbs.toNat_cons, Limbs.toNat_cons,
        Limbs.toNat_nil, Nat.mul_zero, Nat.add_zero, Nat.add_zero, hlow, Nat.add_mul_mod_self_left,
        Nat.mod_eq_of_lt (Limbs.toNat_lt below), Nat.add_mul_div_left _ _ (Nat.pow_pos limbBase_pos),
        Nat.div_eq_of_lt (Limbs.toNat_lt below), Nat.zero_add]

/-! ## Integers without zeros on top -/

/-- As many words of one number are the same. -/
theorem eq_of_toNat_eq (hlength : ks.length = ls.length) (h : ks.toNat = ls.toNat) : ks = ls := by
  have hbytes := congrArg (toBytes (8 * ks.length)) h
  have hall : ∀ ms : Limbs, toBytes (8 * ms.length) ms.toNat = ms.toByteList := fun ms => by
    rw [← Limbs.ofBytes_toByteList, ← Limbs.length_toByteList, toBytes_ofBytes]
  rw [hall, hlength, hall] at hbytes
  rw [← Limbs.ofByteList_toByteList ks, hbytes, Limbs.ofByteList_toByteList]

theorem eq_stored (hv : v.Proper) (hbits : v.bits = bits) (hlength : ls.length = wordsFor bits)
    (h : ls.toNat = v.toNat) : (⟨bits, ls⟩ : StoredInt) = v.stored := by
  subst hbits
  rw [WideInt.stored, eq_of_toNat_eq (hlength.trans hv.length_words.symm) (h.trans v.toNat_words.symm)]

/-- The words of a width hold it. -/
theorem two_pow_dvd (bits : Nat) : 2 ^ max bits 1 ∣ limbBase ^ wordsFor (max bits 1) := by
  rw [Limbs.limbBase_pow]
  exact pow_dvd_pow 2 (by unfold wordsFor; omega)

/-- Filled, written over and masked, the words are those of the low bits. -/
theorem ofWords_eq (bits : Nat) (words : Limbs) : ofWords bits words = some (WideInt.ofWords bits words).stored := by
  have hpos : 1 ≤ max bits 1 := Nat.le_max_right _ _
  obtain ⟨masked, hmasked, hlength, hnumber⟩ := clearUnused_eq hpos
    ((length_overwrite (List.replicate (wordsFor (max bits 1)) 0) words).trans List.length_replicate)
  rw [toNat_overwrite_zeros, Nat.mod_mod_of_dvd _ (two_pow_dvd bits)] at hnumber
  have hsame := eq_stored (WideInt.ofWords_proper bits words) rfl hlength (by rw [hnumber, WideInt.toNat_ofWords])
  rw [ofWords, hmasked, ← hsame]
  rfl

/-- The number of the words modulo the power of the width decides. -/
theorem ofWords_congr (h : ks.toNat % 2 ^ max bits 1 = ls.toNat % 2 ^ max bits 1) :
    WideInt.ofWords bits ks = WideInt.ofWords bits ls := by
  refine (WideInt.ofWords_proper bits ks).ext (WideInt.ofWords_proper bits ls) rfl ?_
  rw [WideInt.toNat_ofWords, WideInt.toNat_ofWords, h]

theorem ofWords_max (bits : Nat) (words : Limbs) : ofWords (max bits 1) words = ofWords bits words := by
  rw [ofWords, ofWords, Nat.max_eq_left (Nat.le_max_right bits 1)]

theorem signedWords?_one (value : Int) : signedWords? 1 value = some [UInt64.ofNat (value % limbBase).toNat] := rfl

theorem signedWords?_more (count : Nat) (value : Int) : signedWords? (count + 2) value =
    some (UInt64.ofNat (value % limbBase).toNat :: UInt64.ofNat (value / limbBase % limbBase).toNat ::
      List.replicate count (if value < 0 then UInt64.ofNat (limbBase - 1) else 0)) := by
  simp [signedWords?, setWord?, List.replicate_succ]

/-- The sign fills what is above the two low words, whether the width has such words or not. -/
theorem ofInt_eq (bits : Nat) (value : Int) : ofInt bits value = some (WideInt.ofInt bits value).stored := by
  have hcount : wordsFor (max bits 1) = (max bits 1 + 63) / 64 := rfl
  obtain hone | ⟨k, hk⟩ : wordsFor (max bits 1) = 1 ∨ ∃ k, wordsFor (max bits 1) = k + 2 := by
    by_cases h : wordsFor (max bits 1) = 1
    · exact .inl h
    · exact .inr ⟨wordsFor (max bits 1) - 2, by omega⟩
  · -- Only the low word counts, and the width ends in it.
    have hdvd : 2 ^ max bits 1 ∣ limbBase := pow_dvd_pow 2 (by omega)
    have hlow : ∀ (l : UInt64) (ls : Limbs), WideInt.ofWords bits (l :: ls) = WideInt.ofWords bits [l] := by
      refine fun l ls => ofWords_congr ?_
      rw [Limbs.toNat_cons, Limbs.toNat_cons, Nat.add_mod, Nat.mul_mod, Nat.mod_eq_zero_of_dvd hdvd]
      simp
    rw [ofInt, hone, signedWords?_one, Option.bind_eq_bind, Option.bind_some, ofWords_max, ofWords_eq, WideInt.ofInt,
      hlow _ (_ :: _)]
  · have hmax : max bits 1 = bits := by omega
    have hfill : wordsFor bits - 2 = k := by rw [← hmax, hk]; rfl
    rw [ofInt, hk, signedWords?_more, Option.bind_eq_bind, Option.bind_some, ofWords_max, ofWords_eq, WideInt.ofInt,
      hfill]
    refine congrArg (fun v => some (WideInt.stored v)) (ofWords_congr ?_)
    -- Zeros above the low words are there or not.
    split
    · rfl
    · simp

/-! ## Bytes -/

theorem ofBytes_append_zeros (bs : List UInt8) (k : Nat) : ofBytes (bs ++ List.replicate k 0) = ofBytes bs := by
  have hzeros : ofBytes (List.replicate k 0) = 0 := by
    induction k with
    | zero => rfl
    | succ k ih => simp [List.replicate_succ, ofBytes, ih]
  rw [ofBytes_append, hzeros, Nat.mul_zero, Nat.add_zero]

theorem paddedWords_eq (bytes : List UInt8) : paddedWords bytes = Limbs.ofByteList bytes := by
  induction bytes using paddedWords.induct with
  | case1 => rw [paddedWords, Limbs.ofByteList]
  | case2 b bytes ih =>
    rw [paddedWords, Limbs.ofByteList, ih, overwrite_replicate, ofBytes_append_zeros, List.take_take, Nat.min_self]

/-- Where all groups are whole, none is left out. -/
theorem wholeWords_eq (h : 8 ∣ bytes.length) : wholeWords bytes = Limbs.ofByteList bytes := by
  induction bytes using wholeWords.induct with
  | case1 bytes hle ih =>
    obtain ⟨b, rest, rfl⟩ : ∃ b rest, bytes = b :: rest := List.exists_cons_of_length_pos (by omega)
    rw [wholeWords, if_pos hle, Limbs.ofByteList, ih ((List.length_drop ..) ▸ Nat.dvd_sub h (Nat.dvd_refl 8))]
    rfl
  | case2 bytes hlt =>
    obtain rfl : bytes = [] := List.eq_nil_of_length_eq_zero (by omega)
    rw [wholeWords, Limbs.ofByteList]
    rfl

theorem readInteger_eq (h : 8 ∣ bytes.length) :
    readInteger bits bytes = some (WideInt.ofWords bits (Limbs.ofByteList bytes)).stored := by
  rw [readInteger, wholeWords_eq h, ofWords_eq]
  refine congrArg (fun v => some (WideInt.stored v)) (ofWords_congr ?_)
  rw [Limbs.toNat_take, Nat.mod_mod_of_dvd _ (two_pow_dvd bits)]

/-- The bytes of the words are those that the width has, and more. -/
theorem swapBytes_eq (hv : v.Proper) : swapBytes v.stored = some v.swapBytes.stored := by
  have hle : v.bits / 8 ≤ (v.words.toByteList.take ((v.bits + 7) / 8)).length := by
    rw [List.length_take, Limbs.length_toByteList, hv.length_words, wordsFor]
    omega
  refine (if_pos hle).trans ?_
  rw [paddedWords_eq, ofWords_eq]
  rfl

/-- The word of the sign is there. -/
theorem isNegative_eq (hv : v.Proper) : isNegative v.stored = some v.isNegative := by
  have hpos := hv.bits_pos
  obtain ⟨word, hword⟩ : ∃ word, v.words[(v.bits - 1) / 64]? = some word := by
    refine ⟨_, List.getElem?_eq_getElem ?_⟩
    rw [hv.length_words, wordsFor]
    omega
  have hbit : Limbs.Machine.bit (v.bits - 1) v.words = some v.isNegative := by
    rw [Limbs.Machine.bit_eq, Limbs.bit_eq, v.toNat_words, WideInt.isNegative, Limbs.bit_eq]
    rfl
  rw [← hbit, Limbs.Machine.bit, isNegative]
  dsimp only [WideInt.stored]
  rw [sub?, if_pos hpos, Option.bind_eq_bind, Option.bind_some, hword, Option.bind_eq_bind, Option.bind_some]
  dsimp only
  cases shr? word ((v.bits - 1) % 64) <;> rfl

end StoredInt
end Cognate
