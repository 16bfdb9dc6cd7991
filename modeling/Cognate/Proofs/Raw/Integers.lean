import Cognate.Proofs.Number.StoredWords
import Cognate.Proofs.Raw.Streams

/-!
# Integers as they are made

Every way to make an integer of a width, with the width and the number it is made of: from words, from a number with a
sign, from the bytes of a trace, and by reversing the bytes of another one; once as it is kept without zeros on top, and
once as it is stored, step by step. Both come to the same (`StoredInt.made_iff`). However it was made, an integer has as
many words as its width needs, no bits above the width, and its number modulo the power of the width
(`StoredInt.Made.standsFor`), so that nothing else than width and number tells two of them apart.
-/

namespace Cognate

namespace WideInt

open Limbs

variable {v w : WideInt} {bits taken : Nat} {n : Int} {bytes : List UInt8}

/-- The number with its whole bytes in reverse order, and what is left of its top byte where it was. -/
def swappedNumber (bits n : Nat) : Nat :=
  ofBytes ((toBytes (bits / 8) n).reverse ++ (toBytes ((bits + 7) / 8) n).drop (bits / 8))

/-- The integer is made to be so many bits wide, and of that number. -/
inductive Made : WideInt → Nat → Int → Prop
  | word (bits : Nat) (word : UInt64) : Made (ofWord bits word) bits word.toNat
  | words (bits : Nat) (words : Limbs) : Made (ofWords bits words) bits (Limbs.toNat words)
  | int (bits : Nat) {n : Int} (hlow : -2 ^ 127 ≤ n) (hhigh : n < 2 ^ 127) : Made (ofInt bits n) bits n
  | read {bits taken : Nat} {bytes : List UInt8} {v : WideInt}
      (h : RawValue.read (.int bits) bytes = .ok (.int v, taken)) : Made v bits (ofBytes (bytes.take taken))
  | swapBytes {bits : Nat} {n : Int} {v : WideInt} (hv : Made v bits n) :
      Made v.swapBytes bits (swappedNumber v.bits v.toNat)

/-! ## Bytes -/

/-- An integer is read wherever its bytes are all there, and it is made of the words of these bytes. -/
theorem read_int (bits : Nat) (h : 8 * wordsFor (max bits 1) ≤ bytes.length) :
    RawValue.read (.int bits) bytes = .ok (.int (ofWords bits (ofByteList (bytes.take (8 * wordsFor (max bits 1))))),
      8 * wordsFor (max bits 1)) := by
  simp only [RawValue.read, RawType.encodedSize?, if_neg (Nat.not_lt.2 h), RawValue.ofEncoding]

theorem eq_ofWords_of_read (h : RawValue.read (.int bits) bytes = .ok (.int v, taken)) :
    v = ofWords bits (ofByteList (bytes.take taken)) := by
  obtain ⟨-, -, hvalue⟩ := RawValue.read_eq_ok h
  cases hvalue
  rfl

/-- The low bytes of the words are those of the number. -/
theorem Proper.take_toByteList (hv : v.Proper) {k : Nat} (hk : k ≤ 8 * wordsFor v.bits) :
    v.words.toByteList.take k = toBytes k v.toNat := by
  have hlength : v.words.toByteList.length = 8 * wordsFor v.bits := by rw [length_toByteList, hv.length_words]
  conv => lhs; rw [← toBytes_ofBytes v.words.toByteList, ofBytes_toByteList, WideInt.toNat_words, take_toBytes]
  rw [hlength, Nat.min_eq_left hk]

theorem Proper.swapBytes_eq (hv : v.Proper) : ∃ words, v.swapBytes = ofWords v.bits words ∧
    Limbs.toNat words = swappedNumber v.bits v.toNat := by
  have hk : (v.bits + 7) / 8 ≤ 8 * wordsFor v.bits := by
    unfold wordsFor
    omega
  have hwhole : v.bits / 8 ≤ (v.bits + 7) / 8 := by omega
  refine ⟨_, rfl, ?_⟩
  rw [toNat_ofByteList, hv.take_toByteList hk, take_toBytes, Nat.min_eq_left hwhole]
  rfl

/-! ## Every way to make one -/

theorem Made.proper (hv : Made v bits n) : v.Proper := by
  cases hv with
  | word | words | int | swapBytes => exact ofWords_proper _ _
  | read h => exact eq_ofWords_of_read h ▸ ofWords_proper _ _

theorem Made.bits_eq (hv : Made v bits n) : v.bits = max bits 1 := by
  induction hv with
  | word | words | int => rfl
  | read h => rw [eq_ofWords_of_read h, bits_ofWords]
  | swapBytes hv ih =>
    obtain ⟨words, hswap, -⟩ := hv.proper.swapBytes_eq
    rw [hswap, bits_ofWords, ih]
    omega

/-- However the integer was made, its number is that it was made of. -/
theorem Made.toNat_eq (hv : Made v bits n) : (v.toNat : Int) = n % 2 ^ max bits 1 := by
  have hwords : ∀ bits words, ((ofWords bits words).toNat : Int) = (Limbs.toNat words : Int) % 2 ^ max bits 1 := by
    intro bits words
    rw [toNat_ofWords]
    push_cast
    rfl
  cases hv with
  | word => exact hwords _ [_]
  | words => exact hwords _ _
  | int _ hlow hhigh => exact toNat_ofInt_emod hlow hhigh
  | read h => rw [eq_ofWords_of_read h, ← toNat_ofByteList, hwords]
  | swapBytes hv =>
    obtain ⟨words, hswap, hnumber⟩ := hv.proper.swapBytes_eq
    rw [hswap, hwords, ← hnumber, hv.bits_eq, Nat.max_eq_left (Nat.le_max_right _ _)]

end WideInt

namespace StoredInt

open Limbs WideInt

variable {v w : StoredInt} {bits : Nat} {n : Int} {bytes : List UInt8}

/-- The steps come to an integer that is made to be so many bits wide, and of that number. -/
inductive Made : StoredInt → Nat → Int → Prop
  | word {v : StoredInt} {bits : Nat} {word : UInt64} (h : ofWord bits word = some v) : Made v bits word.toNat
  | words {v : StoredInt} {bits : Nat} {words : Limbs} (h : ofWords bits words = some v) :
      Made v bits (Limbs.toNat words)
  | int {v : StoredInt} {bits : Nat} {n : Int} (hlow : -2 ^ 127 ≤ n) (hhigh : n < 2 ^ 127)
      (h : ofInt bits n = some v) : Made v bits n
  | read {v : StoredInt} {bits : Nat} {bytes : List UInt8} (hlength : bytes.length = 8 * wordsFor (max bits 1))
      (h : readInteger bits bytes = some v) : Made v bits (ofBytes bytes)
  | swapBytes {v w : StoredInt} {bits : Nat} {n : Int} (hv : Made v bits n) (h : v.swapBytes = some w) :
      Made w bits (swappedNumber v.bits (Limbs.toNat v.words))

/-- The integer has a width, at least one, and the number modulo its power; the words are as many as the width needs,
no bit above the width is set, and the sign is that of the upper half of the numbers. -/
structure StandsFor (v : StoredInt) (bits : Nat) (n : Int) : Prop where
  bits_eq : v.bits = max bits 1
  length_words : v.words.length = (v.bits + 63) / 64
  bit_words : ∀ i, v.bits ≤ i → v.words.bit i = false
  toNat_words : (Limbs.toNat v.words : Int) = n % 2 ^ v.bits
  isNegative_eq : v.isNegative = some (decide (2 ^ (v.bits - 1) ≤ Limbs.toNat v.words))

/-- The steps make exactly the integers that are kept without zeros on top, with all their words. -/
theorem made_iff : Made v bits n ↔ ∃ k : WideInt, k.Made bits n ∧ k.stored = v := by
  constructor
  · intro hv
    induction hv with
    | word h => exact ⟨_, .word _ _, Option.some.inj ((ofWords_eq _ _).symm.trans h)⟩
    | words h => exact ⟨_, .words _ _, Option.some.inj ((ofWords_eq _ _).symm.trans h)⟩
    | int hlow hhigh h => exact ⟨_, .int _ hlow hhigh, Option.some.inj ((ofInt_eq _ _).symm.trans h)⟩
    | @read v bits bytes hlength h =>
      have hread : RawValue.read (.int bits) bytes =
          .ok (.int (WideInt.ofWords bits (ofByteList bytes)), bytes.length) := by
        rw [read_int bits hlength.ge, ← hlength, List.take_length]
      have hmade := WideInt.Made.read hread
      rw [List.take_length] at hmade
      exact ⟨_, hmade, Option.some.inj ((readInteger_eq (hlength ▸ Nat.dvd_mul_right 8 _)).symm.trans h)⟩
    | swapBytes _ h ih =>
      obtain ⟨k, hk, rfl⟩ := ih
      refine ⟨k.swapBytes, ?_, Option.some.inj ((swapBytes_eq hk.proper).symm.trans h)⟩
      rw [WideInt.stored, WideInt.toNat_words]
      exact .swapBytes hk
  · rintro ⟨k, hk, rfl⟩
    induction hk with
    | word bits word => exact .word (ofWords_eq _ _)
    | words bits words => exact .words (ofWords_eq _ _)
    | int bits hlow hhigh => exact .int hlow hhigh (ofInt_eq _ _)
    | @read bits taken bytes k h =>
      obtain ⟨hsize, hle, -⟩ := RawValue.read_eq_ok h
      have hlength : (bytes.take taken).length = 8 * wordsFor (max bits 1) := by
        rw [List.length_take_of_le hle]
        exact (Option.some.inj hsize).symm
      refine .read hlength ?_
      rw [eq_ofWords_of_read h]
      exact readInteger_eq (hlength ▸ Nat.dvd_mul_right 8 _)
    | @swapBytes bits n k hk ih =>
      have hnumber : Limbs.toNat k.stored.words = k.toNat := k.toNat_words
      have hmade := ih.swapBytes (swapBytes_eq hk.proper)
      rwa [hnumber] at hmade

theorem Made.standsFor (hv : Made v bits n) : v.StandsFor bits n := by
  obtain ⟨k, hk, rfl⟩ := made_iff.1 hv
  have hproper := hk.proper
  refine ⟨hk.bits_eq, hproper.length_words, fun i hi => ?_, ?_, ?_⟩
  · rw [WideInt.stored, bit_eq, WideInt.toNat_words]
    exact Nat.testBit_lt_two_pow (hproper.toNat_lt.trans_le (Nat.pow_le_pow_right (by omega) hi))
  · rw [WideInt.stored, WideInt.toNat_words, hk.toNat_eq, hk.bits_eq]
  · rw [isNegative_eq hproper, WideInt.stored, WideInt.toNat_words]
    exact congrArg some (Bool.eq_iff_iff.2 (hproper.isNegative_iff.trans decide_eq_true_iff.symm))

/-- The steps that make an integer of any width, in any way, do not stop. The integer has as many words as the width
needs, no bits above it, its number modulo the power of the width, and the sign of the upper half. Two of them are the
same exactly if width and number are. They are those that are kept without zeros on top, with all their words; one is
read wherever its bytes are all there. -/
theorem made_determined :
    ((∀ bits word, ∃ v, ofWord bits word = some v) ∧ (∀ bits words, ∃ v, ofWords bits words = some v) ∧
      (∀ bits n, ∃ v, ofInt bits n = some v) ∧
      (∀ bits bytes, bytes.length = 8 * wordsFor (max bits 1) → ∃ v, readInteger bits bytes = some v) ∧
      ∀ v bits n, Made v bits n → ∃ w, v.swapBytes = some w) ∧
    (∀ v bits n, Made v bits n → v.StandsFor bits n) ∧
    (∀ v w bits bits' n n', Made v bits n → Made w bits' n' →
      (v = w ↔ v.bits = w.bits ∧ Limbs.toNat v.words = Limbs.toNat w.words)) ∧
    (∀ v bits n, Made v bits n ↔ ∃ k : WideInt, k.Made bits n ∧ k.stored = v) ∧
    ∀ bits bytes, 8 * wordsFor (max bits 1) ≤ bytes.length →
      ∃ k : WideInt, RawValue.read (.int bits) bytes = .ok (.int k, 8 * wordsFor (max bits 1)) := by
  refine ⟨⟨fun bits word => ⟨_, ofWords_eq bits [word]⟩, fun bits words => ⟨_, ofWords_eq bits words⟩,
    fun bits n => ⟨_, ofInt_eq bits n⟩, fun bits bytes h => ⟨_, readInteger_eq (h ▸ Nat.dvd_mul_right 8 _)⟩, ?_⟩,
    fun v bits n hv => hv.standsFor, ?_, fun v bits n => made_iff, fun bits bytes h => ⟨_, read_int bits h⟩⟩
  · intro v bits n hv
    obtain ⟨k, hk, rfl⟩ := made_iff.1 hv
    exact ⟨_, swapBytes_eq hk.proper⟩
  · intro v w bits bits' n n' hv hw
    refine ⟨fun h => h ▸ ⟨rfl, rfl⟩, fun ⟨hbits, hnumber⟩ => ?_⟩
    have hlength : v.words.length = w.words.length := by
      rw [hv.standsFor.length_words, hw.standsFor.length_words, hbits]
    obtain ⟨bits, words⟩ := v
    obtain ⟨bits', words'⟩ := w
    cases hbits
    exact congrArg (StoredInt.mk bits) (eq_of_toNat_eq hlength hnumber)

/-- Two words of bytes with all bits set, read 65 bits wide, are the number -1 of this width: the sign alone stands in
the word on top, and what is above it is gone. -/
theorem made_determined_65 :
    ∃ v w, ofInt 65 (-1) = some v ∧ readInteger 65 (List.replicate 16 0xFF) = some w ∧ v = w ∧
      v.words = [0xFFFFFFFFFFFFFFFF, 1] ∧ v.isNegative = some true := by
  obtain ⟨⟨-, -, hint, hread, -⟩, hstands, heq, -⟩ := made_determined
  obtain ⟨v, hv⟩ := hint 65 (-1)
  obtain ⟨w, hw⟩ := hread 65 (List.replicate 16 0xFF) (by decide)
  have hmade : Made v 65 (-1) := .int (by decide) (by decide) hv
  have hmade' : Made w 65 (ofBytes (List.replicate 16 0xFF)) := .read (by decide) hw
  have hv' := hstands _ _ _ hmade
  have hw' := hstands _ _ _ hmade'
  have hsame : v = w := by
    refine (heq _ _ _ _ _ _ hmade hmade').2 ⟨hv'.bits_eq.trans hw'.bits_eq.symm, ?_⟩
    rw [← Int.ofNat_inj, hv'.toNat_words, hw'.toNat_words, hv'.bits_eq, hw'.bits_eq]
    decide
  have hwords : v = ⟨65, [0xFFFFFFFFFFFFFFFF, 1]⟩ := Option.some.inj (hv.symm.trans (by decide +kernel))
  refine ⟨v, w, hv, hw, hsame, by rw [hwords], ?_⟩
  rw [hv'.isNegative_eq, hwords]
  decide +kernel

end StoredInt
end Cognate
