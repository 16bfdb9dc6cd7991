import Cognate.Proofs.Number.WordProducts
import Cognate.Proofs.Raw.Integers
import Cognate.Proofs.Text.Radix

/-!
# Numerals of limbs

The text of limbs, and that of an integer of a width, is the canonical numeral of the number (`numerals_canonical`). For
decimal text the words are divided by a chunk of nineteen digits in place, as long as there are any: `Machine.Prints`
tells the text that this comes to an end with. In hexadecimal text every word but the top one has sixteen digits.
-/

namespace Cognate

namespace Limbs

variable {ks ls : Limbs}

namespace Machine

/-- The loop that divides by a chunk as long as there are words leaves these remainders, the first one first. Where a
step stops, or the loop does not come to an end, there are none. -/
inductive Divides : Limbs → List UInt64 → Prop
  | done : Divides [] []
  | round {work quotient : Limbs} {remainder : UInt64} {rest : List UInt64} (hne : work ≠ [])
      (hstep : divMod decimalChunk work = some (quotient, remainder)) (hrest : Divides (trim quotient) rest) :
      Divides work (remainder :: rest)

/-- The digits of the chunks, from the top one down: that one as it is, the others in nineteen digits. -/
def join : List UInt64 → List Char
  | [] => []
  | top :: rest => Nat.toDigits 10 top.toNat ++ rest.flatMap fun chunk => padZeros 19 (Nat.toDigits 10 chunk.toNat)

/-- `toDecimal`, step by step, comes to an end with this text. -/
inductive Prints (ls : Limbs) : String → Prop
  | zero (hzero : trim ls = []) : Prints ls "0"
  | chunks {cs : List UInt64} (hne : trim ls ≠ []) (hcs : Divides (trim ls) cs) :
      Prints ls (String.ofList (join cs.reverse))

end Machine

/-! ## Decimal text -/

/-- Zeros on top change nothing about the chunks. -/
theorem chunks_congr (h : ks.toNat = ls.toNat) : chunks ks = chunks ls := by
  have hpos : 0 < decimalChunk.toNat := by decide
  obtain ⟨hkq, hkr⟩ := divMod_spec decimalChunk ks hpos
  obtain ⟨hlq, hlr⟩ := divMod_spec decimalChunk ls hpos
  have hquotient : trim (divMod decimalChunk ks).1 = trim (divMod decimalChunk ls).1 :=
    trim_congr (by rw [hkq, hlq, h])
  rw [chunks, chunks]
  simp only [h, hkr, hlr, hquotient]

theorem Trimmed.eq_nil_iff (h : Trimmed ls) : ls = [] ↔ ls.toNat = 0 := by
  rw [← trim_eq_nil, h]

/-- The loop comes to an end. By induction along the chunks, as the number of the words gets smaller with each. -/
theorem Machine.exists_divides (h : Trimmed ls) :
    ∃ cs, Machine.Divides ls cs ∧ cs.map UInt64.toNat = Limbs.chunks ls := by
  have hpos : 0 < decimalChunk.toNat := by decide
  fun_induction Limbs.chunks ls with
  | case1 ls hz =>
    rw [h.eq_nil_iff.2 hz]
    exact ⟨[], .done, rfl⟩
  | case2 ls hz step ih =>
    obtain ⟨cs, hcs, hmap⟩ := ih (trimmed_trim _)
    have hstep : Machine.divMod decimalChunk ls = some (step.1, UInt64.ofNat step.2) := Machine.divMod_eq hpos ls
    have hlt : step.2 < limbBase := (toNat_divMod_chunk ls).2.trans (by decide)
    refine ⟨UInt64.ofNat step.2 :: cs, .round (mt h.eq_nil_iff.1 hz) hstep ?_, ?_⟩
    · rwa [Machine.trim_eq]
    · rw [List.map_cons, toNat_ofNat_of_lt hlt, hmap]

theorem Machine.Divides.unique {cs ds : List UInt64} (hcs : Machine.Divides ls cs) (hds : Machine.Divides ls ds) :
    cs = ds := by
  induction hcs generalizing ds with
  | done =>
    cases hds with
    | done => rfl
    | round hne => exact absurd rfl hne
  | round hne hstep _ ih =>
    cases hds with
    | done => exact absurd rfl hne
    | round _ hstep' hrest' =>
      rw [hstep] at hstep'
      cases hstep'
      rw [ih hrest']

/-- The digits of the chunks, joined, are those of the number. -/
theorem Machine.join_eq {cs : List UInt64} (h : cs.map UInt64.toNat = Limbs.chunks ls) (hz : ls.toNat ≠ 0) :
    Machine.join cs.reverse = Nat.toDigits 10 ls.toNat := by
  obtain ⟨top, rest, hchunks, hdigits⟩ := chunks_digits hz
  rw [← h, ← List.map_reverse, List.map_eq_cons_iff] at hchunks
  obtain ⟨top', rest', hreverse, rfl, rfl⟩ := hchunks
  rw [hreverse, Machine.join, ← hdigits, List.flatMap_map]

theorem Machine.prints_iff (ls : Limbs) (text : String) : Machine.Prints ls text ↔ text = ls.toDecimal := by
  obtain ⟨cs, hcs, hmap⟩ := Machine.exists_divides (trimmed_trim ls)
  rw [chunks_congr (toNat_trim ls)] at hmap
  have htrim := Machine.trim_eq ls
  rw [← htrim] at hcs
  by_cases hz : ls.toNat = 0
  · have hnil : Machine.trim ls = [] := htrim.trans (trim_eq_nil.2 hz)
    have htext : ls.toDecimal = "0" := by rw [Limbs.toDecimal, Limbs.chunks, if_pos hz, List.reverse_nil]
    rw [htext]
    constructor
    · rintro (_ | ⟨hne, -⟩)
      · rfl
      · exact absurd hnil hne
    · rintro rfl
      exact .zero hnil
  · have hne : Machine.trim ls ≠ [] := fun hnil => hz (trim_eq_nil.1 (htrim.symm.trans hnil))
    have htext : ls.toDecimal = String.ofList (Machine.join cs.reverse) := by
      apply String.toList_injective
      rw [toList_toDecimal, String.toList_ofList, Machine.join_eq hmap hz]
    rw [htext]
    constructor
    · rintro (hnil | ⟨-, hds⟩)
      · exact absurd hnil hne
      · rw [hds.unique hcs]
    · rintro rfl
      exact .chunks hne hcs

theorem toDecimal_congr (h : ks.toNat = ls.toNat) : ks.toDecimal = ls.toDecimal := by
  rw [Limbs.toDecimal, Limbs.toDecimal, chunks_congr h]

theorem canonical_toDecimal (ls : Limbs) (cs : List Char) :
    Text.Canonical 10 ls.toNat cs ↔ cs = ls.toDecimal.toList := by
  rw [Text.canonical_iff (by decide) (by decide), toList_toDecimal]

/-! ## Hexadecimal text -/

/-- The digits of a number above some words, and those of the words below it. By induction from the top word down. -/
theorem toDigits_append_words {q : Nat} (h : 0 < q) (ls : Limbs) :
    Nat.toDigits 16 q ++ ls.reverse.flatMap (fun l => padZeros 16 (Nat.toDigits 16 l.toNat)) =
      Nat.toDigits 16 (ls.toNat + limbBase ^ ls.length * q) := by
  induction ls using List.reverseRecOn generalizing q with
  | nil => simp
  | append_singleton ls l ih =>
    have hword : Nat.toDigits 16 q ++ padZeros 16 (Nat.toDigits 16 l.toNat) =
        Nat.toDigits 16 (limbBase * q + l.toNat) :=
      toDigits_append_padZeros (by decide) (by decide) h l.toNat_lt
    have hpos : 0 < limbBase * q + l.toNat := Nat.add_pos_left (Nat.mul_pos limbBase_pos h) _
    rw [List.reverse_append, List.reverse_singleton, List.singleton_append, List.flatMap_cons, ← List.append_assoc,
      hword, ih hpos, toNat_append, toNat_cons, toNat_nil, List.length_append, List.length_singleton]
    congr 1
    ring

end Limbs

namespace WideInt

open Limbs

theorem hexDigits_reverse (ls : Limbs) : hexDigits ls.reverse = Nat.toDigits 16 ls.toNat := by
  induction ls using List.reverseRecOn with
  | nil => rfl
  | append_singleton ls l ih =>
    rw [List.reverse_append, List.reverse_singleton, List.singleton_append, hexDigits, toNat_append, toNat_cons,
      toNat_nil, Nat.mul_zero, Nat.add_zero]
    split
    · next hz => rw [ih, hz, UInt64.toNat_zero, Nat.mul_zero, Nat.add_zero]
    · next hne =>
      exact toDigits_append_words (Nat.pos_of_ne_zero fun hz => hne (UInt64.toNat_inj.1 hz)) ls

theorem toList_toHex (v : WideInt) : v.toHex.toList = Nat.toDigits 16 v.toNat := by
  rw [toHex, String.toList_ofList, hexDigits_reverse]
  rfl

/-! ## Numerals -/

/-- Decimal text of limbs is made without a step that stops, in a loop that comes to an end, and it is the canonical
numeral of the number, whatever zeros stand on top. So it is for integers of any width, read off all their words, and so
is their hexadecimal text. Integers of one width that have one decimal text are the same. -/
theorem numerals_canonical :
    (∀ ls : Limbs, (∀ text, Machine.Prints ls text ↔ text = ls.toDecimal) ∧
      (∀ cs, Text.Canonical 10 ls.toNat cs ↔ cs = ls.toDecimal.toList) ∧
      ∀ zeros, (ls ++ List.replicate zeros 0).toDecimal = ls.toDecimal) ∧
    (∀ v : WideInt, (∀ text, Machine.Prints v.words text ↔ text = v.toDecimal) ∧
      (∀ cs, Text.Canonical 10 (Limbs.toNat v.words) cs ↔ cs = v.toDecimal.toList) ∧
      hexDigits v.words.reverse = v.toHex.toList ∧
      ∀ cs, Text.Canonical 16 (Limbs.toNat v.words) cs ↔ cs = v.toHex.toList) ∧
    ∀ v w bits bits' n n', Made v bits n → Made w bits' n' → v.bits = w.bits →
      v.toDecimal = w.toDecimal → v = w := by
  have hzeros : ∀ ls : Limbs, ∀ zeros, (ls ++ List.replicate zeros 0).toDecimal = ls.toDecimal :=
    fun ls zeros => toDecimal_congr (by simp [toNat_append])
  refine ⟨fun ls => ⟨Machine.prints_iff ls, canonical_toDecimal ls, hzeros ls⟩, fun v => ⟨?_, ?_, ?_, ?_⟩, ?_⟩
  · intro text
    rw [Machine.prints_iff, words, hzeros]
    rfl
  · rw [toNat_words]
    exact canonical_toDecimal v.significant
  · rw [hexDigits_reverse, toNat_words, toList_toHex]
  · intro cs
    rw [toNat_words, Text.canonical_iff (by decide) (by decide), toList_toHex]
  · intro v w bits bits' n n' hv hw hbits htext
    have hnumber := (canonical_toDecimal v.significant _).2 rfl
    rw [show v.significant.toDecimal = w.significant.toDecimal from htext] at hnumber
    have heq := hnumber.writes.unique (by decide) ((canonical_toDecimal w.significant _).2 rfl).writes
    exact hv.proper.ext hw.proper hbits heq

/-- A number of a chunk and a small one: the zeros between them stand in the text. -/
theorem numerals_canonical_chunk :
    Made (ofWords 128 [10000000000000000005]) 128 10000000000000000005 ∧
      Made (ofInt 128 10000000000000000005) 128 10000000000000000005 ∧
      (ofWords 128 [10000000000000000005]).toDecimal = "10000000000000000005" ∧
      (ofWords 128 [10000000000000000005]).toHex = "8ac7230489e80005" ∧
      ofWords 128 [10000000000000000005] = ofInt 128 10000000000000000005 := by
  obtain ⟨-, htexts, hinjective⟩ := numerals_canonical
  have hword : Made (ofWords 128 [10000000000000000005]) 128 10000000000000000005 := .words 128 [10000000000000000005]
  have hint : Made (ofInt 128 10000000000000000005) 128 10000000000000000005 := .int 128 (by decide) (by decide)
  have htext : ∀ v : WideInt, Limbs.toNat v.words = 10000000000000000005 →
      v.toDecimal = "10000000000000000005" ∧ v.toHex = "8ac7230489e80005" := by
    intro v hv
    obtain ⟨-, hdecimal, -, hhex⟩ := htexts v
    have hten := (Text.canonical_iff (by decide) (by decide)).1 ((hdecimal _).2 rfl)
    have hsixteen := (Text.canonical_iff (by decide) (by decide)).1 ((hhex _).2 rfl)
    rw [hv] at hten hsixteen
    refine ⟨String.toList_injective ?_, String.toList_injective ?_⟩
    · exact hten.trans (by decide +kernel)
    · exact hsixteen.trans (by decide +kernel)
  obtain ⟨hdecimal, hhex⟩ := htext (ofWords 128 [10000000000000000005]) (by decide +kernel)
  obtain ⟨hdecimal', -⟩ := htext (ofInt 128 10000000000000000005) (by decide +kernel)
  exact ⟨hword, hint, hdecimal, hhex, hinjective _ _ _ _ _ _ hword hint rfl (hdecimal.trans hdecimal'.symm)⟩

end WideInt
end Cognate
