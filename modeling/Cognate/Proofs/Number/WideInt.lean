import Cognate.Proofs.Number.Shifts

/-!
# Integers of a width

The integers that are ever made: at least one bit wide, of a number that fits the width, without zeros on top of their
words. Width and number determine such an integer (`Proper.ext`), and its words and bytes give it back. A number in the
range of a width, with a sign or without one, is read back as it was stored (`toInt_ofInt`).
-/

namespace Cognate.WideInt

open Limbs

variable {v w : WideInt} {bits : Nat} {n : Int}

/-- An integer as the operations make them. -/
structure Proper (v : WideInt) : Prop where
  bits_pos : 1 ≤ v.bits
  trimmed : Trimmed v.significant
  toNat_lt : v.toNat < 2 ^ v.bits

theorem Proper.ext (hv : v.Proper) (hw : w.Proper) (hbits : v.bits = w.bits) (h : v.toNat = w.toNat) : v = w := by
  obtain ⟨bits, significant⟩ := v
  obtain ⟨bits', significant'⟩ := w
  cases hbits
  exact congrArg (WideInt.mk bits) (hv.trimmed.eq hw.trimmed h)

theorem bits_ofWords (bits : Nat) (words : Limbs) : (ofWords bits words).bits = max bits 1 := rfl

theorem toNat_ofWords (bits : Nat) (words : Limbs) :
    (ofWords bits words).toNat = Limbs.toNat words % 2 ^ max bits 1 :=
  toNat_lowBits _ _

theorem ofWords_proper (bits : Nat) (words : Limbs) : (ofWords bits words).Proper := by
  refine ⟨Nat.le_max_right _ _, trimmed_lowBits _ _, ?_⟩
  rw [toNat_ofWords, bits_ofWords]
  exact Nat.mod_lt _ (Nat.two_pow_pos _)

/-- The words that are filled up with zeros stand for the same number. -/
theorem toNat_words (v : WideInt) : Limbs.toNat v.words = v.toNat := by
  rw [words, toNat_append, toNat_replicate_zero, Nat.mul_zero, Nat.add_zero]
  rfl

theorem Proper.length_words (hv : v.Proper) : v.words.length = wordsFor v.bits := by
  have hlt : Limbs.toNat v.significant < limbBase ^ wordsFor v.bits := by
    refine hv.toNat_lt.trans_le ?_
    rw [limbBase_pow]
    exact Nat.pow_le_pow_right (by omega) (by unfold wordsFor; omega)
  have hle := hv.trimmed.length_le hlt
  rw [words, List.length_append, List.length_replicate]
  omega

/-- An integer is made of its words again, also where no width stands for one bit. -/
theorem Proper.ofWords_words (hv : v.Proper) (h : v.bits = max bits 1) : ofWords bits v.words = v := by
  refine (ofWords_proper _ _).ext hv h.symm ?_
  rw [toNat_ofWords, toNat_words, ← h]
  exact Nat.mod_eq_of_lt hv.toNat_lt

/-! ## Signed numbers -/

/-- The number read as one with a sign in the highest bit, or as one without a sign. -/
def toInt (isSigned : Bool) (v : WideInt) : Int :=
  if isSigned && v.isNegative then v.toNat - 2 ^ v.bits else v.toNat

/-- So many bits hold the number, one of them its sign if there is one. -/
def Holds (isSigned : Bool) (bits : Nat) (n : Int) : Prop :=
  if isSigned then -2 ^ (bits - 1) ≤ n ∧ n < 2 ^ (bits - 1) else 0 ≤ n ∧ n < 2 ^ bits

theorem bits_ofInt (h : 1 ≤ bits) (n : Int) : (ofInt bits n).bits = bits := by
  rw [ofInt, bits_ofWords, Nat.max_eq_left h]

/-- Up to 128 bits wide, it is made of two words that hold all bits of the number. -/
theorem toNat_ofInt (hpos : 1 ≤ bits) (hle : bits ≤ 128) (n : Int) : ((ofInt bits n).toNat : Int) = n % 2 ^ bits := by
  have hfill : wordsFor bits - 2 = 0 := by unfold wordsFor; omega
  have hwords : (Limbs.toNat [UInt64.ofNat (n % limbBase).toNat, UInt64.ofNat (n / limbBase % limbBase).toNat] : Int) =
      n % 2 ^ 128 := by
    simp only [Limbs.toNat, UInt64.toNat_ofNat', limbBase_eq]
    omega
  rw [ofInt, hfill, List.replicate_zero, ite_self, toNat_ofWords, Nat.max_eq_left hpos]
  push_cast
  rw [hwords]
  exact Int.emod_emod_of_dvd n (pow_dvd_pow 2 hle)

/-- The two's complement of a number of 128 bits with a sign, in any width: in a wider one the sign fills what is above
them, and the words stand for the number or for the number and a power beyond the width. -/
theorem toNat_ofInt_emod (hlow : -2 ^ 127 ≤ n) (hhigh : n < 2 ^ 127) :
    ((ofInt bits n).toNat : Int) = n % 2 ^ max bits 1 := by
  generalize hfill : (if n < 0 then List.replicate (wordsFor bits - 2) (UInt64.ofNat (limbBase - 1)) else [] : Limbs) =
    fill
  have hwords : (Limbs.toNat (UInt64.ofNat (n % limbBase).toNat :: UInt64.ofNat (n / limbBase % limbBase).toNat ::
      fill) : Int) = n % 2 ^ 128 + 2 ^ 128 * Limbs.toNat fill := by
    simp only [Limbs.toNat, UInt64.toNat_ofNat', limbBase_eq]
    omega
  rw [ofInt, hfill, toNat_ofWords]
  push_cast
  rw [hwords]
  rcases Int.lt_or_le n 0 with hneg | hpos
  · have hmax := congrArg (Nat.cast (R := Int)) (toNat_replicate_max (wordsFor bits - 2))
    have hmod : n % 2 ^ 128 = n + 2 ^ 128 := by omega
    have hle : max bits 1 ≤ 128 + 64 * (wordsFor bits - 2) := by
      unfold wordsFor
      omega
    rw [if_pos hneg] at hfill
    rw [hfill, limbBase_pow] at hmax
    push_cast at hmax
    calc (n % 2 ^ 128 + 2 ^ 128 * (Limbs.toNat fill : Int)) % 2 ^ max bits 1
      _ = (n + 2 ^ 128 * ((Limbs.toNat fill : Int) + 1)) % 2 ^ max bits 1 := by rw [hmod]; ring_nf
      _ = (n + 2 ^ max bits 1 * 2 ^ (128 + 64 * (wordsFor bits - 2) - max bits 1)) % 2 ^ max bits 1 := by
        rw [hmax, ← pow_add, ← pow_add, Nat.add_sub_cancel' hle]
      _ = n % 2 ^ max bits 1 := Int.add_mul_emod_self_left _ _ _
  · rw [if_neg (by omega)] at hfill
    rw [← hfill, Limbs.toNat_nil, Int.natCast_zero, Int.mul_zero, Int.add_zero, Int.emod_eq_of_lt hpos (by omega)]

/-- The sign is set exactly in the upper half of the numbers of a width. -/
theorem Proper.isNegative_iff (hv : v.Proper) : v.isNegative = true ↔ 2 ^ (v.bits - 1) ≤ v.toNat := by
  have hlt : v.toNat < 2 ^ (v.bits - 1 + 1) := Nat.sub_add_cancel hv.bits_pos ▸ hv.toNat_lt
  rw [isNegative, bit_eq]
  exact ⟨Nat.ge_two_pow_of_testBit, fun hle => Nat.testBit_of_two_pow_le_and_two_pow_add_one_gt hle hlt⟩

/-- A number that the width holds is read back. -/
theorem toInt_ofInt {isSigned : Bool} (hpos : 1 ≤ bits) (hle : bits ≤ 128) (h : Holds isSigned bits n) :
    (ofInt bits n).toInt isSigned = n := by
  unfold Holds at h
  have hproper : (ofInt bits n).Proper := ofWords_proper _ _
  have hnat := toNat_ofInt hpos hle n
  have hbits := bits_ofInt hpos n
  have hhalf : (2 : Int) ^ bits = 2 * 2 ^ (bits - 1) := by
    rw [← pow_succ', Nat.sub_add_cancel hpos]
  have hsign := hproper.isNegative_iff
  rw [hbits, ← Int.ofNat_le, hnat] at hsign
  push_cast at hsign
  cases isSigned with
  | false =>
    rw [if_neg Bool.false_ne_true] at h
    rw [toInt, Bool.false_and, if_neg Bool.false_ne_true, hnat, Int.emod_eq_of_lt h.1 h.2]
  | true =>
    rw [if_pos rfl] at h
    rw [toInt, Bool.true_and, hbits, hnat]
    have hmod : n % 2 ^ bits = n ∧ 0 ≤ n ∨ n % 2 ^ bits = n + 2 ^ bits ∧ n < 0 := by
      rcases Int.lt_or_le n 0 with hneg | hpos
      · refine .inr ⟨?_, hneg⟩
        rw [← Int.add_emod_right, Int.emod_eq_of_lt (by omega) (by omega)]
      · exact .inl ⟨Int.emod_eq_of_lt hpos (by omega), hpos⟩
    split
    · next hneg =>
      have hupper := hsign.1 hneg
      omega
    · next hneg =>
      have hlower := mt hsign.2 hneg
      omega

end Cognate.WideInt
