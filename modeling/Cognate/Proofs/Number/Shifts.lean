import Cognate.Proofs.Number.Limbs
import Cognate.Proofs.Number.Rounding

/-!
# Shifts of limbs

Shifting limbs to the left multiplies their number by a power of two, and shifting them to the right divides it by one,
rounded as `roundHalfEven` does.
-/

namespace Cognate.Limbs

variable {ls : Limbs}

theorem toNat_powWord {bits : Nat} (h : bits < 64) : (UInt64.ofNat (Nat.pow 2 bits)).toNat = 2 ^ bits := by
  rw [UInt64.toNat_ofNat']
  exact Nat.mod_eq_of_lt (Nat.pow_lt_pow_right (by omega) h)

theorem toNat_shiftLeft (shift : Nat) (ls : Limbs) : (ls.shiftLeft shift).toNat = ls.toNat * 2 ^ shift := by
  unfold shiftLeft
  split
  · next h => rw [isZero_iff.1 h, Nat.zero_mul]
  · rw [toNat_append, toNat_replicate_zero, List.length_replicate, toNat_mul,
      toNat_powWord (Nat.mod_lt _ (by omega)), two_pow_eq shift]
    ring

theorem toNat_shiftDown (shift : Nat) (ls : Limbs) : (ls.shiftDown shift).toNat = ls.toNat / 2 ^ shift := by
  have hword := toNat_powWord (Nat.mod_lt shift (y := 64) (by omega))
  have hpos : 0 < (UInt64.ofNat (Nat.pow 2 (shift % 64))).toNat := hword ▸ Nat.two_pow_pos _
  rw [shiftDown, toNat_trim, (divMod_spec _ _ hpos).1, hword, toNat_drop, Nat.div_div_eq_div_mul, ← two_pow_eq]

/-! ## Bits -/

theorem bit_eq (index : Nat) (ls : Limbs) : ls.bit index = ls.toNat.testBit index := by
  have hlt : index % 64 < 64 := Nat.mod_lt _ (by omega)
  have hbase : limbBase = 2 ^ 64 := rfl
  rw [bit, toNat_getD, hbase, Nat.testBit_mod_two_pow, ← hbase, limbBase_pow, Nat.testBit_div_two_pow, Nat.mod_add_div]
  simp [hlt]

theorem anyBelow_eq (index : Nat) (ls : Limbs) : ls.anyBelow index = (ls.toNat % 2 ^ index != 0) := by
  have hwords : ((ls.take (index / 64)).any (· != 0)) = (toNat (ls.take (index / 64)) != 0) := by
    rw [Bool.eq_iff_iff, bne_iff_ne, ne_eq, ← isZero_iff]
    simp [isZero]
  have hdvd : 2 ^ (index % 64) ∣ limbBase := pow_dvd_pow 2 (by omega)
  rw [anyBelow, hwords, toNat_take, toNat_getD, Nat.pow_eq, Nat.mod_mod_of_dvd _ hdvd, two_pow_eq index, Nat.mod_mul]
  have hpos : 0 < limbBase ^ (index / 64) := Nat.pow_pos limbBase_pos
  rw [Bool.eq_iff_iff]
  simp only [Bool.or_eq_true, bne_iff_ne, ne_eq, Nat.add_eq_zero_iff, Nat.mul_eq_zero, hpos.ne', false_or, not_and_or]

/-! ## Rounding -/

theorem toNat_succ (ls : Limbs) : ls.succ.toNat = ls.toNat + 1 := by
  induction ls with
  | nil => rfl
  | cons l ls ih =>
    have hl : l.toNat < limbBase := l.toNat_lt
    have hsum : (l + 1).toNat = (l.toNat + 1) % limbBase := UInt64.toNat_add l 1
    rw [succ]
    split
    · next h =>
      rw [h, UInt64.toNat_zero] at hsum
      have hmax : l.toNat + 1 = limbBase := by
        by_contra hne
        rw [Nat.mod_eq_of_lt (by omega)] at hsum
        omega
      rw [toNat_cons, toNat_cons, ih, UInt64.toNat_zero, Nat.mul_add]
      omega
    · next h =>
      have hlt : l.toNat + 1 < limbBase := by
        by_contra hge
        have hmax : l.toNat + 1 = limbBase := by omega
        rw [hmax, Nat.mod_self] at hsum
        exact h (UInt64.toNat_inj.1 hsum)
      rw [toNat_cons, toNat_cons, hsum, Nat.mod_eq_of_lt hlt]
      omega

theorem toNat_shiftRightEven (shift : Nat) (ls : Limbs) :
    (ls.shiftRightEven shift).toNat = roundHalfEven ls.toNat (2 ^ shift) := by
  cases shift with
  | zero => rw [shiftRightEven, if_pos rfl, toNat_trim, Nat.pow_zero, roundHalfEven_one]
  | succ shift =>
    have hodd : (ls.shiftDown (shift + 1)).bit 0 = ls.toNat.testBit (shift + 1) := by
      rw [bit_eq, toNat_shiftDown, Nat.testBit_div_two_pow, Nat.zero_add]
    rw [shiftRightEven, if_neg (Nat.succ_ne_zero shift), roundHalfEven_two_pow]
    dsimp only
    rw [Nat.add_sub_cancel, bit_eq, anyBelow_eq, hodd]
    split
    · rw [toNat_succ, toNat_shiftDown]
    · rw [toNat_shiftDown]

end Cognate.Limbs
