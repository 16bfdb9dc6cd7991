import Cognate.Proofs.Number.Shifts
import Cognate.Proofs.Text.Digits
import Cognate.Text.Fixed

/-!
# Decimal text of limbs

The decimal text of limbs has the digits of their number (`toList_toDecimal`), and the number of millionths of a value
is the nearest one (`nearestEven_millionths`). `splitPlaces_toDigits` says where the point stands.
-/

namespace Cognate

namespace Limbs

/-- The number of limbs is that of their quotient by a chunk and the remainder. -/
theorem toNat_divMod_chunk (ls : Limbs) :
    10 ^ 19 * (divMod decimalChunk ls).1.toNat + (divMod decimalChunk ls).2 = ls.toNat ∧
      (divMod decimalChunk ls).2 < 10 ^ 19 := by
  have hpos : 0 < decimalChunk.toNat := by decide
  obtain ⟨hq, hr⟩ := divMod_spec decimalChunk ls hpos
  rw [hq, hr]
  exact ⟨Nat.div_add_mod _ _, Nat.mod_lt _ hpos⟩

/-- The chunks of a number that is not zero, from the top one down, have its digits. By induction along the divisions.
-/
theorem chunks_digits {ls : Limbs} (h : ls.toNat ≠ 0) :
    ∃ top rest, (chunks ls).reverse = top :: rest ∧
      Nat.toDigits 10 top ++ rest.flatMap (fun chunk => padZeros 19 (Nat.toDigits 10 chunk)) =
        Nat.toDigits 10 ls.toNat := by
  fun_induction chunks ls with
  | case1 ls hz => exact absurd hz h
  | case2 ls _ step ih =>
    obtain ⟨hsplit, hlt⟩ : 10 ^ 19 * step.1.toNat + step.2 = ls.toNat ∧ step.2 < 10 ^ 19 := toNat_divMod_chunk ls
    rw [toNat_trim] at ih
    by_cases hq : step.1.toNat = 0
    · rw [hq, Nat.mul_zero, Nat.zero_add] at hsplit
      refine ⟨step.2, [], ?_, ?_⟩
      · rw [chunks, if_pos ((toNat_trim _).trans hq)]
        rfl
      · rw [hsplit, List.flatMap_nil, List.append_nil]
    · obtain ⟨top, rest, hrest, hdigits⟩ := ih hq
      refine ⟨top, rest ++ [step.2], by rw [List.reverse_cons, hrest, List.cons_append], ?_⟩
      rw [List.flatMap_append, ← List.append_assoc, hdigits, List.flatMap_singleton,
        toDigits_append_padZeros (by omega) (by omega) (Nat.pos_of_ne_zero hq) hlt, hsplit]

/-- The text of limbs has the digits of their number. -/
theorem toList_toDecimal (ls : Limbs) : ls.toDecimal.toList = Nat.toDigits 10 ls.toNat := by
  by_cases h : ls.toNat = 0
  · rw [h, toDecimal, chunks, if_pos h]
    rfl
  · obtain ⟨top, rest, hchunks, hdigits⟩ := chunks_digits h
    rw [toDecimal, hchunks, String.toList_ofList, hdigits]

theorem toNat_ofNat128 {n : Nat} (h : n < 2 ^ 128) : (ofNat128 n).toNat = n := by
  have hhigh : n / limbBase < 2 ^ 64 := by
    rw [Nat.div_lt_iff_lt_mul limbBase_pos]
    exact h
  rw [ofNat128, toNat_trim, toNat_cons, toNat_cons, toNat_nil, UInt64.toNat_ofNat', UInt64.toNat_ofNat',
    Nat.mod_eq_of_lt hhigh, Nat.mul_zero, Nat.add_zero]
  exact Nat.mod_add_div n limbBase

end Limbs

namespace Text

/-! ## Six places -/

/-- The digits in front of the last six are those of the whole millions, and the last six those of what is left. -/
theorem splitPlaces_toDigits (n : Nat) :
    splitPlaces (Nat.toDigits 10 n) =
      (Nat.toDigits 10 (n / 10 ^ 6), Limbs.padZeros 6 (Nat.toDigits 10 (n % 10 ^ 6))) := by
  have hlt : n % 10 ^ 6 < 10 ^ 6 := Nat.mod_lt n (by omega)
  have hlength := Limbs.length_padZeros_toDigits (by omega) (by omega) hlt
  have hpadded : Limbs.padZeros 7 (Nat.toDigits 10 n) =
      Nat.toDigits 10 (n / 10 ^ 6) ++ Limbs.padZeros 6 (Nat.toDigits 10 (n % 10 ^ 6)) := by
    by_cases hq : n / 10 ^ 6 = 0
    · have hsmall : n < 10 ^ 6 := by omega
      have hle := (Nat.length_toDigits_le_iff (b := 10) (by omega) (by omega : 0 < 6)).2 hsmall
      rw [hq, Nat.mod_eq_of_lt hsmall, Limbs.padZeros_succ hle]
      rfl
    · have hdigits := Limbs.toDigits_append_padZeros (by omega) (by omega) (Nat.pos_of_ne_zero hq) hlt
      rw [Nat.div_add_mod] at hdigits
      rw [hdigits, Limbs.padZeros_of_le]
      rw [← hdigits, List.length_append, hlength]
      have hpos := Nat.length_toDigits_pos (b := 10) (n := n / 10 ^ 6)
      omega
  unfold splitPlaces
  rw [places, hpadded]
  dsimp only
  rw [List.length_append, hlength, Nat.add_sub_cancel, List.splitAt_eq, List.take_left, List.drop_left]

/-- The decimal text of so many millionths: a whole number, and behind the point six digits of what is left. -/
def SixPlaces (n : Nat) (text : String) : Prop :=
  ∃ fraction : List Char, fraction.length = 6 ∧ numeral? 10 fraction = some (n % 10 ^ 6) ∧
    text = toString (n / 10 ^ 6) ++ "." ++ String.ofList fraction

theorem sixPlaces_withPoint (n : Nat) : SixPlaces n (withPoint (Nat.toDigits 10 n)) := by
  have hlt : n % 10 ^ 6 < 10 ^ 6 := Nat.mod_lt n (by omega)
  have hlength := Limbs.length_padZeros_toDigits (by omega) (by omega) hlt
  refine ⟨Limbs.padZeros 6 (Nat.toDigits 10 (n % 10 ^ 6)), hlength, ?_, ?_⟩
  · have hne : (Limbs.padZeros 6 (Nat.toDigits 10 (n % 10 ^ 6))).isEmpty = false := by
      rw [← Bool.not_eq_true, List.isEmpty_iff_length_eq_zero, hlength]
      omega
    rw [numeral?, hne, if_neg Bool.false_ne_true, Limbs.numeralFrom_padZeros, numeralFrom_toDigits]
  · rw [withPoint, splitPlaces_toDigits, Nat.toString_eq_ofList_toDigits]
    apply String.toList_injective
    simp

/-! ## Millionths -/

theorem toNat_limbMillionths (significand : Limbs) (exponent : Int) :
    (limbMillionths significand exponent).toNat = millionths significand.toNat exponent := by
  have hscaled : (Limbs.mul (UInt64.ofNat (Nat.pow 10 places)) significand).toNat = significand.toNat * 10 ^ places :=
    Limbs.toNat_mul _ _
  cases exponent with
  | ofNat up => exact (Limbs.toNat_shiftLeft up _).trans (congrArg (· * 2 ^ up) hscaled)
  | negSucc down =>
    rw [limbMillionths, Limbs.toNat_shiftRightEven, hscaled]
    rfl

/-- The number of millionths of a value is the nearest one. -/
theorem nearestEven_millionths (significand : Nat) (exponent : Int) :
    NearestEven (significand * 2 ^ exponent * 10 ^ 6) (millionths significand exponent) := by
  cases exponent with
  | ofNat up =>
    have hexact : (significand * 2 ^ (Int.ofNat up) * 10 ^ 6 : ℚ) = (significand * 10 ^ 6 * 2 ^ up : Nat) := by
      push_cast
      rw [Int.ofNat_eq_natCast, zpow_natCast]
      ring
    rw [hexact]
    exact nearestEven_natCast _
  | negSucc down =>
    have hquotient : (significand * 2 ^ (Int.negSucc down) * 10 ^ 6 : ℚ) =
        (significand * 10 ^ 6 : Nat) / (2 ^ (down + 1) : Nat) := by
      push_cast
      rw [zpow_negSucc]
      ring
    rw [hquotient]
    exact nearestEven_roundHalfEven _ (Nat.two_pow_pos _)

end Text
end Cognate
