import Cognate.Number.Rounding
import Mathlib.Algebra.Order.Field.Rat
import Mathlib.Algebra.Order.AbsoluteValue.Basic
import Mathlib.Data.Nat.Cast.Order.Field
import Mathlib.Tactic.FieldSimp
import Mathlib.Tactic.Linarith
import Mathlib.Tactic.Ring

/-!
# Rounding to the nearest number

What `roundHalfEven` computes is the nearest whole number (`nearestEven_roundHalfEven`). For a power of two the bits of
the number tell on which side it lies (`roundHalfEven_two_pow`).
-/

namespace Cognate

variable {q : ℚ} {n m : Nat}

/-- A whole number is nearest to a fraction, and it is even where another one is as near. -/
def NearestEven (q : ℚ) (n : Nat) : Prop := |q - n| ≤ 1 / 2 ∧ (|q - n| = 1 / 2 → n % 2 = 0)

theorem NearestEven.le (hn : NearestEven q n) (hm : NearestEven q m) : n ≤ m := by
  by_contra hlt
  have hone : (m : ℚ) + 1 ≤ n := by exact_mod_cast Nat.not_le.1 hlt
  obtain ⟨hn, hneven⟩ := hn
  obtain ⟨hm, hmeven⟩ := hm
  rw [abs_le] at hn hm
  -- Both are half a unit off, and so next to one another.
  have hsucc : n = m + 1 := by
    have heq : (n : ℚ) = m + 1 := by linarith
    exact_mod_cast heq
  have hn2 := hneven (by rw [abs_of_nonpos (by linarith)]; linarith)
  have hm2 := hmeven (by rw [abs_of_nonneg (by linarith)]; linarith)
  omega

/-- There is one nearest number. -/
theorem NearestEven.unique (hn : NearestEven q n) (hm : NearestEven q m) : n = m := le_antisymm (hn.le hm) (hm.le hn)

theorem nearestEven_natCast (n : Nat) : NearestEven n n := by
  simp [NearestEven]

theorem nearestEven_roundHalfEven (num : Nat) {den : Nat} (h : 0 < den) :
    NearestEven (num / den) (roundHalfEven num den) := by
  have hden : (0 : ℚ) < den := by exact_mod_cast h
  have hsplit : (num / den : ℚ) = (num / den : Nat) + (num % den : Nat) / den := by
    have hdiv : (den * (num / den : Nat) + (num % den : Nat) : ℚ) = num := by exact_mod_cast Nat.div_add_mod num den
    field_simp
    linarith
  have hlost : (0 : ℚ) ≤ (num % den : Nat) / den := by positivity
  have hlt : ((num % den : Nat) / den : ℚ) < 1 := (div_lt_one hden).2 (by exact_mod_cast Nat.mod_lt num h)
  rw [hsplit]
  unfold roundHalfEven
  rcases lt_trichotomy (2 * (num % den)) den with hbelow | htie | habove
  · have hhalf : ((num % den : Nat) / den : ℚ) < 1 / 2 := by
      rw [div_lt_div_iff₀ hden two_pos]
      exact_mod_cast (by omega : num % den * 2 < 1 * den)
    have habs : |((num / den : Nat) + (num % den : Nat) / den : ℚ) - (num / den : Nat)| < 1 / 2 := by
      rw [abs_lt]
      constructor <;> linarith
    simp only [hbelow, decide_true, Bool.true_or, if_true]
    exact ⟨habs.le, fun he => absurd he habs.ne⟩
  · have hhalf : ((num % den : Nat) / den : ℚ) = 1 / 2 := by
      rw [div_eq_div_iff hden.ne' two_ne_zero]
      exact_mod_cast (by omega : num % den * 2 = 1 * den)
    rw [hhalf]
    by_cases heven : num / den % 2 = 0
    · simp only [htie, heven, lt_irrefl, decide_false, beq_self_eq_true, Bool.and_self, Bool.or_true, if_true]
      refine ⟨?_, fun _ => heven⟩
      rw [add_sub_cancel_left, abs_of_pos one_half_pos]
    · have hodd : (num / den % 2 == 0) = false := by simpa using heven
      simp only [htie, hodd, lt_irrefl, decide_false, Bool.and_false, Bool.or_false, Bool.false_eq_true, if_false]
      refine ⟨?_, fun _ => by omega⟩
      push_cast
      rw [abs_le]
      constructor <;> linarith
  · have hhalf : 1 / 2 < ((num % den : Nat) / den : ℚ) := by
      rw [div_lt_div_iff₀ two_pos hden]
      exact_mod_cast (by omega : 1 * den < num % den * 2)
    have habs : |((num / den : Nat) + (num % den : Nat) / den : ℚ) - (num / den + 1 : Nat)| < 1 / 2 := by
      push_cast
      rw [abs_lt]
      constructor <;> linarith
    have hne : (2 * (num % den) == den) = false := by simpa using habove.ne'
    simp only [not_lt.2 habove.le, hne, decide_false, Bool.false_and, Bool.or_false, Bool.false_eq_true, if_false]
    exact ⟨habs.le, fun he => absurd he habs.ne⟩

/-! ## Powers of two -/

theorem mod_two_pow_succ (n s : Nat) : n % 2 ^ (s + 1) = n % 2 ^ s + if n.testBit s then 2 ^ s else 0 := by
  rw [Nat.mod_pow_succ, Nat.testBit_eq_decide_div_mod_eq]
  rcases Nat.mod_two_eq_zero_or_one (n / 2 ^ s) with h | h <;> simp [h]

/-- A quotient by a power of two is rounded up if the highest bit below it is set and either another one below that, or
the quotient is odd. -/
theorem roundHalfEven_two_pow (n s : Nat) :
    roundHalfEven n (2 ^ (s + 1)) =
      if n.testBit s && (n % 2 ^ s != 0 || n.testBit (s + 1)) then n / 2 ^ (s + 1) + 1 else n / 2 ^ (s + 1) := by
  have hlow : n % 2 ^ s < 2 ^ s := Nat.mod_lt _ (Nat.two_pow_pos s)
  have hodd : n.testBit (s + 1) = !(n / 2 ^ (s + 1) % 2 == 0) := by
    rw [Nat.testBit_eq_decide_div_mod_eq]
    rcases Nat.mod_two_eq_zero_or_one (n / 2 ^ (s + 1)) with h | h <;> simp [h]
  have hpow : 2 ^ (s + 1) = 2 * 2 ^ s := Nat.pow_succ'
  unfold roundHalfEven
  dsimp only
  rw [mod_two_pow_succ, hodd]
  cases n.testBit s with
  | false =>
    have hlt : 2 * (n % 2 ^ s) < 2 ^ (s + 1) := by omega
    simp [hlt]
  | true =>
    have hnot : ¬ 2 * (n % 2 ^ s + 2 ^ s) < 2 ^ (s + 1) := by omega
    by_cases hz : n % 2 ^ s = 0
    · rw [hz, Nat.zero_add, hpow]
      cases n / (2 * 2 ^ s) % 2 == 0 <;> simp
    · have hne : 2 * (n % 2 ^ s + 2 ^ s) ≠ 2 ^ (s + 1) := by omega
      simp [hnot, hne, hz]

end Cognate
