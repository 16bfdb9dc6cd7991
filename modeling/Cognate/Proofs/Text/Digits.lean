import Cognate.Number.Limbs
import Cognate.Text.Numeral
import Cognate.Token.Rule
import Mathlib.Data.List.Basic
import Mathlib.Tactic.Ring

/-!
# Digits of a number

The digits of a number have no zero in front, and decimal ones read back as the number. Zeros in front make the digits
of the parts of a number fit together, in any base (`toDigits_append_padZeros`).
-/

namespace Cognate

/-! ## Digits of a number -/

theorem digitChar_spec {d : Nat} (h : d < 10) :
    isDecimalDigit d.digitChar = true ∧ Text.digitValue? 10 d.digitChar = some d := by
  have hall : ∀ d : Fin 10, isDecimalDigit (Nat.digitChar d) = true ∧
      Text.digitValue? 10 (Nat.digitChar d) = some (d : Nat) := by decide
  exact hall ⟨d, h⟩

theorem digitChar_eq_zero {d : Nat} (h : d < 16) : d.digitChar = '0' ↔ d = 0 := by
  have hall : ∀ d : Fin 16, Nat.digitChar d = '0' ↔ (d : Nat) = 0 := by decide
  exact hall ⟨d, h⟩

/-- What holds of every digit of a base holds of the digits of a number. -/
theorem forall_mem_toDigits {base : Nat} {p : Char → Prop} (hone : 1 < base) (h : ∀ d < base, p d.digitChar) (n : Nat) :
    ∀ c ∈ Nat.toDigits base n, p c := by
  induction n using Nat.strong_induction_on with
  | _ n ih =>
    rw [Nat.toDigits_eq_if hone]
    split
    · next hlt => simpa using h n hlt
    · next hle =>
      intro c hc
      rcases List.mem_append.1 hc with hc | hc
      · exact ih (n / base) (Nat.div_lt_self (by omega) hone) c hc
      · rw [List.mem_singleton.1 hc]
        exact h _ (Nat.mod_lt n (by omega))

theorem isDecimalDigit_of_mem_toDigits (n : Nat) : ∀ c ∈ Nat.toDigits 10 n, isDecimalDigit c = true :=
  forall_mem_toDigits (by decide) (fun _ hd => (digitChar_spec hd).1) n

/-- Only zero starts with the digit zero. -/
theorem head?_toDigits {base n : Nat} (hone : 1 < base) (hbase : base ≤ 16) (h : 0 < n) :
    (Nat.toDigits base n).head? ≠ some '0' := by
  induction n using Nat.strong_induction_on with
  | _ n ih =>
    rw [Nat.toDigits_eq_if hone]
    split
    · next hlt =>
      intro he
      have := (digitChar_eq_zero (by omega)).1 (Option.some.inj he)
      omega
    · next hle =>
      rw [List.head?_append_of_ne_nil _ Nat.toDigits_ne_nil]
      exact ih (n / base) (Nat.div_lt_self h hone) (Nat.div_pos (by omega) (by omega))

theorem numeralFrom_append (radix start : Nat) (cs ds : List Char) :
    Text.numeralFrom radix start (cs ++ ds) =
      (Text.numeralFrom radix start cs).bind fun n => Text.numeralFrom radix n ds := by
  induction cs generalizing start with
  | nil => rfl
  | cons c cs ih =>
    simp only [List.cons_append, Text.numeralFrom, Option.bind_assoc]
    exact congrArg _ (funext fun d => ih _)

theorem numeralFrom_toDigits (n : Nat) : Text.numeralFrom 10 0 (Nat.toDigits 10 n) = some n := by
  induction n using Nat.strong_induction_on with
  | _ n ih =>
    rw [Nat.toDigits_eq_if (by omega)]
    split
    · next h => simp [Text.numeralFrom, (digitChar_spec h).2]
    · rw [numeralFrom_append, ih (n / 10) (by omega)]
      simp [Text.numeralFrom, (digitChar_spec (Nat.mod_lt n (by omega))).2]
      omega

/-! ## Zeros in front -/

namespace Limbs

theorem numeralFrom_padZeros (width : Nat) (ds : List Char) :
    Text.numeralFrom 10 0 (padZeros width ds) = Text.numeralFrom 10 0 ds := by
  have hzeros : ∀ k, Text.numeralFrom 10 0 (List.replicate k '0') = some 0 := by
    intro k
    induction k with
    | zero => rfl
    | succ k ih => exact ih
  rw [padZeros, numeralFrom_append, hzeros]
  rfl

theorem padZeros_of_le {width : Nat} {ds : List Char} (h : width ≤ ds.length) : padZeros width ds = ds := by
  rw [padZeros, Nat.sub_eq_zero_of_le h]
  rfl

theorem padZeros_succ {width : Nat} {ds : List Char} (h : ds.length ≤ width) :
    padZeros (width + 1) ds = '0' :: padZeros width ds := by
  rw [padZeros, padZeros, Nat.sub_add_comm h, List.replicate_succ, List.cons_append]

theorem padZeros_append (width : Nat) (ds es : List Char) :
    padZeros (width + es.length) (ds ++ es) = padZeros width ds ++ es := by
  rw [padZeros, padZeros, List.length_append, Nat.add_sub_add_right, List.append_assoc]

/-- The last digit behind the others. -/
theorem padZeros_toDigits_succ {base width : Nat} (hone : 1 < base) (h : 0 < width) (n : Nat) :
    padZeros (width + 1) (Nat.toDigits base n) =
      padZeros width (Nat.toDigits base (n / base)) ++ [(n % base).digitChar] := by
  rw [Nat.toDigits_eq_if hone]
  split
  · next hlt =>
    obtain ⟨k, rfl⟩ : ∃ k, width = k + 1 := ⟨width - 1, by omega⟩
    rw [Nat.div_eq_of_lt hlt, Nat.mod_eq_of_lt hlt, Nat.toDigits_of_lt_base (by omega)]
    simp [padZeros, ← List.replicate_append_replicate]
  · exact padZeros_append width _ [(n % base).digitChar]

/-- As many digits as the width, of a number that has no more. -/
theorem length_padZeros_toDigits {base width n : Nat} (hone : 1 < base) (h : 0 < width) (hn : n < base ^ width) :
    (padZeros width (Nat.toDigits base n)).length = width := by
  have hle := (Nat.length_toDigits_le_iff hone h).2 hn
  rw [padZeros, List.length_append, List.length_replicate]
  omega

/-- The digits of a number are those of its quotient by a power of the base, and those of the remainder with zeros in
front. By induction on the width: the last digit of both sides is the same. -/
theorem toDigits_append_padZeros {base width q r : Nat} (hone : 1 < base) (h : 0 < width) (hq : 0 < q)
    (hr : r < base ^ width) :
    Nat.toDigits base q ++ padZeros width (Nat.toDigits base r) = Nat.toDigits base (base ^ width * q + r) := by
  obtain ⟨k, rfl⟩ : ∃ k, width = k + 1 := ⟨width - 1, by omega⟩
  clear h
  induction k generalizing r with
  | zero =>
    rw [Nat.zero_add, Nat.pow_one, padZeros_of_le Nat.length_toDigits_pos,
      Nat.toDigits_append_toDigits hone hq (by simpa using hr)]
  | succ k ih =>
    have hlast : r % base < base := Nat.mod_lt r (by omega)
    have hrest : r / base < base ^ (k + 1) := by
      rw [Nat.div_lt_iff_lt_mul (by omega), ← Nat.pow_succ]
      exact hr
    have hpos : 0 < base ^ (k + 1) * q + r / base := Nat.add_pos_left (Nat.mul_pos (Nat.pow_pos (by omega)) hq) _
    have hsum : base * (base ^ (k + 1) * q + r / base) + r % base = base ^ (k + 1 + 1) * q + r := by
      rw [Nat.pow_succ base (k + 1), Nat.mul_add, Nat.add_assoc, Nat.div_add_mod]
      ring
    rw [padZeros_toDigits_succ hone (by omega), ← List.append_assoc, ih hrest, ← Nat.toDigits_of_lt_base hlast,
      Nat.toDigits_append_toDigits hone hpos hlast, hsum]

end Limbs
end Cognate
