import Cognate.Proofs.Grammar.Words
import Mathlib.Data.Int.Bitwise
import Mathlib.Data.Int.ModEq
import Mathlib.Data.Rat.Floor

/-!
# Exact results

What the operators mean for integers without bounds (`Exact`). Constant expressions give just that or refuse, and refuse
only what has no result or one that does not fit (`Refuses`). Shifts to the left are the exception: they drop the bits
that do not fit.
-/

namespace Cognate.Grammar

variable {a b n quotient rest : Int} {op : BinaryOp} {cause : Cause}

instance : Decidable (Fits n) := inferInstanceAs (Decidable (_ ∧ _))

/-! ## Integers without bounds -/

/-- The quotient rounded towards zero, and what it leaves. -/
def Divides (a b quotient rest : Int) : Prop := a = b * quotient + rest ∧ |rest| < |b| ∧ 0 ≤ a * rest

/-- The result of an operator. Bits are those of two's complement without an end. -/
def Exact : BinaryOp → Int → Int → Int → Prop
  | .add, a, b, n => n = a + b
  | .subtract, a, b, n => n = a - b
  | .multiply, a, b, n => n = a * b
  | .divide, a, b, n => ∃ rest, Divides a b n rest
  | .remainder, a, b, n => ∃ quotient, Divides a b quotient n
  | .shiftLeft, a, b, n => ∃ k : Nat, b = k ∧ n = a * 2 ^ k
  | .shiftRight, a, b, n => ∃ k : Nat, b = k ∧ n = ⌊(a / 2 ^ k : ℚ)⌋
  | .less, a, b, n => n = if a < b then 1 else 0
  | .greater, a, b, n => n = if b < a then 1 else 0
  | .lessEqual, a, b, n => n = if a ≤ b then 1 else 0
  | .greaterEqual, a, b, n => n = if b ≤ a then 1 else 0
  | .equal, a, b, n => n = if a = b then 1 else 0
  | .notEqual, a, b, n => n = if a = b then 0 else 1
  | .bitAnd, a, b, n => ∀ i, n.testBit i = (a.testBit i && b.testBit i)
  | .bitOr, a, b, n => ∀ i, n.testBit i = (a.testBit i || b.testBit i)
  | .bitXor, a, b, n => ∀ i, n.testBit i = (a.testBit i ^^ b.testBit i)
  | .and, a, b, n => n = if a = 0 ∨ b = 0 then 0 else 1
  | .or, a, b, n => n = if a = 0 ∧ b = 0 then 0 else 1

theorem truth_eq (p : Prop) [Decidable p] : truth (decide p) = if p then 1 else 0 := by
  by_cases h : p <;> simp [truth, h]

/-! ### Quotients -/

theorem divides_tdiv (hb : b ≠ 0) : Divides a b (a.tdiv b) (a.tmod b) := by
  refine ⟨(Int.mul_tdiv_add_tmod a b).symm, ?_, ?_⟩
  · rw [Int.abs_eq_natAbs, Int.abs_eq_natAbs, Int.natAbs_tmod]
    exact_mod_cast Nat.mod_lt _ (Int.natAbs_pos.2 hb)
  · rcases le_total 0 a with ha | ha
    · exact mul_nonneg ha (Int.tmod_nonneg b ha)
    · exact mul_nonneg_of_nonpos_of_nonpos ha ((Int.tdiv_tmod_unique' ha hb).1 ⟨rfl, rfl⟩).2.2

/-- There is one quotient. -/
theorem Divides.eq_tdiv (h : Divides a b quotient rest) : b ≠ 0 ∧ quotient = a.tdiv b ∧ rest = a.tmod b := by
  obtain ⟨heq, hlt, hsign⟩ := h
  have hb : b ≠ 0 := by
    rintro rfl
    exact (abs_nonneg rest).not_gt (by rwa [abs_zero] at hlt)
  have hbound : |rest| < b.natAbs := Int.abs_eq_natAbs b ▸ hlt
  obtain ⟨hlow, hhigh⟩ := abs_lt.1 hbound
  refine ⟨hb, ?_⟩
  rcases lt_trichotomy a 0 with ha | rfl | ha
  · have hrest : rest ≤ 0 := nonpos_of_mul_nonneg_right hsign ha
    obtain ⟨hq, hr⟩ := (Int.tdiv_tmod_unique' ha.le hb).2 ⟨(add_comm _ _).trans heq.symm, hlow, hrest⟩
    exact ⟨hq.symm, hr.symm⟩
  · -- What is left of zero is a multiple of the divisor, and so is nothing.
    have hdvd : b ∣ rest := ⟨-quotient, by linarith⟩
    have hrest : rest = 0 := Int.eq_zero_of_abs_lt_dvd ((abs_dvd b rest).2 hdvd) hlt
    subst hrest
    have hzero : quotient = 0 := by
      rw [add_zero] at heq
      exact (mul_eq_zero.1 heq.symm).resolve_left hb
    simp [hzero]
  · have hrest : 0 ≤ rest := nonneg_of_mul_nonneg_right hsign ha
    obtain ⟨hq, hr⟩ := (Int.tdiv_tmod_unique ha.le hb).2 ⟨(add_comm _ _).trans heq.symm, hrest, hhigh⟩
    exact ⟨hq.symm, hr.symm⟩

/-! ### Bits -/

/-- Behind the bits of a word its sign is repeated. -/
theorem testBit_toInt {w : Nat} (x : BitVec w) (i : Nat) :
    x.toInt.testBit i = if i < w then x.getLsbD i else x.msb := by
  have hlt := x.isLt
  cases hmsb : x.msb with
  | false =>
    rw [BitVec.toInt_eq_toNat_of_msb hmsb]
    by_cases hi : i < w
    · rw [if_pos hi]
      rfl
    · rw [if_neg hi]
      exact BitVec.getLsbD_of_ge x i (by omega)
  | true =>
    have hneg : x.toInt = Int.negSucc (2 ^ w - (x.toNat + 1)) := by
      rw [BitVec.toInt_eq_msb_cond, if_pos hmsb, Int.negSucc_eq]
      omega
    rw [hneg, Int.testBit, Nat.testBit_two_pow_sub_succ hlt]
    by_cases hi : i < w
    · simp [hi, BitVec.getLsbD]
    · simp [hi]

theorem toInt_ofInt_of_fits (h : Fits n) : (BitVec.ofInt 128 n).toInt = n := by
  rw [Fits, leastInt_eq, greatestInt_eq] at h
  exact BitVec.toInt_ofInt_eq_self (by decide) (by norm_num; omega) (by norm_num; omega)

/-- An operation on the bits of a word is one on all bits. -/
theorem testBit_bitwise {f : BitVec 128 → BitVec 128 → BitVec 128} {g : Bool → Bool → Bool}
    (h : ∀ x y i, i < 128 → (f x y).getLsbD i = g (x.getLsbD i) (y.getLsbD i)) (ha : Fits a) (hb : Fits b) (i : Nat) :
    (bitwise f a b).testBit i = g (a.testBit i) (b.testBit i) := by
  have ha' := testBit_toInt (BitVec.ofInt 128 a) i
  have hb' := testBit_toInt (BitVec.ofInt 128 b) i
  rw [toInt_ofInt_of_fits ha] at ha'
  rw [toInt_ofInt_of_fits hb] at hb'
  rw [bitwise, testBit_toInt, ha', hb']
  by_cases hi : i < 128
  · rw [if_pos hi, if_pos hi, if_pos hi, h _ _ i hi]
  · rw [if_neg hi, if_neg hi, if_neg hi, BitVec.msb_eq_getLsbD_last, BitVec.msb_eq_getLsbD_last,
      BitVec.msb_eq_getLsbD_last, h _ _ _ (by decide)]

/-! ## Refusals -/

theorem checked_eq_ok {m : Int} : checked n = .ok m ↔ Fits n ∧ n = m := by
  rw [← fits?_eq_some, checked]
  cases fits? n <;> simp

theorem checked_eq_error : checked n = .error cause ↔ ¬Fits n ∧ cause = .overflow := by
  by_cases h : Fits n
  · simp [checked_eq_ok.2 ⟨h, rfl⟩, h]
  · have hnone : fits? n = none := Option.eq_none_iff_forall_ne_some.2 fun m hm => h (fits?_eq_some.1 hm).1
    simp [checked, hnone, h, eq_comm]

theorem shiftAmount_eq_ok {k : Nat} : shiftAmount n = .ok k ↔ n = k ∧ k < 128 := by
  rw [shiftAmount]
  split_ifs with h
  · rw [Except.ok.injEq]
    omega
  · simp only [false_iff]
    omega

theorem shiftAmount_eq_error : shiftAmount n = .error cause ↔ (n < 0 ∨ 128 ≤ n) ∧ cause = .shiftAmount n := by
  rw [shiftAmount]
  split_ifs with h
  · simp only [false_iff]
    omega
  · rw [Except.error.injEq, eq_comm]
    refine (and_iff_right ?_).symm
    omega

theorem map_eq_error {α β : Type} {x : Except Cause α} {f : α → β} : x.map f = .error cause ↔ x = .error cause := by
  cases x <;> simp [Except.map]

theorem map_eq_ok {α β : Type} {x : Except Cause α} {f : α → β} {y : β} :
    x.map f = .ok y ↔ ∃ m, x = .ok m ∧ f m = y := by
  cases x <;> simp [Except.map]

/-- The numbers that an operator refuses, and why: those whose sum, difference, product or quotient does not fit, and a
divisor or an amount without a meaning. What a division leaves is refused if its quotient is. -/
def Refuses : BinaryOp → Int → Int → Cause → Prop
  | .add, a, b, cause => (∃ n, Exact .add a b n ∧ ¬Fits n) ∧ cause = .overflow
  | .subtract, a, b, cause => (∃ n, Exact .subtract a b n ∧ ¬Fits n) ∧ cause = .overflow
  | .multiply, a, b, cause => (∃ n, Exact .multiply a b n ∧ ¬Fits n) ∧ cause = .overflow
  | .divide, a, b, cause | .remainder, a, b, cause =>
    b = 0 ∧ cause = .divisionByZero ∨ (∃ n, Exact .divide a b n ∧ ¬Fits n) ∧ cause = .overflow
  | .shiftLeft, _, b, cause | .shiftRight, _, b, cause => (b < 0 ∨ 128 ≤ b) ∧ cause = .shiftAmount b
  | _, _, _, _ => False

theorem exact_divide : Exact .divide a b n ↔ b ≠ 0 ∧ n = a.tdiv b := by
  constructor
  · rintro ⟨rest, h⟩
    exact ⟨h.eq_tdiv.1, h.eq_tdiv.2.1⟩
  · rintro ⟨hb, rfl⟩
    exact ⟨_, divides_tdiv hb⟩

/-- A division is refused for its divisor or for its quotient. -/
theorem quotient_eq_error {α : Type} {f : Int → α} :
    (if b = 0 then .error .divisionByZero else (checked (a.tdiv b)).map f) = .error cause ↔
      b = 0 ∧ cause = .divisionByZero ∨ (∃ n, Exact .divide a b n ∧ ¬Fits n) ∧ cause = .overflow := by
  by_cases hb : b = 0
  · simp [hb, exact_divide, eq_comm]
  · simp [hb, exact_divide, map_eq_error, checked_eq_error]

/-- An operator refuses what it has to, for the reason it has to. -/
theorem fold_eq_error : fold op a b = .error cause ↔ Refuses op a b cause := by
  cases op with
  | add | subtract | multiply => simp [fold, checked_eq_error, Refuses, Exact]
  | divide =>
    have hmap : (checked (a.tdiv b)).map id = checked (a.tdiv b) := by cases checked (a.tdiv b) <;> rfl
    rw [Refuses, ← quotient_eq_error, hmap, fold]
  | remainder => exact quotient_eq_error
  | shiftLeft | shiftRight => exact map_eq_error.trans shiftAmount_eq_error
  | _ => simp [fold, Refuses]

/-! ## Results -/

/-- The quotient of a division that is not refused. -/
theorem quotient_eq_ok {α : Type} {f : Int → α} {y : α}
    (h : (if b = 0 then .error .divisionByZero else (checked (a.tdiv b)).map f) = .ok y) :
    b ≠ 0 ∧ f (a.tdiv b) = y := by
  split_ifs at h with hb
  obtain ⟨q, hq, hy⟩ := map_eq_ok.1 h
  obtain ⟨-, rfl⟩ := checked_eq_ok.1 hq
  exact ⟨hb, hy⟩

/-- Whatever is no shift to the left is exact. -/
theorem exact_of_fold (ha : Fits a) (hb : Fits b) (hop : op ≠ .shiftLeft) (h : fold op a b = .ok n) :
    Exact op a b n := by
  cases op with
  | add | subtract | multiply => exact (checked_eq_ok.1 h).2.symm
  | divide =>
    have hmap : (checked (a.tdiv b)).map id = checked (a.tdiv b) := by cases checked (a.tdiv b) <;> rfl
    rw [fold, ← hmap] at h
    obtain ⟨hb, rfl⟩ := quotient_eq_ok h
    exact ⟨_, divides_tdiv hb⟩
  | remainder =>
    obtain ⟨hb, rfl⟩ := quotient_eq_ok h
    exact ⟨_, divides_tdiv hb⟩
  | shiftLeft => exact absurd rfl hop
  | shiftRight =>
    obtain ⟨k, hk, rfl⟩ := map_eq_ok.1 h
    refine ⟨k, (shiftAmount_eq_ok.1 hk).1, ?_⟩
    rw [Int.pow_eq]
    exact_mod_cast (Rat.floor_intCast_div_natCast a (2 ^ k)).symm
  | less | greater | lessEqual | greaterEqual | equal =>
    cases h
    exact truth_eq _
  | notEqual | and | or =>
    cases h
    rw [truth_eq, Exact]
    split_ifs <;> tauto
  | bitAnd =>
    cases h
    exact testBit_bitwise (fun x y i _ => BitVec.getLsbD_and) ha hb
  | bitOr =>
    cases h
    exact testBit_bitwise (fun x y i _ => BitVec.getLsbD_or) ha hb
  | bitXor =>
    cases h
    exact testBit_bitwise (fun x y i _ => BitVec.getLsbD_xor) ha hb

/-- A shift to the left keeps the low bits. -/
theorem shiftLeft_eq_ok (h : fold .shiftLeft a b = .ok n) : ∃ k : Nat, b = k ∧ n = wrap (a * 2 ^ k) := by
  obtain ⟨k, hk, rfl⟩ := map_eq_ok.1 h
  exact ⟨k, (shiftAmount_eq_ok.1 hk).1, rfl⟩

/-- What constant expressions make of two numbers of 128 bits. There is a number of 128 bits or a refusal. The number is
the exact one, unless a shift to the left has lost bits: it then agrees with the exact one in the low 128 bits. What is
refused has no exact result, or none that fits. -/
theorem fold_exact (op : BinaryOp) (ha : Fits a) (hb : Fits b) :
    (∀ n, fold op a b = .ok n → Fits n ∧ (op ≠ .shiftLeft → Exact op a b n)) ∧
      (∀ n, fold .shiftLeft a b = .ok n → ∃ k : Nat, b = k ∧ n ≡ a * 2 ^ k [ZMOD 2 ^ 128] ∧
        (Exact .shiftLeft a b n ↔ Fits (a * 2 ^ k))) ∧
      ∀ cause, fold op a b = .error cause ↔ Refuses op a b cause := by
  refine ⟨fun n h => ⟨fold_fits ha hb h, fun hop => exact_of_fold ha hb hop h⟩, fun n h => ?_,
    fun cause => fold_eq_error⟩
  obtain ⟨k, hk, hn⟩ := shiftLeft_eq_ok h
  refine ⟨k, hk, ?_, ?_, fun hfits => ⟨k, hk, hn.trans (wrap_of_fits hfits)⟩⟩
  · rw [hn]
    exact Int.bmod_emod
  · rintro ⟨k', hk', hexact⟩
    have hkk : k' = k := by exact_mod_cast hk'.symm.trans hk
    rw [← hkk, ← hexact]
    exact fold_fits ha hb h

/-- A remainder with the sign of its dividend, the greatest amount of a shift that loses nothing, and the one quotient
that does not fit. -/
theorem fold_exact_least :
    Exact .remainder (-7) 2 (-1) ∧ Exact .shiftLeft (-1) 127 leastInt ∧ Refuses .divide leastInt (-1) .overflow := by
  refine ⟨?_, ?_, ?_⟩
  · exact ((fold_exact .remainder (by decide) (by decide)).1 (-1) (by decide)).2 (by decide)
  · have hshift : Fits (-1) ∧ Fits 127 := by decide
    obtain ⟨k, hk, -, hexact⟩ := (fold_exact .shiftLeft hshift.1 hshift.2).2.1 leastInt (by decide)
    have hk : k = 127 := by exact_mod_cast hk.symm
    subst hk
    exact hexact.2 (by decide)
  · exact ((fold_exact .divide (by decide) (by decide)).2.2 .overflow).1 (by decide)

/-- All bits of `4 << 126` are lost. -/
theorem exists_fold_not_exact :
    ¬∀ (op : BinaryOp) (a b n : Int), Fits a → Fits b → fold op a b = .ok n → Exact op a b n := by
  intro h
  obtain ⟨k, hk, hexact⟩ := h .shiftLeft 4 126 0 (by decide) (by decide) (by decide)
  have hk : k = 126 := by exact_mod_cast hk.symm
  subst hk
  exact absurd hexact (by decide)

end Cognate.Grammar
