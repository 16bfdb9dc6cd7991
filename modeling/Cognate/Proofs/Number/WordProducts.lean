import Cognate.Proofs.Number.Decimal
import Cognate.Proofs.Number.WordSteps
import Mathlib.Data.List.DropRight

/-!
# Products and quotients, word by word

Limbs are multiplied, shifted to the left and divided on words of 64 bits with numbers of 128 bits in between: a number
that needs more stops, and so does one that is narrowed to a word that does not hold it. `Machine` does it step by step
and never stops, as the carry of a product stays below the base and the remainder of a quotient below the divisor. What
comes out stands for the exact number (`wordOperations_exact`).
-/

namespace Cognate.Limbs

variable {ls : Limbs} {l factor divisor : UInt64} {n carry above bits : Nat}

namespace Machine

/-! ## Steps -/

/-- A number of 128 bits. -/
def wide? (n : Nat) : Option Nat := if n < limbBase * limbBase then some n else none

/-- The word of a number that one word holds. -/
def narrow? (n : Nat) : Option UInt64 := if n < limbBase then some (UInt64.ofNat n) else none

/-- A quotient by a number that is not zero. -/
def div? (n m : Nat) : Option Nat := if m = 0 then none else some (n / m)

/-- Drops words from the end as long as the last one is zero. -/
def trim (ls : Limbs) : Limbs := ls.rdropWhile (· == 0)

/-- The low word and what is above it, without zeros on top. -/
def ofNat128 (n : Nat) : Option Limbs := do
  return trim [UInt64.ofNat n, ← narrow? (n >>> 64)]

/-- `mulCarry`, step by step: of every product the low word stays, and what is above it goes into the next one. -/
def mulCarry (factor : UInt64) (carry : Nat) : Limbs → Option Limbs
  | [] => if carry = 0 then some [] else do return [← narrow? carry]
  | l :: ls => do
    let product ← wide? ((← wide? (l.toNat * factor.toNat)) + carry)
    return UInt64.ofNat product :: (← mulCarry factor (product >>> 64) ls)

def mul (factor : UInt64) (ls : Limbs) : Option Limbs := mulCarry factor 0 ls

/-- Every word shifted by fewer bits than it has. The bits that leave it come in below the next word; those that leave
the last one are a word of their own unless they are zero. -/
def shiftBits (bits : Nat) (carry : UInt64) : Limbs → Option Limbs
  | [] => some (if carry = 0 then [] else [carry])
  | l :: ls => do
    let next ← shr? l (← sub? 64 bits)
    let low ← shl? l bits
    return (low ||| carry) :: (← shiftBits bits next ls)

/-- `shiftLeft`, step by step; a shift by whole words leaves the bits of a word where they are. -/
def shiftLeft (shift : Nat) (ls : Limbs) : Option Limbs :=
  if ls.isZero then some ls
  else do
    let words ← if shift % 64 = 0 then some ls else shiftBits (shift % 64) 0 ls
    return List.replicate (shift / 64) 0 ++ words

/-- One word of the dividend, behind the quotient and the remainder of the words above it. -/
def divWord (divisor l : UInt64) (done : Limbs × Nat) : Option (Limbs × Nat) := do
  let current := (← wide? (done.2 <<< 64)) ||| l.toNat
  let quotient ← narrow? (← div? current divisor.toNat)
  return (quotient :: done.1, current % divisor.toNat)

/-- `divMod`, step by step, from the last word on. -/
def divMod (divisor : UInt64) (ls : Limbs) : Option (Limbs × UInt64) := do
  let (quotient, remainder) ← ls.foldrM (divWord divisor) ([], 0)
  return (quotient, ← narrow? remainder)

end Machine

/-! ## Zeros on top -/

theorem trimmed_concat (h : l ≠ 0) (ls : Limbs) : Trimmed (ls ++ [l]) := by
  induction ls with
  | nil => simp [Trimmed, trim, h]
  | cons k ls ih =>
    obtain ⟨k', ks, hrest⟩ : ∃ k' ks, ls ++ [l] = k' :: ks := List.exists_cons_of_ne_nil (by simp)
    unfold Trimmed at ih ⊢
    rw [List.cons_append, trim, ih, hrest]

theorem Machine.trim_eq (ls : Limbs) : Machine.trim ls = ls.trim := by
  unfold Machine.trim
  induction ls using List.reverseRecOn with
  | nil => rfl
  | append_singleton ls l ih =>
    by_cases hl : l = 0
    · rw [List.rdropWhile_concat_pos _ _ _ (by simp [hl]), ih]
      exact trim_congr (by simp [toNat_append, hl])
    · rw [List.rdropWhile_concat_neg _ _ _ (by simp [hl]), trimmed_concat hl]

/-! ## Bounds -/

theorem Machine.wide?_eq (h : n < limbBase * limbBase) : Machine.wide? n = some n := if_pos h

theorem Machine.narrow?_eq (h : n < limbBase) : Machine.narrow? n = some (UInt64.ofNat n) := if_pos h

theorem toNat_ofNat_of_lt (h : n < limbBase) : (UInt64.ofNat n).toNat = n := by
  rw [UInt64.toNat_ofNat']
  exact Nat.mod_eq_of_lt h

/-- A product of two words leaves room for one more word. -/
theorem product_lt (l factor : UInt64) (h : carry < limbBase) :
    l.toNat * factor.toNat + carry < limbBase * limbBase := by
  have hl : l.toNat ≤ limbBase - 1 := Nat.le_sub_one_of_lt l.toNat_lt
  have hf : factor.toNat ≤ limbBase - 1 := Nat.le_sub_one_of_lt factor.toNat_lt
  have hproduct := Nat.mul_le_mul hl hf
  simp only [limbBase_eq] at *
  omega

/-- What is above a word that the quotient of the words above goes around: a word again. -/
theorem quotient_lt (l : UInt64) (h : above < divisor.toNat) :
    (above * limbBase + l.toNat) / divisor.toNat < limbBase := by
  have hl : l.toNat < limbBase := l.toNat_lt
  rw [Nat.div_lt_iff_lt_mul (by omega)]
  calc above * limbBase + l.toNat < (above + 1) * limbBase := by rw [Nat.succ_mul]; omega
    _ ≤ divisor.toNat * limbBase := Nat.mul_le_mul_right _ h
    _ = limbBase * divisor.toNat := Nat.mul_comm _ _

/-- A word below a shifted number. -/
theorem shiftLeft_or (n : Nat) (l : UInt64) : n <<< 64 ||| l.toNat = n * limbBase + l.toNat := by
  rw [← Nat.shiftLeft_add_eq_or_of_lt l.toNat_lt, Nat.shiftLeft_eq]
  rfl

/-! ## Products -/

theorem Machine.mulCarry_eq (h : carry < limbBase) (ls : Limbs) :
    Machine.mulCarry factor carry ls = some (Limbs.mulCarry factor carry ls) := by
  induction ls generalizing carry with
  | nil =>
    rw [Machine.mulCarry, Limbs.mulCarry, Machine.narrow?_eq h]
    split <;> rfl
  | cons l ls ih =>
    have hsum := product_lt l factor h
    have hproduct : l.toNat * factor.toNat < limbBase * limbBase := by omega
    have hnext : (l.toNat * factor.toNat + carry) / limbBase < limbBase := Nat.div_lt_of_lt_mul hsum
    have hshift : (l.toNat * factor.toNat + carry) >>> 64 = (l.toNat * factor.toNat + carry) / limbBase :=
      Nat.shiftRight_eq_div_pow _ 64
    simp only [Machine.mulCarry, Limbs.mulCarry, Machine.wide?_eq hproduct, Machine.wide?_eq hsum, hshift, ih hnext,
      Option.bind_eq_bind, Option.bind_some, Option.pure_def]

theorem Machine.mul_eq (factor : UInt64) (ls : Limbs) : Machine.mul factor ls = some (ls.mul factor) :=
  Machine.mulCarry_eq limbBase_pos ls

/-! ## Shifts to the left -/

/-- A word shifted to the left over what comes in below is a step of the product by a power of two. -/
theorem Machine.shiftStep (hpos : bits ≠ 0) (h : bits < 64) (l k : UInt64) (hk : k.toNat < 2 ^ bits) :
    ∃ low next, Machine.shl? l bits = some low ∧ Machine.shr? l (64 - bits) = some next ∧
      low ||| k = UInt64.ofNat (l.toNat * 2 ^ bits + k.toNat) ∧
      next.toNat = (l.toNat * 2 ^ bits + k.toNat) / limbBase ∧ next.toNat < 2 ^ bits := by
  obtain ⟨low, hlow, hlow'⟩ := Machine.shl?_eq h l
  obtain ⟨next, hnext, hnext'⟩ := Machine.shr?_eq (show 64 - bits < 64 by omega) l
  have hpow : 2 ^ (64 - bits) * 2 ^ bits = limbBase := by
    rw [← Nat.pow_add, Nat.sub_add_cancel h.le]
    rfl
  -- The bits that leave the word and those that stay, moved up.
  have hsplit : l.toNat * 2 ^ bits + k.toNat =
      limbBase * (l.toNat / 2 ^ (64 - bits)) + (l.toNat % 2 ^ (64 - bits) * 2 ^ bits + k.toNat) := by
    conv => lhs; rw [← Nat.div_add_mod l.toNat (2 ^ (64 - bits))]
    rw [← hpow]
    ring
  have hstays : l.toNat % 2 ^ (64 - bits) * 2 ^ bits + k.toNat < limbBase := by
    have hmod := Nat.mul_le_mul_right (2 ^ bits) (Nat.mod_lt l.toNat (Nat.two_pow_pos (64 - bits)))
    rw [Nat.succ_mul, hpow] at hmod
    omega
  refine ⟨low, next, hlow, hnext, UInt64.toNat_inj.1 ?_, ?_, ?_⟩
  · have hbase : limbBase = 2 ^ 64 := rfl
    rw [UInt64.toNat_or, hlow', UInt64.toNat_ofNat', hsplit, ← hbase, Nat.mul_add_mod, Nat.mod_eq_of_lt hstays,
      ← Nat.shiftLeft_eq, Nat.shiftLeft_add_eq_or_of_lt hk]
  · rw [hnext', hsplit, Nat.mul_add_div limbBase_pos, Nat.div_eq_of_lt hstays, Nat.add_zero]
  · rw [hnext', Nat.div_lt_iff_lt_mul (Nat.two_pow_pos _), Nat.mul_comm, hpow]
    exact l.toNat_lt

theorem Machine.shiftBits_eq (hpos : bits ≠ 0) (h : bits < 64) (k : UInt64) (hk : k.toNat < 2 ^ bits) (ls : Limbs) :
    Machine.shiftBits bits k ls = some (Limbs.mulCarry (UInt64.ofNat (Nat.pow 2 bits)) k.toNat ls) := by
  have hword := toNat_powWord h
  induction ls generalizing k with
  | nil =>
    rw [Machine.shiftBits, Limbs.mulCarry, UInt64.ofNat_toNat]
    simp only [← UInt64.toNat_inj, UInt64.toNat_zero]
  | cons l ls ih =>
    obtain ⟨low, next, hlow, hnext, hor, hcarry, hlt⟩ := Machine.shiftStep hpos h l k hk
    have hbits : Machine.sub? 64 bits = some (64 - bits) := if_pos h.le
    simp only [Machine.shiftBits, Limbs.mulCarry, hbits, hlow, hnext, hor, ih next hlt, hcarry, hword,
      Option.bind_eq_bind, Option.bind_some, Option.pure_def]

theorem mul_one (ls : Limbs) : ls.mul 1 = ls := by
  unfold mul
  induction ls with
  | nil => rfl
  | cons l ls ih =>
    have hl : l.toNat / limbBase = 0 := Nat.div_eq_of_lt l.toNat_lt
    rw [mulCarry]
    simp only [UInt64.toNat_one, Nat.mul_one, Nat.add_zero, hl, UInt64.ofNat_toNat, ih]

theorem Machine.shiftLeft_eq (shift : Nat) (ls : Limbs) : Machine.shiftLeft shift ls = some (ls.shiftLeft shift) := by
  have hbits : shift % 64 < 64 := Nat.mod_lt _ (by omega)
  rw [Machine.shiftLeft, Limbs.shiftLeft]
  split
  · rfl
  · by_cases hzero : shift % 64 = 0
    · rw [if_pos hzero, hzero]
      exact congrArg (some <| List.replicate (shift / 64) 0 ++ ·) (mul_one ls).symm
    · rw [if_neg hzero, Machine.shiftBits_eq hzero hbits 0 (Nat.two_pow_pos _)]
      rfl

/-! ## Quotients -/

theorem Machine.divWord_eq (l : UInt64) (h : above < divisor.toNat) (quotient : Limbs) :
    Machine.divWord divisor l (quotient, above) =
      some (UInt64.ofNat ((above * limbBase + l.toNat) / divisor.toNat) :: quotient,
        (above * limbBase + l.toNat) % divisor.toNat) := by
  have habove : above < limbBase := h.trans divisor.toNat_lt
  have hwide : above <<< 64 < limbBase * limbBase := by
    rw [Nat.shiftLeft_eq]
    exact Nat.mul_lt_mul_of_pos_right habove limbBase_pos
  have hdiv : ∀ n, Machine.div? n divisor.toNat = some (n / divisor.toNat) := fun n => if_neg (by omega)
  simp only [Machine.divWord, Machine.wide?_eq hwide, shiftLeft_or, hdiv, Machine.narrow?_eq (quotient_lt l h),
    Option.bind_eq_bind, Option.bind_some, Option.pure_def]

/-- By induction on the words: the remainder of those above stays below the divisor. -/
theorem Machine.foldrM_divWord (h : 0 < divisor.toNat) (ls : Limbs) :
    ls.foldrM (Machine.divWord divisor) ([], 0) = some (ls.divMod divisor) := by
  induction ls with
  | nil => rfl
  | cons l ls ih =>
    have hremainder := (divMod_spec divisor ls h).2
    rcases hdone : Limbs.divMod divisor ls with ⟨quotient, above⟩
    rw [hdone] at ih hremainder
    have hlt : above < divisor.toNat := hremainder.trans_lt (Nat.mod_lt _ h)
    rw [List.foldrM_cons, ih, Option.bind_eq_bind, Option.bind_some, Machine.divWord_eq l hlt, Limbs.divMod, hdone]

theorem Machine.divMod_eq (h : 0 < divisor.toNat) (ls : Limbs) :
    Machine.divMod divisor ls = some ((ls.divMod divisor).1, UInt64.ofNat (ls.divMod divisor).2) := by
  have hlt : (ls.divMod divisor).2 < limbBase := by
    rw [(divMod_spec divisor ls h).2]
    exact (Nat.mod_lt _ h).trans divisor.toNat_lt
  simp only [Machine.divMod, Machine.foldrM_divWord h, Machine.narrow?_eq hlt, Option.bind_eq_bind, Option.bind_some,
    Option.pure_def]

/-! ## Every operation -/

theorem Machine.ofNat128_eq (h : n < 2 ^ 128) : Machine.ofNat128 n = some (Limbs.ofNat128 n) := by
  have hhigh : n / limbBase < limbBase := Nat.div_lt_of_lt_mul h
  have hshift : n >>> 64 = n / limbBase := Nat.shiftRight_eq_div_pow n 64
  simp only [Machine.ofNat128, Limbs.ofNat128, hshift, Machine.narrow?_eq hhigh, Machine.trim_eq, Option.bind_eq_bind,
    Option.bind_some, Option.pure_def]

/-- Without a step that stops, trimming keeps the number of the words, products, shifts to the left and quotients have
the number that they should, with the remainder as what is answered, and the words of a number of 128 bits stand for it;
no zeros stand on top of these or of trimmed words. -/
theorem wordOperations_exact (ls : Limbs) :
    (Machine.trim ls = ls.trim ∧ ls.trim.toNat = ls.toNat ∧ ls.trim.getLast? ≠ some 0) ∧
      (∀ factor, Machine.mul factor ls = some (ls.mul factor) ∧
        (ls.mul factor).toNat = ls.toNat * factor.toNat) ∧
      (∀ shift, Machine.shiftLeft shift ls = some (ls.shiftLeft shift) ∧
        (ls.shiftLeft shift).toNat = ls.toNat * 2 ^ shift) ∧
      (∀ divisor, divisor ≠ 0 → ∃ quotient remainder, Machine.divMod divisor ls = some (quotient, remainder) ∧
        ls.divMod divisor = (quotient, remainder.toNat) ∧ quotient.toNat = ls.toNat / divisor.toNat ∧
        remainder.toNat = ls.toNat % divisor.toNat) ∧
      ∀ n < 2 ^ 128, Machine.ofNat128 n = some (ofNat128 n) ∧ (ofNat128 n).toNat = n ∧
        (ofNat128 n).getLast? ≠ some 0 := by
  refine ⟨⟨Machine.trim_eq ls, toNat_trim ls, (trimmed_trim ls).getLast?_ne⟩,
    fun factor => ⟨Machine.mul_eq factor ls, toNat_mul factor ls⟩,
    fun shift => ⟨Machine.shiftLeft_eq shift ls, toNat_shiftLeft shift ls⟩, fun divisor hne => ?_, fun n hn => ?_⟩
  · have hpos : 0 < divisor.toNat := Nat.pos_of_ne_zero fun hz => hne (UInt64.toNat_inj.1 hz)
    obtain ⟨hquotient, hremainder⟩ := divMod_spec divisor ls hpos
    have hlt : (ls.divMod divisor).2 < limbBase := by
      rw [hremainder]
      exact (Nat.mod_lt _ hpos).trans divisor.toNat_lt
    refine ⟨_, _, Machine.divMod_eq hpos ls, ?_, hquotient, ?_⟩
    · rw [toNat_ofNat_of_lt hlt]
    · rw [toNat_ofNat_of_lt hlt, hremainder]
  · exact ⟨Machine.ofNat128_eq hn, toNat_ofNat128 hn, (trimmed_trim _).getLast?_ne⟩

/-- The greatest divisor: the remainder of the word above fills its word, and so does the greatest number of 128 bits
its two words. -/
theorem wordOperations_exact_greatest :
    (0xFFFFFFFFFFFFFFFF : UInt64) ≠ 0 ∧ 2 ^ 128 - 1 < 2 ^ 128 ∧
      (∃ quotient remainder, Machine.divMod 0xFFFFFFFFFFFFFFFF [5, 0xFFFFFFFFFFFFFFFE] = some (quotient, remainder) ∧
        quotient.toNat = 0xFFFFFFFFFFFFFFFF ∧ remainder.toNat = 4) ∧
      ∃ words, Machine.ofNat128 (2 ^ 128 - 1) = some words ∧ words.toNat = 2 ^ 128 - 1 := by
  have hne : (0xFFFFFFFFFFFFFFFF : UInt64) ≠ 0 := by decide
  have hlt : 2 ^ 128 - 1 < 2 ^ 128 := by decide
  obtain ⟨-, -, -, hdivision, hwords⟩ := wordOperations_exact [5, 0xFFFFFFFFFFFFFFFE]
  obtain ⟨quotient, remainder, hrun, -, hquotient, hremainder⟩ := hdivision 0xFFFFFFFFFFFFFFFF hne
  obtain ⟨hmade, hnumber, -⟩ := hwords (2 ^ 128 - 1) hlt
  exact ⟨hne, hlt, ⟨quotient, remainder, hrun, hquotient.trans (by decide +kernel),
    hremainder.trans (by decide +kernel)⟩, _, hmade, hnumber⟩

end Cognate.Limbs
