import Cognate.Grammar.Arithmetic
import Cognate.Grammar.Literal
import Mathlib.Algebra.Order.Ring.Int
import Mathlib.Tactic.Linarith

/-!
# Arithmetic in machine words

Constant expressions are numbers of 128 bits (`Fits`): literals and operators give such numbers or refuse. Casts and the
ranges of integer types shift, subtract and divide without a check of their own; `Machine` does the same step by step
and stops where a result does not fit, a shift is too wide, or a divisor is zero. On the targets there are it never
stops, and comes to the same results.
-/

namespace Cognate.Grammar

variable {a b m n : Int} {k : Nat} {op : BinaryOp} {cause : Cause} {target : Target} {e : Extent}

/-- A word of 128 bits holds the number. -/
def Fits (n : Int) : Prop := leastInt ≤ n ∧ n ≤ greatestInt

theorem leastInt_eq : leastInt = -170141183460469231731687303715884105728 := by decide

theorem greatestInt_eq : greatestInt = 170141183460469231731687303715884105727 := by decide

theorem fits?_eq_some : fits? n = some m ↔ Fits n ∧ n = m := by
  rw [fits?, Option.ite_none_right_eq_some, Option.some.injEq]
  rfl

theorem fits?_of_fits (h : Fits n) : fits? n = some n := fits?_eq_some.2 ⟨h, rfl⟩

theorem fits_of_bounds (hlow : -(2 ^ 64) ≤ n) (hhigh : n ≤ 2 ^ 64) : Fits n := by
  rw [Fits, leastInt_eq, greatestInt_eq]
  omega

/-! ## Operators -/

theorem checked_fits (h : checked n = .ok m) : Fits m := by
  unfold checked at h
  split at h
  · next hfits =>
    cases h
    obtain ⟨hn, rfl⟩ := fits?_eq_some.1 hfits
    exact hn
  · cases h

theorem truth_fits (p : Bool) : Fits (truth p) := by
  cases p <;> exact fits_of_bounds (by decide) (by decide)

theorem wrap_fits (n : Int) : Fits (wrap n) := by
  have hlow := Int.le_bmod (x := n) (m := Nat.pow 2 128) (by decide)
  have hhigh := Int.bmod_lt (x := n) (m := Nat.pow 2 128) (by decide)
  rw [Fits, leastInt_eq, greatestInt_eq, wrap]
  norm_num at hlow hhigh ⊢
  omega

theorem wrap_of_fits (h : Fits n) : wrap n = n := by
  rw [Fits, leastInt_eq, greatestInt_eq] at h
  refine Int.bmod_eq_of_le ?_ ?_ <;> norm_num <;> omega

theorem bitwise_fits (f : BitVec 128 → BitVec 128 → BitVec 128) (a b : Int) : Fits (bitwise f a b) := by
  have hlow := BitVec.le_toInt (f (BitVec.ofInt 128 a) (BitVec.ofInt 128 b))
  have hhigh := BitVec.toInt_lt (x := f (BitVec.ofInt 128 a) (BitVec.ofInt 128 b))
  rw [Fits, leastInt_eq, greatestInt_eq, bitwise]
  norm_num at hlow hhigh ⊢
  omega

theorem complement_fits (h : Fits n) : Fits (complement n) := by
  rw [Fits, leastInt_eq, greatestInt_eq] at *
  simp only [complement]
  omega

/-- A quotient by a positive number stays between zero and the dividend, or in front of zero. -/
theorem ediv_fits (h : Fits n) (hm : 0 < m) : Fits (n / m) := by
  rw [Fits, leastInt_eq, greatestInt_eq] at *
  constructor
  · exact (Int.le_ediv_iff_mul_le hm).2 (by nlinarith)
  · exact Int.ediv_le_of_le_mul hm (by nlinarith)

theorem tmod_fits (hb : Fits b) (hne : b ≠ 0) : Fits (a.tmod b) := by
  have habs := Int.natAbs_tmod a b
  have hlt := Nat.mod_lt a.natAbs (Int.natAbs_pos.2 hne)
  rw [Fits, leastInt_eq, greatestInt_eq] at *
  omega

theorem emod_fits (ha : Fits a) (hb : Fits b) : Fits (a % b) := by
  by_cases hzero : b = 0
  · rwa [hzero, Int.emod_zero]
  · have hlow := Int.emod_nonneg a hzero
    have hhigh := Int.emod_lt a hzero
    rw [Fits, leastInt_eq, greatestInt_eq] at *
    omega

/-- An operator gives a number of 128 bits, or refuses. -/
theorem fold_fits (ha : Fits a) (hb : Fits b) (h : fold op a b = .ok n) : Fits n := by
  cases op with
  | add | subtract | multiply => exact checked_fits h
  | divide =>
    simp only [fold] at h
    split_ifs at h
    exact checked_fits h
  | remainder =>
    simp only [fold] at h
    split_ifs at h with hzero
    cases hq : checked (a.tdiv b) with
    | error cause =>
      rw [hq] at h
      cases h
    | ok q =>
      rw [hq] at h
      cases h
      exact tmod_fits hb hzero
  | shiftLeft =>
    simp only [fold] at h
    cases hk : shiftAmount b with
    | error cause =>
      rw [hk] at h
      cases h
    | ok k =>
      rw [hk] at h
      cases h
      exact wrap_fits _
  | shiftRight =>
    simp only [fold] at h
    cases hk : shiftAmount b with
    | error cause =>
      rw [hk] at h
      cases h
    | ok k =>
      rw [hk] at h
      cases h
      exact ediv_fits ha (Int.pow_pos (by decide))
  | less | greater | lessEqual | greaterEqual | equal | notEqual | and | or =>
    cases h
    exact truth_fits _
  | bitAnd | bitOr | bitXor =>
    cases h
    exact bitwise_fits _ _ _

/-! ## Literals -/

theorem integerValue?_fits {c : LiteralClass} {text : String} (h : integerValue? c text = some n) : Fits n := by
  unfold integerValue? at h
  dsimp only at h
  split at h
  · cases h
    exact fits_of_bounds (by decide) (by decide)
  · obtain ⟨k, hk, rfl⟩ := Option.map_eq_some_iff.1 h
    have hlt : k < literalLimit := by simpa using (Option.filter_eq_some_iff.1 hk).2
    have hlimit : literalLimit = 170141183460469231731687303715884105728 := by decide
    rw [Fits, leastInt_eq, greatestInt_eq]
    simp only [Int.ofNat_eq_natCast]
    omega

theorem signedNumeral?_lt {radix limit : Nat} {cs : List Char} (h : Text.signedNumeral? radix limit cs = some k) :
    k < limit := by
  unfold Text.signedNumeral? at h
  simpa using (Option.filter_eq_some_iff.1 h).2

theorem escapedCode?_lt {cs : List Char} (h : escapedCode? cs = some k) : k < Nat.pow 2 32 := by
  unfold escapedCode? at h
  split at h
  · exact signedNumeral?_lt h
  · next c rest _ =>
    split at h
    · next code hcode =>
      cases h
      unfold simpleEscape? at hcode
      split at hcode <;> cases hcode <;> decide
    · split_ifs at h
      exact signedNumeral?_lt h
  · cases h

/-- A code is a word of 32 bits. -/
theorem characterCode?_lt {cs : List Char} (h : characterCode? cs = some k) : k < Nat.pow 2 32 := by
  unfold characterCode? at h
  split at h
  · exact escapedCode?_lt h
  · next c _ =>
    cases h
    exact c.val.toNat_lt
  · cases h

theorem characterValue?_fits {charIsSigned : Bool} {text : String} (h : characterValue? charIsSigned text = some n) :
    Fits n := by
  obtain ⟨_, hcode, rfl⟩ := Option.map_eq_some_iff.1 h
  obtain ⟨k, hk, hcode⟩ := Option.bind_eq_some_iff.1 hcode
  cases hcode
  have hlt := characterCode?_lt hk
  have hpow : Nat.pow 2 32 = 4294967296 := by decide
  refine fits_of_bounds ?_ ?_ <;> split <;> omega

/-! ## Casts and ranges -/

/-- The widths there are, in bits: integers have as many as a power of two says. -/
theorem Target.extent_of_presets (ht : target ∈ Target.presets) {b : Builtin} (he : target.extent b = some e) :
    e.width ≤ 128 ∧ e.align ≤ 128 ∧ (b.isInteger = true → e.width ∈ [8, 16, 32, 64, 128]) := by
  have hall : ∀ target ∈ Target.presets, ∀ b ∈ Builtin.all, ∀ e ∈ target.extent b,
      e.width ≤ 128 ∧ e.align ≤ 128 ∧ (b.isInteger = true → e.width ∈ [8, 16, 32, 64, 128]) := by decide
  exact hall target ht b (Builtin.mem_all b) e he

namespace Machine

/-- One shifted to the left, in 128 bits. -/
def shiftOne (k : Nat) : Option Int := if k < 128 then some (wrap (Int.pow 2 k)) else none

/-- The remainder that is not negative. -/
def remainder (n m : Int) : Option Int := if m = 0 then none else fits? (n % m)

/-- `convert`, step by step. -/
def convert (target : Target) (b : Builtin) (n : Int) : Option Int :=
  match b, target.extent b with
  | .bool, _ => some (truth (n ≠ 0))
  | _, none => some n
  | _, some e =>
    if !b.isInteger || 128 ≤ e.width then some n
    else do
      let modulus ← shiftOne e.width
      let low ← remainder n modulus
      if b.isSigned && modulus / 2 ≤ low then fits? (low - modulus) else some low

/-- `integerRange?`, step by step; a width without bits has no predecessor. -/
def integerRange (target : Target) (b : Builtin) : Option (Option (Int × Int)) :=
  match target.extent b with
  | none => some none
  | some e =>
    if !b.isInteger then some none
    else if 128 ≤ e.width then some (some (if b.isSigned then leastInt else 0, greatestInt))
    else if b.isSigned then do
      let half ← if e.width = 0 then none else shiftOne (e.width - 1)
      let least ← fits? (-half)
      let greatest ← fits? (half - 1)
      return some (least, greatest)
    else do
      let limit ← shiftOne e.width
      let greatest ← fits? (limit - 1)
      return some (0, greatest)

theorem shiftOne_eq (hk : k ≤ 64) : shiftOne k = some (2 ^ k) := by
  have hpow : (2 : Int) ^ k ≤ 2 ^ 64 := pow_le_pow_right₀ (by decide) hk
  have hpos : (0 : Int) < 2 ^ k := Int.pow_pos (by decide)
  rw [shiftOne, if_pos (by omega)]
  exact congrArg some (wrap_of_fits (n := 2 ^ k) (fits_of_bounds (by omega) hpow))

theorem remainder_eq (hm : 0 < m) (hle : m ≤ 2 ^ 64) : remainder n m = some (n % m) := by
  have hlow := Int.emod_nonneg n hm.ne'
  have hhigh := Int.emod_lt_of_pos n hm
  rw [remainder, if_neg hm.ne', fits?_of_fits (fits_of_bounds (by omega) (by omega))]

end Machine

/-- An integer type has 128 bits, or from 8 to 64 of them. -/
theorem integer_width (ht : target ∈ Target.presets) {b : Builtin} (he : target.extent b = some e)
    (hint : b.isInteger = true) : 128 ≤ e.width ∨ 0 < e.width ∧ e.width ≤ 64 := by
  have hwidth := (Target.extent_of_presets ht he).2.2 hint
  simp only [List.mem_cons, List.not_mem_nil, or_false] at hwidth
  omega

theorem pow_fits (hk : k ≤ 64) : (0 : Int) < 2 ^ k ∧ (2 : Int) ^ k ≤ 2 ^ 64 :=
  ⟨Int.pow_pos (by decide), pow_le_pow_right₀ (by decide) hk⟩

theorem convert_of_extent {b : Builtin} (hbool : b ≠ .bool) (he : target.extent b = some e) (n : Int) :
    convert target b n =
      if !b.isInteger || 128 ≤ e.width then n
      else if b.isSigned && wrap (2 ^ e.width) / 2 ≤ n % wrap (2 ^ e.width) then
        wrap (n % wrap (2 ^ e.width) - wrap (2 ^ e.width))
      else n % wrap (2 ^ e.width) := by
  unfold convert
  split
  · exact absurd rfl hbool
  · next he' => cases he'.symm.trans he
  · next he' =>
    cases he'.symm.trans he
    rfl

theorem Machine.convert_of_extent {b : Builtin} (hbool : b ≠ .bool) (he : target.extent b = some e) (n : Int) :
    Machine.convert target b n =
      if !b.isInteger || 128 ≤ e.width then some n
      else (shiftOne e.width).bind fun modulus => (remainder n modulus).bind fun low =>
        if b.isSigned && modulus / 2 ≤ low then fits? (low - modulus) else some low := by
  unfold Machine.convert
  split
  · exact absurd rfl hbool
  · next he' => cases he'.symm.trans he
  · next he' =>
    cases he'.symm.trans he
    rfl

/-- A cast neither overflows nor shifts too far, whatever it is a cast to. -/
theorem Machine.convert_eq (ht : target ∈ Target.presets) (b : Builtin) (n : Int) :
    Machine.convert target b n = some (Grammar.convert target b n) := by
  by_cases hbool : b = .bool
  · subst hbool
    rfl
  · cases he : target.extent b with
    | none => cases b <;> simp_all [Machine.convert, Grammar.convert]
    | some e =>
      rw [Machine.convert_of_extent hbool he, Grammar.convert_of_extent hbool he]
      by_cases hcheck : (!b.isInteger || decide (128 ≤ e.width)) = true
      · rw [if_pos hcheck, if_pos hcheck]
      · rw [if_neg hcheck, if_neg hcheck]
        simp only [Bool.or_eq_true, Bool.not_eq_true', decide_eq_true_eq, not_or, Bool.not_eq_false] at hcheck
        obtain ⟨-, hk⟩ := (integer_width ht he hcheck.1).resolve_left hcheck.2
        obtain ⟨hpos, hle⟩ := pow_fits hk
        have hlow := Int.emod_nonneg n hpos.ne'
        have hhigh := Int.emod_lt_of_pos n hpos
        have hdifference : Fits (n % 2 ^ e.width - 2 ^ e.width) := fits_of_bounds (by omega) (by omega)
        rw [shiftOne_eq hk, wrap_of_fits (fits_of_bounds (by omega) hle), Option.bind_some, remainder_eq hpos hle,
          Option.bind_some]
        split_ifs
        · rw [fits?_of_fits hdifference, wrap_of_fits hdifference]
        · rfl

theorem convert_fits {b : Builtin} (h : Fits n) : Fits (convert target b n) := by
  by_cases hbool : b = .bool
  · subst hbool
    exact truth_fits _
  · cases he : target.extent b with
    | none => cases b <;> simp_all [convert]
    | some e =>
      rw [convert_of_extent hbool he]
      split_ifs
      · exact h
      · exact wrap_fits _
      · exact emod_fits h (wrap_fits _)

/-- Nor does the range of a type. -/
theorem Machine.integerRange_eq (ht : target ∈ Target.presets) (b : Builtin) :
    Machine.integerRange target b = some (integerRange? target b) := by
  unfold Machine.integerRange integerRange?
  cases he : target.extent b with
  | none => simp
  | some e =>
    by_cases hint : b.isInteger = true
    · simp only [hint, Bool.not_true, Bool.false_eq_true, if_false, Option.map_some]
      rcases integer_width ht he hint with hwide | ⟨hpos, hk⟩
      · cases hsigned : b.isSigned <;> simp [hwide]
      · have hnarrow : ¬128 ≤ e.width := by omega
        have hzero : ¬e.width = 0 := by omega
        obtain ⟨hhalf, hhalf'⟩ := pow_fits (k := e.width - 1) (by omega)
        obtain ⟨hfull, hfull'⟩ := pow_fits hk
        cases hsigned : b.isSigned
        · simp only [hnarrow, if_false, Bool.false_eq_true, shiftOne_eq hk, Option.bind_eq_bind, Option.bind_some,
            fits?_of_fits (fits_of_bounds (n := 2 ^ e.width - 1) (by omega) (by omega))]
          rfl
        · simp only [hnarrow, hzero, or_self, if_false, if_true, shiftOne_eq (show e.width - 1 ≤ 64 by omega),
            Option.bind_eq_bind, Option.bind_some,
            fits?_of_fits (fits_of_bounds (n := -2 ^ (e.width - 1)) (by omega) (by omega)),
            fits?_of_fits (fits_of_bounds (n := 2 ^ (e.width - 1) - 1) (by omega) (by omega))]
          rfl
    · simp [hint]

end Cognate.Grammar
