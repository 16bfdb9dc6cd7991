import Cognate.Fault
import Cognate.Target

/-! # Constant arithmetic

Operators of constant expressions on signed numbers of 128 bits. A sum, product or quotient that does not fit is a
fault; a shift to the left drops the bits that do not fit. -/

namespace Cognate.Grammar

/-- The least number of 128 bits. -/
def leastInt : Int := -Int.pow 2 127

/-- The greatest number of 128 bits. -/
def greatestInt : Int := Int.pow 2 127 - 1

/-- A number, if 128 bits hold it. -/
def fits? (n : Int) : Option Int := if leastInt ≤ n ∧ n ≤ greatestInt then some n else none

/-- The number of 128 bits that agrees with `n` in its low bits. -/
def wrap (n : Int) : Int := n.bmod (Nat.pow 2 128)

def truth (b : Bool) : Int := if b then 1 else 0

/-- An operation on the bits of two's complement. -/
def bitwise (f : BitVec 128 → BitVec 128 → BitVec 128) (a b : Int) : Int :=
  (f (BitVec.ofInt 128 a) (BitVec.ofInt 128 b)).toInt

/-- All bits inverted. -/
def complement (n : Int) : Int := -n - 1

/-- A result that has to fit. -/
def checked (n : Int) : Except Cause Int :=
  match fits? n with
  | some n => .ok n
  | none => .error .overflow

/-- The amount of a shift, below the width. -/
def shiftAmount (n : Int) : Except Cause Nat :=
  if 0 ≤ n ∧ n < 128 then .ok n.toNat else .error (.shiftAmount n)

/-- The value of an operator. Quotients are rounded towards zero, and remainders have the sign of the dividend; the
least number has no quotient and no remainder by -1. -/
def fold (op : BinaryOp) (a b : Int) : Except Cause Int :=
  match op with
  | .add => checked (a + b)
  | .subtract => checked (a - b)
  | .multiply => checked (a * b)
  | .divide => if b = 0 then .error .divisionByZero else checked (a.tdiv b)
  | .remainder =>
    if b = 0 then .error .divisionByZero else (checked (a.tdiv b)).map fun _ => a.tmod b
  | .shiftLeft => (shiftAmount b).map fun n => wrap (a * Int.pow 2 n)
  | .shiftRight => (shiftAmount b).map fun n => a / Int.pow 2 n
  | .less => .ok (truth (a < b))
  | .greater => .ok (truth (a > b))
  | .lessEqual => .ok (truth (a ≤ b))
  | .greaterEqual => .ok (truth (a ≥ b))
  | .equal => .ok (truth (a = b))
  | .notEqual => .ok (truth (a ≠ b))
  | .bitAnd => .ok (bitwise (· &&& ·) a b)
  | .bitOr => .ok (bitwise (· ||| ·) a b)
  | .bitXor => .ok (bitwise (· ^^^ ·) a b)
  | .and => .ok (truth (a ≠ 0 ∧ b ≠ 0))
  | .or => .ok (truth (a ≠ 0 ∨ b ≠ 0))

/-- The value of a number converted to a builtin type. Integers keep their low bits, `_Bool` keeps whether it is zero;
types of 128 bits or more, and types that are no integers, change nothing. All is computed in 128 bits, where the count
of the values of 127 bits is negative. -/
def convert (target : Target) (b : Builtin) (n : Int) : Int :=
  match b, target.extent b with
  | .bool, _ => truth (n ≠ 0)
  | _, none => n
  | _, some e =>
    if !b.isInteger || 128 ≤ e.width then n
    else
      let modulus := wrap (Int.pow 2 e.width)
      let low := n % modulus
      if b.isSigned && modulus / 2 ≤ low then wrap (low - modulus) else low

/-- The least and greatest value of an integer type. Unsigned types of 128 bits or more count as far as signed numbers
of 128 bits do, and a signed type without bits has the range of the widest. -/
def integerRange? (target : Target) (b : Builtin) : Option (Int × Int) :=
  if !b.isInteger then none
  else
    (target.extent b).map fun e =>
      if b.isSigned then
        if e.width = 0 ∨ 128 ≤ e.width then (leastInt, greatestInt)
        else (-Int.pow 2 (e.width - 1), Int.pow 2 (e.width - 1) - 1)
      else if 128 ≤ e.width then (0, greatestInt)
      else (0, Int.pow 2 e.width - 1)

end Cognate.Grammar
