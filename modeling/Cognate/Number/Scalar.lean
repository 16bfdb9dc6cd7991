import Cognate.Number.ByteOrder
import Cognate.Text.Shortest

/-! # Scalars

The fixed-width values that a cell can hold: integers of whole bytes, and floats by their bits. -/

namespace Cognate

/-- Integers by their size in bytes, and the two floats. -/
inductive ScalarType where
  | unsigned (size : Nat)
  | signed (size : Nat)
  | float32
  | float64
deriving DecidableEq, Repr

namespace ScalarType

/-- Number of bytes. -/
def size : ScalarType → Nat
  | unsigned size | signed size => size
  | float32 => 4
  | float64 => 8

/-- The format of the floating types. -/
def format? : ScalarType → Option FloatFormat
  | float32 => some .binary32
  | float64 => some .binary64
  | _ => none

end ScalarType

/-- A value of a scalar type, as its bits. -/
structure Scalar (t : ScalarType) where
  bits : BitVec (8 * t.size)
deriving DecidableEq, Repr

namespace Scalar

variable {t : ScalarType}

/-- The integer modulo the width; for floats, the value of that bit pattern. -/
def ofInt (t : ScalarType) (n : Int) : Scalar t := ⟨BitVec.ofInt _ n⟩

/-- The integer that the bits stand for; for floats, the bit pattern. -/
def toInt (s : Scalar t) : Int :=
  match t with
  | .signed _ => s.bits.toInt
  | _ => s.bits.toNat

def zero (t : ScalarType) : Scalar t := ⟨0⟩

/-- The bytes on this machine. -/
def toBytes (s : Scalar t) : List UInt8 := Cognate.toBytes t.size s.bits.toNat

/-- The scalar with those bytes on this machine. -/
def ofBytes (t : ScalarType) (bs : List UInt8) : Scalar t := ⟨BitVec.ofNat _ (Cognate.ofBytes bs)⟩

/-- All bytes in reverse order. -/
def swapBytes (s : Scalar t) : Scalar t := ofBytes t s.toBytes.reverse

instance : SwapBytes (Scalar t) := ⟨swapBytes⟩

/-- Equality of this machine: of numbers for floats, of bits otherwise. -/
instance : BEq (Scalar t) where
  beq a b :=
    match t.format? with
    | some f => f.equal a.bits.toNat b.bits.toNat
    | none => a.bits == b.bits

/-- The value in a listing. -/
def text (s : Scalar t) : String :=
  match t.format? with
  | some f => Text.shortest .listing f s.bits.toNat
  | none => toString s.toInt

end Scalar
end Cognate
