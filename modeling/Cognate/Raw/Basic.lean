import Cognate.Number.WideInt
import Cognate.Text.Shortest

/-! # Raw values

Values as a trace records them: the type a value was captured as, and the value itself. Aggregates are named by types
only; no value has one. -/

namespace Cognate

/-- The type a value was captured as. -/
inductive RawType where
  | void
  | float
  | double
  | pointer
  | int (bits : Nat)
  | struct (fields : List RawType)
  | array (element : RawType) (count : Nat)
  | vector (element : RawType) (count : Nat)
deriving Repr

namespace RawType

def isAggregate : RawType → Bool
  | struct _ | array _ _ | vector _ _ => true
  | _ => false

/-- Bytes of the encoding, if there is one. Integers take whole words, at least one. -/
def encodedSize? : RawType → Option Nat
  | void => some 0
  | float => some 4
  | double => some 8
  | pointer => some 8
  | int bits => some (8 * wordsFor (max bits 1))
  | struct _ | array _ _ | vector _ _ => none

mutual

/-- The type in words. -/
def describe : RawType → String
  | void => "void"
  | float => "float"
  | double => "double"
  | pointer => "ptr"
  | int bits => s!"i{bits}"
  | struct fields => "\x7b " ++ ", ".intercalate (describeAll fields) ++ " \x7d"
  | array element count => s!"[{count} x {element.describe}]"
  | vector element count => s!"<{count} x {element.describe}>"

/-- The types in words, one by one. -/
def describeAll : List RawType → List String
  | [] => []
  | t :: ts => t.describe :: describeAll ts

end

end RawType

/-- A recorded value; floats are kept as their bits. -/
inductive RawValue where
  | void
  | float (bits : UInt32)
  | double (bits : UInt64)
  | pointer (address : UInt64)
  | int (value : WideInt)
deriving DecidableEq, Repr

namespace RawValue

/-- The type a value is written as. -/
def type : RawValue → RawType
  | void => .void
  | float _ => .float
  | double _ => .double
  | pointer _ => .pointer
  | int value => .int value.bits

/-- Integers in unsigned decimal, pointers in hexadecimal, floats by their shortest digits. -/
def text : RawValue → String
  | void => ""
  | float bits => Text.shortest .plain .binary32 bits.toNat
  | double bits => Text.shortest .plain .binary64 bits.toNat
  | pointer address => "0x" ++ String.ofList (Nat.toDigits 16 address.toNat)
  | int value => value.toDecimal

/-- The value in a message. -/
def label : RawValue → String
  | void => "Void"
  | float bits => "Float(" ++ Text.shortest .listing .binary32 bits.toNat ++ ")"
  | double bits => "Double(" ++ Text.shortest .listing .binary64 bits.toNat ++ ")"
  | pointer address => s!"Pointer({address.toNat})"
  | int value =>
    let words := ", ".intercalate (value.words.map fun w => toString w.toNat)
    s!"Int(ApInt \x7b bits: {value.bits}, words: [{words}] \x7d)"

end RawValue
end Cognate
