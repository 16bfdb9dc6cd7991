import Cognate.Builtin
import Cognate.Number.LongDouble
import Cognate.Text.Fixed

/-! # Scalars in memory

How this machine keeps the builtin types, and the text of a value. -/

namespace Cognate

/-- The representation of a builtin type on this machine. -/
inductive HostForm where
  | void
  | bool
  | char
  | integer (size : Nat) (isSigned : Bool)
  | float (format : FloatFormat)
  | longDouble
  /-- No value is ever read. -/
  | unread
deriving DecidableEq, Repr

namespace HostForm

def ofBuiltin : Builtin → HostForm
  | .void => void
  | .bool => bool
  | .charU | .charS => char
  | .uchar => integer 1 false
  | .schar => integer 1 true
  | .char16 | .ushort => integer 2 false
  | .short => integer 2 true
  | .wcharU | .wcharS | .int => integer 4 true
  | .char32 | .uint => integer 4 false
  | .ulong | .ulongLong => integer 8 false
  | .long | .longLong => integer 8 true
  | .float => float .binary32
  | .double => float .binary64
  | .longDouble => longDouble
  | .uint128 | .int128 | .half | .nullPtr => unread

/-- Bytes of a value that is read. -/
def size? : HostForm → Option Nat
  | bool | char => some 1
  | integer size _ => some size
  | float format => some (format.width / 8)
  | longDouble => some LongDouble.host.size
  | void | unread => none

end HostForm

/-- Two's complement of a number of so many bytes. -/
def signedValue (size n : Nat) : Int := if 2 * n < Nat.pow 256 size then n else (n : Int) - Nat.pow 256 size

/-- The digits in a radix, in at least so many places. -/
def paddedDigits (radix width n : Nat) : List Char := Limbs.padZeros width (Nat.toDigits radix n)

/-- A character by itself if it is printable, otherwise as an escape. -/
def characterText (code : Nat) : String :=
  match code with
  | 0x09 => "\\t"
  | 0x0C => "\\f"
  | 0x0B => "\\v"
  | 0x0A => "\\n"
  | 0x0D => "\\r"
  | 0x00 => "\\0"
  | _ =>
    if 0x20 ≤ code && code ≤ 0x7E then (Char.ofNat code).toString
    else "\\" ++ String.ofList (paddedDigits 8 3 code)

namespace HostForm

/-- The text of a value of the right size; `none` if its bytes are no valid value. -/
def text? (form : HostForm) (bytes : List UInt8) : Option String :=
  let n := ofBytes bytes
  match form with
  | void => some "void"
  | bool => some (if n != 0 then "true" else "false")
  | char => some (characterText n)
  | integer size isSigned => some (if isSigned then toString (signedValue size n) else toString n)
  | float format => some (Text.fixed (FloatFormat.binary64.value (format.toBinary64 n)))
  | longDouble => LongDouble.host.text bytes
  | unread => none

end HostForm
end Cognate
