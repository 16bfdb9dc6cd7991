import Cognate.Number.Bytes
import Cognate.Text.Fixed

/-! # Extended floats

The formats that `long double` has on one machine or another, and the exact decimal text of their values. -/

namespace Cognate

/-- The formats of `long double`. -/
inductive LongDouble where
  /-- Eighty bits with an explicit integer bit, in `storage` bytes. -/
  | extended (storage : Nat)
  | quadruple
  | double
deriving DecidableEq, Repr

namespace LongDouble

/-- The format of this machine. -/
def host : LongDouble := extended 16

/-- Bytes that a value takes in memory. -/
def size : LongDouble → Nat
  | extended storage => storage
  | quadruple => 16
  | double => 8

/-- Bytes that a value depends on. -/
def significantBytes : LongDouble → Nat
  | extended _ => 10
  | quadruple => 16
  | double => 8

/-- The value of eighty bits. The integer bit is explicit: a number other than a denormal one must have it set, and so
must an infinity. -/
def extendedValue (mantissa signExponent : Nat) : Option (FloatValue Limbs) :=
  let negative := signExponent / Nat.pow 2 15 == 1
  let stored : Nat := signExponent % Nat.pow 2 15
  let integerBit := mantissa / Nat.pow 2 63 == 1
  let significand : Limbs := [UInt64.ofNat mantissa]
  if stored == 0 then some (.finite negative significand (1 - 16383 - 63))
  else if !integerBit then none
  else if stored == Nat.pow 2 15 - 1 then
    some (if mantissa % Nat.pow 2 63 == 0 then .infinite negative else .nan negative)
  else some (.finite negative significand (stored - 16383 - 63))

/-- The value of some bytes; `none` if they are too few, or no valid encoding. -/
def value (format : LongDouble) (bytes : List UInt8) : Option (FloatValue Limbs) :=
  if bytes.length < format.significantBytes then none
  else
    match format with
    | extended _ => extendedValue (ofBytes (bytes.take 8)) (ofBytes ((bytes.drop 8).take 2))
    | quadruple => some ((FloatFormat.binary128.value (ofBytes (bytes.take 16))).map Limbs.ofNat128)
    | double => some ((FloatFormat.binary64.value (ofBytes (bytes.take 8))).map fun m => [UInt64.ofNat m])

end LongDouble

/-! ## Rendering -/

/-- Why a value is not rendered. -/
inductive RenderFault where
  /-- The bytes have no text, and so no length can be computed for it. -/
  | length
  /-- What is written is not of the length that was computed. -/
  | format
deriving DecidableEq, Repr

namespace LongDouble

/-- The pieces that the text of a value is written in, with six decimal places. -/
def pieces : FloatValue Limbs → List String
  | .infinite negative => [if negative then "-inf" else "inf"]
  | .nan negative => [if negative then "-nan" else "nan"]
  | .finite negative significand exponent =>
    let (whole, fraction) := Text.splitPlaces (Text.limbMillionths significand exponent).toDecimal.toList
    (if negative then ["-"] else []) ++ [String.ofList whole, ".", String.ofList fraction]

/-- Bytes of some pieces together, counted from `start` on. -/
def countBytes (start : Nat) : List String → Nat
  | [] => start
  | piece :: rest => countBytes (start + piece.utf8ByteSize) rest

/-- The pieces behind a text that takes no more than `limit` bytes; a piece that would take more is refused. -/
def fill (limit : Nat) (text : String) : List String → Option String
  | [] => some text
  | piece :: rest =>
    if text.utf8ByteSize + piece.utf8ByteSize > limit then none else fill limit (text ++ piece) rest

/-- The text of some bytes. Its length is computed first; the text is then written into a buffer of that size. -/
def render (format : LongDouble) (bytes : List UInt8) : Except RenderFault String :=
  match format.value bytes with
  | none => .error .length
  | some v =>
    let length := countBytes 0 (pieces v)
    match fill length "" (pieces v) with
    | none => .error .format
    | some text => if text.utf8ByteSize ≠ length then .error .format else .ok text

/-- The text of some bytes, if they have one. -/
def text (format : LongDouble) (bytes : List UInt8) : Option String := (format.render bytes).toOption

end LongDouble
end Cognate
