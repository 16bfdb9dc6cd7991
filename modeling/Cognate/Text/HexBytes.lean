import Cognate.Text.Blank
import Cognate.Text.Numeral

/-! # Bytes in hexadecimal

Bytes as they are typed: two digits each, in words that may start with a radix mark. -/

namespace Cognate.Text

/-- Why a text gives no bytes. -/
inductive HexFault where
  | notAscii
  | oddCount
  | badByte (pair : List Char)
deriving DecidableEq, Repr

/-- Without the two characters in front, as often as they stand there. -/
def dropMarks (first second : Char) : List Char → List Char
  | a :: b :: rest => if a = first ∧ b = second then dropMarks first second rest else a :: b :: rest
  | cs => cs

/-- The digits of a text: its words without their radix marks. -/
def hexDigits (text : String) : List Char :=
  (words text.toList).flatMap fun word => dropMarks '0' 'X' (dropMarks '0' 'x' word)

/-- Each two digits as a byte; a plus sign may stand for the first of them. -/
def pairBytes : List Char → Except HexFault (List UInt8)
  | a :: b :: rest =>
    match signedNumeral? 16 256 [a, b] with
    | some n => (pairBytes rest).map (UInt8.ofNat n :: ·)
    | none => .error (.badByte [a, b])
  | _ => .ok []

/-- The bytes that a text gives. -/
def hexBytes (text : String) : Except HexFault (List UInt8) :=
  let digits := hexDigits text
  if !digits.all fun c => c.toNat < 128 then .error .notAscii
  else if digits.length % 2 ≠ 0 then .error .oddCount
  else pairBytes digits

/-- The fault of a text in words. -/
def HexFault.message (text : String) : HexFault → String
  | notAscii => s!"invalid hex digits in '{text}'"
  | oddCount => s!"odd number of hex digits in '{text}'"
  | badByte pair => s!"invalid hex byte '{String.ofList pair}': invalid digit found in string"

end Cognate.Text
