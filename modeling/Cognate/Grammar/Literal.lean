import Cognate.Text.Numeral
import Cognate.Token.Rule

/-! # Values of literals

The value of a literal in a constant expression, from its text. -/

namespace Cognate.Grammar

/-- Radix of an integer literal, and the characters in front of its digits. -/
def radixMark : LiteralClass → Nat × Nat
  | .hex => (16, 2)
  | .binary => (2, 2)
  | .octal => (8, 1)
  | _ => (10, 0)

/-- One more than the greatest number of 127 bits. -/
def literalLimit : Nat := Nat.pow 2 127

/-- The value of an integer literal, if 127 bits hold it. -/
def integerValue? (c : LiteralClass) (text : String) : Option Int :=
  let (radix, mark) := radixMark c
  let digits := ((text.toList.drop mark).reverse.dropWhile isIntegerSuffix).reverse
  if digits.isEmpty then some 0
  else ((Text.numeral? radix digits).filter (· < literalLimit)).map Int.ofNat

/-- The character of an escape of one letter. -/
def simpleEscape? : Char → Option Nat
  | 'n' => some 0x0A
  | 't' => some 0x09
  | 'r' => some 0x0D
  | 'a' => some 0x07
  | 'b' => some 0x08
  | 'f' => some 0x0C
  | 'v' => some 0x0B
  | '\\' => some 0x5C
  | '\'' => some 0x27
  | '"' => some 0x22
  | '?' => some 0x3F
  | _ => none

/-- The code of what follows a backslash. What follows an escape of one letter does not count. -/
def escapedCode? : List Char → Option Nat
  | 'x' :: digits => Text.signedNumeral? 16 (Nat.pow 2 32) digits
  | c :: rest =>
    match simpleEscape? c with
    | some code => some code
    | none => if isOctalDigit c then Text.signedNumeral? 8 (Nat.pow 2 32) (c :: rest) else none
  | [] => none

/-- The code that the text between single quotes stands for. -/
def characterCode? : List Char → Option Nat
  | '\\' :: escape => escapedCode? escape
  | [c] => some c.toNat
  | _ => none

/-- The text between the quotes. -/
def withoutQuotes (cs : List Char) : List Char := (cs.drop 1).dropLast

/-- The value of a character literal. Codes of one byte with the high bit set are negative where `char` is signed. -/
def characterValue? (charIsSigned : Bool) (text : String) : Option Int :=
  (characterCode? (withoutQuotes text.toList)).map fun code =>
    if charIsSigned && 0x80 ≤ code && code < 0x100 then (code : Int) - 0x100 else code

end Cognate.Grammar
