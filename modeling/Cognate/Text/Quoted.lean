import Cognate.Text.Printable

/-! # Quoted texts

A text between double quotes on one line: quotes, backslashes and line ends are escaped, and so is every character that
would not show. -/

namespace Cognate.Text

/-- The hexadecimal numeral, in lower case and without leading zeros. -/
def hexNumeral (n : Nat) : String := String.ofList (Nat.toDigits 16 n)

/-- One character inside double quotes. -/
def escapeChar (c : Char) : String :=
  match c with
  | '\x00' => "\\0"
  | '\t' => "\\t"
  | '\r' => "\\r"
  | '\n' => "\\n"
  | '"' => "\\\""
  | '\\' => "\\\\"
  | _ =>
    if isPrintable c && !isExtending c then c.toString
    else "\\u\x7b" ++ hexNumeral c.toNat ++ "\x7d"

/-- The text in double quotes. -/
def quoted (s : String) : String := "\"" ++ String.join (s.toList.map escapeChar) ++ "\""

end Cognate.Text
