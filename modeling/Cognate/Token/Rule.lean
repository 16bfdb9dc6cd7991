import Cognate.Token.Basic

/-! # The token table

A rule says how many characters it matches at the head of a text, and what its match stands for. The rules are tried
together: the longest match wins, and of two equally long ones the rule that stands first in `Rule.table`.

Two beginnings are faulty however the table would read them: a block comment that is never closed, and a quote that is
never closed. -/

namespace Cognate

/-! ## Runs of characters -/

/-- Length of the longest prefix whose characters satisfy `p`. -/
def run (p : Char → Bool) (cs : List Char) : Nat := (cs.takeWhile p).length

def isDecimalDigit (c : Char) : Bool := '0' ≤ c && c ≤ '9'

def isOctalDigit (c : Char) : Bool := '0' ≤ c && c ≤ '7'

def isBinaryDigit (c : Char) : Bool := c == '0' || c == '1'

def isHexDigit (c : Char) : Bool := isDecimalDigit c || ('a' ≤ c && c ≤ 'f') || ('A' ≤ c && c ≤ 'F')

def isWordStart (c : Char) : Bool := ('a' ≤ c && c ≤ 'z') || ('A' ≤ c && c ≤ 'Z') || c == '_'

def isWordRest (c : Char) : Bool := isWordStart c || isDecimalDigit c

/-- The letters that may follow an integer literal. -/
def isIntegerSuffix (c : Char) : Bool := c == 'u' || c == 'U' || c == 'l' || c == 'L'

/-- The letters one of which may follow a floating literal. -/
def isFloatSuffix (c : Char) : Bool := c == 'f' || c == 'F' || c == 'l' || c == 'L'

def isSpace (c : Char) : Bool := c == ' ' || c == '\t' || c == '\n' || c == '\r' || c == '\x0c'

/-! ## Matchers -/

/-- A nonempty run. -/
def someRun (p : Char → Bool) (cs : List Char) : Option Nat :=
  match run p cs with
  | 0 => none
  | n => some n

/-- Everything up to the end of the line. -/
def restOfLine (cs : List Char) : Nat := run (· != '\n') cs

def lineComment : List Char → Option Nat
  | '/' :: '/' :: cs => some (2 + restOfLine cs)
  | _ => none

def directive : List Char → Option Nat
  | '#' :: cs => some (1 + restOfLine cs)
  | _ => none

/-- Characters up to and including the first star that is followed by a slash, and that slash. -/
def commentBody : List Char → Option Nat
  | '*' :: '/' :: _ => some 2
  | _ :: cs => (commentBody cs).map (· + 1)
  | [] => none

def blockComment : List Char → Option Nat
  | '/' :: '*' :: cs => (commentBody cs).map (· + 2)
  | _ => none

def word : List Char → Option Nat
  | c :: cs => if isWordStart c then some (1 + run isWordRest cs) else none
  | [] => none

/-- A nonempty run of digits and any number of suffix letters. -/
def integerBody (digit : Char → Bool) (cs : List Char) : Option Nat :=
  (someRun digit cs).map fun n => n + run isIntegerSuffix (cs.drop n)

def hexLiteral : List Char → Option Nat
  | '0' :: x :: cs => if x == 'x' || x == 'X' then (integerBody isHexDigit cs).map (· + 2) else none
  | _ => none

def binaryLiteral : List Char → Option Nat
  | '0' :: b :: cs => if b == 'b' || b == 'B' then (integerBody isBinaryDigit cs).map (· + 2) else none
  | _ => none

def octalLiteral : List Char → Option Nat
  | '0' :: cs => (integerBody isOctalDigit cs).map (· + 1)
  | _ => none

def decimalLiteral (cs : List Char) : Option Nat := integerBody isDecimalDigit cs

/-- A sign or nothing. -/
def signLength : List Char → Nat
  | c :: _ => if c == '+' || c == '-' then 1 else 0
  | [] => 0

/-- The letter e, a sign or nothing, and digits. -/
def exponent : List Char → Option Nat
  | e :: cs =>
    if e == 'e' || e == 'E' then
      (someRun isDecimalDigit (cs.drop (signLength cs))).map fun n => 1 + signLength cs + n
    else none
  | [] => none

/-- One suffix letter of a floating literal, or nothing. -/
def floatSuffix : List Char → Nat
  | c :: _ => if isFloatSuffix c then 1 else 0
  | [] => 0

/-- An exponent or nothing, then a suffix letter or nothing, after `n` characters. -/
def floatTail (cs : List Char) (n : Nat) : Nat :=
  let m := n + (exponent (cs.drop n)).getD 0
  m + floatSuffix (cs.drop m)

/-- Digits, a point, digits or nothing. -/
def pointLiteral (cs : List Char) : Option Nat :=
  (someRun isDecimalDigit cs).bind fun n =>
    match cs.drop n with
    | '.' :: rest => some (floatTail cs (n + 1 + run isDecimalDigit rest))
    | _ => none

/-- A point and digits. -/
def fractionLiteral : List Char → Option Nat
  | '.' :: cs => (someRun isDecimalDigit cs).map fun n => floatTail ('.' :: cs) (n + 1)
  | _ => none

/-- Digits and an exponent. -/
def exponentLiteral (cs : List Char) : Option Nat :=
  (someRun isDecimalDigit cs).bind fun n =>
    (exponent (cs.drop n)).map fun m => n + m + floatSuffix (cs.drop (n + m))

/-- Length of the longest run of complete units of a quoted literal: a character that is neither the quote nor a
backslash, or a backslash and a character that does not end the line. -/
def quoteUnits (q : Char) : List Char → Nat
  | '\\' :: c :: cs => if c == '\n' then 0 else 2 + quoteUnits q cs
  | c :: cs => if c == q || c == '\\' then 0 else 1 + quoteUnits q cs
  | [] => 0

/-- A quote, units, and the quote again. -/
def quoteLiteral (q : Char) : List Char → Option Nat
  | c :: cs =>
    if c == q then
      match cs.drop (quoteUnits q cs) with
      | d :: _ => if d == q then some (quoteUnits q cs + 2) else none
      | [] => none
    else none
  | [] => none

/-- A fixed text. -/
def fixedText (text : List Char) (cs : List Char) : Option Nat :=
  if text.isPrefixOf cs then some text.length else none

/-! ## Rules -/

/-- How far a rule matches at the head of a text, and what the matched characters stand for: a token, or nothing
where they are skipped. -/
structure Rule where
  munch : List Char → Option Nat
  token : List Char → Option Token

namespace Rule

/-- Skips what it matches. -/
def skip (munch : List Char → Option Nat) : Rule := ⟨munch, fun _ => none⟩

def literal (c : LiteralClass) (munch : List Char → Option Nat) : Rule :=
  ⟨munch, fun cs => some (.literal c (String.ofList cs))⟩

/-- A word is the keyword it spells, or else a name. -/
def wordToken (cs : List Char) : Token :=
  match Keyword.ofSpelling? (String.ofList cs) with
  | some k => .keyword k
  | none => .name (String.ofList cs)

def mark (p : Punct) : Rule := ⟨fixedText p.spelling.toList, fun _ => some (.punct p)⟩

/-- All rules, those that win a tie first. -/
def table : List Rule :=
  [skip (someRun isSpace), skip lineComment, skip blockComment, skip directive,
   ⟨word, fun cs => some (wordToken cs)⟩,
   literal .hex hexLiteral, literal .binary binaryLiteral, literal .octal octalLiteral,
   literal .decimal decimalLiteral,
   literal .float pointLiteral, literal .float fractionLiteral, literal .float exponentLiteral,
   literal .char (quoteLiteral '\''), literal .string (quoteLiteral '"')] ++
  Punct.all.map mark

/-- The longest match of some rules, and the first rule that reaches it. -/
def longest (cs : List Char) : List Rule → Option (Nat × Rule)
  | [] => none
  | r :: rs =>
    match r.munch cs, longest cs rs with
    | some n, some (m, s) => if m ≤ n then some (n, r) else some (m, s)
    | some n, none => some (n, r)
    | none, best => best

end Rule

/-! ## Lexemes -/

/-- What stands at the head of a text. -/
inductive Lexeme where
  | skipped (length : Nat)
  | token (length : Nat) (t : Token)
  | stray (length : Nat)
deriving DecidableEq, Repr

namespace Lexeme

/-- Number of characters. -/
def length : Lexeme → Nat
  | skipped n => n
  | token n _ => n
  | stray n => n

/-- A beginning that no continuation repairs: an unclosed comment reaches to the end of the text, an unclosed quote to
the end of its last complete unit. -/
def unclosed (cs : List Char) : Option Nat :=
  match cs with
  | '/' :: '*' :: _ => if (blockComment cs).isNone then some cs.length else none
  | q :: rest =>
    if (q == '\'' || q == '"') && (quoteLiteral q cs).isNone then some (1 + quoteUnits q rest) else none
  | [] => none

/-- The lexeme at the head of a text; a character that starts none is a stray of its own. -/
def first (cs : List Char) : Lexeme :=
  match unclosed cs with
  | some n => stray n
  | none =>
    match Rule.longest cs Rule.table with
    | some (n, rule) =>
      match rule.token (cs.take n) with
      | some t => token n t
      | none => skipped n
    | none => stray 1

end Lexeme
end Cognate
