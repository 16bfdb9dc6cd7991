import Cognate.Fault
import Cognate.Target

/-! # Type words

The builtin type that a collection of type words names, in whatever order they are written. -/

namespace Cognate.Grammar

/-- The words that name types, in the order in which messages list them. -/
def wordOrder : List Keyword :=
  [.void, .bool, .char, .short, .long, .int128, .int, .float, .double, .half, .wchar, .char16, .char32]

/-- How often a word counts at most. -/
def wordLimitEach : Nat := 255

/-- The words that name types, sorted; signedness and `_Complex` are left out. -/
def sortedWords (words : List Keyword) : List Keyword :=
  wordOrder.flatMap fun k => List.replicate (min wordLimitEach (words.count k)) k

/-- The spelling of a type word in a message. -/
def wordSpelling : Keyword → String
  | .void => "void" | .bool => "_Bool" | .char => "char" | .short => "short" | .long => "long"
  | .int128 => "__int128" | .int => "int" | .float => "float" | .double => "double" | .half => "__fp16"
  | .wchar => "wchar_t" | .char16 => "char16_t" | .char32 => "char32_t" | k => k.label

/-- What is said about the sign: `some true` for signed. -/
def signedness (words : List Keyword) : Except Cause (Option Bool) :=
  match words.contains .signed, words.contains .unsigned with
  | true, true => .error .bothSigns
  | true, false => .ok (some true)
  | false, true => .ok (some false)
  | false, false => .ok none

/-- The kind that sorted words and a sign name. -/
def kindOf? (target : Target) (sign : Option Bool) : List Keyword → Option Builtin
  | [.void] => if sign.isNone then some .void else none
  | [.bool] => if sign.isNone then some .bool else none
  | [.char] =>
    match sign with
    | none => some target.plainChar
    | some true => some .schar
    | some false => some .uchar
  | [.short] | [.short, .int] => some (if sign = some false then .ushort else .short)
  | [] | [.int] => some (if sign = some false then .uint else .int)
  | [.long] | [.long, .int] => some (if sign = some false then .ulong else .long)
  | [.long, .long] | [.long, .long, .int] => some (if sign = some false then .ulongLong else .longLong)
  | [.int128] => some (if sign = some false then .uint128 else .int128)
  | [.float] => if sign.isNone then some .float else none
  | [.double] => if sign.isNone then some .double else none
  | [.long, .double] => if sign.isNone then some .longDouble else none
  | [.half] => if sign.isNone then some .half else none
  | [.wchar] => if sign.isNone then some target.wcharKind else none
  | [.char16] => if sign.isNone then some .char16 else none
  | [.char32] => if sign.isNone then some .char32 else none
  | _ => none

/-- The kind that words name. `_Complex` alone stands for complex `double`; without any word, `found` stands where a
type should. -/
def kindOfWords (target : Target) (words : List Keyword) (found : Token) : Except Cause Builtin := do
  let sign ← signedness words
  let sorted := sortedWords words
  if sorted.isEmpty && sign.isNone then
    if words.contains .complex then .ok .double else .error (.expectedType found)
  else
    match kindOf? target sign sorted with
    | some b => .ok b
    | none => .error (.badCombination (sorted.map wordSpelling))

/-- The kinds that have complex numbers. -/
def hasComplex (b : Builtin) : Bool := b.isFloating && b != .half

end Cognate.Grammar
