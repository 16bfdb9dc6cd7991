import Cognate.Grammar.Rules

/-! # Attributes

Lists of attributes in double parentheses. Vector sizes, calling conventions and `const` change a type; every other
attribute is skipped with its arguments. -/

namespace Cognate.Grammar

/-- A name without the underscores at both ends. -/
def trimUnderscores (text : String) : String :=
  String.ofList (((text.toList.dropWhile (· == '_')).reverse.dropWhile (· == '_')).reverse)

/-- Name of the attribute that stands here. -/
def attributeName : Parse String := do
  let t ← current
  match t.token with
  | .name text => return trimUnderscores text
  | .keyword .const => return "const"
  | found => fail (.expectedAttribute found) t.span

/-- One attribute from its name on, added to those before it. -/
def oneAttribute (rules : Rules) (before : Attributes) : Parse Attributes := do
  let span ← here
  let name ← attributeName
  let _ ← advance
  if name == "vector_size" then
    let _ ← expect .lparen
    match ← rules.constant with
    | none => fail .vectorNotConstant span
    | some bytes =>
      let _ ← expect .rparen
      return { before with vectorSize := some (bytes, span) }
  else if name == "const" then return { before with traits := { before.traits with isConst := true } }
  else
    match CallConv.ofSpelling? name with
    | some callConv => return { before with traits := { before.traits with callConv } }
    | none =>
      if ← check (.punct .lparen) then skipGroup
      return before

/-- Attributes up to a closing parenthesis; commas between them do not matter. -/
def attributeList (rules : Rules) (before : Attributes) : Parse Attributes :=
  loop before fun before => do
    if ← check (.punct .rparen) then return .done before
    else if ← accept (.punct .comma) then return .again before
    else return .again (← oneAttribute rules before)

/-- All attribute lists that stand here. -/
def attributes (rules : Rules) : Parse Attributes :=
  loop {} fun before => do
    if ← accept (.keyword .attributes) then
      let _ ← expect .lparen
      let _ ← expect .lparen
      let after ← attributeList rules before
      let _ ← expect .rparen
      let _ ← expect .rparen
      return .again after
    else return .done before

end Cognate.Grammar
