import Cognate.Grammar.Attribute
import Cognate.Grammar.Derivation

/-! # Declarators

Pointers in front of a name, arrays and parameters behind it. A declarator in parentheses binds tighter than what stands
around it; suffixes bind tighter than pointers, the nearest one to the name last. -/

namespace Cognate.Grammar

/-- The qualifiers that stand here, each as often as one likes. -/
def qualifiers : Parse Qualifiers :=
  loop Qualifiers.none fun q => do
    match (← current).token with
    | .keyword .const => do
      let _ ← advance
      return .again { q with isConst := true }
    | .keyword .volatile => do
      let _ ← advance
      return .again { q with isVolatile := true }
    | .keyword .restrict => do
      let _ ← advance
      return .again { q with isRestrict := true }
    | _ => return .done q

/-- A name stands here and a double colon behind it. -/
def atMemberPointer : Parse Bool := do
  match (← current).token with
  | .name _ => return (← peek) == .punct .colonColon
  | _ => return false

/-- Pointer to a member of a class, which is a tag or a typedef. -/
def memberPointer : Parse Derivation := do
  let (owner, span) ← name
  let _ ← expect .colonColon
  let _ ← expect .star
  let u ← unit
  match u.tag? owner <|> u.typedef? owner with
  | some t => return .memberPointer t (← qualifiers)
  | none => fail (.unknownOwner owner) span

/-- The pointer operator that stands here. -/
def pointer? : Parse (Option Derivation) := do
  if ← atMemberPointer then return some (← memberPointer)
  else
    match (← current).token with
    | .punct .star =>
      let _ ← advance
      return some (.pointer (← qualifiers))
    | .punct .caret =>
      let _ ← advance
      return some (.blockPointer (← qualifiers))
    | .punct .amp =>
      let _ ← advance
      return some .lvalueRef
    | .punct .andAnd =>
      let _ ← advance
      return some .rvalueRef
    | _ => return none

/-- Pointer operators, added behind those before them. -/
def pointers : Parse (List Derivation) :=
  loop [] fun before => do
    match ← pointer? with
    | some d => return .again (before ++ [d])
    | none => return .done before

/-- An opening parenthesis stands here that starts a declarator, not parameters. -/
def atNested : Parse Bool := do
  if ← check (.punct .lparen) then
    match ← peek with
    | .punct .star | .punct .caret | .punct .amp | .punct .andAnd | .keyword .attributes => return true
    | .name text => return ((← unit).typedef? text).isNone
    | _ => return false
  else return false

/-- What is allowed in front of the bound of a parameter's array. -/
def isBoundWord (t : Token) : Bool := t == .keyword .static || t.isQualifier

/-- The bound of an array, from the opening bracket to the closing one. -/
def arrayBound (rules : Rules) : Parse ArrayBound := do
  let _ ← expect .lbracket
  loop () fun () => do
    if isBoundWord (← current).token then
      let _ ← advance
      return .again ()
    else return .done ()
  if ← accept (.punct .rbracket) then return .incomplete
  else if (← check (.punct .star)) then
    if (← peek) == .punct .rbracket then
      let _ ← advance
      let _ ← advance
      return .variable
    else boundExpression
  else boundExpression
where
  /-- A bound that is an expression. -/
  boundExpression : Parse ArrayBound := do
    let span ← here
    let bound ←
      match ← rules.constant with
      | none => pure .variable
      | some size =>
        if 0 ≤ size ∧ size < wordLimit then pure (.constant size.toNat) else fail (.arraySize size) span
    let _ ← expect .rbracket
    return bound

/-- Names without types, a comma between them. -/
def nameList : Parse Unit :=
  loop () fun () => do
    let _ ← name
    if ← accept (.punct .comma) then return .again () else return .done ()

/-- One parameter. -/
def parameter (rules : Rules) : Parse Ty := do
  let specifiers ← rules.specifiers
  let declarator ← rules.declarator .either
  let late ← attributes rules
  let t ← declaredType specifiers.type declarator (specifiers.attributes.merge late)
  adjustParameter t

/-- Parameters with types, a comma between them; dots end the list. -/
def prototype (rules : Rules) : Parse Derivation :=
  loop [] fun before => do
    if ← accept (.punct .ellipsis) then return .done (.function before true)
    else
      let params := before ++ [← parameter rules]
      if ← accept (.punct .comma) then return .again params
      else return .done (.function params false)

/-- What stands between the parentheses of a function. -/
def parameters (rules : Rules) : Parse Derivation := do
  let first := (← current).token
  if first == .punct .rparen then return .noPrototype
  else if first == .keyword .void then
    if (← peek) == .punct .rparen then
      let _ ← advance
      return .function [] false
    else prototype rules
  else
    match first with
    | .name _ =>
      if ← atType then prototype rules
      else
        nameList
        return .noPrototype
    | _ => prototype rules

/-- The array or function suffix that stands here. -/
def suffix? (rules : Rules) : Parse (Option Derivation) := do
  if ← check (.punct .lbracket) then return some (.array (← arrayBound rules))
  else if ← accept (.punct .lparen) then
    let d ← parameters rules
    let _ ← expect .rparen
    return some d
  else return none

/-- Suffixes, each in front of those before it. -/
def suffixes (rules : Rules) : Parse (List Derivation) :=
  loop [] fun before => do
    match ← suffix? rules with
    | some d => return .again (d :: before)
    | none => return .done before

/-- The middle of a declarator: another one in parentheses, a name, or nothing. -/
inductive Core where
  | nested (inner : Declarator)
  | name (text : String) (span : Span)
  | absent

def core (rules : Rules) (naming : Naming) : Parse Core := do
  if ← atNested then
    let _ ← advance
    let inner ← rules.declarator naming
    let _ ← expect .rparen
    return .nested inner
  else if naming == .abstract then return .absent
  else
    match ← name? with
    | some (text, span) => return .name text span
    | none => return .absent

/-- A declarator. -/
def declarator (rules : Rules) (naming : Naming) : Parse Declarator := do
  let start ← here
  let before ← pointers
  let middle ← core rules naming
  let behind ← suffixes rules
  let outer := before ++ behind
  let (name, derivations) :=
    match middle with
    | .nested inner => (inner.name, outer ++ inner.derivations)
    | .name text span => (some (text, span), outer)
    | .absent => (none, outer)
  let next ← current
  if naming == .named && name.isNone then fail (.expectedDeclaredName next.token) next.span
  else return ⟨name, derivations, start.merge next.span⟩

end Cognate.Grammar
