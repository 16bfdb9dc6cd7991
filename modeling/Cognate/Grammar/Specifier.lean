import Cognate.Grammar.Tagged
import Cognate.Grammar.TypeWords

/-! # Declaration specifiers

What a declaration starts with: storage classes, qualifiers, attributes, and one type, in any order. The type is a
collection of type words, or a type of its own: a tagged type, a typedef name, or an atomic type. -/

namespace Cognate.Grammar

/-- The specifiers read so far. -/
structure SpecifierState where
  isTypedef : Bool := false
  qualifiers : Qualifiers := {}
  isAtomic : Bool := false
  /-- Type words, the last one first. -/
  words : List Keyword := []
  /-- A type of its own. -/
  named : Option Ty := none
  attributes : Attributes := {}

namespace SpecifierState

/-- No type was read. -/
def lacksType (s : SpecifierState) : Bool := s.named.isNone && s.words.isEmpty

/-- Adds a type of its own, which must be the only one. -/
def name (s : SpecifierState) (t : Ty) (span : Span) : Parse SpecifierState :=
  if s.lacksType then return { s with named := some t } else fail .severalTypes span

end SpecifierState

/-- The type that words name. -/
def wordType (words : List Keyword) (span : Span) : Parse Ty := do
  match kindOfWords (← unit).target words (← current).token with
  | .error cause => fail cause span
  | .ok b =>
    let t ← intern (.builtin b)
    if !words.contains .complex then return t
    else if hasComplex b then intern (.complex t)
    else fail (.complexUnsupported b) span

/-- `_Atomic` behind its keyword: a type in parentheses, or a qualifier. -/
def atomic (rules : Rules) (s : SpecifierState) (span : Span) : Parse SpecifierState := do
  if ← accept (.punct .lparen) then
    let value ← rules.typeName
    let _ ← expect .rparen
    let t ← intern (.atomic value)
    s.name t span
  else return { s with isAtomic := true }

/-- A specifier that starts with a keyword. -/
def keywordSpecifier (rules : Rules) (s : SpecifierState) (k : Keyword) (span : Span) :
    Parse (Round SpecifierState SpecifierState) := do
  match k with
  | .typedef =>
    let _ ← advance
    return .again { s with isTypedef := true }
  | .const =>
    let _ ← advance
    return .again { s with qualifiers := { s.qualifiers with isConst := true } }
  | .volatile =>
    let _ ← advance
    return .again { s with qualifiers := { s.qualifiers with isVolatile := true } }
  | .restrict =>
    let _ ← advance
    return .again { s with qualifiers := { s.qualifiers with isRestrict := true } }
  | .atomic =>
    let _ ← advance
    return .again (← atomic rules s span)
  | .attributes =>
    let late ← attributes rules
    return .again { s with attributes := s.attributes.merge late }
  | .struct =>
    let _ ← advance
    return .again (← s.name (← record rules .struct span) span)
  | .union =>
    let _ ← advance
    return .again (← s.name (← record rules .union span) span)
  | .enum =>
    let _ ← advance
    return .again (← s.name (← enumeration rules span) span)
  | .autoType =>
    let _ ← advance
    return .again (← s.name (← intern .auto) span)
  | _ =>
    if k.isStorage then
      let _ ← advance
      return .again s
    else if k.isTypeWord then
      if s.named.isSome then fail (.wordAfterType (.keyword k)) span
      else
        let _ ← advance
        return .again { s with words := k :: s.words }
    else return .done s

/-- One specifier, or their end. The name of a typedef counts as a type only where none was read. -/
def specifier (rules : Rules) (s : SpecifierState) : Parse (Round SpecifierState SpecifierState) := do
  let t ← current
  match t.token with
  | .keyword k => keywordSpecifier rules s k t.span
  | .name text =>
    let u ← unit
    match if s.lacksType then u.typedef? text else none with
    | some found =>
      let _ ← advance
      return .again { s with named := some found }
    | none => return .done s
  | _ => return .done s

/-- All specifiers of a declaration. -/
def specifiers (rules : Rules) : Parse Specifiers := do
  let start ← here
  let s ← loop {} (specifier rules)
  let base ←
    match s.named with
    | some t => pure t
    | none => wordType s.words (start.merge (← here))
  let base ← if s.isAtomic then intern (.atomic base) else pure base
  let t ← build (·.qualify base s.qualifiers)
  return ⟨s.isTypedef, t, s.attributes⟩

end Cognate.Grammar
