import Cognate.Grammar.Arithmetic
import Cognate.Grammar.Declarator
import Cognate.Unit.Record

/-! # Tagged types

Structs, unions and enums: a name, a body, or both. A tag is declared where it is first read, and keeps its kind. -/

namespace Cognate.Grammar

/-- The kind of tag that a type was declared with. -/
def tagOf (u : DeclUnit) (t : Ty) : Tag :=
  match u.recordOf? t with
  | some (_, decl) => decl.tag
  | none => .enum

/-- A new type of a tag. -/
def declareTagged (tag : Tag) (name : Option String) : Parse Ty :=
  match tag with
  | .enum => build (·.declareEnum name)
  | _ => build (·.declareRecord tag name)

/-- The type of a tag name, declared if it is new. -/
def taggedType (tag : Tag) (name : String) (span : Span) : Parse Ty := do
  let u ← unit
  match u.tag? name with
  | some t => if tagOf u t = tag then return t else fail (.wrongTag name (tagOf u t) tag) span
  | none =>
    let t ← declareTagged tag name
    define span (·.defineTag name t)
    return t

/-- The type in front of a body: that of the name, or a new one. -/
def bodyOwner (tag : Tag) (name : Option String) (keyword : Span) : Parse Ty :=
  match name with
  | some text => taggedType tag text keyword
  | none => declareTagged tag none

/-- A type without a body must have a name. -/
def withoutBody (tag : Tag) (name : Option String) (keyword : Span) : Parse Ty := do
  match name with
  | some text => taggedType tag text keyword
  | none => fail (.expectedTag tag) (← here)

/-! ## Records -/

/-- A record without a name, whose members count as members of what contains it. -/
def isAnonymousRecord (u : DeclUnit) (t : Ty) : Bool := (u.recordOf? t).any fun (_, decl) => decl.name.isNone

/-- A member's declarator, added to the members before it. -/
def member (rules : Rules) (specifiers : Specifiers) (before : List (String × Ty)) : Parse (List (String × Ty)) := do
  let d ← rules.declarator .named
  if ← check (.punct .colon) then fail .bitField (← here)
  let late ← attributes rules
  let t ← declaredType specifiers.type d (specifiers.attributes.merge late)
  let (text, span) := d.name.getD ("", ⟨0, 0⟩)
  if before.any (·.1 == text) then fail (.duplicateMember text) span else return before ++ [(text, t)]

/-- Declarators of members up to the semicolon, a comma between them. -/
def memberList (rules : Rules) (specifiers : Specifiers) (before : List (String × Ty)) :
    Parse (List (String × Ty)) := do
  let after ← loop before fun before => do
    let after ← member rules specifiers before
    if ← accept (.punct .comma) then return .again after else return .done after
  let _ ← expect .semi
  return after

/-- The members up to the closing brace. A record without a name may stand without a declarator. -/
def members (rules : Rules) (tag : Tag) (keyword : Span) : Parse (List (String × Ty)) :=
  loop [] fun before => do
    if ← check (.punct .rbrace) then return .done before
    else if ← atEnd then fail (.unterminatedRecord tag) keyword
    else
      let specifiers ← rules.specifiers
      if ← accept (.punct .semi) then
        if isAnonymousRecord (← unit) specifiers.type then return .again (before ++ [("", specifiers.type)])
        else return .again before
      else return .again (← memberList rules specifiers before)

/-- A struct or union behind its keyword. Attributes of the record itself do not matter. -/
def record (rules : Rules) (tag : Tag) (keyword : Span) : Parse Ty := do
  let _ ← attributes rules
  let name := (← name?).map (·.1)
  if ← check (.punct .lbrace) then
    let t ← bodyOwner tag name keyword
    let _ ← advance
    let fields ← members rules tag keyword
    let closing ← expect .rbrace
    define (keyword.merge closing.span) (·.completeRecord t fields)
    return t
  else withoutBody tag name keyword

/-! ## Enums -/

/-- The kinds an enum is stored as, the preferred ones first. -/
def enumKinds : List Builtin := [.int, .uint, .long, .ulong, .longLong, .ulongLong]

/-- The range of a kind contains all values. -/
def holdsAll (target : Target) (values : List Int) (b : Builtin) : Bool :=
  (integerRange? target b).any fun (least, greatest) => values.all fun v => least ≤ v && v ≤ greatest

/-- The integer type of an enum with those values; zero must fit as well. -/
def enumType (values : List Int) (span : Span) : Parse Ty := do
  match enumKinds.find? (holdsAll (← unit).target (0 :: values)) with
  | some b => intern (.builtin b)
  | none => fail .enumeratorsTooWide span

/-- All values must be in the range of a given integer type. -/
def checkValues (base : Ty) (values : List Int) (span : Span) : Parse Unit := do
  let u ← unit
  match u.builtinKind? base with
  | none => return
  | some b =>
    match integerRange? u.target b with
    | none => return
    | some (least, greatest) =>
      match values.find? fun v => v < least || greatest < v with
      | some v => fail (.enumeratorOutOfRange v b) span
      | none => return

/-- Constants read so far, and the value of the next one without a value of its own. -/
structure Enumeration where
  constants : List (String × Int) := []
  next : Option Int := some 0

/-- One constant: its own value, or the next one. -/
def enumerator (rules : Rules) (t : Ty) (e : Enumeration) : Parse Enumeration := do
  let (text, span) ← name
  let value ←
    if ← accept (.punct .eq) then
      match ← rules.constant with
      | some n => pure n
      | none => fail (.enumeratorNotConstant text) span
    else
      match e.next with
      | some n => pure n
      | none => fail (.enumeratorOverflow text) span
  define span (·.defineConstant text value t)
  return ⟨e.constants ++ [(text, value)], fits? (value + 1)⟩

/-- Constants up to the closing brace, a comma between them; one may stand behind the last. -/
def enumerators (rules : Rules) (t : Ty) : Parse (List (String × Int)) :=
  loop {} fun e => do
    if ← check (.punct .rbrace) then return .done e.constants
    else
      let e ← enumerator rules t e
      if ← accept (.punct .comma) then return .again e else return .done e.constants

/-- An enum behind its keyword. -/
def enumeration (rules : Rules) (keyword : Span) : Parse Ty := do
  let _ ← attributes rules
  let name := (← name?).map (·.1)
  let given ← if ← accept (.punct .colon) then some <$> rules.typeName else pure none
  if ← check (.punct .lbrace) then
    let t ← bodyOwner .enum name keyword
    let _ ← advance
    let constants ← enumerators rules t
    let closing ← expect .rbrace
    let span := keyword.merge closing.span
    let values := constants.map (·.2)
    let base ←
      match given with
      | some base => do
        checkValues base values span
        pure base
      | none => enumType values span
    define span (·.completeEnum t base constants)
    return t
  else withoutBody .enum name keyword

end Cognate.Grammar
