import Cognate.Grammar.Constant
import Cognate.Grammar.Specifier
import Cognate.Text.Blank

/-! # Declarations

Texts of declarations, and names of types. Reading adds to a unit what is declared; where it fails, what was declared
before stays. -/

namespace Cognate

namespace Grammar

/-- A type without a name. -/
def typeName (rules : Rules) : Parse Ty := do
  let start ← here
  let specifiers ← rules.specifiers
  if specifiers.isTypedef then fail .typedefInTypeName start
  let d ← rules.declarator .abstract
  let late ← attributes rules
  declaredType specifiers.type d (specifiers.attributes.merge late)

/-- Rules that read parts within one another up to `depth` deep. A type name starts with the same token as its
specifiers, and so counts as no part of its own. The rules of a part are made where the part is read. -/
def Rules.upTo : Nat → Rules
  | 0 => .none
  | depth + 1 =>
    { specifiers := fun s => Grammar.specifiers (Rules.upTo depth) s
      declarator := fun naming s => Grammar.declarator (Rules.upTo depth) naming s
      constant := fun s => Grammar.constant (Rules.upTo depth) s
      binary := fun level s => Grammar.binary (Rules.upTo depth) level s
      unary := fun s => Grammar.unary (Rules.upTo depth) s
      typeName := fun s =>
        let inner := Rules.upTo depth
        Grammar.typeName
          { inner with specifiers := Grammar.specifiers inner, declarator := Grammar.declarator inner } s }

/-- Rules for what is still ahead: every part within another starts behind one of its tokens. -/
def rulesHere : Parse Rules := return Rules.upTo (← get).allowance

/-- Declares what one declarator declares. -/
def declareOne (isTypedef : Bool) (name : String × Span) (t : Ty) : Parse Unit := do
  if isTypedef then
    let _ ← define name.2 (·.defineTypedef name.1 t)
  else define name.2 (·.declareValue name.1 t)

/-- What stands behind a declared function: its body, maybe with parameter declarations in front of it. The answer says
whether there is one. -/
def functionBody : Parse Bool := do
  if (!(← check (.punct .lbrace))) && (← atType) then skipToBody
  if ← check (.punct .lbrace) then
    skipGroup
    return true
  return false

/-- One declarator and what belongs to it. The answer says whether a function body has ended the declaration. -/
def initDeclarator (rules : Rules) (specifiers : Specifiers) : Parse Bool := do
  let d ← rules.declarator .named
  let late ← attributes rules
  let t ← declaredType specifiers.type d (specifiers.attributes.merge late)
  declareOne specifiers.isTypedef (d.name.getD ("", ⟨0, 0⟩)) t
  let ended ← if d.isFunction && !specifiers.isTypedef then functionBody else pure false
  if ended then return true
  if ← accept (.punct .eq) then skipInitializer
  return false

/-- One declaration of a text. -/
def declaration : Parse Unit := do
  if ← accept (.punct .semi) then return
  let rules ← rulesHere
  let specifiers ← rules.specifiers
  if ← accept (.punct .semi) then return
  let ended ← loop () fun () => do
    if ← initDeclarator rules specifiers then return .done true
    else if ← accept (.punct .comma) then return .again ()
    else return .done false
  if !ended then
    let _ ← expect .semi

/-- All declarations of a text. -/
def declarations : Parse Unit :=
  loop () fun () => do
    if ← atEnd then return .done ()
    else
      declaration
      return .again ()

/-- A type name and nothing behind it. -/
def wholeTypeName : Parse Ty := do
  let t ← (← rulesHere).typeName
  let next ← current
  if next.token == .finish then return t else fail (.trailing next.token) next.span

/-- A reader's outcome on a text, and the unit it leaves. -/
def read {α : Type} (reader : Parse α) (source : String) (u : DeclUnit) : Except Fault α × DeclUnit :=
  match State.ofSource source u with
  | .error fault => (.error fault, u)
  | .ok s =>
    match reader.run s with
    | .ok a s => (.ok a, s.unit)
    | .error fault s => (.error fault, s.unit)

end Grammar

namespace DeclUnit

/-- Adds the declarations of a text. -/
def declare (u : DeclUnit) (source : String) : Except Fault Unit × DeclUnit :=
  Grammar.read Grammar.declarations source u

/-- The type that a text names, such as `struct node *`. -/
def typeName (u : DeclUnit) (source : String) : Except Fault Ty × DeclUnit :=
  Grammar.read Grammar.wholeTypeName source u

/-- A unit of that name with the declarations of a text. -/
def ofSource (name : String) (target : Target) (source : String) : Except Fault DeclUnit :=
  match (DeclUnit.empty name target).declare source with
  | (.ok (), u) => .ok u
  | (.error fault, _) => .error fault

/-- The type of a declared value, named with blanks around it, or else the type that a text names. -/
def resolveType (u : DeclUnit) (text : String) : Except Fault Ty × DeclUnit :=
  match u.value? (Text.trimBlank text) with
  | some decl => (.ok decl.type, u)
  | none => u.typeName text

end DeclUnit
end Cognate
