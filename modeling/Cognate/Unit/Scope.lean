import Cognate.TypeFault
import Cognate.Unit.Build
import Cognate.Unit.Measure

/-! # Names of a unit

Ordinary names stand for a value, a typedef or an enum constant, and never change between these; tags are named apart. A
name is bound once: only the same typedef may be repeated, and only a value may be declared again. A definition answers
the unit that it leaves, also where it is refused. -/

namespace Cognate.DeclUnit

def meaning? (u : DeclUnit) (name : String) : Option Meaning := u.ordinary.lookup name

def typedef? (u : DeclUnit) (name : String) : Option Ty :=
  match u.meaning? name with
  | some (.typedef t) => some t
  | _ => none

/-- Value and enum of an enum constant. -/
def constant? (u : DeclUnit) (name : String) : Option (Int × Ty) :=
  match u.meaning? name with
  | some (.constant value t) => some (value, t)
  | _ => none

def value? (u : DeclUnit) (name : String) : Option ValueDecl :=
  match u.meaning? name with
  | some (.value position) => u.values[position]?
  | _ => none

def tag? (u : DeclUnit) (name : String) : Option Ty := u.tags.lookup name

/-- Binds a name that is not bound. -/
def bind (u : DeclUnit) (name : String) (m : Meaning) : DeclUnit := { u with ordinary := (name, m) :: u.ordinary }

/-- Binds a name to the node of a typedef, unless it is bound to another one of the same type; the answer is the node
that it is bound to. -/
def bindTypedef (u : DeclUnit) (name : String) (t : Ty) : Except TypeFault Ty × DeclUnit :=
  match u.meaning? name with
  | none => (.ok t, u.bind name (.typedef t))
  | some (.typedef existing) =>
    if u.canonical existing = u.canonical t then (.ok existing, u) else (.error (.redefinition name), u)
  | some _ => (.error (.redefinition name), u)

/-- Names a type; the answer is the typedef. The node is added even if the name is taken. -/
def defineTypedef (u : DeclUnit) (name : String) (aliased : Ty) : Except TypeFault Ty × DeclUnit :=
  let (t, u) := u.intern (.typedef name aliased)
  u.bindTypedef name t

/-- Binds a name, unless it is bound. -/
def defineName (u : DeclUnit) (name : String) (m : Meaning) : Except TypeFault Unit × DeclUnit :=
  match u.meaning? name with
  | none => (.ok (), u.bind name m)
  | some _ => (.error (.redefinition name), u)

def defineTag (u : DeclUnit) (name : String) (t : Ty) : Except TypeFault Unit × DeclUnit :=
  match u.tag? name with
  | none => (.ok (), { u with tags := (name, t) :: u.tags })
  | some _ => (.error (.redefinition name), u)

def defineConstant (u : DeclUnit) (name : String) (value : Int) (t : Ty) : Except TypeFault Unit × DeclUnit :=
  u.defineName name (.constant value t)

/-- The second type is an array `T[N]`, the first an array `T[]` of the same elements. -/
def completesArray (u : DeclUnit) (existing new : Ty) : Bool :=
  match u.canonicalShape? existing, u.canonicalShape? new with
  | some (.incompleteArray element), some (.constantArray element' _) => element == element'
  | _, _ => false

/-- Declares a variable or function, again only with the same type; `T x[N]` completes an earlier `T x[]`. A new
value is added before its name is bound. -/
def declareValue (u : DeclUnit) (name : String) (t : Ty) : Except TypeFault Unit × DeclUnit :=
  match u.meaning? name with
  | none => { u with values := u.values.push ⟨name, t⟩ }.defineName name (.value u.values.size)
  | some (.value position) =>
    match u.values[position]? with
    | none => (.error (.redefinition name), u)
    | some decl =>
      if u.canonical decl.type = u.canonical t then (.ok (), u)
      else if u.completesArray decl.type t then
        (.ok (), { u with values := u.values.set! position { decl with type := t } })
      else (.error (.conflictingTypes name), u)
  | some _ => (.error (.redefinition name), u)

end Cognate.DeclUnit
