import Cognate.Number.WideInt
import Cognate.Shape
import Cognate.Target

/-! # Units of declarations

All types of one text of declarations, as a graph. Equal shapes are one node, so two handles of one unit are the same
type as written exactly if they are equal; `canonical` gives the type without typedefs and qualifiers at any depth.
Records and enums are told apart by their declarations, not by their contents. -/

namespace Cognate

/-- A type as written, and the same type without sugar; the latter stands for itself. -/
structure Node where
  shape : Shape
  canonical : Ty
deriving DecidableEq, Repr

/-- A member of a record, and its offset in bits. -/
structure Member where
  /-- Absent for an unnamed member. -/
  name : Option String
  type : Ty
  offset : Nat
deriving DecidableEq, Repr

/-- Members in order of their declaration, and the layout of the whole. -/
structure RecordBody where
  members : List Member
  extent : Extent
deriving DecidableEq, Repr

/-- A struct, union or class; it is complete once it has a body. -/
structure RecordDecl where
  tag : Tag
  name : Option String
  body : Option RecordBody
deriving DecidableEq, Repr

/-- A constant of an enum, in the width of the enum's integer type. -/
structure Enumerator where
  name : String
  value : WideInt
deriving DecidableEq, Repr

structure EnumBody where
  /-- The integer type that the enum is stored as. -/
  base : Ty
  enumerators : List Enumerator
deriving DecidableEq, Repr

/-- An enum; it is complete once it has a body. -/
structure EnumDecl where
  name : Option String
  body : Option EnumBody
deriving DecidableEq, Repr

/-- A declared variable or function. -/
structure ValueDecl where
  name : String
  type : Ty
deriving DecidableEq, Repr

/-- What an ordinary name stands for. -/
inductive Meaning where
  /-- The value declared at that position. -/
  | value (position : Nat)
  | typedef (type : Ty)
  | constant (value : Int) (type : Ty)
deriving DecidableEq, Repr

/-- Types and names of one text, laid out for one target. Tags have names of their own. -/
structure DeclUnit where
  name : String
  target : Target
  nodes : Array Node
  records : Array RecordDecl
  enums : Array EnumDecl
  values : Array ValueDecl
  ordinary : List (String × Meaning)
  tags : List (String × Ty)
deriving Repr

namespace DeclUnit

/-- A unit without types. -/
def empty (name : String) (target : Target) : DeclUnit := ⟨name, target, #[], #[], #[], #[], [], []⟩

/-- Number of nodes. -/
def size (u : DeclUnit) : Nat := u.nodes.size

def contains (u : DeclUnit) (t : Ty) : Bool := t.index < u.nodes.size

def node? (u : DeclUnit) (t : Ty) : Option Node := u.nodes[t.index]?

def shape? (u : DeclUnit) (t : Ty) : Option Shape := (u.node? t).map Node.shape

/-- The type without sugar; a handle of another unit stands for itself. -/
def canonical (u : DeclUnit) (t : Ty) : Ty :=
  match u.node? t with
  | some n => n.canonical
  | none => t

/-- The shape of the type without sugar. -/
def canonicalShape? (u : DeclUnit) (t : Ty) : Option Shape :=
  match u.node? t with
  | some n => u.shape? n.canonical
  | none => none

def record? (u : DeclUnit) (id : RecordId) : Option RecordDecl := u.records[id.index]?

def enum? (u : DeclUnit) (id : EnumId) : Option EnumDecl := u.enums[id.index]?

/-- The builtin kind behind all sugar. -/
def builtinKind? (u : DeclUnit) (t : Ty) : Option Builtin :=
  match u.canonicalShape? t with
  | some (.builtin b) => some b
  | _ => none

/-- The record behind all sugar. -/
def recordOf? (u : DeclUnit) (t : Ty) : Option (RecordId × RecordDecl) :=
  match u.canonicalShape? t with
  | some (.record id) => (u.record? id).map fun decl => (id, decl)
  | _ => none

/-- The enum behind all sugar. -/
def enumOf? (u : DeclUnit) (t : Ty) : Option (EnumId × EnumDecl) :=
  match u.canonicalShape? t with
  | some (.enum id) => (u.enum? id).map fun decl => (id, decl)
  | _ => none

/-- An array behind all sugar. -/
def isArray (u : DeclUnit) (t : Ty) : Bool := (u.canonicalShape? t).any Shape.isArray

/-- A function behind all sugar. -/
def isFunction (u : DeclUnit) (t : Ty) : Bool := (u.canonicalShape? t).any Shape.isFunction

end DeclUnit
end Cognate
