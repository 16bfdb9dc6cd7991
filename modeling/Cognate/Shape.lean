import Cognate.Builtin

/-! # Shapes of types

A type is a handle into a unit of declarations; the node behind it has a `Shape`, whose children are handles again.
Typedefs and qualified types are sugar: they stand for the type inside them. -/

namespace Cognate

/-- Handle of a type: the index of its node in one unit of declarations. -/
structure Ty where
  index : Nat
deriving DecidableEq, Repr, Inhabited

/-- Number of a record declaration in its unit. -/
structure RecordId where
  index : Nat
deriving DecidableEq, Repr

/-- Number of an enum declaration in its unit. -/
structure EnumId where
  index : Nat
deriving DecidableEq, Repr

/-- The keyword of a tagged type. -/
inductive Tag where
  | struct | union | classTag | enum
deriving DecidableEq, Repr

def Tag.spelling : Tag → String
  | struct => "struct" | union => "union" | classTag => "class" | enum => "enum"

/-- How arguments are passed. -/
inductive CallConv where
  | cdecl | stdcall | fastcall | thiscall | vectorcall | swiftcall
deriving DecidableEq, Repr, Inhabited

namespace CallConv

def all : List CallConv := [cdecl, stdcall, fastcall, thiscall, vectorcall, swiftcall]

/-- Name of the attribute that asks for it. -/
def spelling : CallConv → String
  | cdecl => "cdecl" | stdcall => "stdcall" | fastcall => "fastcall" | thiscall => "thiscall"
  | vectorcall => "vectorcall" | swiftcall => "swiftcall"

/-- The convention an attribute of that name asks for. -/
def ofSpelling? (name : String) : Option CallConv := all.find? (·.spelling == name)

end CallConv

/-- The families of vector types. -/
inductive VectorKind where
  | generic | altiVec | neon | neonPoly
deriving DecidableEq, Repr

/-- What attributes say about a function. -/
structure FunctionTraits where
  callConv : CallConv := .cdecl
  /-- Its result depends on its arguments alone. -/
  isConst : Bool := false
deriving DecidableEq, Repr

/-- A set of type qualifiers. -/
structure Qualifiers where
  isConst : Bool := false
  isVolatile : Bool := false
  isRestrict : Bool := false
deriving DecidableEq, Repr

namespace Qualifiers

def none : Qualifiers := {}

def isEmpty (q : Qualifiers) : Bool := !(q.isConst || q.isVolatile || q.isRestrict)

/-- Union of both sets. -/
def merge (p q : Qualifiers) : Qualifiers :=
  ⟨p.isConst || q.isConst, p.isVolatile || q.isVolatile, p.isRestrict || q.isRestrict⟩

def words (q : Qualifiers) : List String :=
  (if q.isConst then ["const"] else []) ++ (if q.isVolatile then ["volatile"] else []) ++
    (if q.isRestrict then ["restrict"] else [])

/-- The words in a fixed order, one blank between them. -/
def spelling (q : Qualifiers) : String := " ".intercalate q.words

theorem merge_comm (p q : Qualifiers) : p.merge q = q.merge p := by
  simp [merge, Bool.or_comm]

theorem merge_assoc (p q r : Qualifiers) : (p.merge q).merge r = p.merge (q.merge r) := by
  simp [merge, Bool.or_assoc]

theorem isEmpty_merge (p q : Qualifiers) : (p.merge q).isEmpty = (p.isEmpty && q.isEmpty) := by
  rcases p with ⟨_ | _, _ | _, _ | _⟩ <;> rcases q with ⟨_ | _, _ | _, _ | _⟩ <;> rfl

end Qualifiers

/-- One type node: what it is made of. The kinds from `auto` on can be kept and spelled, but neither compared nor
read, `atomic` apart. -/
inductive Shape where
  | builtin (b : Builtin)
  | complex (element : Ty)
  | pointer (pointee : Ty)
  | blockPointer (pointee : Ty)
  | lvalueRef (pointee : Ty)
  | rvalueRef (pointee : Ty)
  | memberPointer (pointee owner : Ty)
  | constantArray (element : Ty) (size : Nat)
  | incompleteArray (element : Ty)
  | variableArray (element : Ty)
  | vector (element : Ty) (count : Nat) (kind : VectorKind)
  | prototype (result : Ty) (params : List Ty) (variadic : Bool) (traits : FunctionTraits)
  | noPrototype (result : Ty) (traits : FunctionTraits)
  | record (id : RecordId)
  | enum (id : EnumId)
  | typedef (name : String) (aliased : Ty)
  | qualified (inner : Ty) (qualifiers : Qualifiers)
  | auto
  | deducedTemplate
  | objcObject
  | objcInterface
  | objcPointer (pointee : Ty)
  | pipe (element : Ty)
  | atomic (value : Ty)
deriving DecidableEq, Repr

namespace Shape

/-- What a shape is, without its parts. -/
inductive Class where
  | builtin | complex | pointer | blockPointer | lvalueRef | rvalueRef | memberPointer
  | constantArray | incompleteArray | variableArray | vector | prototype | noPrototype | record | enum
  | typedef | qualified | auto | deducedTemplate | objcObject | objcInterface | objcPointer | pipe | atomic
deriving DecidableEq, Repr

/-- Name in listings and messages. -/
def Class.label : Class → String
  | builtin => "Builtin" | complex => "Complex" | pointer => "Pointer" | blockPointer => "BlockPointer"
  | lvalueRef => "LValueReference" | rvalueRef => "RValueReference" | memberPointer => "MemberPointer"
  | constantArray => "ConstantArray" | incompleteArray => "IncompleteArray" | variableArray => "VariableArray"
  | vector => "Vector" | prototype => "FunctionProto" | noPrototype => "FunctionNoProto" | record => "Record"
  | enum => "Enum" | typedef => "Typedef" | qualified => "Qualified" | auto => "Auto"
  | deducedTemplate => "DeducedTemplateSpecialization" | objcObject => "ObjCObject"
  | objcInterface => "ObjCInterface" | objcPointer => "ObjCObjectPointer" | pipe => "Pipe" | atomic => "Atomic"

def cls : Shape → Class
  | builtin _ => .builtin
  | complex _ => .complex
  | pointer _ => .pointer
  | blockPointer _ => .blockPointer
  | lvalueRef _ => .lvalueRef
  | rvalueRef _ => .rvalueRef
  | memberPointer _ _ => .memberPointer
  | constantArray _ _ => .constantArray
  | incompleteArray _ => .incompleteArray
  | variableArray _ => .variableArray
  | vector _ _ _ => .vector
  | prototype _ _ _ _ => .prototype
  | noPrototype _ _ => .noPrototype
  | record _ => .record
  | enum _ => .enum
  | typedef _ _ => .typedef
  | qualified _ _ => .qualified
  | auto => .auto
  | deducedTemplate => .deducedTemplate
  | objcObject => .objcObject
  | objcInterface => .objcInterface
  | objcPointer _ => .objcPointer
  | pipe _ => .pipe
  | atomic _ => .atomic

/-- A typedef or a qualified type. -/
def isSugar : Shape → Bool
  | typedef _ _ | qualified _ _ => true
  | _ => false

def isFunction : Shape → Bool
  | prototype _ _ _ _ | noPrototype _ _ => true
  | _ => false

def isArray : Shape → Bool
  | constantArray _ _ | incompleteArray _ | variableArray _ => true
  | _ => false

/-- A pointer or reference of any kind, whose qualifiers are written behind its operator. -/
def isPointerLike : Shape → Bool
  | pointer _ | blockPointer _ | lvalueRef _ | rvalueRef _ | memberPointer _ _ | objcPointer _ => true
  | _ => false

/-- The handles a shape is made of, in order. -/
def children : Shape → List Ty
  | complex t | pointer t | blockPointer t | lvalueRef t | rvalueRef t | constantArray t _ | incompleteArray t
  | variableArray t | vector t _ _ | noPrototype t _ | typedef _ t | qualified t _ | objcPointer t | pipe t
  | atomic t => [t]
  | memberPointer t owner => [t, owner]
  | prototype result params _ _ => result :: params
  | builtin _ | record _ | enum _ | auto | deducedTemplate | objcObject | objcInterface => []

/-- The same shape over other handles. -/
def map (f : Ty → Ty) : Shape → Shape
  | complex t => complex (f t)
  | pointer t => pointer (f t)
  | blockPointer t => blockPointer (f t)
  | lvalueRef t => lvalueRef (f t)
  | rvalueRef t => rvalueRef (f t)
  | memberPointer t owner => memberPointer (f t) (f owner)
  | constantArray t n => constantArray (f t) n
  | incompleteArray t => incompleteArray (f t)
  | variableArray t => variableArray (f t)
  | vector t n k => vector (f t) n k
  | prototype result params variadic traits => prototype (f result) (params.map f) variadic traits
  | noPrototype result traits => noPrototype (f result) traits
  | typedef name t => typedef name (f t)
  | qualified t q => qualified (f t) q
  | objcPointer t => objcPointer (f t)
  | pipe t => pipe (f t)
  | atomic t => atomic (f t)
  | builtin b => builtin b
  | record id => record id
  | enum id => enum id
  | auto => auto
  | deducedTemplate => deducedTemplate
  | objcObject => objcObject
  | objcInterface => objcInterface

theorem children_map (f : Ty → Ty) (s : Shape) : (s.map f).children = s.children.map f := by
  cases s <;> rfl

theorem map_map (f g : Ty → Ty) (s : Shape) : (s.map f).map g = s.map (fun t => g (f t)) := by
  cases s <;> simp [map, Function.comp_def]

/-- Only what is done to the children of a shape matters. -/
theorem map_congr {f g : Ty → Ty} {s : Shape} (h : ∀ t ∈ s.children, f t = g t) : s.map f = s.map g := by
  cases s <;> simp_all [map, children]

theorem map_eq_self {f : Ty → Ty} {s : Shape} (h : ∀ t ∈ s.children, f t = t) : s.map f = s := by
  have hid : s.map (fun t => t) = s := by cases s <;> simp [map]
  rw [map_congr (g := fun t => t) h, hid]

end Shape
end Cognate
