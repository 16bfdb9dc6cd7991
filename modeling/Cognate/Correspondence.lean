import Cognate.Unit.Measure
import Cognate.Unit.Spelling

/-! # Corresponding types

Two units share no nodes, so that a type of one is the same as a type of another has to be found out by walking both
graphs side by side. A walk keeps the pairs of canonical types it has entered, in order. A pair entered before is taken
to correspond, which ends the walk on types that contain themselves; a type entered with another partner does not
correspond. -/

namespace Cognate

/-- A type of a unit. -/
structure Site where
  unit : DeclUnit
  type : Ty

namespace Site

/-- The unit's name and the type as written. -/
def text (s : Site) : String := s.unit.name ++ "::" ++ s.unit.describe s.type

/-- Width and alignment are the same on both sides. -/
def sameExtent (s t : Site) : Except Overflow Bool := do
  let e ← s.unit.measure s.type
  let e' ← t.unit.measure t.type
  return e == e'

end Site

/-- Types without a rule for comparison: those that are kept and spelled only. -/
def Shape.Class.isIncomparable : Shape.Class → Bool
  | .auto | .deducedTemplate | .objcObject | .objcInterface | .objcPointer | .pipe => true
  | _ => false

namespace Correspondence

/-- Pairs of types that must correspond for their owners to do so. -/
abbrev Edges := List (Ty × Ty)

/-- The edges, if a test holds. -/
def edgesIf (test : Bool) (edges : Edges) : Option Edges := if test then some edges else none

/-- The edges, if width and alignment are the same and a test holds. -/
def edgesIfSame (s t : Site) (test : Bool) (edges : Edges) : Except Overflow (Option Edges) := do
  let same ← s.sameExtent t
  return edgesIf (same && test) edges

/-- The types of the members of both records, in order. -/
def memberEdges (xs ys : RecordBody) : Edges :=
  (xs.members.map Member.type).zip (ys.members.map Member.type)

/-- The edges of two records: of one tag, complete, of one layout, and of as many members. -/
def recordEdges (s t : Site) (x y : RecordDecl) : Except Overflow (Option Edges) :=
  if x.tag ≠ y.tag then .ok none
  else
    match x.body, y.body with
    | some xs, some ys => edgesIfSame s t (xs.members.length == ys.members.length) (memberEdges xs ys)
    | _, _ => .ok none

/-- The edge of two enums: complete, of one layout, and with the same values, whatever their names. -/
def enumEdges (s t : Site) (x y : EnumDecl) : Except Overflow (Option Edges) :=
  match x.body, y.body with
  | some xs, some ys =>
    edgesIfSame s t (xs.enumerators.map Enumerator.value == ys.enumerators.map Enumerator.value) [(xs.base, ys.base)]
  | _, _ => .ok none

/-- What has to correspond for two canonical types of one class to do so; `none` if they differ by themselves. The
extents of arrays do not count. -/
def edges (s t : Site) : Shape → Shape → Except Overflow (Option Edges)
  | .builtin b, .builtin b' => edgesIfSame s t (b == b') []
  | .complex x, .complex y | .pointer x, .pointer y | .blockPointer x, .blockPointer y | .lvalueRef x, .lvalueRef y
  | .rvalueRef x, .rvalueRef y | .memberPointer x _, .memberPointer y _ | .atomic x, .atomic y =>
    edgesIfSame s t true [(x, y)]
  | .constantArray x _, .constantArray y _ | .incompleteArray x, .incompleteArray y
  | .variableArray x, .variableArray y => .ok [(x, y)]
  | .vector x count kind, .vector y count' kind' => .ok (edgesIf (count == count' && kind == kind') [(x, y)])
  | .prototype x params variadic traits, .prototype y params' variadic' traits' =>
    .ok (edgesIf (traits == traits' && variadic == variadic' && params.length == params'.length)
      ((x, y) :: params.zip params'))
  | .noPrototype x traits, .noPrototype y traits' => .ok (edgesIf (traits == traits') [(x, y)])
  | .record id, .record id' =>
    match s.unit.record? id, t.unit.record? id' with
    | some x, some y => recordEdges s t x y
    | _, _ => .ok none
  | .enum id, .enum id' =>
    match s.unit.enum? id, t.unit.enum? id' with
    | some x, some y => enumEdges s t x y
    | _, _ => .ok none
  | _, _ => .ok none

/-- Why a walk comes to no verdict. -/
inductive Stop where
  /-- There is no rule for types of this class. -/
  | unsupported (c : Shape.Class)
  /-- Measuring a type stops. -/
  | overflow
deriving DecidableEq, Repr

/-- The stop in words. -/
def Stop.message : Stop → String
  | unsupported c => s!"type matching does not support {c.label} types"
  | overflow => "attempt to add with overflow"

/-- Walks may stop, and keep the pairs entered so far. -/
abbrev Walk := StateT Edges (Except Stop)

/-- All edges, in order, up to the first that does not correspond. -/
def walkAll (visit : Ty → Ty → Walk Bool) : Edges → Walk Bool
  | [] => return true
  | (x, y) :: rest => do
    if ← visit x y then walkAll visit rest else return false

/-- Compares two types that were entered together. -/
def compareNew (visit : Ty → Ty → Walk Bool) (s t : Site) (x y : Shape) : Walk Bool :=
  if x.cls.isIncomparable then throw (.unsupported x.cls)
  else
    match edges s t x y with
    | .error _ => throw .overflow
    | .ok none => return false
    | .ok (some es) => walkAll visit es

/-- Compares two types through at most `fuel` levels of pairs. -/
def walk (a b : DeclUnit) : Nat → Ty → Ty → Walk Bool
  | 0, _, _ => return false
  | fuel + 1, x, y => do
    let x := a.canonical x
    let y := b.canonical y
    match a.shape? x, b.shape? y with
    | some p, some q =>
      if p.cls ≠ q.cls then return false
      else
        let entered ← get
        let xAt := (entered.map (·.1)).idxOf? x
        let yAt := (entered.map (·.2)).idxOf? y
        if xAt ≠ yAt then return false
        else if xAt.isSome then return true
        else
          set (entered ++ [(x, y)])
          compareNew (walk a b fuel) ⟨a, x⟩ ⟨b, y⟩ p q
    | _, _ => return false

/-- Levels that no walk exceeds: each enters a type of the first unit that was not entered before. -/
def allowance (a : DeclUnit) : Nat := a.size + 1

end Correspondence

/-- Two types of two units correspond. -/
def corresponds (a : DeclUnit) (x : Ty) (b : DeclUnit) (y : Ty) : Except Correspondence.Stop Bool :=
  ((Correspondence.walk a b (Correspondence.allowance a) x y).run []).map (·.1)

/-- Two types of one unit are the same but for sugar. -/
def DeclUnit.same (u : DeclUnit) (x y : Ty) : Bool :=
  u.contains x && u.contains y && u.canonical x == u.canonical y

/-- A unit where it is kept. Units at one place are one unit; units that are kept apart share nothing, even if they are
equal. -/
structure Kept (Place : Type) where
  place : Place
  unit : DeclUnit

/-- Two types of kept units are the same: but for sugar within one unit, by a walk where the units are kept apart. -/
def Kept.sameType {Place : Type} [DecidableEq Place] (a : Kept Place) (x : Ty) (b : Kept Place) (y : Ty) :
    Except Correspondence.Stop Bool :=
  if a.place = b.place then .ok (a.unit.same x y) else corresponds a.unit x b.unit y

theorem Kept.sameType_of_eq {Place : Type} [DecidableEq Place] {a b : Kept Place} (h : a.place = b.place) (x y : Ty) :
    a.sameType x b y = .ok (a.unit.same x y) := if_pos h

theorem Kept.sameType_of_ne {Place : Type} [DecidableEq Place] {a b : Kept Place} (h : a.place ≠ b.place) (x y : Ty) :
    a.sameType x b y = corresponds a.unit x b.unit y := if_neg h

end Cognate
