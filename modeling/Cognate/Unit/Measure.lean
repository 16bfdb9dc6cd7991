import Cognate.Unit.Basic

/-! # Layout of types

Width and alignment of a type, in bits. A type has none if it is incomplete, a function, or of a kind without layout,
and also if a width does not fit a word. The alignment of a vector is not checked like that: where it does not fit,
measuring stops and answers nothing. -/

namespace Cognate

/-- A number that nothing checks does not fit a word. -/
inductive Overflow where
  | overflow
deriving DecidableEq, Repr

/-- The least power of two not below `n`. -/
def ceilPowerOfTwo (n : Nat) : Nat := if n ≤ 1 then 1 else Nat.pow 2 (Nat.log2 (n - 1) + 1)

namespace Extent

/-- `count` elements one after the other. -/
def repeat? (element : Extent) (count : Nat) : Option Extent :=
  (word? (element.width * count)).map fun width => ⟨width, element.align⟩

/-- A vector is aligned to its own size. -/
def vector (element : Extent) (count : Nat) : Except Overflow (Option Extent) :=
  match word? (element.width * count) with
  | none => .ok none
  | some width =>
    match word? (ceilPowerOfTwo width) with
    | none => .error .overflow
    | some power => .ok (some ⟨width, max power element.align⟩)

/-- The layout that measuring ends with, if it does with one. -/
def answered : Except Overflow (Option Extent) → Option Extent
  | .ok e => e
  | .error _ => none

theorem answered_eq_some {r : Except Overflow (Option Extent)} {e : Extent} :
    answered r = some e ↔ r = .ok (some e) := by
  cases r <;> simp [answered]

end Extent

namespace DeclUnit

/-- Layout of a type, if it has one, through at most `fuel` levels of children. The integer type of an enum is looked up
without descending: behind its sugar it is a builtin. -/
def measureWithin (u : DeclUnit) : Nat → Ty → Except Overflow (Option Extent)
  | 0, _ => .ok none
  | fuel + 1, t =>
    match u.canonicalShape? t with
    | none => .ok none
    | some shape =>
      match shape with
      | .builtin b => .ok (u.target.extent b)
      | .complex element => return (← u.measureWithin fuel element).bind (·.repeat? 2)
      | .pointer _ | .blockPointer _ | .lvalueRef _ | .rvalueRef _ | .memberPointer _ _ | .objcPointer _
      | .pipe _ => .ok u.target.pointer
      | .constantArray element size => return (← u.measureWithin fuel element).bind (·.repeat? size)
      | .vector element count _ => do
        match ← u.measureWithin fuel element with
        | none => return none
        | some e => e.vector count
      | .record id => .ok (((u.record? id).bind RecordDecl.body).map RecordBody.extent)
      | .enum id =>
        .ok (((u.enum? id).bind EnumDecl.body).bind fun body => (u.builtinKind? body.base).bind u.target.extent)
      | .typedef _ inner | .qualified inner _ | .atomic inner => u.measureWithin fuel inner
      | .incompleteArray _ | .variableArray _ | .prototype _ _ _ _ | .noPrototype _ _ | .auto
      | .deducedTemplate | .objcObject | .objcInterface => .ok none

/-- Layout of a type, if it has one. A node's children stand before it, so its index bounds the depth. -/
def measure (u : DeclUnit) (t : Ty) : Except Overflow (Option Extent) := u.measureWithin (t.index + 1) t

/-- The layout of a type, if measuring it ends with one. -/
def extent (u : DeclUnit) (t : Ty) : Option Extent := Extent.answered (u.measure t)

theorem extent_eq_some {u : DeclUnit} {t : Ty} {e : Extent} : u.extent t = some e ↔ u.measure t = .ok (some e) :=
  Extent.answered_eq_some

end DeclUnit
end Cognate
