import Cognate.Decoded.Basic
import Cognate.Proofs.Unit.Extents

/-!
# Values level by level

The value of some bytes comes from the canonical shape of their type and from the values of its elements
(`Decoded.ofBytes_eq`), so that the bound on the depth does not show. The sizes of nested arrays are collected likewise.
-/

namespace Cognate

variable {u : DeclUnit} {t : Ty} {s : Shape}

namespace Decoded

/-- The value of some bytes as a canonical shape, given how the elements of an array are read. -/
def level (read : Ty → List UInt8 → Decoded) : Option Shape → List UInt8 → Decoded
  | none, _ => degraded .foreign
  | some (.builtin b), bytes => ofBuiltin b bytes
  | some (.pointer _), bytes => ofPointer bytes
  | some (.constantArray element size), bytes => ofArray (read element) size bytes
  | some s, _ => degraded (.unhandled s.cls)

theorem within_succ (u : DeclUnit) (fuel : Nat) (t : Ty) :
    within u (fuel + 1) t = level (within u fuel) (u.canonicalShape? t) := by
  funext bytes
  rw [within]
  cases u.canonicalShape? t with
  | none => rfl
  | some s => cases s <;> rfl

theorem within_descends (u : DeclUnit) : u.Descends (within u) level :=
  ⟨within_succ u, fun {g h o} hgh => by
    cases o with
    | none => rfl
    | some s =>
      cases s with
      | constantArray element size =>
        funext bytes
        rw [level, level, hgh _ rfl element (by simp [Shape.children])]
      | _ => rfl⟩

/-- The value of some bytes, from the values of the elements. -/
theorem ofBytes_eq (hu : u.WellFormed) (t : Ty) : ofBytes u t = level (ofBytes u) (u.canonicalShape? t) :=
  (within_descends u).eq hu (Nat.lt_succ_self _)

end Decoded

namespace DeclUnit

/-- The sizes of the arrays of constant size that are nested in a canonical shape, given those of its element. -/
def sizesOf (sizes : Ty → List Nat) : Option Shape → List Nat
  | some (.constantArray element size) => size :: sizes element
  | _ => []

def arraySizesWithin (u : DeclUnit) : Nat → Ty → List Nat
  | 0, _ => []
  | fuel + 1, t => sizesOf (u.arraySizesWithin fuel) (u.canonicalShape? t)

/-- The sizes of the arrays of constant size that a type nests, the outermost first. -/
def arraySizes (u : DeclUnit) (t : Ty) : List Nat := u.arraySizesWithin (t.index + 1) t

theorem arraySizesWithin_descends (u : DeclUnit) : u.Descends u.arraySizesWithin sizesOf :=
  ⟨fun _ _ => rfl, fun {g h o} hgh => by
    cases o with
    | none => rfl
    | some s =>
      cases s with
      | constantArray element size => rw [sizesOf, sizesOf, hgh _ rfl element (by simp [Shape.children])]
      | _ => rfl⟩

theorem arraySizes_eq (hu : u.WellFormed) (t : Ty) : u.arraySizes t = sizesOf u.arraySizes (u.canonicalShape? t) :=
  u.arraySizesWithin_descends.eq hu (Nat.lt_succ_self _)

end DeclUnit
end Cognate
