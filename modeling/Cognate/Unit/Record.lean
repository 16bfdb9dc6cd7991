import Cognate.TypeFault
import Cognate.Unit.Measure
import Cognate.Unit.Spelling

/-! # Bodies of records and enums

A declared record or enum is given its body once. Members follow one another, each at the next multiple of its own
alignment; the members of a union all start at zero. -/

namespace Cognate

/-- The least multiple of an alignment not below `offset`, if it fits a word. -/
def alignUp (offset align : Nat) : Option Nat :=
  let align := max align 1
  word? ((offset + align - 1) / align * align)

/-- The least alignment of a record, in bits. -/
def recordAlign : Nat := 8

/-- Why members are not laid out. -/
inductive LayoutFault where
  | incomplete (member : String)
  | overflow
  /-- Measuring a member stops. -/
  | stopped
deriving DecidableEq, Repr

namespace DeclUnit

/-- Layout of a last member `T[]`: no width, and the alignment of an element. -/
def flexibleExtent (u : DeclUnit) (t : Ty) : Except Overflow (Option Extent) :=
  match u.canonicalShape? t with
  | some (.incompleteArray element) => return (← u.measure element).map fun e => ⟨0, e.align⟩
  | _ => .ok none

/-- Layout of a member; only the last one of a struct may be an array of unknown size, whose elements are measured
wherever it stands. -/
def memberExtent (u : DeclUnit) (isUnion isLast : Bool) (t : Ty) : Except Overflow (Option Extent) := do
  match ← u.measure t with
  | some e => return some e
  | none =>
    let flexible ← u.flexibleExtent t
    return if isLast && !isUnion then flexible else none

/-- Places members from bit `stop` on in a record aligned to `align` so far. -/
def placeMembers (u : DeclUnit) (isUnion : Bool) (stop align : Nat) :
    List (String × Ty) → Except LayoutFault (List Member × Extent)
  | [] =>
    match alignUp stop align with
    | some width => .ok ([], ⟨width, align⟩)
    | none => .error .overflow
  | (name, type) :: rest =>
    match u.memberExtent isUnion rest.isEmpty type with
    | .error _ => .error .stopped
    | .ok none => .error (.incomplete name)
    | .ok (some e) =>
      match (if isUnion then some 0 else alignUp stop e.align) with
      | none => .error .overflow
      | some offset =>
        match word? (offset + e.width) with
        | none => .error .overflow
        | some next =>
          match u.placeMembers isUnion (max stop next) (max align e.align) rest with
          | .error fault => .error fault
          | .ok (members, extent) =>
            .ok (⟨if name.isEmpty then none else some name, type, offset⟩ :: members, extent)

/-- Gives a record its members: names, empty for unnamed ones, and types. -/
def completeRecord (u : DeclUnit) (t : Ty) (fields : List (String × Ty)) : Except TypeFault Unit × DeclUnit :=
  match u.recordOf? t with
  | none => (.error (.notARecord (u.describe t)), u)
  | some (id, decl) =>
    if decl.body.isSome then (.error (.redefinition (u.describe t)), u)
    else
      match u.placeMembers (decl.tag == .union) 0 recordAlign fields with
      | .error (.incomplete field) => (.error (.incompleteField (u.describe t) field), u)
      | .error .overflow => (.error (.layoutOverflow (u.describe t)), u)
      | .error .stopped => (.error .stopped, u)
      | .ok (members, extent) =>
        (.ok (), { u with records := u.records.set! id.index { decl with body := some ⟨members, extent⟩ } })

/-- Bits of the constants of an enum; only the low 32 bits of a width count. -/
def enumeratorBits (base : Extent) : Nat := base.width % Nat.pow 2 32

/-- Gives an enum its integer type and its constants. -/
def completeEnum (u : DeclUnit) (t base : Ty) (constants : List (String × Int)) : Except TypeFault Unit × DeclUnit :=
  match u.enumOf? t with
  | none => (.error (.notAnEnum (u.describe t)), u)
  | some (id, decl) =>
    if decl.body.isSome then (.error (.redefinition (u.describe t)), u)
    else
      match u.measure base, (u.builtinKind? base).filter Builtin.isInteger with
      | .error _, _ => (.error .stopped, u)
      | .ok (some e), some _ =>
        let enumerators := constants.map fun (name, value) => ⟨name, WideInt.ofInt (enumeratorBits e) value⟩
        (.ok (), { u with enums := u.enums.set! id.index { decl with body := some ⟨base, enumerators⟩ } })
      | _, _ => (.error (.invalidEnumBase (u.describe base)), u)

end DeclUnit
end Cognate
