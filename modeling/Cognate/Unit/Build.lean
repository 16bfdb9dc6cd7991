import Cognate.Unit.Basic

/-! # Building types

Nodes are only ever added, and never twice: `intern` gives the node of a shape, new or old. A new node's canonical type
is that of the type behind its sugar, or the same shape over canonical children, which is added first. -/

namespace Cognate.DeclUnit

/-- The node of a shape, if there is one. -/
def find? (u : DeclUnit) (s : Shape) : Option Ty := (u.nodes.findIdx? (·.shape == s)).map Ty.mk

/-- A new node; without a canonical type it stands for itself. -/
def push (u : DeclUnit) (s : Shape) (canonical : Option Ty) : Ty × DeclUnit :=
  let t : Ty := ⟨u.nodes.size⟩
  (t, { u with nodes := u.nodes.push ⟨s, canonical.getD t⟩ })

/-- The node of a shape whose children are canonical. -/
def internFlat (u : DeclUnit) (s : Shape) : Ty × DeclUnit :=
  match u.find? s with
  | some t => (t, u)
  | none => u.push s none

/-- The node of a shape. -/
def intern (u : DeclUnit) (s : Shape) : Ty × DeclUnit :=
  match u.find? s with
  | some t => (t, u)
  | none =>
    match s with
    | .typedef _ inner | .qualified inner _ => u.push s (some (u.canonical inner))
    | _ =>
      let flat := s.map u.canonical
      if flat = s then u.push s none
      else
        let (t, u) := u.internFlat flat
        u.push s (some t)

/-- The type with more qualifiers. They join those that the type is written with. -/
def qualify (u : DeclUnit) (t : Ty) (q : Qualifiers) : Ty × DeclUnit :=
  if q.isEmpty then (t, u)
  else
    match u.shape? t with
    | some (.qualified inner p) => u.intern (.qualified inner (p.merge q))
    | _ => u.intern (.qualified t q)

/-- A new record without a body. -/
def declareRecord (u : DeclUnit) (tag : Tag) (name : Option String) : Ty × DeclUnit :=
  { u with records := u.records.push ⟨tag, name, none⟩ }.intern (.record ⟨u.records.size⟩)

/-- A new enum without a body. -/
def declareEnum (u : DeclUnit) (name : Option String) : Ty × DeclUnit :=
  { u with enums := u.enums.push ⟨name, none⟩ }.intern (.enum ⟨u.enums.size⟩)

end Cognate.DeclUnit
