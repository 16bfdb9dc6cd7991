import Cognate.Proofs.Unit.Runs

/-!
# Types without sugar

A type written out as a tree, as it stands (`unfold`) and with the typedefs and qualifiers left out at every depth
(`strip`). The canonical node of a type is the type of the stripped tree: it unfolds to that tree, and two types have
one canonical node exactly if their stripped trees are equal.
-/

namespace Cognate

/-- A type written out: a shape over blank children, and what stands in their places. -/
inductive TypeTree where
  | node (head : Shape) (children : List TypeTree)
  /-- A handle that stands for nothing. -/
  | loose (t : Ty)

namespace Shape

/-- The shape over blank children. -/
def head (s : Shape) : Shape := s.map fun _ => ⟨0⟩

theorem head_map (f : Ty → Ty) (s : Shape) : (s.map f).head = s.head := map_map f _ s

/-- A shape is its head and its children. -/
theorem eq_of_head_eq {s s' : Shape} (hh : s.head = s'.head) (hc : s.children = s'.children) : s = s' :=
  eq_of_map_eq hh hc

end Shape

namespace DeclUnit

/-- The tree of a type as it is written. -/
def unfold (u : DeclUnit) (t : Ty) : TypeTree :=
  match u.shape? t with
  | none => .loose t
  | some s => .node s.head (s.children.map fun c => if c.index < t.index then u.unfold c else .loose c)
termination_by t.index

/-- The tree of a type without typedefs and qualifiers, at any depth. -/
def strip (u : DeclUnit) (t : Ty) : TypeTree :=
  match u.shape? t with
  | none => .loose t
  | some (.typedef _ inner) | some (.qualified inner _) =>
    if inner.index < t.index then u.strip inner else .loose inner
  | some s => .node s.head (s.children.map fun c => if c.index < t.index then u.strip c else .loose c)
termination_by t.index

namespace WellFormed

variable {u : DeclUnit} {s : Shape} {t t' c : Ty}

/-! ## Trees of well-formed units -/

theorem unfold_eq (hu : u.WellFormed) (hs : u.shape? t = some s) :
    u.unfold t = .node s.head (s.children.map u.unfold) := by
  rw [unfold, hs]
  dsimp only
  congr 1
  exact List.map_congr_left fun c hc => if_pos (hu.child_lt hs hc)

theorem strip_sugar (hu : u.WellFormed) (hs : u.shape? t = some s) (hsugar : s.isSugar = true)
    (hc : c ∈ s.children) : u.strip t = u.strip c := by
  have hlt := hu.child_lt hs hc
  rw [strip, hs]
  cases s with
  | typedef name inner =>
    obtain rfl : c = inner := by simpa [Shape.children] using hc
    exact if_pos hlt
  | qualified inner q =>
    obtain rfl : c = inner := by simpa [Shape.children] using hc
    exact if_pos hlt
  | _ => simp [Shape.isSugar] at hsugar

theorem strip_flat (hu : u.WellFormed) (hs : u.shape? t = some s) (hsugar : s.isSugar = false) :
    u.strip t = .node s.head (s.children.map u.strip) := by
  have hmap : (s.children.map fun c => if c.index < t.index then u.strip c else .loose c) =
      s.children.map u.strip := List.map_congr_left fun c hc => if_pos (hu.child_lt hs hc)
  rw [strip, hs]
  cases s <;> simp_all [Shape.isSugar]

/-! ## Canonical types and stripped trees -/

/-- By induction on the position of a node, as its children stand in front of it. -/
theorem unfold_canonical (hu : u.WellFormed) (ht : u.contains t = true) : u.unfold (u.canonical t) = u.strip t := by
  induction hi : t.index using Nat.strong_induction_on generalizing t with
  | _ i ih =>
    subst hi
    obtain ⟨s, hs⟩ := exists_shape ht
    have hchild : ∀ c ∈ s.children, u.unfold (u.canonical c) = u.strip c :=
      fun c hc => ih _ (hu.child_lt hs hc) (hu.contains_child hs hc) rfl
    cases hsugar : s.isSugar with
    | true =>
      obtain ⟨c, hc⟩ := Shape.exists_child_of_isSugar hsugar
      have hmem : c ∈ s.children := by simp [hc]
      rw [hu.sugar hs hsugar hmem, hu.strip_sugar hs hsugar hmem]
      exact hchild c hmem
    | false =>
      rw [hu.unfold_eq (hu.flat hs hsugar), hu.strip_flat hs hsugar, Shape.head_map, Shape.children_map, List.map_map]
      congr 1
      exact List.map_congr_left hchild

/-- No two nodes are written out alike: shapes are unique, and so are the children by induction. -/
theorem unfold_injective (hu : u.WellFormed) (ht : u.contains t = true) (ht' : u.contains t' = true)
    (h : u.unfold t = u.unfold t') : t = t' := by
  induction hi : t.index using Nat.strong_induction_on generalizing t t' with
  | _ i ih =>
    subst hi
    obtain ⟨s, hs⟩ := exists_shape ht
    obtain ⟨s', hs'⟩ := exists_shape ht'
    rw [hu.unfold_eq hs, hu.unfold_eq hs', TypeTree.node.injEq] at h
    obtain ⟨hhead, hmap⟩ := h
    have hlen : s.children.length = s'.children.length := by simpa using congrArg List.length hmap
    have hchildren : s.children = s'.children := by
      refine List.ext_getElem hlen fun k hk hk' => ?_
      have hmem := List.getElem_mem hk
      have hmem' := List.getElem_mem hk'
      have hget : u.unfold s.children[k] = u.unfold s'.children[k] := by
        simpa [hk, hk'] using congrArg (·[k]?) hmap
      exact ih _ (hu.child_lt hs hmem) (hu.contains_child hs hmem) (hu.contains_child hs' hmem') hget rfl
    exact hu.unique hs (Shape.eq_of_head_eq hhead hchildren ▸ hs')

end WellFormed

/-- Two types of a reachable unit are the same but for sugar exactly if their stripped trees are, and a canonical type
unfolds to the stripped tree. -/
theorem canonical_eq_iff_strip {u : DeclUnit} (h : u.Reachable) {a b : Ty} (ha : u.contains a = true)
    (hb : u.contains b = true) :
    (u.canonical a = u.canonical b ↔ u.strip a = u.strip b) ∧ u.unfold (u.canonical a) = u.strip a := by
  have hw := h.wellFormed
  refine ⟨⟨fun he => ?_, fun he => ?_⟩, hw.unfold_canonical ha⟩
  · rw [← hw.unfold_canonical ha, he, hw.unfold_canonical hb]
  · rw [← hw.unfold_canonical ha, ← hw.unfold_canonical hb] at he
    exact hw.unfold_injective (hw.contains_canonical ha) (hw.contains_canonical hb) he

/-- A function from `const T *` to `T`, for a typedef `T` of `int`: its canonical type is that from `int *` to `int`. -/
theorem canonical_eq_iff_strip_function :
    let u := (empty "unit" .lp64).applyAll
      [.intern (.builtin .int), .nameType "T" ⟨0⟩, .qualify ⟨1⟩ ⟨true, false, false⟩, .intern (.pointer ⟨2⟩),
        .intern (.prototype ⟨1⟩ [⟨4⟩] false {})]
    u.Reachable ∧ u.shape? ⟨5⟩ = some (.prototype ⟨0⟩ [⟨3⟩] false {}) ∧ u.strip ⟨6⟩ = u.strip ⟨5⟩ ∧
      u.unfold ⟨5⟩ = u.strip ⟨6⟩ := by
  intro u
  have h : u.Reachable := ⟨"unit", .lp64, _, by decide +kernel, rfl⟩
  have hk : u.canonical ⟨6⟩ = ⟨5⟩ := by decide +kernel
  obtain ⟨hiff, htree⟩ := canonical_eq_iff_strip h (a := ⟨6⟩) (b := ⟨5⟩) (by decide +kernel) (by decide +kernel)
  rw [hk] at htree
  exact ⟨h, by decide +kernel, hiff.1 (by decide +kernel), htree⟩

end DeclUnit
end Cognate
