import Cognate.Proofs.Grammar.Texts
import Cognate.Proofs.Unit.Declared

/-!
# Qualified types

Where types get their qualifiers from `qualify` alone, a unit has one set of qualifiers around a type at most, and
never an empty one (`Merged`). A type is then determined by the type inside and the qualifiers around it (`Merged.ext`),
and so qualifiers one after the other, in any order, and all of them at once lead to one handle (`qualify_orders`).
-/

namespace Cognate

namespace Qualifiers

theorem eq_none_of_isEmpty {q : Qualifiers} (h : q.isEmpty = true) : q = none := by
  obtain ⟨isConst, isVolatile, isRestrict⟩ := q
  simp only [isEmpty, Bool.not_eq_true', Bool.or_eq_false_iff] at h
  obtain ⟨⟨rfl, rfl⟩, rfl⟩ := h
  rfl

theorem merge_none (q : Qualifiers) : q.merge none = q := by simp [merge, none]

/-- The union of some sets. -/
def union (qs : List Qualifiers) : Qualifiers := qs.foldr merge none

end Qualifiers

/-- A qualified type is interned as it is given. -/
def Operation.internsQualified : Operation → Bool
  | .intern (.qualified _ _) => true
  | _ => false

namespace DeclUnit

variable {u v : DeclUnit} {s : Shape} {t t' inner : Ty} {q : Qualifiers} {qs rs : List Qualifiers} {op : Operation}
  {ops : List Operation}

/-- A run of operations on handles in range, where types get qualifiers from `qualify` alone. -/
def admitsMerging (u : DeclUnit) (ops : List Operation) : Bool :=
  u.admitsAll ops && ops.all fun op => !op.internsQualified

/-- Such a run leads to the unit from an empty one, or texts do. -/
def Merging (u : DeclUnit) : Prop :=
  (∃ name target ops, (empty name target).admitsMerging ops = true ∧ u = (empty name target).applyAll ops) ∨ u.FromTexts

/-- The type with each set of qualifiers in turn. -/
def qualifyAll (u : DeclUnit) (t : Ty) : List Qualifiers → Ty × DeclUnit
  | [] => (t, u)
  | q :: qs => (u.qualify t q).2.qualifyAll (u.qualify t q).1 qs

/-! ## Type and qualifiers -/

/-- The type inside a set of qualifiers, and the set; around an unqualified type there are none. -/
def parts (u : DeclUnit) (t : Ty) : Ty × Qualifiers :=
  match u.shape? t with
  | some (.qualified inner q) => (inner, q)
  | _ => (t, .none)

theorem parts_of_qualified (h : u.shape? t = some (.qualified inner q)) : u.parts t = (inner, q) := by
  rw [parts, h]

theorem parts_of_unqualified (h : ∀ inner q, u.shape? t ≠ some (.qualified inner q)) : u.parts t = (t, .none) := by
  unfold parts
  split
  · next inner q hs => exact absurd hs (h inner q)
  · rfl

theorem parts_cases (u : DeclUnit) (t : Ty) :
    (∃ inner q, u.shape? t = some (.qualified inner q) ∧ u.parts t = (inner, q)) ∨
      (∀ inner q, u.shape? t ≠ some (.qualified inner q)) ∧ u.parts t = (t, .none) := by
  by_cases hs : ∃ inner q, u.shape? t = some (.qualified inner q)
  · obtain ⟨inner, q, hs⟩ := hs
    exact .inl ⟨inner, q, hs, parts_of_qualified hs⟩
  · simp only [not_exists] at hs
    exact .inr ⟨hs, parts_of_unqualified hs⟩

theorem Extends.parts (h : u.Extends v) (ht : u.contains t = true) : v.parts t = u.parts t := by
  obtain ⟨s, hs⟩ := exists_shape ht
  rw [DeclUnit.parts, DeclUnit.parts, hs, h.shape? hs]

/-- No set of qualifiers is empty, and none stands directly around another one. -/
structure Merged (u : DeclUnit) : Prop where
  wellFormed : u.WellFormed
  nonempty : ∀ {t inner q}, u.shape? t = some (.qualified inner q) → q.isEmpty = false
  unnested : ∀ {t inner q}, u.shape? t = some (.qualified inner q) →
    ∀ inner' q', u.shape? inner ≠ some (.qualified inner' q')

theorem empty_merged (name : String) (target : Target) : (empty name target).Merged :=
  ⟨empty_wellFormed name target, by simp [empty, shape?, node?], by simp [empty, shape?, node?]⟩

/-- Qualifiers are written around a first type or a pointer, and only where there are some. -/
theorem Written.merged (hu : u.Written) : u.Merged where
  wellFormed := hu.wellFormed
  nonempty hs := (hu.writes hs).1
  unnested hs inner' q' hs' := by
    obtain ⟨-, s, hs, htakes⟩ := hu.writes hs
    rw [hs'] at hs
    cases hs
    cases htakes

namespace Merged

theorem of_nodes_eq (hu : u.Merged) (h : v.nodes = u.nodes) : v.Merged := by
  have hs : ∀ t, v.shape? t = u.shape? t := fun t => by simp [shape?, node?, h]
  refine ⟨hu.wellFormed.of_nodes_eq h, ?_, ?_⟩ <;> simp only [hs]
  · exact hu.nonempty
  · exact hu.unnested

/-- What is inside and the qualifiers around it tell types apart. -/
theorem ext (hu : u.Merged) (h : u.parts t = u.parts t') : t = t' := by
  rcases parts_cases u t with ⟨inner, q, hs, hparts⟩ | ⟨-, hparts⟩ <;>
    rcases parts_cases u t' with ⟨inner', q', hs', hparts'⟩ | ⟨-, hparts'⟩ <;>
    rw [hparts, hparts'] at h <;> cases h
  · exact hu.wellFormed.unique hs hs'
  · cases hu.nonempty hs
  · cases hu.nonempty hs'
  · rfl

/-! ## Operations -/

/-- Interning keeps a unit merged if the shape, where it is a qualified type, is one that `qualify` asks for. -/
theorem intern (hu : u.Merged) (hc : ∀ c ∈ s.children, u.contains c = true)
    (hs : ∀ inner q, s = .qualified inner q →
      q.isEmpty = false ∧ ∀ inner' q', u.shape? inner ≠ some (.qualified inner' q')) : (u.intern s).2.Merged := by
  obtain ⟨hw, hext, -⟩ := intern_spec hu.wellFormed hc
  -- A qualified type of the longer unit: an old one, or the given shape; types without sugar are none.
  have hold : ∀ {t inner q}, (u.intern s).2.shape? t = some (.qualified inner q) → u.contains inner = true ∧
      q.isEmpty = false ∧ ∀ inner' q', u.shape? inner ≠ some (.qualified inner' q') := by
    intro t inner q h
    rcases intern_shapes h with ho | he | ⟨hsugar, he⟩
    · exact ⟨hu.wellFormed.contains_child ho (by simp [Shape.children]), hu.nonempty ho, hu.unnested ho⟩
    · exact ⟨hc inner (by simp [← he, Shape.children]), hs inner q he.symm⟩
    · rw [← Shape.isSugar_map u.canonical, ← he] at hsugar
      cases hsugar
  refine ⟨hw, fun h => (hold h).2.1, fun h inner' q' h' => ?_⟩
  obtain ⟨hcontains, -, hne⟩ := hold h
  obtain ⟨s', hs'⟩ := exists_shape hcontains
  rw [hext.shape? hs'] at h'
  exact hne inner' q' (hs'.trans h')

/-- Qualifying a type adds the qualifiers to those around it. -/
theorem qualify (hu : u.Merged) (ht : u.contains t = true) (q : Qualifiers) :
    (u.qualify t q).2.Merged ∧ u.Extends (u.qualify t q).2 ∧ (u.qualify t q).2.contains (u.qualify t q).1 = true ∧
      (u.qualify t q).2.parts (u.qualify t q).1 = ((u.parts t).1, (u.parts t).2.merge q) ∧
      (u.qualify t q).2.canonical (u.qualify t q).1 = u.canonical t := by
  -- One shape around `inner` is interned, with the qualifiers `p`, and stands for what the type stands for.
  have hinterned : ∀ inner p, u.contains inner = true → p.isEmpty = false →
      (∀ inner' q', u.shape? inner ≠ some (.qualified inner' q')) → u.canonical t = u.canonical inner →
      (u.intern (.qualified inner p)).2.Merged ∧ u.Extends (u.intern (.qualified inner p)).2 ∧
        (u.intern (.qualified inner p)).2.contains (u.intern (.qualified inner p)).1 = true ∧
        (u.intern (.qualified inner p)).2.parts (u.intern (.qualified inner p)).1 = (inner, p) ∧
        (u.intern (.qualified inner p)).2.canonical (u.intern (.qualified inner p)).1 = u.canonical t := by
    intro inner p hinner hp hne hcanonical
    have hc : ∀ c ∈ (Shape.qualified inner p).children, u.contains c = true := by simpa [Shape.children] using hinner
    obtain ⟨hw, hext, hshape⟩ := intern_spec hu.wellFormed hc
    refine ⟨hu.intern hc ?_, hext, contains_of_shape? hshape, parts_of_qualified hshape, ?_⟩
    · rintro _ _ ⟨⟩
      exact ⟨hp, hne⟩
    · rw [hw.sugar hshape rfl (c := inner) (by simp [Shape.children]), hext.canonical hinner, hcanonical]
  unfold DeclUnit.qualify
  split
  · next hq =>
    rw [Qualifiers.eq_none_of_isEmpty hq, Qualifiers.merge_none]
    exact ⟨hu, .refl u, ht, rfl, rfl⟩
  · next hq =>
    simp only [Bool.not_eq_true] at hq
    split
    · next inner p hs =>
      have hmem : inner ∈ (Shape.qualified inner p).children := by simp [Shape.children]
      rw [parts_of_qualified hs]
      refine hinterned inner (p.merge q) (hu.wellFormed.contains_child hs hmem) ?_ (hu.unnested hs)
        (hu.wellFormed.sugar hs rfl hmem)
      rw [Qualifiers.isEmpty_merge, hq, Bool.and_false]
    · next hne =>
      rw [parts_of_unqualified hne]
      have hnone : Qualifiers.none.merge q = q := by rw [Qualifiers.merge_comm, Qualifiers.merge_none]
      rw [hnone]
      exact hinterned t q ht hq hne rfl

theorem apply (hu : u.Merged) (hop : u.admits op = true) (hq : op.internsQualified = false) : (u.apply op).Merged := by
  have hsame : ∀ {v : DeclUnit}, v.nodes = u.nodes → v.Merged := hu.of_nodes_eq
  have hintern : ∀ {v : DeclUnit} {s : Shape}, v.nodes = u.nodes → (∀ c ∈ s.children, u.contains c = true) →
      (∀ inner q, s ≠ .qualified inner q) → (v.intern s).2.Merged := by
    intro v s he hc hs
    have hv : ∀ c ∈ s.children, v.contains c = true := fun c hm => (Extends.of_nodes_eq he).contains (hc c hm)
    exact (hsame he).intern hv fun inner q h => absurd h (hs inner q)
  cases op with
  | intern s =>
    refine hintern rfl (inRange_children hop) ?_
    rintro inner q rfl
    cases hq
  | qualify t q => exact (hu.qualify hop q).1
  | declareRecord tag name => exact hintern rfl (by simp [Shape.children]) (by simp)
  | declareEnum name => exact hintern rfl (by simp [Shape.children]) (by simp)
  | completeRecord t fields =>
    exact (u.completeRecord_allOrNothing t fields).cases hu fun v hv => hsame (completeRecord_nodes hv)
  | completeEnum t base constants =>
    exact (u.completeEnum_allOrNothing t base constants).cases hu fun v hv => hsame (completeEnum_nodes hv)
  | nameType name t =>
    have ht : u.contains t = true := hop
    exact (hintern (v := u) (s := .typedef name t) rfl (by simpa [Shape.children] using ht) (by simp)).of_nodes_eq
      (defineTypedef_nodes u name t)
  | defineTag name t => exact (u.defineTag_allOrNothing name t).cases hu fun v hv => hsame (defineTag_nodes hv)
  | defineConstant name value t =>
    exact (u.defineConstant_allOrNothing name value t).cases hu fun v hv => hsame (defineConstant_nodes hv)
  | declareValue name t => exact (u.declareValue_allOrNothing name t).cases hu fun v hv => hsame (declareValue_nodes hv)

theorem applyAll (hu : u.Merged) (h : u.admitsMerging ops = true) : (u.applyAll ops).Merged := by
  induction ops generalizing u with
  | nil => exact hu
  | cons op ops ih =>
    simp only [admitsMerging, admitsAll, List.all_cons, Bool.and_eq_true, Bool.not_eq_true'] at h ih
    exact ih (hu.apply h.1.1 h.2.1) ⟨h.1.2, h.2.2⟩

/-- By induction on the sets: each adds to the qualifiers, and none changes what the type stands for. -/
theorem qualifyAll (hu : u.Merged) (ht : u.contains t = true) (qs : List Qualifiers) :
    (u.qualifyAll t qs).2.Merged ∧ u.Extends (u.qualifyAll t qs).2 ∧
      (u.qualifyAll t qs).2.contains (u.qualifyAll t qs).1 = true ∧
      (u.qualifyAll t qs).2.parts (u.qualifyAll t qs).1 = ((u.parts t).1, (u.parts t).2.merge (.union qs)) ∧
      (u.qualifyAll t qs).2.canonical (u.qualifyAll t qs).1 = u.canonical t := by
  induction qs generalizing u t with
  | nil => exact ⟨hu, .refl u, ht, by rw [Qualifiers.union, List.foldr_nil, Qualifiers.merge_none]; rfl, rfl⟩
  | cons q qs ih =>
    obtain ⟨hv, hext, hcontains, hparts, hcanonical⟩ := hu.qualify ht q
    obtain ⟨hw, hext', hcontains', hparts', hcanonical'⟩ := ih hv hcontains
    refine ⟨hw, hext.trans hext', hcontains', ?_, hcanonical'.trans hcanonical⟩
    rw [DeclUnit.qualifyAll, hparts', hparts, Qualifiers.merge_assoc]
    rfl

/-- Sets with one union lead to one handle, also if the second ones come later. -/
theorem qualifyAll_eq (hu : u.Merged) (ht : u.contains t = true) (h : Qualifiers.union qs = .union rs) (hv : v.Merged)
    (hext : (u.qualifyAll t qs).2.Extends v) : (v.qualifyAll t rs).1 = (u.qualifyAll t qs).1 := by
  obtain ⟨-, hfirst, hcontains, hparts, -⟩ := hu.qualifyAll ht qs
  have hgrown : u.Extends v := hfirst.trans hext
  obtain ⟨hw, hlast, -, hparts', -⟩ := hv.qualifyAll (hgrown.contains ht) rs
  refine hw.ext ?_
  rw [hparts', hgrown.parts ht, (hext.trans hlast).parts hcontains, hparts, h]

end Merged

theorem Merging.merged (h : u.Merging) : u.Merged := by
  rcases h with ⟨name, target, ops, hops, rfl⟩ | h
  · exact (empty_merged name target).applyAll hops
  · exact h.written.merged

/-! ## Orders -/

/-- The ways to add two sets of qualifiers: one after the other, or both at once. -/
def orders (p q : Qualifiers) : List (List Qualifiers) := [[p, q], [q, p], [p.merge q]]

theorem union_of_mem_orders {p q : Qualifiers} (h : qs ∈ orders p q) : Qualifiers.union qs = p.merge q := by
  simp only [orders, List.mem_cons, List.not_mem_nil, or_false] at h
  rcases h with rfl | rfl | rfl <;>
    simp only [Qualifiers.union, List.foldr_cons, List.foldr_nil, Qualifiers.merge_none]
  exact Qualifiers.merge_comm q p

/-- Where types get their qualifiers from `qualify` alone, two sets of qualifiers lead to one handle, in whatever order
they come, and whatever is done to the unit in between; the empty set changes nothing. Qualifiers never change what a
type stands for. No set of qualifiers in the unit is empty, and none stands directly around another one. -/
theorem qualify_orders (h : u.Merging) (ht : u.contains t = true) (p q : Qualifiers) :
    (∀ qs ∈ orders p q, ∀ ops, (u.qualifyAll t qs).2.admitsMerging ops = true → ∀ rs ∈ orders p q,
        (((u.qualifyAll t qs).2.applyAll ops).qualifyAll t rs).1 = (u.qualifyAll t qs).1) ∧
      u.qualify t .none = (t, u) ∧
      (∀ qs, (u.qualifyAll t qs).2.canonical (u.qualifyAll t qs).1 = u.canonical t) ∧
      ∀ t' inner r, u.shape? t' = some (.qualified inner r) →
        r.isEmpty = false ∧ ∀ inner' r', u.shape? inner ≠ some (.qualified inner' r') := by
  have hu := h.merged
  refine ⟨fun qs hqs ops hops rs hrs => ?_, rfl, fun qs => ?_, fun t' inner r hs => ⟨hu.nonempty hs, hu.unnested hs⟩⟩
  · obtain ⟨hv, -, -, -, -⟩ := hu.qualifyAll ht qs
    have hunion := (union_of_mem_orders hqs).trans (union_of_mem_orders hrs).symm
    have hadmits : (u.qualifyAll t qs).2.admitsAll ops = true := (Bool.and_eq_true_iff.1 hops).1
    exact hu.qualifyAll_eq ht hunion (hv.applyAll hops) (applyAll_spec hv.wellFormed hadmits).2
  · obtain ⟨-, -, -, -, hcanonical⟩ := hu.qualifyAll ht qs
    exact hcanonical

/-- A type that is restricted already: `const` and `volatile` join its qualifiers, and in either order the same handle
comes out, while each order interns a node of its own on the way. -/
theorem qualify_orders_restrict :
    let u := (empty "unit" .lp64).applyAll
      [.intern (.builtin .int), .intern (.pointer ⟨0⟩), .qualify ⟨1⟩ { isRestrict := true }]
    u.Merging ∧ u.contains ⟨2⟩ = true ∧
      (u.qualifyAll ⟨2⟩ [{ isConst := true }, { isVolatile := true }]).1 = ⟨4⟩ ∧
      ((u.qualifyAll ⟨2⟩ [{ isConst := true }, { isVolatile := true }]).2.qualifyAll ⟨2⟩
        [{ isVolatile := true }, { isConst := true }]).1 = ⟨4⟩ := by
  intro u
  have hu : u.Merging := .inl ⟨"unit", .lp64, _, by decide +kernel, rfl⟩
  have ht : u.contains ⟨2⟩ = true := by decide +kernel
  obtain ⟨horders, -, -, -⟩ := qualify_orders hu ht { isConst := true } { isVolatile := true }
  have hfirst : (u.qualifyAll ⟨2⟩ [{ isConst := true }, { isVolatile := true }]).1 = ⟨4⟩ := by decide +kernel
  exact ⟨hu, ht, hfirst, (horders _ (by decide) [] rfl _ (by decide)).trans hfirst⟩

end DeclUnit
end Cognate
