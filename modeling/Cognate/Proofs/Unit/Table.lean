import Cognate.Proofs.Unit.Runs

/-!
# The table of shapes

A unit is kept with a table that gives the node of a shape. An entry is written whenever a node is added, and interning
asks the table alone; for the canonical node of a new shape it calls itself. `Interns` and `Runs` are the steps of that.
The table mirrors the nodes in every state that is reached (`Reached.mirrors`), so that the steps come to what `intern`
and `apply` answer (`interns_intern`, `runs_apply`), which look through the nodes instead and do not go deeper than
once.
-/

namespace Cognate

/-- A unit with the table of its shapes. -/
structure Tabled where
  unit : DeclUnit
  unique : List (Shape × Ty)

namespace Tabled

/-- Neither nodes nor entries. -/
def empty (name : String) (target : Target) : Tabled := ⟨.empty name target, []⟩

/-- What the table has for a shape; an entry takes the place of an older one. -/
def lookup? (g : Tabled) (s : Shape) : Option Ty := g.unique.lookup s

/-- The handle of the next node. -/
def next (g : Tabled) : Ty := ⟨g.unit.size⟩

/-- Adds a node, and then its entry. -/
def add (g : Tabled) (s : Shape) (canonical : Ty) : Tabled :=
  ⟨{ g.unit with nodes := g.unit.nodes.push ⟨s, canonical⟩ }, (s, g.next) :: g.unique⟩

/-- Interning a shape answers the handle and leaves the state. A shape with a handle from elsewhere that has no entry is
not interned: its canonical type cannot be looked up. -/
inductive Interns : Tabled → Shape → Ty → Tabled → Prop where
  | found {g : Tabled} {s : Shape} {t : Ty} (entry : g.lookup? s = some t) : Interns g s t g
  | sugar {g : Tabled} {s : Shape} {inner : Ty} (entry : g.lookup? s = none) (sugar : s.isSugar = true)
      (child : s.children = [inner]) (inside : g.unit.contains inner = true) :
      Interns g s g.next (g.add s (g.unit.canonical inner))
  | fixed {g : Tabled} {s : Shape} (entry : g.lookup? s = none) (flat : s.isSugar = false)
      (inside : ∀ c ∈ s.children, g.unit.contains c = true) (same : s.map g.unit.canonical = s) :
      Interns g s g.next (g.add s g.next)
  | deeper {g g' : Tabled} {s : Shape} {t : Ty} (entry : g.lookup? s = none) (flat : s.isSugar = false)
      (inside : ∀ c ∈ s.children, g.unit.contains c = true) (other : s.map g.unit.canonical ≠ s)
      (canonical : Interns g (s.map g.unit.canonical) t g') : Interns g s g'.next (g'.add s t)

/-- The operation deals with names and bodies only. -/
def isLocal : Operation → Bool
  | .completeRecord _ _ | .completeEnum _ _ _ | .defineTag _ _ | .defineConstant _ _ _ | .declareValue _ _ => true
  | _ => false

/-- An operation leaves the state. -/
inductive Runs : Tabled → Operation → Tabled → Prop where
  | intern {g g' : Tabled} {s : Shape} {t : Ty} (interns : Interns g s t g') : Runs g (.intern s) g'
  | qualifyNot {g : Tabled} {t : Ty} {q : Qualifiers} (nothing : q.isEmpty = true) : Runs g (.qualify t q) g
  | qualifyMore {g g' : Tabled} {t t' inner : Ty} {q p : Qualifiers} (added : q.isEmpty = false)
      (shape : g.unit.shape? t = some (.qualified inner p)) (interns : Interns g (.qualified inner (p.merge q)) t' g') :
      Runs g (.qualify t q) g'
  | qualify {g g' : Tabled} {t t' : Ty} {q : Qualifiers} {s : Shape} (added : q.isEmpty = false)
      (shape : g.unit.shape? t = some s) (bare : ∀ inner p, s ≠ .qualified inner p)
      (interns : Interns g (.qualified t q) t' g') : Runs g (.qualify t q) g'
  | declareRecord {g g' : Tabled} {tag : Tag} {name : Option String} {t : Ty}
      (interns : Interns { g with unit.records := g.unit.records.push ⟨tag, name, none⟩ }
        (.record ⟨g.unit.records.size⟩) t g') : Runs g (.declareRecord tag name) g'
  | declareEnum {g g' : Tabled} {name : Option String} {t : Ty}
      (interns : Interns { g with unit.enums := g.unit.enums.push ⟨name, none⟩ } (.enum ⟨g.unit.enums.size⟩) t g') :
      Runs g (.declareEnum name) g'
  | nameType {g g' : Tabled} {name : String} {aliased t : Ty} (interns : Interns g (.typedef name aliased) t g') :
      Runs g (.nameType name aliased) { g' with unit := (g'.unit.bindTypedef name t).2 }
  | define {g : Tabled} {op : Operation} (only : isLocal op = true) : Runs g op { g with unit := g.unit.apply op }

/-- Some operations on handles in range lead here from an empty state. -/
inductive Reached : Tabled → Prop where
  | empty (name : String) (target : Target) : Reached (.empty name target)
  | step {g g' : Tabled} {op : Operation} (reached : Reached g) (admits : g.unit.admits op = true)
      (runs : Runs g op g') : Reached g'

variable {g g' g'' : Tabled} {s s' : Shape} {t t' k : Ty} {op : Operation} {u : DeclUnit}

/-! ## One outcome -/

theorem Interns.unique (h : Interns g s t g') (h' : Interns g s t' g'') : t = t' ∧ g' = g'' := by
  induction h generalizing t' g'' with
  | found entry => cases h' <;> simp_all
  | sugar entry sugar child =>
    cases h' with
    | sugar _ _ child' =>
      cases child.symm.trans child'
      exact ⟨rfl, rfl⟩
    | _ => simp_all
  | fixed entry flat _ same => cases h' <;> simp_all
  | deeper entry flat _ other _ ih =>
    cases h' with
    | deeper _ _ _ _ canonical' =>
      obtain ⟨rfl, rfl⟩ := ih canonical'
      exact ⟨rfl, rfl⟩
    | _ => simp_all

theorem Runs.unique (h : Runs g op g') (h' : Runs g op g'') : g' = g'' := by
  cases h with
  | intern interns =>
    cases h' with
    | intern interns' => exact (interns.unique interns').2
    | define only => cases only
  | qualifyNot nothing => cases h' <;> simp_all [isLocal]
  | qualifyMore added shape interns =>
    cases h' with
    | qualifyNot nothing => simp_all
    | qualifyMore _ shape' interns' =>
      cases shape.symm.trans shape'
      exact (interns.unique interns').2
    | qualify _ shape' bare => exact absurd (Option.some.inj (shape'.symm.trans shape)) (bare _ _)
    | define only => cases only
  | qualify added shape bare interns =>
    cases h' with
    | qualifyNot nothing => simp_all
    | qualifyMore _ shape' => exact absurd (Option.some.inj (shape.symm.trans shape')) (bare _ _)
    | qualify _ _ _ interns' => exact (interns.unique interns').2
    | define only => cases only
  | declareRecord interns =>
    cases h' with
    | declareRecord interns' => exact (interns.unique interns').2
    | define only => cases only
  | declareEnum interns =>
    cases h' with
    | declareEnum interns' => exact (interns.unique interns').2
    | define only => cases only
  | nameType interns =>
    cases h' with
    | nameType interns' =>
      obtain ⟨rfl, rfl⟩ := interns.unique interns'
      rfl
    | define only => cases only
  | define only =>
    cases h' with
    | define => rfl
    | _ => cases only

/-! ## The table mirrors the nodes -/

/-- A shape has an entry exactly if it has a node, and the entry is the handle of that. -/
def Mirrors (g : Tabled) : Prop := ∀ s t, g.lookup? s = some t ↔ g.unit.shape? t = some s

theorem empty_mirrors (name : String) (target : Target) : (empty name target).Mirrors := by
  intro s t
  simp [empty, lookup?, DeclUnit.empty, DeclUnit.shape?, DeclUnit.node?]

theorem Mirrors.of_nodes_eq (h : g.Mirrors) (hn : u.nodes = g.unit.nodes) : (⟨u, g.unique⟩ : Tabled).Mirrors := by
  intro s t
  rw [show u.shape? t = g.unit.shape? t by rw [DeclUnit.shape?, DeclUnit.node?, hn]; rfl]
  exact h s t

/-- A look at the table finds what a look through the nodes does. -/
theorem Mirrors.lookup?_eq (h : g.Mirrors) (hu : g.unit.WellFormed) (s : Shape) : g.lookup? s = g.unit.find? s :=
  Option.ext fun t => (h s t).trans hu.find?_iff.symm

theorem lookup?_add (g : Tabled) (s s' : Shape) (k : Ty) :
    (g.add s k).lookup? s' = if s' = s then some g.next else g.lookup? s' := by
  simp only [lookup?, Tabled.add, List.lookup_cons]
  by_cases hs : s' = s
  · simp [hs]
  · rw [if_neg hs, beq_false_of_ne hs]

theorem shape?_add : (g.add s k).unit.shape? t = some s' ↔ (t = g.next ∧ s' = s) ∨ g.unit.shape? t = some s' := by
  constructor
  · intro hs
    obtain ⟨n, hn, rfl⟩ := DeclUnit.shape?_eq_some.1 hs
    rcases DeclUnit.push_cases (u := g.unit) (s := s) (k := some k) hn with ⟨rfl, rfl⟩ | hn
    · exact .inl ⟨rfl, rfl⟩
    · exact .inr (DeclUnit.shape?_eq_some.2 ⟨n, hn, rfl⟩)
  · rintro (⟨rfl, rfl⟩ | hs)
    · exact DeclUnit.shape?_eq_some.2 ⟨_, DeclUnit.node?_push_new g.unit s' (some k), rfl⟩
    · exact (DeclUnit.push_extends g.unit s (some k)).shape? hs

/-- A new node and its entry go together. -/
theorem Mirrors.add (h : g.Mirrors) (hnew : g.lookup? s = none) : (g.add s k).Mirrors := by
  intro s' t
  rw [lookup?_add, shape?_add, ← h s' t]
  by_cases hs : s' = s
  · simp [hs, hnew, eq_comm]
  · simp [hs]

/-! ## What the steps come to -/

/-- The steps for a shape come to this handle and this unit, and the table still mirrors the nodes. -/
def InternsTo (g : Tabled) (s : Shape) (r : Ty × DeclUnit) : Prop :=
  ∃ g', Interns g s r.1 g' ∧ g'.unit = r.2 ∧ g'.Mirrors

/-- A shape over canonical children is its own canonical shape. -/
theorem interns_internFlat (hg : g.Mirrors) (hu : g.unit.WellFormed)
    (hs : ∀ c ∈ s.children, g.unit.contains c = true) (hsugar : s.isSugar = false) (hmap : s.map g.unit.canonical = s) :
    InternsTo g s (g.unit.internFlat s) := by
  unfold DeclUnit.internFlat
  rw [← hg.lookup?_eq hu]
  cases hentry : g.lookup? s with
  | some t => exact ⟨g, .found hentry, rfl, hg⟩
  | none => exact ⟨_, .fixed hentry hsugar hs hmap, rfl, hg.add hentry⟩

/-- The table gives what a look through the nodes gives, and the second look, for the canonical shape, is the last. -/
theorem interns_intern (hg : g.Mirrors) (hu : g.unit.WellFormed) (hs : ∀ c ∈ s.children, g.unit.contains c = true) :
    InternsTo g s (g.unit.intern s) := by
  have hfind := hg.lookup?_eq hu s
  cases hentry : g.lookup? s with
  | some t =>
    rw [DeclUnit.intern_of_find? (hfind.symm.trans hentry)]
    exact ⟨g, .found hentry, rfl, hg⟩
  | none =>
    have hnone := hfind.symm.trans hentry
    cases hsugar : s.isSugar with
    | true =>
      obtain ⟨inner, hchild⟩ := Shape.exists_child_of_isSugar hsugar
      rw [DeclUnit.intern_of_sugar hnone hsugar (c := inner) (by simp [hchild])]
      exact ⟨_, .sugar hentry hsugar hchild (hs inner (by simp [hchild])), rfl, hg.add hentry⟩
    | false =>
      by_cases hmap : s.map g.unit.canonical = s
      · rw [DeclUnit.intern_of_fixed hnone hsugar hmap]
        exact ⟨_, .fixed hentry hsugar hs hmap, rfl, hg.add hentry⟩
      · rw [DeclUnit.intern_of_flat hnone hsugar hmap]
        have hflat : ∀ c ∈ (s.map g.unit.canonical).children, g.unit.contains c = true := by
          intro c hc
          rw [Shape.children_map] at hc
          obtain ⟨d, hd, rfl⟩ := List.mem_map.1 hc
          exact hu.contains_canonical (hs d hd)
        have hfixed : (s.map g.unit.canonical).map g.unit.canonical = s.map g.unit.canonical := by
          rw [Shape.map_map]
          exact Shape.map_congr fun c _ => hu.canonical_canonical c
        obtain ⟨g', hinterns, hunit, hg'⟩ := interns_internFlat hg hu hflat (by rw [Shape.isSugar_map, hsugar]) hfixed
        have hnew : g'.lookup? s = none := by
          refine Option.eq_none_iff_forall_ne_some.2 fun t ht => ?_
          exact DeclUnit.internFlat_fresh hmap (fun _ => DeclUnit.find?_none hnone) t (hunit ▸ (hg' s t).1 ht)
        rw [← hunit]
        exact ⟨_, .deeper hentry hsugar hs hmap hinterns, rfl, hg'.add hnew⟩

/-- What deals with names and bodies only leaves the nodes. -/
theorem apply_nodes_of_isLocal (u : DeclUnit) (h : isLocal op = true) : (u.apply op).nodes = u.nodes := by
  have hkeeps : ∀ {r : Except TypeFault Unit × DeclUnit}, u.AllOrNothing r →
      (∀ v, r = (.ok (), v) → v.nodes = u.nodes) → r.2.nodes = u.nodes :=
    fun hr hv => hr.cases (P := fun v => v.nodes = u.nodes) rfl hv
  cases op with
  | completeRecord t fields =>
    exact hkeeps (u.completeRecord_allOrNothing t fields) fun _ => DeclUnit.completeRecord_nodes
  | completeEnum t base constants =>
    exact hkeeps (u.completeEnum_allOrNothing t base constants) fun _ => DeclUnit.completeEnum_nodes
  | defineTag name t => exact hkeeps (u.defineTag_allOrNothing name t) fun _ => DeclUnit.defineTag_nodes
  | defineConstant name value t =>
    exact hkeeps (u.defineConstant_allOrNothing name value t) fun _ => DeclUnit.defineConstant_nodes
  | declareValue name t => exact hkeeps (u.declareValue_allOrNothing name t) fun _ => DeclUnit.declareValue_nodes
  | _ => cases h

/-- An operation on handles in range comes to an end, and leaves the unit that `apply` does. -/
theorem runs_apply (hg : g.Mirrors) (hu : g.unit.WellFormed) (h : g.unit.admits op = true) :
    ∃ g', Runs g op g' ∧ g'.unit = g.unit.apply op ∧ g'.Mirrors := by
  have hdefine : isLocal op = true → ∃ g', Runs g op g' ∧ g'.unit = g.unit.apply op ∧ g'.Mirrors :=
    fun hlocal => ⟨_, .define hlocal, rfl, hg.of_nodes_eq (apply_nodes_of_isLocal g.unit hlocal)⟩
  cases op with
  | intern s =>
    obtain ⟨g', hinterns, hunit, hg'⟩ := interns_intern hg hu (DeclUnit.inRange_children h)
    exact ⟨g', .intern hinterns, hunit, hg'⟩
  | qualify t q =>
    have ht : g.unit.contains t = true := h
    obtain ⟨s, hs⟩ := DeclUnit.exists_shape ht
    cases hq : q.isEmpty with
    | true => exact ⟨g, .qualifyNot hq, by simp [DeclUnit.apply, DeclUnit.qualify, hq], hg⟩
    | false =>
      by_cases hqualified : ∃ inner p, s = .qualified inner p
      · obtain ⟨inner, p, rfl⟩ := hqualified
        have hinner : g.unit.contains inner = true := hu.contains_child hs (by simp [Shape.children])
        obtain ⟨g', hinterns, hunit, hg'⟩ := interns_intern (s := .qualified inner (p.merge q)) hg hu
          (by simpa [Shape.children] using hinner)
        exact ⟨g', .qualifyMore hq hs hinterns, by simp [hunit, DeclUnit.apply, DeclUnit.qualify, hq, hs], hg'⟩
      · have hbare : ∀ inner p, s ≠ .qualified inner p := fun inner p he => hqualified ⟨inner, p, he⟩
        obtain ⟨g', hinterns, hunit, hg'⟩ := interns_intern (s := .qualified t q) hg hu
          (by simpa [Shape.children] using ht)
        refine ⟨g', .qualify hq hs hbare hinterns, ?_, hg'⟩
        rw [hunit, DeclUnit.apply, DeclUnit.qualify_of_unqualified hs hbare hq]
  | declareRecord tag name =>
    have hpush : (⟨{ g.unit with records := g.unit.records.push ⟨tag, name, none⟩ }, g.unique⟩ : Tabled).Mirrors :=
      hg.of_nodes_eq rfl
    obtain ⟨g', hinterns, hunit, hg'⟩ := interns_intern (s := .record ⟨g.unit.records.size⟩) hpush
      (hu.of_nodes_eq rfl) (by simp [Shape.children])
    exact ⟨g', .declareRecord hinterns, hunit, hg'⟩
  | declareEnum name =>
    have hpush : (⟨{ g.unit with enums := g.unit.enums.push ⟨name, none⟩ }, g.unique⟩ : Tabled).Mirrors :=
      hg.of_nodes_eq rfl
    obtain ⟨g', hinterns, hunit, hg'⟩ := interns_intern (s := .enum ⟨g.unit.enums.size⟩) hpush
      (hu.of_nodes_eq rfl) (by simp [Shape.children])
    exact ⟨g', .declareEnum hinterns, hunit, hg'⟩
  | nameType name aliased =>
    have haliased : g.unit.contains aliased = true := h
    obtain ⟨g', hinterns, hunit, hg'⟩ := interns_intern (s := .typedef name aliased) hg hu
      (by simpa [Shape.children] using haliased)
    have hleft : (g'.unit.bindTypedef name (g.unit.intern (.typedef name aliased)).1).2 =
        (g.unit.defineTypedef name aliased).2 := by rw [hunit]; rfl
    refine ⟨_, .nameType hinterns, hleft, hg'.of_nodes_eq ?_⟩
    rw [hleft, hunit, DeclUnit.defineTypedef_nodes]
  | completeRecord | completeEnum | defineTag | defineConstant | declareValue => exact hdefine rfl

theorem Reached.spec (h : g.Reached) : g.unit.WellFormed ∧ g.Mirrors := by
  induction h with
  | empty name target => exact ⟨DeclUnit.empty_wellFormed name target, empty_mirrors name target⟩
  | step _ hadmits hruns ih =>
    obtain ⟨hu, hg⟩ := ih
    obtain ⟨g', hruns', hunit, hg'⟩ := runs_apply hg hu hadmits
    obtain rfl := hruns.unique hruns'
    exact ⟨hunit ▸ (DeclUnit.apply_spec hu hadmits).1, hg'⟩

/-- Every run of operations is one of steps. -/
theorem Reached.applyAll (h : g.Reached) {ops : List Operation} (hops : g.unit.admitsAll ops = true) :
    ∃ g' : Tabled, g'.Reached ∧ g'.unit = g.unit.applyAll ops := by
  induction ops generalizing g with
  | nil => exact ⟨g, h, rfl⟩
  | cons op ops ih =>
    obtain ⟨hop, hops⟩ := Bool.and_eq_true_iff.1 hops
    obtain ⟨hu, hg⟩ := h.spec
    obtain ⟨g', hruns, hunit, -⟩ := runs_apply hg hu hop
    rw [← hunit] at hops
    obtain ⟨g'', hreached, hunit'⟩ := ih (h.step hop hruns) hops
    exact ⟨g'', hreached, by rw [hunit', hunit]; rfl⟩

theorem exists_reached (hu : u.Reachable) : ∃ g : Tabled, g.Reached ∧ g.unit = u := by
  obtain ⟨name, target, ops, hops, rfl⟩ := hu
  exact (Reached.empty name target).applyAll hops

/-- The graph of a state that is reached: shapes have an entry in the table exactly if they have a node, and one node
only; children stand in front of their owner and canonical types not behind what they stand for; canonical types are
free of sugar at every depth. Every operation on handles in range comes to one state, whose unit is what `apply` makes
of the unit, and it changes no node that is there. -/
theorem reached_graph (h : g.Reached) :
    (∀ s t, g.lookup? s = some t ↔ g.unit.shape? t = some s) ∧
      (∀ s t t', g.unit.shape? t = some s → g.unit.shape? t' = some s → t = t') ∧
      (∀ t s, g.unit.shape? t = some s → ∀ c ∈ s.children, c.index < t.index) ∧
      (∀ t, g.unit.contains t = true → (g.unit.canonical t).index ≤ t.index) ∧
      (∀ t, g.unit.canonical (g.unit.canonical t) = g.unit.canonical t) ∧
      (∀ t s, g.unit.shape? t = some s → g.unit.canonical t = t →
        s.isSugar = false ∧ ∀ c ∈ s.children, g.unit.canonical c = c) ∧
      ∀ op, g.unit.admits op = true → ∃ g', (∀ g'', Runs g op g'' ↔ g'' = g') ∧
        g'.unit = g.unit.apply op ∧ g.unit.nodes.toList <+: g'.unit.nodes.toList := by
  obtain ⟨hw, hg⟩ := h.spec
  refine ⟨hg, fun s t t' => hw.unique, fun t s hs c hc => hw.child_lt hs hc, fun t ht => hw.canonical_le ht,
    hw.canonical_canonical, fun t s hs hk => ⟨hw.isSugar_of_fixed hs hk, fun c hc => hw.child_fixed hs hk hc⟩,
    fun op hop => ?_⟩
  obtain ⟨g', hruns, hunit, -⟩ := runs_apply hg hw hop
  refine ⟨g', fun g'' => ⟨fun h => h.unique hruns, ?_⟩, hunit, ?_⟩
  · rintro rfl
    exact hruns
  · rw [hunit]
    exact (DeclUnit.apply_spec hw hop).2

/-- A pointer to a typedef: the steps go deeper for its canonical node, which is added and entered in front of it. -/
theorem reached_graph_pointer :
    let name := "number"
    let int := (empty "unit" .lp64).add (.builtin .int) ⟨0⟩
    let node := int.add (.typedef name ⟨0⟩) ⟨0⟩
    let named : Tabled := { node with unit := (node.unit.bindTypedef name ⟨1⟩).2 }
    let g := (named.add (.pointer ⟨0⟩) ⟨2⟩).add (.pointer ⟨1⟩) ⟨2⟩
    g.Reached ∧ g.lookup? (.pointer ⟨1⟩) = some ⟨3⟩ ∧ g.unit.canonical (g.unit.canonical ⟨3⟩) = ⟨2⟩ ∧
      (g.unit.canonical ⟨3⟩).index ≤ 3 ∧ ∀ g', Runs g (.intern (.pointer ⟨1⟩)) g' → g'.unit.nodes = g.unit.nodes := by
  intro name int node named g
  have hint : int.Reached :=
    .step (.empty "unit" .lp64) (by decide +kernel) (.intern (.fixed rfl rfl (by simp [Shape.children]) rfl))
  have hnode : Interns int (.typedef name ⟨0⟩) ⟨1⟩ node :=
    @Interns.sugar int (.typedef name ⟨0⟩) ⟨0⟩ (by decide +kernel) rfl rfl (by decide +kernel)
  have hnamed : named.Reached := .step hint (by decide +kernel) (.nameType hnode)
  have hcanonical : Interns named (.pointer ⟨0⟩) ⟨2⟩ (named.add (.pointer ⟨0⟩) ⟨2⟩) :=
    .fixed (by decide +kernel) rfl (by decide +kernel) (by decide +kernel)
  have hg : g.Reached := .step hnamed (by decide +kernel)
    (.intern (.deeper (by decide +kernel) rfl (by decide +kernel) (by decide +kernel) hcanonical))
  obtain ⟨hentry, -, -, hle, hidem, -, hruns⟩ := reached_graph hg
  refine ⟨hg, (hentry _ _).2 (by decide +kernel), (hidem ⟨3⟩).trans (by decide +kernel), hle ⟨3⟩ (by decide +kernel),
    fun g' hg' => ?_⟩
  obtain ⟨g'', hone, hunit, -⟩ := hruns (.intern (.pointer ⟨1⟩)) (by decide +kernel)
  rw [(hone g').1 hg', hunit]
  decide +kernel

end Tabled
end Cognate
