import Cognate.Unit.Build
import Mathlib.Data.List.Infix

/-!
# The nodes of a unit

What `intern` keeps of a unit's nodes: no shape stands twice, children stand in front of their owner, and the canonical
node of a type is the node of the same shape over canonical children, or that of the type behind the sugar.
`intern_spec` sums it up.
-/

namespace Cognate

namespace Shape

theorem isSugar_map (f : Ty → Ty) (s : Shape) : (s.map f).isSugar = s.isSugar := by
  cases s <;> rfl

/-- Sugar stands for one type. -/
theorem exists_child_of_isSugar {s : Shape} (h : s.isSugar = true) : ∃ c, s.children = [c] := by
  cases s <;> simp_all [isSugar, children]

/-- Shapes that agree but for their children, and in these as well, are the same. -/
theorem eq_of_map_eq {f : Ty → Ty} {s s' : Shape} (hm : s.map f = s'.map f) (hc : s.children = s'.children) :
    s = s' := by
  cases s <;> cases s' <;> simp_all [map, children]

/-- A shape that a function on its children leaves alone has children that it leaves alone. -/
theorem children_fixed {f : Ty → Ty} {s : Shape} (h : s.map f = s) : ∀ c ∈ s.children, f c = c := by
  have hc : s.children.map f = s.children.map id := by rw [← children_map, h, List.map_id]
  intro c hm
  simpa using List.map_inj_left.1 hc c hm

end Shape

namespace DeclUnit

variable {u v w : DeclUnit} {s s' : Shape} {t t' c : Ty} {n : Node}

/-! ## Looking nodes up -/

theorem contains_iff : u.contains t = true ↔ t.index < u.nodes.size := by simp [contains]

theorem node?_eq_none : u.node? t = none ↔ u.nodes.size ≤ t.index := by simp [node?]

theorem contains_of_node? (h : u.node? t = some n) : u.contains t = true := by
  rw [contains_iff]
  exact (Array.getElem?_eq_some_iff.1 h).1

theorem exists_node (h : u.contains t = true) : ∃ n, u.node? t = some n :=
  ⟨_, Array.getElem?_eq_getElem (contains_iff.1 h)⟩

theorem shape?_eq_some : u.shape? t = some s ↔ ∃ n, u.node? t = some n ∧ n.shape = s := by simp [shape?]

theorem contains_of_shape? (h : u.shape? t = some s) : u.contains t = true := by
  obtain ⟨n, hn, -⟩ := shape?_eq_some.1 h
  exact contains_of_node? hn

theorem exists_shape (h : u.contains t = true) : ∃ s, u.shape? t = some s := by
  obtain ⟨n, hn⟩ := exists_node h
  exact ⟨n.shape, shape?_eq_some.2 ⟨n, hn, rfl⟩⟩

theorem canonical_of_node? (h : u.node? t = some n) : u.canonical t = n.canonical := by simp [canonical, h]

theorem canonical_of_not_contains (h : u.contains t = false) : u.canonical t = t := by
  have hn : u.node? t = none := by
    rw [node?_eq_none]
    simpa [contains] using h
  simp [canonical, hn]

theorem canonicalShape?_eq (h : u.contains t = true) : u.canonicalShape? t = u.shape? (u.canonical t) := by
  obtain ⟨n, hn⟩ := exists_node h
  simp [canonicalShape?, canonical, hn]

theorem canonicalShape?_of_shape? (h : u.shape? (u.canonical t) = some s) : u.canonicalShape? t = some s := by
  cases ht : u.contains t with
  | true => rw [canonicalShape?_eq ht, h]
  | false =>
    rw [canonical_of_not_contains ht] at h
    rw [contains_of_shape? h] at ht
    cases ht

theorem contains_of_canonicalShape? (h : u.canonicalShape? t = some s) : u.contains t = true := by
  unfold canonicalShape? at h
  cases hn : u.node? t with
  | none => simp [hn] at h
  | some n => exact contains_of_node? hn

/-! ## Looking shapes up -/

theorem find?_some (h : u.find? s = some t) : u.shape? t = some s := by
  obtain ⟨i, hi, rfl⟩ := Option.map_eq_some_iff.1 h
  obtain ⟨hlt, hs, -⟩ := Array.findIdx?_eq_some_iff_getElem.1 hi
  refine shape?_eq_some.2 ⟨u.nodes[i], Array.getElem?_eq_getElem hlt, ?_⟩
  simpa using hs

theorem find?_none (h : u.find? s = none) : u.shape? t ≠ some s := by
  intro ht
  obtain ⟨n, hn, rfl⟩ := shape?_eq_some.1 ht
  have hall := Array.findIdx?_eq_none_iff.1 (Option.map_eq_none_iff.1 h)
  simpa using hall n (Array.mem_of_getElem? hn)

/-! ## Growing -/

/-- The nodes of the first unit are the first nodes of the second. -/
def Extends (u v : DeclUnit) : Prop := u.nodes.toList <+: v.nodes.toList

theorem Extends.refl (u : DeclUnit) : u.Extends u := List.prefix_refl _

theorem Extends.trans (h : u.Extends v) (h' : v.Extends w) : u.Extends w := List.IsPrefix.trans h h'

theorem Extends.of_nodes_eq (h : v.nodes = u.nodes) : u.Extends v := by
  rw [Extends, h]

theorem Extends.node? (h : u.Extends v) (hn : u.node? t = some n) : v.node? t = some n := by
  obtain ⟨more, hm⟩ := h
  have hlt := contains_iff.1 (contains_of_node? hn)
  simp only [DeclUnit.node?, ← Array.getElem?_toList, ← hm] at hn ⊢
  rw [List.getElem?_append_left (by simpa using hlt)]
  exact hn

theorem Extends.shape? (h : u.Extends v) (hs : u.shape? t = some s) : v.shape? t = some s := by
  obtain ⟨n, hn, rfl⟩ := shape?_eq_some.1 hs
  exact shape?_eq_some.2 ⟨n, h.node? hn, rfl⟩

theorem Extends.contains (h : u.Extends v) (ht : u.contains t = true) : v.contains t = true := by
  obtain ⟨n, hn⟩ := exists_node ht
  exact contains_of_node? (h.node? hn)

theorem Extends.canonical (h : u.Extends v) (ht : u.contains t = true) : v.canonical t = u.canonical t := by
  obtain ⟨n, hn⟩ := exists_node ht
  rw [canonical_of_node? hn, canonical_of_node? (h.node? hn)]

/-! ## Adding a node -/

theorem push_extends (u : DeclUnit) (s : Shape) (k : Option Ty) : u.Extends (u.push s k).2 := by
  simp [Extends, push]

theorem node?_push_new (u : DeclUnit) (s : Shape) (k : Option Ty) :
    (u.push s k).2.node? (u.push s k).1 = some ⟨s, k.getD (u.push s k).1⟩ := by
  simp [node?, push]

/-- A node of the longer unit is the new one or an old one. -/
theorem push_cases {k : Option Ty} (h : (u.push s k).2.node? t = some n) :
    (t = (u.push s k).1 ∧ n = ⟨s, k.getD t⟩) ∨ u.node? t = some n := by
  simp only [node?, push, Array.getElem?_push] at h
  split at h
  next hi =>
    obtain rfl : t = ⟨u.nodes.size⟩ := by cases t; simp_all
    exact .inl ⟨rfl, by simpa using h.symm⟩
  next => exact .inr h

/-! ## Well-formed units -/

/-- Shapes are unique, children stand in front, and canonical nodes are what they should be. -/
structure WellFormed (u : DeclUnit) : Prop where
  unique : ∀ {t t' s}, u.shape? t = some s → u.shape? t' = some s → t = t'
  child_lt : ∀ {t s c}, u.shape? t = some s → c ∈ s.children → c.index < t.index
  canonical_le : ∀ {t}, u.contains t = true → (u.canonical t).index ≤ t.index
  /-- Sugar stands for what the type inside stands for. -/
  sugar : ∀ {t s c}, u.shape? t = some s → s.isSugar = true → c ∈ s.children → u.canonical t = u.canonical c
  /-- Everything else stands for the same shape without sugar further in. -/
  flat : ∀ {t s}, u.shape? t = some s → s.isSugar = false → u.shape? (u.canonical t) = some (s.map u.canonical)

namespace WellFormed

theorem of_nodes_eq (hu : u.WellFormed) (h : v.nodes = u.nodes) : v.WellFormed := by
  have hn : ∀ t, v.node? t = u.node? t := fun t => by simp [node?, h]
  have hs : ∀ t, v.shape? t = u.shape? t := fun t => by simp [shape?, hn]
  have hk : v.canonical = u.canonical := by funext t; simp [canonical, hn]
  have hc : ∀ t, v.contains t = u.contains t := fun t => by simp [contains, h]
  constructor <;> simp only [hs, hk, hc]
  · exact hu.unique
  · exact hu.child_lt
  · exact hu.canonical_le
  · exact hu.sugar
  · exact hu.flat

theorem contains_child (hu : u.WellFormed) (hs : u.shape? t = some s) (hc : c ∈ s.children) :
    u.contains c = true := by
  have hlt := hu.child_lt hs hc
  have ht := contains_iff.1 (contains_of_shape? hs)
  exact contains_iff.2 (by omega)

theorem contains_canonical (hu : u.WellFormed) (ht : u.contains t = true) : u.contains (u.canonical t) = true := by
  have hle := hu.canonical_le ht
  have hlt := contains_iff.1 ht
  exact contains_iff.2 (by omega)

/-- A self-canonical type is no sugar. -/
theorem isSugar_of_fixed (hu : u.WellFormed) (hs : u.shape? t = some s) (hk : u.canonical t = t) :
    s.isSugar = false := by
  by_contra hsugar
  simp only [Bool.not_eq_false] at hsugar
  obtain ⟨c, hc⟩ := Shape.exists_child_of_isSugar hsugar
  have hmem : c ∈ s.children := by simp [hc]
  have hlt := hu.child_lt hs hmem
  have hle := hu.canonical_le (hu.contains_child hs hmem)
  rw [← hu.sugar hs hsugar hmem, hk] at hle
  omega

/-- The children of a self-canonical type are self-canonical. -/
theorem child_fixed (hu : u.WellFormed) (hs : u.shape? t = some s) (hk : u.canonical t = t) (hc : c ∈ s.children) :
    u.canonical c = c := by
  have hflat := hu.flat hs (hu.isSugar_of_fixed hs hk)
  rw [hk, hs] at hflat
  exact Shape.children_fixed (Option.some.inj hflat).symm c hc

/-- By induction on the position of a node: what stands for its children stands for itself. -/
theorem canonical_canonical (hu : u.WellFormed) (t : Ty) : u.canonical (u.canonical t) = u.canonical t := by
  induction hi : t.index using Nat.strong_induction_on generalizing t with
  | _ i ih =>
    subst hi
    by_cases ht : u.contains t = true
    · obtain ⟨s, hs⟩ := exists_shape ht
      cases hsugar : s.isSugar with
      | true =>
        obtain ⟨c, hc⟩ := Shape.exists_child_of_isSugar hsugar
        have hmem : c ∈ s.children := by simp [hc]
        rw [hu.sugar hs hsugar hmem]
        exact ih _ (hu.child_lt hs hmem) c rfl
      | false =>
        have hflat := hu.flat hs hsugar
        have hmap : (s.map u.canonical).map u.canonical = s.map u.canonical := by
          rw [Shape.map_map]
          exact Shape.map_congr fun c hc => ih _ (hu.child_lt hs hc) c rfl
        have hflat' := hu.flat hflat (by rw [Shape.isSugar_map, hsugar])
        rw [hmap] at hflat'
        exact hu.unique hflat' hflat
    · simp only [Bool.not_eq_true] at ht
      rw [canonical_of_not_contains ht, canonical_of_not_contains ht]

end WellFormed

theorem empty_wellFormed (name : String) (target : Target) : (empty name target).WellFormed := by
  constructor <;> simp [empty, shape?, node?, contains]

/-! ## Interning -/

/-- Pushing a shape that has no node yet keeps a unit well-formed, if its canonical node is the right one. -/
theorem push_wellFormed (hu : u.WellFormed) {k : Option Ty} (hfresh : ∀ t, u.shape? t ≠ some s)
    (hs : ∀ c ∈ s.children, u.contains c = true)
    (hsugar : s.isSugar = true → ∀ c ∈ s.children, k = some (u.canonical c))
    (hflat : s.isSugar = false → (k = none ∧ s.map u.canonical = s) ∨
      ∃ t, k = some t ∧ u.shape? t = some (s.map u.canonical)) :
    (u.push s k).2.WellFormed := by
  set v := (u.push s k).2 with hv
  set new := (u.push s k).1 with hnew
  have hext : u.Extends v := push_extends u s k
  have hindex : new.index = u.nodes.size := rfl
  have hnode : v.node? new = some ⟨s, k.getD new⟩ := node?_push_new u s k
  -- A node of the longer unit: the new one, or an old one with all that belongs to it.
  have hcases : ∀ {t s'}, v.shape? t = some s' → (t = new ∧ s' = s) ∨ u.shape? t = some s' := by
    intro t s' h
    obtain ⟨n, hn, rfl⟩ := shape?_eq_some.1 h
    rcases push_cases hn with ⟨rfl, rfl⟩ | ho
    · exact .inl ⟨rfl, rfl⟩
    · exact .inr (shape?_eq_some.2 ⟨n, ho, rfl⟩)
  have hmap : ∀ {s' : Shape}, (∀ c ∈ s'.children, u.contains c = true) → s'.map v.canonical = s'.map u.canonical :=
    fun h => Shape.map_congr fun c hc => hext.canonical (h c hc)
  have hk : v.canonical new = k.getD new := canonical_of_node? hnode
  have hle : (k.getD new).index ≤ new.index := by
    cases hsg : s.isSugar with
    | true =>
      obtain ⟨c, hc⟩ := Shape.exists_child_of_isSugar hsg
      rw [hsugar hsg c (by simp [hc]), hindex]
      exact (contains_iff.1 (hu.contains_canonical (hs c (by simp [hc])))).le
    | false =>
      rcases hflat hsg with ⟨rfl, -⟩ | ⟨t, rfl, ht⟩
      · exact le_refl _
      · rw [hindex]
        exact (contains_iff.1 (contains_of_shape? ht)).le
  constructor
  · intro t t' s' h h'
    rcases hcases h with ⟨rfl, rfl⟩ | ho <;> rcases hcases h' with ⟨rfl, he⟩ | ho'
    · rfl
    · exact absurd ho' (hfresh _)
    · exact absurd (he ▸ ho) (hfresh _)
    · exact hu.unique ho ho'
  · intro t s' c h hc
    rcases hcases h with ⟨rfl, rfl⟩ | ho
    · rw [hindex]
      exact contains_iff.1 (hs c hc)
    · exact hu.child_lt ho hc
  · intro t h
    obtain ⟨s', h'⟩ := exists_shape h
    rcases hcases h' with ⟨rfl, rfl⟩ | ho
    · rw [hk]
      exact hle
    · rw [hext.canonical (contains_of_shape? ho)]
      exact hu.canonical_le (contains_of_shape? ho)
  · intro t s' c h hsug hc
    rcases hcases h with ⟨rfl, rfl⟩ | ho
    · rw [hk, hsugar hsug c hc, hext.canonical (hs c hc)]
      rfl
    · rw [hext.canonical (contains_of_shape? ho), hext.canonical (hu.contains_child ho hc)]
      exact hu.sugar ho hsug hc
  · intro t s' h hf
    rcases hcases h with ⟨rfl, rfl⟩ | ho
    · rw [hk, hmap hs]
      rcases hflat hf with ⟨rfl, he⟩ | ⟨t, rfl, ht⟩
      · rw [he]
        exact h
      · exact hext.shape? ht
    · rw [hext.canonical (contains_of_shape? ho), hmap fun c hc => hu.contains_child ho hc]
      exact hext.shape? (hu.flat ho hf)

theorem internFlat_spec (hu : u.WellFormed) (hs : ∀ c ∈ s.children, u.contains c = true)
    (hsugar : s.isSugar = false) (hmap : s.map u.canonical = s) :
    (u.internFlat s).2.WellFormed ∧ u.Extends (u.internFlat s).2 ∧
      (u.internFlat s).2.shape? (u.internFlat s).1 = some s := by
  unfold internFlat
  split
  next t ht => exact ⟨hu, .refl u, find?_some ht⟩
  next hnone =>
    refine ⟨push_wellFormed hu (fun t => find?_none hnone) hs ?_ fun _ => .inl ⟨rfl, hmap⟩, push_extends u s none, ?_⟩
    · simp [hsugar]
    · exact shape?_eq_some.2 ⟨_, node?_push_new u s none, rfl⟩

/-- Nothing but the given shape gets a node. -/
theorem internFlat_fresh (hne : s ≠ s') (h : ∀ t, u.shape? t ≠ some s') (t : Ty) :
    (u.internFlat s).2.shape? t ≠ some s' := by
  unfold internFlat
  split
  · exact h t
  · intro ht
    obtain ⟨n, hn, rfl⟩ := shape?_eq_some.1 ht
    rcases push_cases hn with ⟨-, rfl⟩ | ho
    · exact hne rfl
    · exact h t (shape?_eq_some.2 ⟨n, ho, rfl⟩)

theorem intern_of_find? (h : u.find? s = some t) : u.intern s = (t, u) := by
  simp [intern, h]

theorem intern_of_sugar (h : u.find? s = none) (hsugar : s.isSugar = true) (hc : c ∈ s.children) :
    u.intern s = u.push s (some (u.canonical c)) := by
  cases s <;> simp_all [Shape.isSugar, Shape.children, intern]

theorem intern_of_fixed (h : u.find? s = none) (hsugar : s.isSugar = false) (hmap : s.map u.canonical = s) :
    u.intern s = u.push s none := by
  cases s <;> simp_all [Shape.isSugar, intern]

theorem intern_of_flat (h : u.find? s = none) (hsugar : s.isSugar = false) (hmap : s.map u.canonical ≠ s) :
    u.intern s = (u.internFlat (s.map u.canonical)).2.push s (some (u.internFlat (s.map u.canonical)).1) := by
  cases s <;> simp_all [Shape.isSugar, intern]

/-- A shape over canonical children needs no second look for its canonical node. -/
theorem internFlat_eq_intern (hsugar : s.isSugar = false) (hmap : s.map u.canonical = s) :
    u.internFlat s = u.intern s := by
  cases h : u.find? s with
  | some t => simp [internFlat, h, intern_of_find? h]
  | none => simp [internFlat, h, intern_of_fixed h hsugar hmap]

/-- Interning a shape over nodes of a well-formed unit adds what is missing and answers the node of that shape. -/
theorem intern_spec (hu : u.WellFormed) (hs : ∀ c ∈ s.children, u.contains c = true) :
    (u.intern s).2.WellFormed ∧ u.Extends (u.intern s).2 ∧ (u.intern s).2.shape? (u.intern s).1 = some s := by
  cases h : u.find? s with
  | some t =>
    rw [intern_of_find? h]
    exact ⟨hu, .refl u, find?_some h⟩
  | none =>
    cases hsugar : s.isSugar with
    | true =>
      obtain ⟨c, hc⟩ := Shape.exists_child_of_isSugar hsugar
      rw [intern_of_sugar h hsugar (c := c) (by simp [hc])]
      refine ⟨push_wellFormed hu (fun t => find?_none h) hs ?_ (by simp [hsugar]), push_extends _ _ _,
        shape?_eq_some.2 ⟨_, node?_push_new _ _ _, rfl⟩⟩
      simp [hc]
    | false =>
      by_cases hmap : s.map u.canonical = s
      · rw [← internFlat_eq_intern hsugar hmap]
        exact internFlat_spec hu hs hsugar hmap
      · rw [intern_of_flat h hsugar hmap]
        set flat := s.map u.canonical with hflat
        have hfs : ∀ c ∈ flat.children, u.contains c = true := by
          intro c hc
          rw [hflat, Shape.children_map] at hc
          obtain ⟨d, hd, rfl⟩ := List.mem_map.1 hc
          exact hu.contains_canonical (hs d hd)
        have hfm : flat.map u.canonical = flat := by
          rw [hflat, Shape.map_map]
          exact Shape.map_congr fun c _ => hu.canonical_canonical c
        obtain ⟨hv, hext, hnode⟩ := internFlat_spec hu hfs (by rw [hflat, Shape.isSugar_map, hsugar]) hfm
        -- The flat shape is another one, so that the given one is still without a node.
        have hfresh := internFlat_fresh hmap fun _ => find?_none h
        refine ⟨push_wellFormed hv hfresh (fun c hc => hext.contains (hs c hc)) (by simp [hsugar]) ?_,
          hext.trans (push_extends _ _ _), shape?_eq_some.2 ⟨_, node?_push_new _ _ _, rfl⟩⟩
        refine fun _ => .inr ⟨_, rfl, ?_⟩
        rw [hnode, hflat]
        exact congrArg some (Shape.map_congr fun c hc => (hext.canonical (hs c hc)).symm)

/-- A shape is found under the handle that has it. -/
theorem WellFormed.find?_iff (hu : u.WellFormed) : u.find? s = some t ↔ u.shape? t = some s := by
  refine ⟨find?_some, fun ht => ?_⟩
  cases h : u.find? s with
  | none => exact absurd ht (find?_none h)
  | some t' => rw [hu.unique (find?_some h) ht]

/-! ## What interning leaves alone -/

/-- Interning changes nodes only. -/
theorem intern_frame (u : DeclUnit) (s : Shape) : (u.intern s).2 = { u with nodes := (u.intern s).2.nodes } := by
  have hflat : ∀ s', (u.internFlat s').2 = { u with nodes := (u.internFlat s').2.nodes } := by
    intro s'
    unfold internFlat
    split <;> rfl
  unfold intern
  split
  · rfl
  · split
    · rfl
    · rfl
    · dsimp only
      split
      · rfl
      · rcases hr : u.internFlat (s.map u.canonical) with ⟨t, v⟩
        have hv : v = _ := (congrArg Prod.snd hr).symm.trans (hflat (s.map u.canonical))
        simp only [push]
        rw [hv]

end DeclUnit
end Cognate
