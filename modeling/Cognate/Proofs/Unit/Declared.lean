import Cognate.Proofs.Unit.Written

/-!
# Building written units

Each operation by which declarations build a unit keeps it written, as long as it is used the way declarations use it,
and the unit grows.
-/

namespace Cognate.DeclUnit

variable {u v : DeclUnit} {s s' : Shape} {t t' c : Ty} {name : String}

/-! ## Interning -/

/-- Interning adds a node of the shape and one of the shape over canonical children, at most. -/
theorem intern_shapes (h : (u.intern s).2.shape? t = some s') :
    u.shape? t = some s' ∨ s' = s ∨ (s.isSugar = false ∧ s' = s.map u.canonical) := by
  have hpush : ∀ {w : DeclUnit} {p : Shape} {k : Option Ty}, (w.push p k).2.shape? t = some s' →
      s' = p ∨ w.shape? t = some s' := by
    intro w p k hw
    obtain ⟨n, hn, rfl⟩ := shape?_eq_some.1 hw
    rcases push_cases hn with ⟨-, rfl⟩ | ho
    · exact .inl rfl
    · exact .inr (shape?_eq_some.2 ⟨n, ho, rfl⟩)
  cases hfind : u.find? s with
  | some t' =>
    rw [intern_of_find? hfind] at h
    exact .inl h
  | none =>
    cases hsugar : s.isSugar with
    | true =>
      obtain ⟨c, hc⟩ := Shape.exists_child_of_isSugar hsugar
      rw [intern_of_sugar hfind hsugar (c := c) (by simp [hc])] at h
      rcases hpush h with he | ho
      · exact .inr (.inl he)
      · exact .inl ho
    | false =>
      by_cases hmap : s.map u.canonical = s
      · rw [intern_of_fixed hfind hsugar hmap] at h
        rcases hpush h with he | ho
        · exact .inr (.inl he)
        · exact .inl ho
      · rw [intern_of_flat hfind hsugar hmap] at h
        rcases hpush h with he | ho
        · exact .inr (.inl he)
        · unfold internFlat at ho
          split at ho
          · exact .inl ho
          · rcases hpush ho with he | ho
            · exact .inr (.inr ⟨rfl, he⟩)
            · exact .inl ho

theorem WellFormed.isFunction_canonical (hu : u.WellFormed) (ht : u.contains t = true) :
    u.isFunction (u.canonical t) = u.isFunction t := by
  rw [isFunction, isFunction, hu.canonicalShape?_canonical ht]

theorem WellFormed.isObject_canonical (hu : u.WellFormed) (ht : u.contains t = true) (h : u.IsObject t) :
    u.IsObject (u.canonical t) := by
  refine ⟨?_, by rw [hu.isFunction_canonical ht, h.2]⟩
  rw [isArray, hu.canonicalShape?_canonical ht]
  exact h.1

theorem WellFormed.isScalar_canonical (hu : u.WellFormed) (ht : u.contains t = true) (h : u.IsScalar t) :
    u.IsScalar (u.canonical t) := by
  obtain ⟨b, hb, hkind⟩ := h
  refine ⟨b, ?_, hkind⟩
  rw [builtinKind?, hu.canonicalShape?_canonical ht]
  exact hb

/-- Without sugar further in, a written shape is a written shape. -/
theorem Written.writes_flat (hu : u.Written) (hc : ∀ c ∈ s.children, u.contains c = true) (hsugar : s.isSugar = false)
    (htagged : s.isTagged = false) (hs : u.Writes t s) : u.Writes t' (s.map u.canonical) := by
  have hobject : ∀ c ∈ s.children, u.IsObject c → u.IsObject (u.canonical c) :=
    fun c hm => hu.wellFormed.isObject_canonical (hc c hm)
  have hfunction : ∀ c ∈ s.children, u.isFunction (u.canonical c) = u.isFunction c :=
    fun c hm => hu.wellFormed.isFunction_canonical (hc c hm)
  cases s with
  | complex element =>
    obtain ⟨b, hb, hcomplex⟩ := hs
    exact ⟨b, hu.wellFormed.flat hb rfl, hcomplex⟩
  | vector element count kind =>
    exact ⟨hu.wellFormed.isScalar_canonical (hc element (by simp [Shape.children])) hs.1, hs.2⟩
  | constantArray element size => exact ⟨(hfunction element (by simp [Shape.children])).trans hs.1, hs.2⟩
  | incompleteArray element => exact (hfunction element (by simp [Shape.children])).trans hs
  | variableArray element => exact (hfunction element (by simp [Shape.children])).trans hs
  | prototype result params variadic traits =>
    refine ⟨hobject result (by simp [Shape.children]) hs.1, fun p hp => ?_⟩
    obtain ⟨c, hmem, rfl⟩ := List.mem_map.1 hp
    exact hobject c (by simp [Shape.children, hmem]) (hs.2 c hmem)
  | noPrototype result traits => exact hobject result (by simp [Shape.children]) hs
  | record id => simp [Shape.isTagged] at htagged
  | enum id => simp [Shape.isTagged] at htagged
  | typedef name aliased => simp [Shape.isSugar] at hsugar
  | qualified inner q => simp [Shape.isSugar] at hsugar
  | _ => exact hs

/-- A canonical type is no typedef. -/
theorem WellFormed.usable_canonical (hu : u.WellFormed) (ht : u.contains t = true) : u.Usable (u.canonical t) := by
  obtain ⟨s, hs⟩ := exists_shape (hu.contains_canonical ht)
  have hsugar := hu.isSugar_of_fixed hs (hu.canonical_canonical t)
  exact .of_shape hs fun _ _ he => by simp [he, Shape.isSugar] at hsugar

/-- Interning a written shape over usable types. -/
theorem Written.intern (hu : u.Written) (hc : ∀ c ∈ s.children, u.Usable c) (htagged : s.isTagged = false)
    (hs : ∀ t, u.Writes t s) : (u.intern s).2.Written ∧ u.Grows (u.intern s).2 := by
  have hin : ∀ c ∈ s.children, u.contains c = true := fun c hm => (hc c hm).1
  have hgrows := intern_grows hu.wellFormed hin
  obtain ⟨hv, -, -⟩ := intern_spec hu.wellFormed hin
  have hframe := intern_frame u s
  refine ⟨hu.of_grows hgrows hv (fun t s' h => ?_) (fun name t h => .inl ?_) (fun name t h => .inl ?_)
    (fun d h => .inl ?_), hgrows⟩
  · rcases intern_shapes h with ho | rfl | ⟨hsugar, rfl⟩
    · exact .inl ho
    -- The node that was asked for, and the same shape without sugar that may be added in front of it.
    · exact .inr ⟨hgrows.writes hu.wellFormed hin (hs t), fun c hm => hgrows.usable (hc c hm)⟩
    · have hflat : ∀ c ∈ (s.map u.canonical).children, u.Usable c := by
        intro c hm
        rw [Shape.children_map] at hm
        obtain ⟨d, hd, rfl⟩ := List.mem_map.1 hm
        exact hu.wellFormed.usable_canonical (hin d hd)
      have hw : u.Writes t (s.map u.canonical) := hu.writes_flat hin hsugar htagged (hs t)
      exact .inr ⟨hgrows.writes hu.wellFormed (fun c hm => (hflat c hm).1) hw, fun c hm => hgrows.usable (hflat c hm)⟩
  · rw [hframe] at h
    exact h
  · rw [hframe] at h
    exact h
  · rw [hframe] at h
    exact h

theorem Written.shape?_intern (hu : u.Written) (hc : ∀ c ∈ s.children, u.Usable c) :
    (u.intern s).2.shape? (u.intern s).1 = some s :=
  (intern_spec hu.wellFormed fun c hm => (hc c hm).1).2.2

/-- Qualifying a type that takes qualifiers. -/
theorem Written.qualify (hu : u.Written) (ht : u.Usable t) (hs : u.shape? t = some s)
    (htakes : s.takesQualifiers = true) (q : Qualifiers) :
    (u.qualify t q).2.Written ∧ u.Grows (u.qualify t q).2 ∧ (u.qualify t q).2.Usable (u.qualify t q).1 := by
  by_cases hq : q.isEmpty = true
  · rw [show u.qualify t q = (t, u) by simp [DeclUnit.qualify, hq]]
    exact ⟨hu, .refl u, ht⟩
  · have hne : ∀ inner p, s ≠ .qualified inner p := fun inner p he => by simp [he, Shape.takesQualifiers] at htakes
    have he := qualify_of_unqualified hs hne (Bool.eq_false_iff.2 hq)
    have hc : ∀ c ∈ (Shape.qualified t q).children, u.Usable c := by simpa [Shape.children] using ht
    obtain ⟨hw, hgrows⟩ := hu.intern hc rfl fun _ => ⟨by simpa using hq, s, hs, htakes⟩
    rw [he]
    exact ⟨hw, hgrows, .of_shape (hu.shape?_intern hc) (by simp)⟩

/-! ## Records and enums -/

/-- The unit in which a name, if there is one, is a tag. -/
def withTag (u : DeclUnit) (name : Option String) (t : Ty) : DeclUnit :=
  { u with tags := (name.map (·, t)).toList ++ u.tags }

theorem withTag_cases {tag : Option String} (h : (u.withTag tag t).tag? name = some t') :
    (tag = some name ∧ t' = t) ∨ u.tag? name = some t' := by
  cases tag with
  | none => exact .inr h
  | some n =>
    simp only [tag?, withTag, Option.map_some, Option.toList_some, List.singleton_append, List.lookup_cons] at h
    split at h
    · next hn => exact .inl ⟨congrArg some (beq_iff_eq.1 hn).symm, (Option.some.inj h).symm⟩
    · exact .inr h

theorem withTag_self : (u.withTag (some name) t).tag? name = some t := by
  simp [tag?, withTag]

theorem withTag_of_ne {tag : Option String} (hfree : ∀ n, tag = some n → u.tag? n = none) (h : u.tag? name = some t') :
    (u.withTag tag t).tag? name = some t' := by
  cases tag with
  | none => exact h
  | some n =>
    have hne : name ≠ n := fun he => by
      rw [he, hfree n rfl] at h
      cases h
    simpa [tag?, withTag, List.lookup_cons, beq_false_of_ne hne] using h

/-- A new node of a tagged shape, and its tag: `w` is the unit in which its declaration was added. -/
theorem Written.push_tagged {w : DeclUnit} {tag : Option String} (hu : u.Written) (hw : u.Grows w)
    (hnodes : w.nodes = u.nodes) (hordinary : w.ordinary = u.ordinary) (htags : w.tags = u.tags)
    (hvalues : w.values = u.values) (htagged : s.isTagged = true) (hfree : ∀ n, tag = some n → u.tag? n = none)
    (hwrites : ((w.intern s).2.withTag tag (w.intern s).1).Writes (w.intern s).1 s) :
    ((w.intern s).2.withTag tag (w.intern s).1).Written ∧ u.Grows ((w.intern s).2.withTag tag (w.intern s).1) ∧
      ((w.intern s).2.withTag tag (w.intern s).1).shape? (w.intern s).1 = some s := by
  have hchildren : s.children = [] := by cases s <;> simp_all [Shape.isTagged, Shape.children]
  have hc : ∀ c ∈ s.children, w.contains c = true := by simp [hchildren]
  obtain ⟨hv, -, hnode⟩ := intern_spec (hu.wellFormed.of_nodes_eq hnodes) hc
  have hgrows := hw.trans (intern_grows (hu.wellFormed.of_nodes_eq hnodes) hc)
  have hframe := intern_frame w s
  have htags' : (w.intern s).2.tags = u.tags := by
    rw [hframe]
    exact htags
  have hordinary' : (w.intern s).2.ordinary = u.ordinary := by
    rw [hframe]
    exact hordinary
  have hvalues' : (w.intern s).2.values = u.values := by
    rw [hframe]
    exact hvalues
  have htag : ∀ n, (w.intern s).2.tag? n = u.tag? n := fun n => by rw [tag?, htags', tag?]
  have hgrows' : u.Grows ((w.intern s).2.withTag tag (w.intern s).1) :=
    ⟨hgrows.nodes, hgrows.target, hgrows.typedefs,
      fun ht => withTag_of_ne (fun n hn => (htag n).trans (hfree n hn)) (hgrows.tags ht), hgrows.records, hgrows.enums⟩
  have hmap : s.map w.canonical = s := Shape.map_eq_self (by simp [hchildren])
  refine ⟨hu.of_grows hgrows' (hv.of_nodes_eq rfl) (fun t s' h => ?_) (fun name t h => .inl ?_) (fun name t h => ?_)
    (fun d h => .inl ?_), hgrows', hnode⟩
  · change (w.intern s).2.shape? t = some s' at h
    -- Every new node has the shape, so it is the one that was interned.
    have hnew : s' = s → ((w.intern s).2.withTag tag (w.intern s).1).Writes t s' ∧
        ∀ c ∈ s'.children, ((w.intern s).2.withTag tag (w.intern s).1).Usable c := by
      rintro rfl
      rw [hv.unique h hnode]
      exact ⟨hwrites, by simp [hchildren]⟩
    rcases intern_shapes h with ho | he | ⟨-, he⟩
    · refine .inl ?_
      rw [shape?, node?, hnodes] at ho
      exact ho
    · exact .inr (hnew he)
    · exact .inr (hnew (he.trans hmap))
  · change (w.intern s).2.typedef? name = some t at h
    rw [typedef?, meaning?, hordinary'] at h
    exact h
  · rcases withTag_cases h with ⟨-, rfl⟩ | ho
    · exact .inr ⟨s, hnode, htagged⟩
    · exact .inl ((htag name).symm.trans ho)
  · change d ∈ (w.intern s).2.values at h
    rw [hvalues'] at h
    exact h

theorem push_records_grows (u : DeclUnit) (d : RecordDecl) : u.Grows { u with records := u.records.push d } := by
  refine ⟨.refl u, rfl, id, id, fun {id d'} h => ⟨d', ?_, rfl, rfl⟩, fun h => ⟨_, h, rfl⟩⟩
  have hlt := (Array.getElem?_eq_some_iff.1 h).1
  rw [record?, Array.getElem?_push_lt hlt, ← h, record?, Array.getElem?_eq_getElem hlt]

theorem push_enums_grows (u : DeclUnit) (d : EnumDecl) : u.Grows { u with enums := u.enums.push d } := by
  refine ⟨.refl u, rfl, id, id, fun h => ⟨_, h, rfl, rfl⟩, fun {id d'} h => ⟨d', ?_, rfl⟩⟩
  have hlt := (Array.getElem?_eq_some_iff.1 h).1
  rw [enum?, Array.getElem?_push_lt hlt, ← h, enum?, Array.getElem?_eq_getElem hlt]

/-- A new struct or union; its name becomes a tag. -/
theorem Written.declareRecord (hu : u.Written) {tag : Tag} (htag : tag = .struct ∨ tag = .union) {name : Option String}
    (hname : ∀ n, name = some n → IsName n ∧ u.tag? n = none) :
    ((u.declareRecord tag name).2.withTag name (u.declareRecord tag name).1).Written ∧
      u.Grows ((u.declareRecord tag name).2.withTag name (u.declareRecord tag name).1) ∧
      ((u.declareRecord tag name).2.withTag name (u.declareRecord tag name).1).shape? (u.declareRecord tag name).1 =
        some (.record ⟨u.records.size⟩) := by
  refine hu.push_tagged (push_records_grows u _) rfl rfl rfl rfl rfl (fun n hn => (hname n hn).2) ?_
  refine ⟨⟨tag, name, none⟩, ?_, htag, fun n hn => ⟨(hname n hn).1, ?_⟩⟩
  · rw [record?, withTag, intern_frame]
    exact Array.getElem?_push_size
  · obtain rfl : name = some n := hn
    exact withTag_self

/-- A new enum; its name becomes a tag. -/
theorem Written.declareEnum (hu : u.Written) {name : Option String}
    (hname : ∀ n, name = some n → IsName n ∧ u.tag? n = none) :
    ((u.declareEnum name).2.withTag name (u.declareEnum name).1).Written ∧
      u.Grows ((u.declareEnum name).2.withTag name (u.declareEnum name).1) ∧
      ((u.declareEnum name).2.withTag name (u.declareEnum name).1).shape? (u.declareEnum name).1 =
        some (.enum ⟨u.enums.size⟩) := by
  refine hu.push_tagged (push_enums_grows u _) rfl rfl rfl rfl rfl (fun n hn => (hname n hn).2) ?_
  refine ⟨⟨name, none⟩, ?_, fun n hn => ⟨(hname n hn).1, ?_⟩⟩
  · rw [enum?, withTag, intern_frame]
    exact Array.getElem?_push_size
  · obtain rfl : name = some n := hn
    exact withTag_self

/-- A unit with the same nodes and names, and with longer tables. -/
theorem Written.of_same (hu : u.Written) (h : u.Grows v) (hnodes : v.nodes = u.nodes)
    (hordinary : v.ordinary = u.ordinary) (htags : v.tags = u.tags) (hvalues : v.values = u.values) : v.Written := by
  refine hu.of_grows h (hu.wellFormed.of_nodes_eq hnodes) (fun t s hs => .inl ?_) (fun name t ht => .inl ?_)
    (fun name t ht => .inl ?_) (fun d hd => .inl ?_)
  · rw [shape?, node?, hnodes] at hs
    exact hs
  · rw [typedef?, meaning?, hordinary] at ht
    exact ht
  · rw [tag?, htags] at ht
    exact ht
  · rw [hvalues] at hd
    exact hd

theorem Written.completeRecord (hu : u.Written) {fields : List (String × Ty)}
    (h : u.completeRecord t fields = (.ok (), v)) : v.Written ∧ u.Grows v := by
  obtain ⟨id, d, members, extent, hof, -, -, rfl⟩ := completeRecord_eq_ok h
  have hd := (recordOf?_eq_some hof).2
  have hgrows : u.Grows { u with records := u.records.set! id.index { d with body := some ⟨members, extent⟩ } } := by
    refine ⟨.refl u, rfl, fun h => h, fun h => h, fun {id' d'} h => ?_, fun h => ⟨_, h, rfl⟩⟩
    rw [record?_set hd]
    split
    · next he =>
      rw [he, hd] at h
      cases h
      exact ⟨_, rfl, rfl, rfl⟩
    · exact ⟨d', h, rfl, rfl⟩
  exact ⟨hu.of_same hgrows rfl rfl rfl rfl, hgrows⟩

theorem Written.completeEnum (hu : u.Written) {base : Ty} {constants : List (String × Int)}
    (h : u.completeEnum t base constants = (.ok (), v)) : v.Written ∧ u.Grows v := by
  obtain ⟨id, d, b, enumerators, hof, -, -, rfl⟩ := completeEnum_eq_ok h
  have hd := (enumOf?_eq_some hof).2
  have hgrows : u.Grows { u with enums := u.enums.set! id.index { d with body := some ⟨base, enumerators⟩ } } := by
    refine ⟨.refl u, rfl, fun h => h, fun h => h, fun h => ⟨_, h, rfl, rfl⟩, fun {id' d'} h => ?_⟩
    rw [enum?_set hd]
    split
    · next he =>
      rw [he, hd] at h
      cases h
      exact ⟨_, rfl, rfl⟩
    · exact ⟨d', h, rfl⟩
  exact ⟨hu.of_same hgrows rfl rfl rfl rfl, hgrows⟩

/-! ## Ordinary names -/

theorem typedef?_eq_some : u.typedef? name = some t ↔ u.meaning? name = some (.typedef t) := by
  unfold typedef?
  split
  · next t' h => simp [h]
  · next h => exact ⟨fun h' => absurd h' (by simp), fun h' => absurd h' (h t)⟩

theorem constant?_eq_some {value : Int} :
    u.constant? name = some (value, t) ↔ u.meaning? name = some (.constant value t) := by
  unfold constant?
  split
  · next value' t' h => simp [h]
  · next h => exact ⟨fun h' => absurd h' (by simp), fun h' => absurd h' (h value t)⟩

theorem meaning?_bind (m : Meaning) (other : String) :
    (u.bind name m).meaning? other = if other = name then some m else u.meaning? other := by
  by_cases h : other = name
  · simp [meaning?, bind, h]
  · simp [meaning?, bind, List.lookup_cons, beq_false_of_ne h, h]

/-- Binding a name that has no meaning keeps all typedefs. -/
theorem typedef?_bind {m : Meaning} (hfree : u.meaning? name = none) {other : String} (h : u.typedef? other = some t) :
    (u.bind name m).typedef? other = some t := by
  rw [typedef?_eq_some] at h ⊢
  have hne : other ≠ name := fun he => by
    rw [he, hfree] at h
    cases h
  rw [meaning?_bind, if_neg hne, h]

theorem bind_grows {m : Meaning} (hfree : u.meaning? name = none) : u.Grows (u.bind name m) :=
  ⟨.refl u, rfl, typedef?_bind hfree, id, fun h => ⟨_, h, rfl, rfl⟩, fun h => ⟨_, h, rfl⟩⟩

/-- Binding a name, in the case of a typedef to a node of that name. -/
theorem Written.bind (hu : u.Written) {m : Meaning} (hfree : u.meaning? name = none)
    (hm : ∀ t, m = .typedef t → ∃ aliased, u.shape? t = some (.typedef name aliased)) : (u.bind name m).Written := by
  refine hu.of_grows (bind_grows hfree) (hu.wellFormed.of_nodes_eq rfl) (fun t s hs => .inl hs) (fun other t ht => ?_)
    (fun name t ht => .inl ht) (fun d hd => .inl hd)
  rw [typedef?_eq_some, meaning?_bind] at ht
  split at ht
  · next he =>
    subst he
    exact .inr (hm t (Option.some.inj ht))
  · exact .inl (typedef?_eq_some.2 ht)

theorem Written.defineConstant (hu : u.Written) {value : Int} (h : u.defineConstant name value t = (.ok (), v)) :
    v.Written ∧ u.Grows v := by
  obtain ⟨hfree, rfl⟩ := defineConstant_eq_ok h
  exact ⟨hu.bind hfree (by simp), bind_grows hfree⟩

/-- A typedef that is refused, or repeats another one, leaves a node that no name leads to. -/
theorem Written.defineTypedef (hu : u.Written) (hname : IsName name) (ht : u.Usable t) :
    (u.defineTypedef name t).2.Written ∧ u.Grows (u.defineTypedef name t).2 := by
  have hc : ∀ c ∈ (Shape.typedef name t).children, u.Usable c := by simpa [Shape.children] using ht
  obtain ⟨hw, hgrows⟩ := hu.intern hc rfl fun _ => hname
  have hnode := hu.shape?_intern hc
  rcases defineTypedef_cases u name t with ⟨hfree, he⟩ | he
  · rw [he]
    exact ⟨hw.bind hfree (by rintro _ ⟨⟩; exact ⟨t, hnode⟩), hgrows.trans (bind_grows hfree)⟩
  · rw [he]
    exact ⟨hw, hgrows⟩

theorem Written.declareValue (hu : u.Written) (ht : u.Usable t) (h : u.declareValue name t = (.ok (), v)) :
    v.Written ∧ u.Grows v := by
  -- Values apart, only a name that was free may be bound.
  have hvalues : ∀ values, (∀ d ∈ values, d ∈ u.values ∨ d.type = t) → ({ u with values } : DeclUnit).Written ∧
      u.Grows { u with values } := by
    intro values hall
    have hgrows : u.Grows { u with values } := ⟨.refl u, rfl, id, id, fun h => ⟨_, h, rfl, rfl⟩, fun h => ⟨_, h, rfl⟩⟩
    refine ⟨hu.of_grows hgrows (hu.wellFormed.of_nodes_eq rfl) (fun t s hs => .inl hs) (fun name t ht => .inl ht)
      (fun name t ht => .inl ht) (fun d hd => ?_), hgrows⟩
    rcases hall d hd with ho | he
    · exact .inl ho
    · exact .inr (he ▸ hgrows.usable ht)
  obtain ⟨hfree, rfl⟩ | ⟨i, d, -, -, rfl | ⟨-, rfl⟩⟩ := declareValue_eq_ok h
  · obtain ⟨hw, hgrows⟩ := hvalues (u.values.push ⟨name, t⟩) (by
      intro d hd
      rcases Array.mem_push.1 hd with ho | rfl
      · exact .inl ho
      · exact .inr rfl)
    exact ⟨hw.bind hfree (by simp), hgrows.trans (bind_grows hfree)⟩
  · exact ⟨hu, .refl _⟩
  · refine hvalues _ fun d hd => ?_
    rcases Array.mem_or_eq_of_mem_setIfInBounds hd with ho | rfl
    · exact .inl ho
    · exact .inr rfl

end Cognate.DeclUnit
