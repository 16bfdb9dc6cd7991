import Cognate.Proofs.Unit.Declared

/-!
# Closed units

What the handles of a unit lead to is there: records and enums behind shapes are declared, members of records have
types of the unit, and an enum is stored as a builtin type. Every operation keeps a unit closed, whatever it is given,
as long as no record or enum is interned that was not declared.
-/

namespace Cognate.DeclUnit

variable {u v : DeclUnit} {s s' : Shape} {t : Ty}

/-- A record or enum that a shape stands for is declared. -/
def Declared (u : DeclUnit) : Shape → Prop
  | .record id => ∃ d, u.record? id = some d
  | .enum id => ∃ d, u.enum? id = some d
  | _ => True

/-- What the handles of a unit lead to is there. -/
structure Closed (u : DeclUnit) : Prop where
  declared : ∀ {t s}, u.shape? t = some s → u.Declared s
  member : ∀ {id d body}, u.record? id = some d → d.body = some body → ∀ m ∈ body.members, u.contains m.type = true
  base : ∀ {id d body}, u.enum? id = some d → d.body = some body → ∃ b, u.builtinKind? body.base = some b

theorem declared_map (f : Ty → Ty) : u.Declared (s.map f) ↔ u.Declared s := by
  cases s <;> rfl

theorem Declared.of_not_tagged (h : s.isTagged = false) : u.Declared s := by
  cases s <;> simp_all [Shape.isTagged, Declared]

theorem Declared.mono (h : u.Declared s) (hrecords : ∀ {id d}, u.record? id = some d → ∃ d', v.record? id = some d')
    (henums : ∀ {id d}, u.enum? id = some d → ∃ d', v.enum? id = some d') : v.Declared s := by
  cases s with
  | record id =>
    obtain ⟨d, hd⟩ := h
    exact hrecords hd
  | enum id =>
    obtain ⟨d, hd⟩ := h
    exact henums hd
  | _ => trivial

theorem canonicalShape?_of_builtinKind? {b : Builtin} (h : u.builtinKind? t = some b) :
    u.canonicalShape? t = some (.builtin b) := by
  unfold builtinKind? at h
  split at h
  · next hs =>
    cases h
    exact hs
  · cases h

/-- A builtin type behind sugar is a type of the unit. -/
theorem contains_of_builtinKind? {b : Builtin} (h : u.builtinKind? t = some b) : u.contains t = true :=
  contains_of_canonicalShape? (canonicalShape?_of_builtinKind? h)

theorem Extends.canonicalShape? (h : u.Extends v) (hs : u.canonicalShape? t = some s) :
    v.canonicalShape? t = some s := by
  unfold DeclUnit.canonicalShape? at hs ⊢
  cases hn : u.node? t with
  | none => simp [hn] at hs
  | some n =>
    rw [hn] at hs
    rw [h.node? hn]
    exact h.shape? hs

theorem Extends.builtinKind? {b : Builtin} (h : u.Extends v) (hb : u.builtinKind? t = some b) :
    v.builtinKind? t = some b := by
  rw [DeclUnit.builtinKind?, h.canonicalShape? (canonicalShape?_of_builtinKind? hb)]

/-- A longer unit is closed if what is new in it leads to something. -/
theorem Closed.of_extends (hu : u.Closed) (h : u.Extends v)
    (hrecords : ∀ {id d}, u.record? id = some d → ∃ d', v.record? id = some d')
    (henums : ∀ {id d}, u.enum? id = some d → ∃ d', v.enum? id = some d')
    (hshapes : ∀ {t s}, v.shape? t = some s → u.shape? t = some s ∨ v.Declared s)
    (hmembers : ∀ {id d body}, v.record? id = some d → d.body = some body →
      (∃ d', u.record? id = some d' ∧ d'.body = some body) ∨ ∀ m ∈ body.members, v.contains m.type = true)
    (hbases : ∀ {id d body}, v.enum? id = some d → d.body = some body →
      (∃ d', u.enum? id = some d' ∧ d'.body = some body) ∨ ∃ b, v.builtinKind? body.base = some b) : v.Closed := by
  constructor
  · intro t s hs
    rcases hshapes hs with ho | hn
    · exact (hu.declared ho).mono hrecords henums
    · exact hn
  · intro id d body hd hbody m hm
    rcases hmembers hd hbody with ⟨d', hd', hbody'⟩ | hn
    · exact h.contains (hu.member hd' hbody' m hm)
    · exact hn m hm
  · intro id d body hd hbody
    rcases hbases hd hbody with ⟨d', hd', hbody'⟩ | hn
    · obtain ⟨b, hb⟩ := hu.base hd' hbody'
      exact ⟨b, h.builtinKind? hb⟩
    · exact hn

/-- The units differ in names at most. -/
def SameGraph (u v : DeclUnit) : Prop :=
  v.nodes = u.nodes ∧ v.records = u.records ∧ v.enums = u.enums ∧ v.target = u.target

theorem Closed.of_sameGraph (hu : u.Closed) (h : u.SameGraph v) : v.Closed := by
  obtain ⟨hn, hr, he, -⟩ := h
  have hrecord : ∀ id, v.record? id = u.record? id := fun id => by rw [record?, hr, record?]
  have henum : ∀ id, v.enum? id = u.enum? id := fun id => by rw [enum?, he, enum?]
  refine hu.of_extends (.of_nodes_eq hn) (fun hd => ⟨_, (hrecord _).trans hd⟩) (fun hd => ⟨_, (henum _).trans hd⟩)
    (fun hs => .inl ?_) (fun hd hb => .inl ⟨_, (hrecord _).symm.trans hd, hb⟩)
    (fun hd hb => .inl ⟨_, (henum _).symm.trans hd, hb⟩)
  simpa [shape?, node?, hn] using hs

theorem empty_closed (name : String) (target : Target) : (empty name target).Closed := by
  constructor <;> simp [empty, shape?, node?, record?, enum?]

/-! ## Interning -/

theorem intern_extends (u : DeclUnit) (s : Shape) : u.Extends (u.intern s).2 := by
  have hflat : ∀ s', u.Extends (u.internFlat s').2 := by
    intro s'
    unfold internFlat
    split
    · exact .refl u
    · exact push_extends _ _ _
  unfold intern
  split
  · exact .refl u
  · split
    · exact push_extends _ _ _
    · exact push_extends _ _ _
    · dsimp only
      split
      · exact push_extends _ _ _
      · exact (hflat _).trans (push_extends _ _ _)

theorem Closed.intern (hu : u.Closed) (hs : u.Declared s) : (u.intern s).2.Closed := by
  have hframe := intern_frame u s
  have hrecord : ∀ id, (u.intern s).2.record? id = u.record? id := fun id => by rw [hframe]; rfl
  have henum : ∀ id, (u.intern s).2.enum? id = u.enum? id := fun id => by rw [hframe]; rfl
  have hdeclared : ∀ {s'}, u.Declared s' → (u.intern s).2.Declared s' := fun h =>
    h.mono (fun hd => ⟨_, (hrecord _).trans hd⟩) fun hd => ⟨_, (henum _).trans hd⟩
  refine hu.of_extends (intern_extends u s) (fun hd => ⟨_, (hrecord _).trans hd⟩)
    (fun hd => ⟨_, (henum _).trans hd⟩) (fun h => ?_) (fun hd hb => .inl ⟨_, (hrecord _).symm.trans hd, hb⟩)
    (fun hd hb => .inl ⟨_, (henum _).symm.trans hd, hb⟩)
  rcases intern_shapes h with ho | rfl | ⟨-, rfl⟩
  · exact .inl ho
  · exact .inr (hdeclared hs)
  · exact .inr (hdeclared ((declared_map _).2 hs))

theorem Closed.qualify (hu : u.Closed) (t : Ty) (q : Qualifiers) : (u.qualify t q).2.Closed := by
  rcases u.qualify_or_intern t q with he | ⟨inner, p, he⟩
  · exact he.symm ▸ hu
  · exact he.symm ▸ hu.intern trivial

/-! ## Records and enums -/

theorem Closed.push_record (hu : u.Closed) (tag : Tag) (name : Option String) :
    Closed { u with records := u.records.push ⟨tag, name, none⟩ } := by
  refine hu.of_extends (.of_nodes_eq rfl) (fun {id d} hd => ⟨d, ?_⟩) (fun hd => ⟨_, hd⟩) (fun hs => .inl hs)
    (fun {id d body} hd hb => .inl ?_) fun hd hb => .inl ⟨_, hd, hb⟩
  · have hlt := (Array.getElem?_eq_some_iff.1 hd).1
    rw [record?, Array.getElem?_push_lt hlt]
    exact (Array.getElem?_eq_getElem hlt).symm.trans hd
  · simp only [record?, Array.getElem?_push] at hd
    split at hd
    · cases hd
      cases hb
    · exact ⟨d, hd, hb⟩

theorem Closed.push_enum (hu : u.Closed) (name : Option String) :
    Closed { u with enums := u.enums.push ⟨name, none⟩ } := by
  refine hu.of_extends (.of_nodes_eq rfl) (fun hd => ⟨_, hd⟩) (fun {id d} hd => ⟨d, ?_⟩) (fun hs => .inl hs)
    (fun hd hb => .inl ⟨_, hd, hb⟩) fun {id d body} hd hb => .inl ?_
  · have hlt := (Array.getElem?_eq_some_iff.1 hd).1
    rw [enum?, Array.getElem?_push_lt hlt]
    exact (Array.getElem?_eq_getElem hlt).symm.trans hd
  · simp only [enum?, Array.getElem?_push] at hd
    split at hd
    · cases hd
      cases hb
    · exact ⟨d, hd, hb⟩

theorem Closed.declareRecord (hu : u.Closed) (tag : Tag) (name : Option String) :
    (u.declareRecord tag name).2.Closed :=
  (hu.push_record tag name).intern ⟨⟨tag, name, none⟩, by simp [record?]⟩

theorem Closed.declareEnum (hu : u.Closed) (name : Option String) : (u.declareEnum name).2.Closed :=
  (hu.push_enum name).intern ⟨⟨name, none⟩, by simp [enum?]⟩

/-- Measuring a handle of another unit ends with nothing. -/
theorem measure_of_not_contains (h : u.contains t = false) : u.measure t = .ok none := by
  have hn : u.canonicalShape? t = none :=
    Option.eq_none_iff_forall_ne_some.2 fun _ hs => by simp [contains_of_canonicalShape? hs] at h
  rw [measure, measureWithin, hn]

theorem contains_of_measure {e : Extent} (h : u.measure t = .ok (some e)) : u.contains t = true := by
  by_contra hc
  rw [measure_of_not_contains (Bool.not_eq_true _ ▸ hc)] at h
  cases h

/-- A member has a layout of its own, or is an array of unknown size at the end of a struct, aligned like its
elements. -/
theorem memberExtent_cases {isUnion isLast : Bool} {e : Extent} (h : u.memberExtent isUnion isLast t = .ok (some e)) :
    u.extent t = some e ∨ isLast = true ∧ isUnion = false ∧ ∃ element e',
      u.canonicalShape? t = some (.incompleteArray element) ∧ u.extent element = some e' ∧ e = ⟨0, e'.align⟩ := by
  unfold memberExtent at h
  rcases ht : u.measure t with o | _ | e'
  · rw [ht] at h
    cases h
  · rw [ht] at h
    right
    unfold flexibleExtent at h
    split at h
    · next element hshape =>
      rcases he : u.measure element with o | _ | e'
      · rw [he] at h
        cases h
      · simp [he, Bind.bind, Except.bind, pure, Except.pure] at h
      · have hsome : isLast = true ∧ isUnion = false ∧ (⟨0, e'.align⟩ : Extent) = e := by
          simpa [he, Bind.bind, Except.bind, pure, Except.pure, and_assoc] using h
        exact ⟨hsome.1, hsome.2.1, element, e', hshape, extent_eq_some.2 he, hsome.2.2.symm⟩
    · simp [Bind.bind, Except.bind, pure, Except.pure] at h
  · rw [ht] at h
    cases h
    exact .inl (extent_eq_some.2 ht)

/-- A member with a layout is of a type of the unit. -/
theorem contains_of_memberExtent {isUnion isLast : Bool} {e : Extent}
    (h : u.memberExtent isUnion isLast t = .ok (some e)) : u.contains t = true := by
  obtain he | ⟨-, -, element, e', hshape, -⟩ := memberExtent_cases h
  · exact contains_of_measure (extent_eq_some.1 he)
  · exact contains_of_canonicalShape? hshape

/-- Members have a layout, and so are types of the unit. -/
theorem placeMembers_contains {isUnion : Bool} {stop align : Nat} {fields : List (String × Ty)}
    {members : List Member} {e : Extent} (h : u.placeMembers isUnion stop align fields = .ok (members, e)) :
    ∀ m ∈ members, u.contains m.type = true := by
  induction fields generalizing stop align members e with
  | nil =>
    unfold placeMembers at h
    split at h
    · cases h
      simp
    · cases h
  | cons field fields ih =>
    obtain ⟨name, type⟩ := field
    obtain ⟨e', offset, next, members', he, -, -, hrest, rfl⟩ := placeMembers_cons_eq_ok h
    intro m hm
    rcases List.mem_cons.1 hm with rfl | hm
    · exact contains_of_memberExtent he
    · exact ih hrest m hm

theorem Closed.completeRecord (hu : u.Closed) {fields : List (String × Ty)}
    (h : u.completeRecord t fields = (.ok (), v)) : v.Closed := by
  obtain ⟨id, d, members, extent, hof, -, hplaced, rfl⟩ := completeRecord_eq_ok h
  have hid := (recordOf?_eq_some hof).2
  refine hu.of_extends (.of_nodes_eq rfl) (fun {id' d'} hr => ?_) (fun hr => ⟨_, hr⟩) (fun hs => .inl hs)
    (fun {id' d' body} hr hb => ?_) fun hr hb => .inl ⟨_, hr, hb⟩
  · rw [record?_set hid]
    split
    · exact ⟨_, rfl⟩
    · exact ⟨d', hr⟩
  · rw [record?_set hid] at hr
    split at hr
    · cases hr
      cases hb
      have hall := placeMembers_contains hplaced
      exact .inr hall
    · exact .inl ⟨d', hr, hb⟩

theorem Closed.completeEnum (hu : u.Closed) {base : Ty} {constants : List (String × Int)}
    (h : u.completeEnum t base constants = (.ok (), v)) : v.Closed := by
  obtain ⟨id, d, b, enumerators, hof, -, hkind, rfl⟩ := completeEnum_eq_ok h
  have hid := (enumOf?_eq_some hof).2
  refine hu.of_extends (.of_nodes_eq rfl) (fun hr => ⟨_, hr⟩) (fun {id' d'} hr => ?_) (fun hs => .inl hs)
    (fun hr hb => .inl ⟨_, hr, hb⟩) fun {id' d' body} hr hbody => ?_
  · rw [enum?_set hid]
    split
    · exact ⟨_, rfl⟩
    · exact ⟨d', hr⟩
  · rw [enum?_set hid] at hr
    split at hr
    · cases hr
      cases hbody
      exact .inr ⟨b, hkind⟩
    · exact .inl ⟨d', hr, hbody⟩

/-! ## Names -/

theorem defineTypedef_sameGraph (u : DeclUnit) (name : String) (t : Ty) :
    (u.intern (.typedef name t)).2.SameGraph (u.defineTypedef name t).2 := by
  rcases defineTypedef_cases u name t with ⟨-, he⟩ | he
  · rw [he]
    exact ⟨rfl, rfl, rfl, rfl⟩
  · rw [he]
    exact ⟨rfl, rfl, rfl, rfl⟩

theorem defineTag_sameGraph {name : String} (h : u.defineTag name t = (.ok (), v)) : u.SameGraph v := by
  obtain ⟨-, rfl⟩ := defineTag_eq_ok h
  exact ⟨rfl, rfl, rfl, rfl⟩

theorem defineConstant_sameGraph {name : String} {value : Int} (h : u.defineConstant name value t = (.ok (), v)) :
    u.SameGraph v := by
  obtain ⟨-, rfl⟩ := defineConstant_eq_ok h
  exact ⟨rfl, rfl, rfl, rfl⟩

theorem declareValue_sameGraph {name : String} (h : u.declareValue name t = (.ok (), v)) : u.SameGraph v := by
  obtain ⟨-, rfl⟩ | ⟨i, d, -, -, rfl | ⟨-, rfl⟩⟩ := declareValue_eq_ok h <;> exact ⟨rfl, rfl, rfl, rfl⟩

/-! ## Operations -/

/-- Each operation keeps a unit closed, if it interns nothing that is not declared. -/
theorem Closed.apply (hu : u.Closed) {op : Operation} (hop : ∀ s, op = .intern s → u.Declared s) :
    (u.apply op).Closed := by
  cases op with
  | intern s => exact hu.intern (hop s rfl)
  | qualify t q => exact hu.qualify t q
  | declareRecord tag name => exact hu.declareRecord tag name
  | declareEnum name => exact hu.declareEnum name
  | completeRecord t fields => exact (u.completeRecord_allOrNothing t fields).cases hu fun v hv => hu.completeRecord hv
  | completeEnum t base constants =>
    exact (u.completeEnum_allOrNothing t base constants).cases hu fun v hv => hu.completeEnum hv
  | nameType name t => exact (hu.intern (s := .typedef name t) trivial).of_sameGraph (defineTypedef_sameGraph u name t)
  | defineTag name t =>
    exact (u.defineTag_allOrNothing name t).cases hu fun v hv => hu.of_sameGraph (defineTag_sameGraph hv)
  | defineConstant name value t =>
    exact (u.defineConstant_allOrNothing name value t).cases hu fun v hv =>
      hu.of_sameGraph (defineConstant_sameGraph hv)
  | declareValue name t =>
    exact (u.declareValue_allOrNothing name t).cases hu fun v hv => hu.of_sameGraph (declareValue_sameGraph hv)

theorem declared_of_inRange (h : u.inRange s = true) : u.Declared s := by
  cases s with
  | record id =>
    simp only [inRange, Shape.children, List.all_nil, Bool.true_and, decide_eq_true_eq] at h
    exact ⟨_, Array.getElem?_eq_getElem h⟩
  | enum id =>
    simp only [inRange, Shape.children, List.all_nil, Bool.true_and, decide_eq_true_eq] at h
    exact ⟨_, Array.getElem?_eq_getElem h⟩
  | _ => trivial

theorem Closed.applyAll {ops : List Operation} (hu : u.Closed) (h : u.admitsAll ops = true) :
    (u.applyAll ops).Closed := by
  induction ops generalizing u with
  | nil => exact hu
  | cons op ops ih =>
    simp only [admitsAll, Bool.and_eq_true] at h
    refine ih (hu.apply fun s hs => ?_) h.2
    rw [hs] at h
    exact declared_of_inRange h.1

theorem Reachable.closed (h : u.Reachable) : u.Closed := by
  obtain ⟨name, target, ops, hops, rfl⟩ := h
  exact (empty_closed name target).applyAll hops

end Cognate.DeclUnit
