import Cognate.Proofs.Readings.Texts
import Cognate.Proofs.Unit.Bodies

/-!
# Names of members

The members of a record without a name count as members of what contains it, if they are members without a name there.
`Flattens` collects all names that members come to in this way. Behind every complete record they are all there
(`Flat`), as a record is complete before it is a member; and the names that a record is given itself are different
(`Distinct`). So a name comes up twice exactly if an unnamed member brings it in a second time
(`FromTexts.member_names`), which nothing checks.
-/

namespace Cognate.DeclUnit

variable {u v : DeclUnit} {t : Ty} {m : Member} {ms ms' : List Member} {names names' : List String} {name : String}
  {id : RecordId} {d : RecordDecl} {body : RecordBody}

/-! ## What members bring in -/

/-- The body of the record without a name behind all sugar. -/
def anonymousBody? (u : DeclUnit) (t : Ty) : Option RecordBody :=
  (u.recordOf? t).bind fun (_, d) => if d.name.isNone then d.body else none

/-- The names that members come to: their own ones, and those of the members of a record without a name in place of an
unnamed member. -/
inductive Flattens (u : DeclUnit) : List Member → List String → Prop
  | nil : Flattens u [] []
  | named {m : Member} {ms : List Member} {name : String} {names : List String} (hname : m.name = some name)
      (hrest : Flattens u ms names) : Flattens u (m :: ms) (name :: names)
  | anonymous {m : Member} {ms : List Member} {body : RecordBody} {inner names : List String} (hname : m.name = none)
      (hbody : u.anonymousBody? m.type = some body) (hinner : Flattens u body.members inner)
      (hrest : Flattens u ms names) : Flattens u (m :: ms) (inner ++ names)
  | other {m : Member} {ms : List Member} {names : List String} (hname : m.name = none)
      (hbody : u.anonymousBody? m.type = none) (hrest : Flattens u ms names) : Flattens u (m :: ms) names

/-- The name is one of those that the member comes to. -/
def Brings (u : DeclUnit) (m : Member) (name : String) : Prop := ∃ names, u.Flattens [m] names ∧ name ∈ names

/-- Two members, one of them unnamed, bring in the same name, here or among the members that an unnamed one stands
for. -/
inductive Clashes (u : DeclUnit) : List Member → Prop
  | here {m m' : Member} {ms : List Member} {name : String} (hpair : [m, m'].Sublist ms)
      (hunnamed : m.name = none ∨ m'.name = none) (hm : u.Brings m name) (hm' : u.Brings m' name) : Clashes u ms
  | within {m : Member} {ms : List Member} {body : RecordBody} (hm : m ∈ ms) (hname : m.name = none)
      (hbody : u.anonymousBody? m.type = some body) (h : Clashes u body.members) : Clashes u ms

theorem anonymousBody?_eq_some (h : u.anonymousBody? t = some body) :
    ∃ id d, u.recordOf? t = some (id, d) ∧ d.name = none ∧ d.body = some body := by
  obtain ⟨⟨id, d⟩, hof, h⟩ := Option.bind_eq_some_iff.1 h
  dsimp only at h
  split at h
  · next hname => exact ⟨id, d, hof, Option.isNone_iff_eq_none.1 hname, h⟩
  · cases h

theorem Flattens.unique (h : u.Flattens ms names) (h' : u.Flattens ms names') : names' = names := by
  induction h generalizing names' with
  | nil => cases h'; rfl
  | named hname _ ih =>
    cases h' with
    | named hname' hrest' => rw [ih hrest', Option.some.inj (hname.symm.trans hname')]
    | anonymous hname' | other hname' => cases hname.symm.trans hname'
  | anonymous hname hbody _ _ ihinner ih =>
    cases h' with
    | named hname' => cases hname.symm.trans hname'
    | anonymous _ hbody' hinner' hrest' =>
      cases hbody.symm.trans hbody'
      rw [ihinner hinner', ih hrest']
    | other _ hbody' => cases hbody.symm.trans hbody'
  | other hname hbody _ ih =>
    cases h' with
    | named hname' => cases hname.symm.trans hname'
    | anonymous _ hbody' => cases hbody.symm.trans hbody'
    | other _ _ hrest' => exact ih hrest'

theorem Flattens.append (h : u.Flattens ms names) (h' : u.Flattens ms' names') :
    u.Flattens (ms ++ ms') (names ++ names') := by
  induction h with
  | nil => exact h'
  | named hname _ ih => exact .named hname ih
  | anonymous hname hbody hinner _ _ ih =>
    rw [List.cons_append, List.append_assoc]
    exact .anonymous hname hbody hinner ih
  | other hname hbody _ ih => exact .other hname hbody ih

/-- Some of the members come to some of the names. -/
theorem Flattens.sublist (h : u.Flattens ms names) (hsub : ms'.Sublist ms) :
    ∃ names', u.Flattens ms' names' ∧ names'.Sublist names := by
  induction h generalizing ms' with
  | nil =>
    cases hsub
    exact ⟨[], .nil, .slnil⟩
  | named hname _ ih =>
    cases hsub with
    | cons _ hsub =>
      obtain ⟨names', h', hnames⟩ := ih hsub
      exact ⟨names', h', hnames.cons _⟩
    | cons_cons _ hsub =>
      obtain ⟨names', h', hnames⟩ := ih hsub
      exact ⟨_, .named hname h', hnames.cons_cons _⟩
  | anonymous hname hbody hinner _ _ ih =>
    cases hsub with
    | cons _ hsub =>
      obtain ⟨names', h', hnames⟩ := ih hsub
      exact ⟨names', h', hnames.trans (List.sublist_append_right _ _)⟩
    | cons_cons _ hsub =>
      obtain ⟨names', h', hnames⟩ := ih hsub
      exact ⟨_, .anonymous hname hbody hinner h', (List.Sublist.refl _).append hnames⟩
  | other hname hbody _ ih =>
    cases hsub with
    | cons _ hsub => exact ih hsub
    | cons_cons _ hsub =>
      obtain ⟨names', h', hnames⟩ := ih hsub
      exact ⟨names', .other hname hbody h', hnames⟩

theorem Brings.named (h : u.Brings m name) {own : String} (hown : m.name = some own) : name = own := by
  obtain ⟨names, hflat, hname⟩ := h
  rw [(Flattens.named hown .nil).unique hflat] at hname
  exact List.mem_singleton.1 hname

theorem brings_anonymous (hname : m.name = none) (hbody : u.anonymousBody? m.type = some body)
    (hinner : u.Flattens body.members names) (hmem : name ∈ names) : u.Brings m name :=
  ⟨_, .anonymous hname hbody hinner .nil, by simpa using hmem⟩

/-- Some member brings in each of the names. -/
theorem Flattens.exists_brings (h : u.Flattens ms names) (hname : name ∈ names) : ∃ m ∈ ms, u.Brings m name := by
  induction h with
  | nil => cases hname
  | @named m ms own names hown _ ih =>
    rcases List.mem_cons.1 hname with rfl | hname
    · exact ⟨m, by simp, _, .named hown .nil, by simp⟩
    · obtain ⟨m', hm', hbrings⟩ := ih hname
      exact ⟨m', by simp [hm'], hbrings⟩
  | @anonymous m ms body inner names hown hbody hinner _ _ ih =>
    rcases List.mem_append.1 hname with hname | hname
    · exact ⟨m, by simp, brings_anonymous hown hbody hinner hname⟩
    · obtain ⟨m', hm', hbrings⟩ := ih hname
      exact ⟨m', by simp [hm'], hbrings⟩
  | other _ _ _ ih =>
    obtain ⟨m', hm', hbrings⟩ := ih hname
    exact ⟨m', by simp [hm'], hbrings⟩

/-! ## Names that come up twice -/

/-- No complete record is given two members of one name. -/
def Distinct (u : DeclUnit) : Prop :=
  ∀ id d body, u.record? id = some d → d.body = some body → (body.members.filterMap Member.name).Nodup

theorem Clashes.cons (m : Member) (h : u.Clashes ms) : u.Clashes (m :: ms) := by
  cases h with
  | here hpair hunnamed hm hm' => exact .here (hpair.cons _) hunnamed hm hm'
  | within hm hname hbody h => exact .within (List.mem_cons_of_mem _ hm) hname hbody h

/-- Where a name comes up twice, two members clash. By induction on the names: each is brought in by a member, and two
named members have different names. -/
theorem Distinct.clashes (hu : u.Distinct) (h : u.Flattens ms names) (hms : (ms.filterMap Member.name).Nodup)
    (hdup : ¬names.Nodup) : u.Clashes ms := by
  induction h with
  | nil => exact absurd List.nodup_nil hdup
  | @named m ms own names hown hrest ih =>
    rw [List.filterMap_cons_some hown, List.nodup_cons] at hms
    by_cases hmem : own ∈ names
    · obtain ⟨m', hm', hbrings⟩ := hrest.exists_brings hmem
      have hpair : [m, m'].Sublist (m :: ms) := (List.singleton_sublist.2 hm').cons_cons _
      have hunnamed : m'.name = none := by
        cases hown' : m'.name with
        | none => rfl
        | some own' =>
          rw [← hbrings.named hown'] at hown'
          exact absurd (List.mem_filterMap.2 ⟨m', hm', hown'⟩) hms.1
      exact .here hpair (.inr hunnamed) ⟨_, .named hown .nil, by simp⟩ hbrings
    · exact (ih hms.2 fun hnames => hdup (List.nodup_cons.2 ⟨hmem, hnames⟩)).cons m
  | @anonymous m ms body inner names hown hbody hinner hrest ihinner ih =>
    rw [List.filterMap_cons_none hown] at hms
    by_cases hinnerdup : inner.Nodup
    · by_cases hrestdup : names.Nodup
      · obtain ⟨name, hname, hname'⟩ : ∃ name ∈ inner, name ∈ names := by
          by_contra hnone
          refine hdup (List.nodup_append.2 ⟨hinnerdup, hrestdup, fun name hname name' hname' heq => ?_⟩)
          exact hnone ⟨name, hname, heq ▸ hname'⟩
        obtain ⟨m', hm', hbrings⟩ := hrest.exists_brings hname'
        have hpair : [m, m'].Sublist (m :: ms) := (List.singleton_sublist.2 hm').cons_cons _
        exact .here hpair (.inl hown) (brings_anonymous hown hbody hinner hname) hbrings
      · exact (ih hms hrestdup).cons m
    · obtain ⟨id, d, hof, -, hd⟩ := anonymousBody?_eq_some hbody
      exact .within List.mem_cons_self hown hbody (ihinner (hu id d body (recordOf?_eq_some hof).2 hd) hinnerdup)
  | @other m ms names hown _ _ ih =>
    rw [List.filterMap_cons_none hown] at hms
    exact (ih hms hdup).cons m

/-- Where two members clash, a name comes up twice. -/
theorem Clashes.not_nodup (h : u.Clashes ms) (hflat : u.Flattens ms names) : ¬names.Nodup := by
  induction h generalizing names with
  | @here m m' ms name hpair _ hm hm' =>
    intro hnodup
    obtain ⟨pair, hflat', hsub⟩ := hflat.sublist hpair
    obtain ⟨first, hfirst, hname⟩ := hm
    obtain ⟨second, hsecond, hname'⟩ := hm'
    rw [(hfirst.append hsecond).unique hflat'] at hsub
    exact (List.nodup_append.1 (hsub.nodup hnodup)).2.2 name hname name hname' rfl
  | @within m ms body hm hname hbody _ ih =>
    intro hnodup
    obtain ⟨single, hflat', hsub⟩ := hflat.sublist (List.singleton_sublist.2 hm)
    cases hflat' with
    | named hname' => cases hname.symm.trans hname'
    | anonymous _ hbody' hinner hrest =>
      cases hbody.symm.trans hbody'
      cases hrest
      rw [List.append_nil] at hsub
      exact ih hinner (hsub.nodup hnodup)
    | other _ hbody' => cases hbody.symm.trans hbody'

/-! ## Complete records -/

/-- What is behind all sugar is there, and complete if it is a record. -/
def Settled (u : DeclUnit) (t : Ty) : Prop :=
  ∃ s, u.canonicalShape? t = some s ∧ ∀ id, s = .record id → ∃ d body, u.record? id = some d ∧ d.body = some body

theorem settled_of_extent {e : Extent} (h : u.extent t = some e) : u.Settled t := by
  rw [extent, measure, measureWithin_succ, answered_measureShape] at h
  obtain ⟨s, hs, he⟩ := Option.bind_eq_some_iff.1 h
  refine ⟨s, hs, ?_⟩
  rintro id rfl
  obtain ⟨body, hbody, -⟩ := Option.map_eq_some_iff.1 he
  obtain ⟨d, hd, hb⟩ := Option.bind_eq_some_iff.1 hbody
  exact ⟨d, body, hd, hb⟩

theorem settled_of_memberExtent {isUnion isLast : Bool} {e : Extent}
    (h : u.memberExtent isUnion isLast t = .ok (some e)) : u.Settled t := by
  obtain he | ⟨-, -, element, e', hshape, -⟩ := memberExtent_cases h
  · exact settled_of_extent he
  · exact ⟨_, hshape, by simp⟩

theorem Retains.settled (h : u.Retains v) (ht : u.Settled t) : v.Settled t := by
  obtain ⟨s, hs, hrecord⟩ := ht
  refine ⟨s, h.nodes.canonicalShape? hs, fun id hid => ?_⟩
  obtain ⟨d, body, hd, hb⟩ := hrecord id hid
  exact ⟨d, body, h.records hd hb, hb⟩

/-- Nothing that happens later changes what stands behind a settled type. -/
theorem Retains.anonymousBody? (h : u.Retains v) (ht : u.Settled t) : v.anonymousBody? t = u.anonymousBody? t := by
  obtain ⟨s, hs, hrecord⟩ := ht
  unfold DeclUnit.anonymousBody? recordOf?
  rw [h.nodes.canonicalShape? hs, hs]
  cases s with
  | record id =>
    obtain ⟨d, body, hd, hb⟩ := hrecord id rfl
    simp only [h.records hd hb, hd]
  | _ => rfl

/-- The members that are placed are settled, and have the names that they are given. -/
theorem placeMembers_settled {isUnion : Bool} {stop align : Nat} {fields : List (String × Ty)} {extent : Extent}
    (h : u.placeMembers isUnion stop align fields = .ok (ms, extent)) :
    (∀ m ∈ ms, u.Settled m.type) ∧ ms.filterMap Member.name = Grammar.givenNames fields := by
  induction fields generalizing stop align ms extent with
  | nil =>
    unfold placeMembers at h
    split at h <;> cases h
    exact ⟨by simp, rfl⟩
  | cons field fields ih =>
    obtain ⟨name, type⟩ := field
    obtain ⟨e, offset, next, members, he, -, -, hrest, rfl⟩ := placeMembers_cons_eq_ok h
    obtain ⟨hsettled, hnames⟩ := ih hrest
    refine ⟨List.forall_mem_cons.2 ⟨settled_of_memberExtent he, hsettled⟩, ?_⟩
    by_cases hempty : name = ""
    · simp [Grammar.givenNames, hempty, hnames]
    · simp [Grammar.givenNames, hempty, hnames]

/-- All members of complete records are settled, and come to names. -/
def Flat (u : DeclUnit) : Prop :=
  ∀ id d body, u.record? id = some d → d.body = some body →
    (∀ m ∈ body.members, u.Settled m.type) ∧ ∃ names, u.Flattens body.members names

theorem Flat.exists_flattens (hu : u.Flat) (ms : List Member) : ∃ names, u.Flattens ms names := by
  induction ms with
  | nil => exact ⟨[], .nil⟩
  | cons m ms ih =>
    obtain ⟨names, hrest⟩ := ih
    cases hname : m.name with
    | some own => exact ⟨_, .named hname hrest⟩
    | none =>
      cases hbody : u.anonymousBody? m.type with
      | none => exact ⟨_, .other hname hbody hrest⟩
      | some body =>
        obtain ⟨id, d, hof, -, hb⟩ := anonymousBody?_eq_some hbody
        obtain ⟨-, inner, hinner⟩ := hu id d body (recordOf?_eq_some hof).2 hb
        exact ⟨_, .anonymous hname hbody hinner hrest⟩

/-- Settled members come to the same names ever after. -/
theorem Flat.flattens_retains (hu : u.Flat) (h : u.Retains v) (hms : ∀ m ∈ ms, u.Settled m.type)
    (hflat : u.Flattens ms names) : v.Flattens ms names := by
  induction hflat with
  | nil => exact .nil
  | named hname _ ih => exact .named hname (ih (List.forall_mem_cons.1 hms).2)
  | @anonymous m ms body inner names hname hbody _ _ ihinner ih =>
    obtain ⟨hm, hms⟩ := List.forall_mem_cons.1 hms
    obtain ⟨id, d, hof, -, hb⟩ := anonymousBody?_eq_some hbody
    have hinner := (hu id d body (recordOf?_eq_some hof).2 hb).1
    exact .anonymous hname ((h.anonymousBody? hm).trans hbody) (ihinner hinner) (ih hms)
  | other hname hbody _ ih =>
    obtain ⟨hm, hms⟩ := List.forall_mem_cons.1 hms
    exact .other hname ((h.anonymousBody? hm).trans hbody) (ih hms)

theorem empty_flat (name : String) (target : Target) : (empty name target).Flat := by
  intro id d body hd
  simp [record?, empty] at hd

theorem Flat.apply (hu : u.Flat) (op : Operation) : (u.apply op).Flat := by
  intro id d body hd hb
  have hretains := apply_retains u op
  obtain ⟨hsettled, names, hflat⟩ :
      (∀ m ∈ body.members, u.Settled m.type) ∧ ∃ names, u.Flattens body.members names := by
    rcases apply_completes hd hb with hold | ⟨t, fields, -, hplaced⟩
    · exact hu id d body hold hb
    · exact ⟨(placeMembers_settled hplaced).1, hu.exists_flattens _⟩
  exact ⟨fun m hm => hretains.settled (hsettled m hm), names, hu.flattens_retains hretains hsettled hflat⟩

theorem Built.flat (h : u.Built) : u.Flat := h.induct empty_flat fun hu => hu.apply _

theorem empty_distinct (name : String) (target : Target) : (empty name target).Distinct := by
  intro id d body hd
  simp [record?, empty] at hd

/-- Readers complete records with members of different names only. -/
theorem Distinct.apply (hu : u.Distinct) {op : Operation} (hop : Grammar.IsPlain op) : (u.apply op).Distinct := by
  intro id d body hd hb
  rcases apply_completes hd hb with hold | ⟨t, fields, hcompletes, hplaced⟩
  · exact hu id d body hold hb
  · rw [(placeMembers_settled hplaced).2]
    exact hop.distinct t fields hcompletes

theorem FromTexts.distinct (h : u.FromTexts) : u.Distinct := h.induct empty_distinct fun hu hop => hu.apply hop

/-- The members of a record that a text completes have different names of their own. With those of the records without
names among them they come to some names, and these are different as well, unless an unnamed member brings in a name
that another one has or brings in too, at any depth. -/
theorem FromTexts.member_names (h : u.FromTexts) (hd : u.record? id = some d) (hb : d.body = some body) :
    (body.members.filterMap Member.name).Nodup ∧ ∃ names, u.Flattens body.members names ∧
      (∀ other, u.Flattens body.members other → other = names) ∧ (names.Nodup ↔ ¬u.Clashes body.members) := by
  have hown := h.distinct id d body hd hb
  have hbuilt : u.Built := .inr h
  obtain ⟨-, names, hflat⟩ := hbuilt.flat id d body hd hb
  refine ⟨hown, names, hflat, fun other => hflat.unique, fun hnodup hclash => hclash.not_nodup hflat hnodup, ?_⟩
  intro hclash
  by_contra hdup
  exact hclash (h.distinct.clashes hflat hown hdup)

/-- A union without a name in a struct without a name: all four names are names of the struct around them. -/
theorem member_names_nested :
    let u := ((empty "unit" .lp64).declare "struct s { int a; struct { int b; union { int c; int d; }; }; };").2
    ∃ d body, u.FromTexts ∧ u.record? ⟨0⟩ = some d ∧ d.body = some body ∧
      u.Flattens body.members ["a", "b", "c", "d"] ∧ ¬u.Clashes body.members := by
  intro u
  have hu : u.FromTexts := .declare _ (.empty "unit" .lp64)
  obtain ⟨hd, houter, hinner⟩ : u.record? ⟨0⟩ = some ⟨.struct, some "s",
        some ⟨[⟨some "a", ⟨1⟩, 0⟩, ⟨none, ⟨2⟩, 32⟩], ⟨96, 32⟩⟩⟩ ∧
      u.anonymousBody? ⟨2⟩ = some ⟨[⟨some "b", ⟨1⟩, 0⟩, ⟨none, ⟨3⟩, 32⟩], ⟨64, 32⟩⟩ ∧
      u.anonymousBody? ⟨3⟩ = some ⟨[⟨some "c", ⟨1⟩, 0⟩, ⟨some "d", ⟨1⟩, 0⟩], ⟨32, 32⟩⟩ := by decide +kernel
  have hunion : u.Flattens [⟨none, ⟨3⟩, 32⟩] (["c", "d"] ++ []) :=
    .anonymous rfl hinner (.named rfl (.named rfl .nil)) .nil
  have hstruct : u.Flattens [⟨none, ⟨2⟩, 32⟩] (["b", "c", "d"] ++ []) := .anonymous rfl houter (.named rfl hunion) .nil
  have hflat : u.Flattens [⟨some "a", ⟨1⟩, 0⟩, ⟨none, ⟨2⟩, 32⟩] ["a", "b", "c", "d"] := .named rfl hstruct
  obtain ⟨-, names, -, hunique, hnodup⟩ := hu.member_names hd rfl
  rw [← hunique _ hflat] at hnodup
  exact ⟨_, _, hu, hd, rfl, hflat, hnodup.1 (by decide)⟩

/-- The struct in the struct brings in a second member of the same name, and is taken. -/
theorem exists_names_twice : ∃ u : DeclUnit, u.FromTexts ∧ ∃ id d body, u.record? id = some d ∧ d.body = some body ∧
    u.Flattens body.members ["a", "a"] := by
  let u := ((empty "unit" .lp64).declare "struct s { int a; struct { int a; }; };").2
  obtain ⟨hd, hinner⟩ : u.record? ⟨0⟩ = some ⟨.struct, some "s",
        some ⟨[⟨some "a", ⟨1⟩, 0⟩, ⟨none, ⟨2⟩, 32⟩], ⟨64, 32⟩⟩⟩ ∧
      u.anonymousBody? ⟨2⟩ = some ⟨[⟨some "a", ⟨1⟩, 0⟩], ⟨32, 32⟩⟩ := by decide +kernel
  have hstruct : u.Flattens [⟨none, ⟨2⟩, 32⟩] (["a"] ++ []) := .anonymous rfl hinner (.named rfl .nil) .nil
  exact ⟨u, .declare _ (.empty "unit" .lp64), ⟨0⟩, _, _, hd, rfl, .named rfl hstruct⟩

end Cognate.DeclUnit
