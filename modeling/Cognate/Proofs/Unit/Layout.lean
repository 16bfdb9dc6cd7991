import Cognate.Proofs.Unit.Bodies
import Mathlib.Algebra.Group.Nat.Defs
import Mathlib.Order.Bounds.Basic

/-!
# Layout of records

The layout that C gives a record, over numbers without a bound: `Natural`. There is exactly one for given members, and
`placeMembers_eq` compares it with what is computed in words: the layouts agree, and words are too narrow exactly if
the whole is. Layouts of types never change, so the layouts of all records stay those that their members ask for:
`reachable_layouts`.
-/

namespace Cognate

/-- A machine on which every type is aligned to a bit at least. -/
structure Target.Aligned (t : Target) : Prop where
  pointer : 1 ≤ t.pointer.align
  builtin : ∀ {b e}, t.extent b = some e → 1 ≤ e.align

theorem Target.presets_aligned {t : Target} (h : t ∈ Target.presets) : t.Aligned := by
  have hall : ∀ t ∈ presets, 1 ≤ t.pointer.align ∧ ∀ b ∈ Builtin.all, ∀ e ∈ t.extent b, 1 ≤ e.align := by decide
  obtain ⟨hpointer, hbuiltin⟩ := hall t h
  exact ⟨hpointer, fun {b e} he => hbuiltin b (Builtin.mem_all b) e he⟩

/-! ## Natural layouts -/

/-- The first position from `stop` on that an alignment allows. -/
def FirstFit (align stop position : Nat) : Prop := IsLeast {n | align ∣ n ∧ stop ≤ n} position

/-- Offsets of members one after the other, the first one not before `stop`. -/
inductive Follow : Nat → List Extent → List Nat → Prop
  | nil (stop : Nat) : Follow stop [] []
  | cons {stop offset : Nat} {e : Extent} {es : List Extent} {offsets : List Nat} (first : FirstFit e.align stop offset)
      (rest : Follow (offset + e.width) es offsets) : Follow stop (e :: es) (offset :: offsets)

/-- Where members end. -/
def memberEnds (offsets : List Nat) (es : List Extent) : List Nat :=
  List.zipWith (fun offset e => offset + e.width) offsets es

/-- Offsets of members behind bit `stop` of a record that is aligned to `align` already, and the layout of the whole.
The members of a union all start where the record does. -/
structure Natural (isUnion : Bool) (stop align : Nat) (es : List Extent) (offsets : List Nat) (whole : Extent) :
    Prop where
  starts : if isUnion then offsets = es.map fun _ => 0 else Follow stop es offsets
  aligned : whole.align = (es.map Extent.align).foldr max align
  ends : FirstFit whole.align ((memberEnds offsets es).foldr max stop) whole.width

section
variable {isUnion : Bool} {stop align n m offset : Nat} {e whole : Extent} {es : List Extent} {offsets : List Nat}

theorem firstFit_roundUp (ha : 1 ≤ align) (stop : Nat) : FirstFit align stop ((stop + align - 1) / align * align) := by
  refine ⟨⟨Nat.dvd_mul_left _ _, ?_⟩, ?_⟩
  · have hlt := Nat.lt_div_mul_add (a := stop + align - 1) ha
    omega
  · rintro n ⟨⟨k, rfl⟩, hn⟩
    rw [Nat.mul_comm align k] at hn ⊢
    refine Nat.mul_le_mul_right _ (Nat.le_of_lt_succ ((Nat.div_lt_iff_lt_mul ha).2 ?_))
    rw [Nat.succ_mul]
    omega

theorem FirstFit.unique (h : FirstFit align stop n) (h' : FirstFit align stop m) : n = m := IsLeast.unique h h'

theorem FirstFit.le (h : FirstFit align stop n) : stop ≤ n := h.1.2

/-- A word holds the position, or it is not found. -/
theorem FirstFit.alignUp (ha : 1 ≤ align) (h : FirstFit align stop n) : alignUp stop align = word? n := by
  rw [h.unique (firstFit_roundUp ha stop), Cognate.alignUp, max_eq_left ha]

theorem le_foldr_max (stop : Nat) (l : List Nat) : stop ≤ l.foldr max stop := by
  induction l with
  | nil => exact le_rfl
  | cons x l ih => exact ih.trans (le_max_right _ _)

theorem foldr_max_max (x stop : Nat) (l : List Nat) : l.foldr max (max stop x) = max x (l.foldr max stop) := by
  induction l with
  | nil => exact max_comm _ _
  | cons y l ih => rw [List.foldr_cons, List.foldr_cons, ih, max_left_comm]

theorem Follow.length_eq (h : Follow stop es offsets) : offsets.length = es.length := by
  induction h with
  | nil => rfl
  | cons _ _ ih => rw [List.length_cons, List.length_cons, ih]

theorem Natural.length_eq (h : Natural isUnion stop align es offsets whole) : offsets.length = es.length := by
  have hs := h.starts
  cases isUnion with
  | true =>
    have ho : offsets = es.map fun _ => 0 := hs
    rw [ho, List.length_map]
  | false =>
    have hf : Follow stop es offsets := hs
    exact hf.length_eq

/-- The first member takes its place, and the others follow in what is then the record. -/
theorem natural_cons_iff :
    Natural isUnion stop align (e :: es) (offset :: offsets) whole ↔
      (if isUnion then offset = 0 else FirstFit e.align stop offset) ∧
        Natural isUnion (max stop (offset + e.width)) (max align e.align) es offsets whole := by
  have hends : (memberEnds (offset :: offsets) (e :: es)).foldr max stop =
      (memberEnds offsets es).foldr max (max stop (offset + e.width)) := (foldr_max_max ..).symm
  have halign : ((e :: es).map Extent.align).foldr max align =
      (es.map Extent.align).foldr max (max align e.align) := (foldr_max_max ..).symm
  constructor
  · rintro ⟨ho, ha, hw⟩
    rw [hends] at hw
    rw [halign] at ha
    cases isUnion with
    | true =>
      obtain ⟨h, h'⟩ := List.cons.inj ho
      exact ⟨h, h', ha, hw⟩
    | false =>
      cases ho with
      | cons first rest =>
        rw [← max_eq_right (first.le.trans (Nat.le_add_right offset e.width))] at rest
        exact ⟨first, rest, ha, hw⟩
  · rintro ⟨h, ho, ha, hw⟩
    refine ⟨?_, ha.trans halign.symm, hends ▸ hw⟩
    cases isUnion with
    | true => exact congrArg₂ _ h ho
    | false =>
      have hfit : FirstFit e.align stop offset := h
      have hrest : Follow (max stop (offset + e.width)) es offsets := ho
      rw [max_eq_right (hfit.le.trans (Nat.le_add_right offset e.width))] at hrest
      exact .cons hfit hrest

/-- No member ends behind the whole. -/
theorem Natural.stop_le (h : Natural isUnion stop align es offsets whole) : stop ≤ whole.width :=
  (le_foldr_max _ _).trans h.ends.le

theorem Natural.align_le (h : Natural isUnion stop align es offsets whole) : align ≤ whole.align := by
  rw [h.aligned]
  exact le_foldr_max _ _

theorem Follow.unique {offsets' : List Nat} (h : Follow stop es offsets) (h' : Follow stop es offsets') :
    offsets = offsets' := by
  induction h generalizing offsets' with
  | nil =>
    cases h'
    rfl
  | cons first _ ih =>
    cases h' with
    | cons first' rest' =>
      obtain rfl := first.unique first'
      rw [ih rest']

theorem Natural.unique {offsets' : List Nat} {whole' : Extent} (h : Natural isUnion stop align es offsets whole)
    (h' : Natural isUnion stop align es offsets' whole') : offsets = offsets' ∧ whole = whole' := by
  have hoffsets : offsets = offsets' := by
    have hs := h.starts
    have hs' := h'.starts
    cases isUnion with
    | true => exact Eq.trans hs (Eq.symm hs')
    | false => exact Follow.unique hs hs'
  subst hoffsets
  have halign : whole.align = whole'.align := h.aligned.trans h'.aligned.symm
  have hends := h.ends
  rw [halign] at hends
  refine ⟨rfl, ?_⟩
  cases whole
  cases whole'
  exact congrArg₂ _ (hends.unique h'.ends) halign

theorem exists_natural (isUnion : Bool) (stop align : Nat) (ha : 1 ≤ align) (hes : ∀ e ∈ es, 1 ≤ e.align) :
    ∃ offsets whole, Natural isUnion stop align es offsets whole := by
  induction es generalizing stop align with
  | nil =>
    refine ⟨[], ⟨(stop + align - 1) / align * align, align⟩, ?_, rfl, firstFit_roundUp ha stop⟩
    cases isUnion
    · exact .nil stop
    · rfl
  | cons e es ih =>
    obtain ⟨offset, ho⟩ : ∃ offset, if isUnion then offset = 0 else FirstFit e.align stop offset := by
      cases isUnion
      · exact ⟨_, firstFit_roundUp (hes e (by simp)) stop⟩
      · exact ⟨0, rfl⟩
    obtain ⟨offsets, whole, h⟩ := ih (max stop (offset + e.width)) _ (ha.trans (le_max_left align e.align))
      fun e' he' => hes e' (by simp [he'])
    exact ⟨offset :: offsets, whole, natural_cons_iff.2 ⟨ho, h⟩⟩

end

/-! ## Placing members -/

namespace DeclUnit

variable {u v : DeclUnit} {t : Ty} {isUnion : Bool} {stop align : Nat} {types : List Ty} {es : List Extent}
  {offsets : List Nat} {whole : Extent} {fields : List (String × Ty)} {id : RecordId} {d : RecordDecl}

/-- What members of some types take of a record. An array of unknown size at the end of a struct takes no bits, and is
aligned like its elements. -/
inductive Sized (u : DeclUnit) (isUnion : Bool) : List Ty → List Extent → Prop
  | nil : Sized u isUnion [] []
  | cons {t : Ty} {e : Extent} {types : List Ty} {es : List Extent} (extent : u.extent t = some e)
      (rest : Sized u isUnion types es) : Sized u isUnion (t :: types) (e :: es)
  | flexible {t element : Ty} {e : Extent} (notUnion : isUnion = false)
      (shape : u.canonicalShape? t = some (.incompleteArray element)) (extent : u.extent element = some e) :
      Sized u isUnion [t] [⟨0, e.align⟩]

theorem Sized.length_eq (h : u.Sized isUnion types es) : es.length = types.length := by
  induction h with
  | nil | flexible => rfl
  | cons _ _ ih => rw [List.length_cons, List.length_cons, ih]

theorem Sized.of_retains (h : u.Retains v) (hs : u.Sized isUnion types es) : v.Sized isUnion types es := by
  induction hs with
  | nil => exact .nil
  | cons he _ ih => exact .cons (h.extent he) ih
  | flexible hunion hshape he => exact .flexible hunion (h.nodes.canonicalShape? hshape) (h.extent he)

/-- An array of unknown size has no layout. -/
theorem measure_incompleteArray {element : Ty} (h : u.canonicalShape? t = some (.incompleteArray element)) :
    u.measure t = .ok none := by
  rw [measure, measureWithin_succ, h]
  rfl

theorem extent_incompleteArray {element : Ty} (h : u.canonicalShape? t = some (.incompleteArray element)) :
    u.extent t = none := by
  rw [extent, measure_incompleteArray h, Extent.answered]

/-- The first member has a layout as a member, and so have the others. -/
theorem sized_cons_iff {e : Extent} :
    u.Sized isUnion (t :: types) (e :: es) ↔
      u.memberExtent isUnion types.isEmpty t = .ok (some e) ∧ u.Sized isUnion types es := by
  constructor
  · intro h
    cases h with
    | cons he hrest => exact ⟨by rw [memberExtent, extent_eq_some.1 he]; rfl, hrest⟩
    | flexible hunion hshape he =>
      refine ⟨?_, .nil⟩
      simp [memberExtent, measure_incompleteArray hshape, hunion, flexibleExtent, hshape, extent_eq_some.1 he,
        Bind.bind, Except.bind, pure, Except.pure]
  · rintro ⟨h, hrest⟩
    obtain he | ⟨hlast, hunion, element, e', hshape, he, rfl⟩ := memberExtent_cases h
    · exact .cons he hrest
    · obtain rfl := List.isEmpty_iff.1 hlast
      cases hrest
      exact .flexible hunion hshape he

/-- Members with the names, types and offsets of a list each. -/
def membersAt (fields : List (String × Ty)) (offsets : List Nat) : List Member :=
  List.zipWith (fun field offset => ⟨if field.1.isEmpty then none else some field.1, field.2, offset⟩) fields offsets

/-- Placing members in words gives their natural layout, unless the whole does not fit. By induction on the members: an
offset or an end that does not fit stays in front of the end of the whole. -/
theorem placeMembers_eq (ha : 1 ≤ align) (hes : ∀ e ∈ es, 1 ≤ e.align) (hs : u.Sized isUnion (fields.map Prod.snd) es)
    (h : Natural isUnion stop align es offsets whole) :
    u.placeMembers isUnion stop align fields =
      if whole.width < wordLimit then .ok (membersAt fields offsets, whole) else .error .overflow := by
  induction fields generalizing stop align es offsets with
  | nil =>
    obtain rfl : es = [] := List.length_eq_zero_iff.1 hs.length_eq
    obtain rfl : offsets = [] := List.length_eq_zero_iff.1 h.length_eq
    have halign : whole.align = align := h.aligned
    have hends : FirstFit align stop whole.width := halign ▸ h.ends
    rw [placeMembers, hends.alignUp ha, ← halign]
    by_cases hw : whole.width < wordLimit
    · rw [word?, if_pos hw, if_pos hw]
      rfl
    · rw [word?, if_neg hw, if_neg hw]
  | cons field fields ih =>
    obtain ⟨name, type⟩ := field
    obtain ⟨e, es, rfl⟩ := List.exists_of_length_succ _ hs.length_eq
    obtain ⟨offset, offsets, rfl⟩ := List.exists_of_length_succ _ h.length_eq
    obtain ⟨hextent, hsized⟩ := sized_cons_iff.1 hs
    rw [List.isEmpty_map] at hextent
    obtain ⟨hoffset, hrest⟩ := natural_cons_iff.1 h
    have hend : offset + e.width ≤ whole.width := (le_max_right _ _).trans hrest.stop_le
    have hstart : (if isUnion then some 0 else alignUp stop e.align) = word? offset := by
      cases isUnion with
      | true =>
        obtain rfl : offset = 0 := hoffset
        rfl
      | false =>
        have hfirst : FirstFit e.align stop offset := hoffset
        exact hfirst.alignUp (hes e (by simp))
    have ih := ih (ha.trans (le_max_left _ _)) (fun e' he' => hes e' (by simp [he'])) hsized hrest
    rw [placeMembers, hextent]
    dsimp only
    rw [hstart]
    by_cases hw : whole.width < wordLimit
    · rw [if_pos hw] at ih ⊢
      rw [word?, if_pos (by omega)]
      dsimp only
      rw [word?, if_pos (by omega)]
      dsimp only
      rw [ih]
      rfl
    · rw [if_neg hw] at ih ⊢
      cases hstart : word? offset with
      | none => rfl
      | some start =>
        obtain ⟨rfl, -⟩ := word?_eq_some.1 hstart
        dsimp only
        cases hnext : word? (offset + e.width) with
        | none => rfl
        | some next =>
          obtain ⟨rfl, -⟩ := word?_eq_some.1 hnext
          dsimp only
          rw [ih]

/-- Where members start that are placed from bit `stop` on. -/
def starts (isUnion : Bool) : Nat → List Extent → List Nat
  | _, [] => []
  | stop, e :: es =>
    let offset := if isUnion then 0 else (stop + max e.align 1 - 1) / max e.align 1 * max e.align 1
    offset :: starts isUnion (max stop (offset + e.width)) es

/-- Members that are placed have layouts, which say where they start. -/
theorem sized_of_placeMembers {members : List Member}
    (h : u.placeMembers isUnion stop align fields = .ok (members, whole)) :
    members.map Member.type = fields.map Prod.snd ∧ ∃ es, u.Sized isUnion (fields.map Prod.snd) es ∧
      members.map Member.offset = starts isUnion stop es := by
  induction fields generalizing stop align members whole with
  | nil =>
    unfold placeMembers at h
    split at h <;> cases h
    exact ⟨rfl, [], .nil, rfl⟩
  | cons field fields ih =>
    obtain ⟨name, type⟩ := field
    obtain ⟨e, offset, next, members', he, hoffset, hnext, hrest, rfl⟩ := placeMembers_cons_eq_ok h
    obtain ⟨htypes, es, hes, hstarts⟩ := ih hrest
    obtain ⟨rfl, -⟩ := word?_eq_some.1 hnext
    have hfirst : offset = if isUnion then 0 else (stop + max e.align 1 - 1) / max e.align 1 * max e.align 1 := by
      cases isUnion with
      | true => exact (Option.some.inj hoffset).symm
      | false =>
        have hword : alignUp stop e.align = some offset := hoffset
        exact (word?_eq_some.1 hword).1.symm
    refine ⟨congrArg (type :: ·) htypes, e :: es, sized_cons_iff.2 ⟨?_, hes⟩, ?_⟩
    · rw [List.isEmpty_map]
      exact he
    · rw [List.map_cons, hstarts, starts, ← hfirst]

theorem map_type_membersAt (h : offsets.length = fields.length) :
    (membersAt fields offsets).map Member.type = fields.map Prod.snd := by
  induction fields generalizing offsets with
  | nil => cases offsets <;> rfl
  | cons field fields ih =>
    obtain ⟨offset, offsets, rfl⟩ := List.exists_of_length_succ _ h
    exact congrArg (field.2 :: ·) (ih (Nat.succ.inj h))

theorem map_offset_membersAt (h : offsets.length = fields.length) :
    (membersAt fields offsets).map Member.offset = offsets := by
  induction fields generalizing offsets with
  | nil => exact (List.length_eq_zero_iff.1 h).symm ▸ rfl
  | cons field fields ih =>
    obtain ⟨offset, offsets, rfl⟩ := List.exists_of_length_succ _ h
    exact congrArg (offset :: ·) (ih (Nat.succ.inj h))

/-! ## Layouts in a unit -/

/-- The stored layout of every record is the natural one of its members. -/
def LaidOut (u : DeclUnit) : Prop :=
  ∀ id d body, u.record? id = some d → d.body = some body →
    ∃ es, u.Sized (d.tag == .union) (body.members.map Member.type) es ∧
      Natural (d.tag == .union) 0 recordAlign es (body.members.map Member.offset) body.extent

/-- No type is aligned to less than the machine aligns to. By induction on the position of a type. -/
theorem LaidOut.one_le_align {e : Extent} (hlaid : u.LaidOut) (hu : u.WellFormed) (ht : u.target.Aligned)
    (he : u.extent t = some e) : 1 ≤ e.align := by
  induction hi : t.index using Nat.strong_induction_on generalizing t e with
  | _ i ih =>
    subst hi
    rw [hu.extent_eq] at he
    obtain ⟨s, hs, he⟩ := Option.bind_eq_some_iff.1 he
    have hchild : ∀ {c e}, c ∈ s.children → u.extent c = some e → 1 ≤ e.align :=
      fun hc he => ih _ (hu.child_canonicalShape_lt hs hc) he rfl
    cases s with
    | builtin b => exact ht.builtin he
    | complex c | constantArray c _ =>
      obtain ⟨e', he', he⟩ := Option.bind_eq_some_iff.1 he
      obtain ⟨width, -, rfl⟩ := Option.map_eq_some_iff.1 he
      have hc : 1 ≤ e'.align := hchild (by simp [Shape.children]) he'
      exact hc
    | vector c _ _ =>
      obtain ⟨e', he', he⟩ := Option.bind_eq_some_iff.1 he
      obtain ⟨width, power, -, -, rfl⟩ := Extent.vector?_eq_some.1 he
      have hc : 1 ≤ e'.align := hchild (by simp [Shape.children]) he'
      exact hc.trans (le_max_right _ _)
    | typedef | qualified | atomic => exact hchild (by simp [Shape.children]) he
    | pointer | blockPointer | lvalueRef | rvalueRef | memberPointer | objcPointer | pipe =>
      cases he
      exact ht.pointer
    | record id =>
      obtain ⟨body, hbody, rfl⟩ := Option.map_eq_some_iff.1 he
      obtain ⟨d, hd, hb⟩ := Option.bind_eq_some_iff.1 hbody
      obtain ⟨es, -, hnatural⟩ := hlaid id d body hd hb
      exact le_trans (by decide) hnatural.align_le
    | enum id =>
      obtain ⟨body, -, hbase⟩ := Option.bind_eq_some_iff.1 he
      obtain ⟨b, -, he⟩ := Option.bind_eq_some_iff.1 hbase
      exact ht.builtin he
    | _ => cases he

theorem LaidOut.sized_align (hlaid : u.LaidOut) (hu : u.WellFormed) (ht : u.target.Aligned)
    (h : u.Sized isUnion types es) : ∀ e ∈ es, 1 ≤ e.align := by
  induction h with
  | nil => simp
  | cons he _ ih => exact List.forall_mem_cons.2 ⟨hlaid.one_le_align hu ht he, ih⟩
  | flexible _ _ he => simpa using hlaid.one_le_align hu ht he

theorem empty_laidOut (name : String) (target : Target) : (empty name target).LaidOut := by
  intro id d body hd
  simp [record?, empty] at hd

/-- Members that are placed in a laid out unit get their natural layout. -/
theorem LaidOut.natural_of_places {tag : Tag} {body : RecordBody} (hlaid : u.LaidOut) (hu : u.WellFormed)
    (ht : u.target.Aligned) (h : u.Places tag body) :
    ∃ es, u.Sized (tag == .union) (body.members.map Member.type) es ∧
      Natural (tag == .union) 0 recordAlign es (body.members.map Member.offset) body.extent := by
  obtain ⟨fields, hplaced⟩ := h
  obtain ⟨-, es, hes, -⟩ := sized_of_placeMembers hplaced
  have hone := hlaid.sized_align hu ht hes
  obtain ⟨offsets, whole, hnatural⟩ := exists_natural (tag == .union) 0 recordAlign (by decide) hone
  rw [placeMembers_eq (by decide) hone hes hnatural] at hplaced
  split at hplaced
  · obtain ⟨hmembers, hextent⟩ := Prod.mk.inj (Except.ok.inj hplaced)
    have hlen : offsets.length = fields.length := by
      rw [hnatural.length_eq, hes.length_eq, List.length_map]
    rw [← hmembers, ← hextent, map_type_membersAt hlen, map_offset_membersAt hlen]
    exact ⟨es, hes, hnatural⟩
  · cases hplaced

theorem LaidOut.apply (hlaid : u.LaidOut) (hu : u.WellFormed) (ht : u.target.Aligned) (op : Operation) :
    (u.apply op).LaidOut := by
  intro id d body hd hb
  obtain ⟨es, hes, hnatural⟩ := (apply_body hd hb).elim (fun hold => hlaid id d body hold hb)
    (hlaid.natural_of_places hu ht)
  exact ⟨es, hes.of_retains (apply_retains u op), hnatural⟩

theorem LaidOut.applyAll {ops : List Operation} (hlaid : u.LaidOut) (hu : u.WellFormed) (ht : u.target.Aligned)
    (hops : u.admitsAll ops = true) : (u.applyAll ops).LaidOut := by
  induction ops generalizing u with
  | nil => exact hlaid
  | cons op ops ih =>
    simp only [admitsAll, Bool.and_eq_true] at hops
    refine ih (hlaid.apply hu ht op) (apply_spec hu hops.1).1 ?_ hops.2
    rw [(apply_retains u op).target]
    exact ht

theorem Reachable.laidOut (h : u.Reachable) (ht : u.target.Aligned) : u.LaidOut := by
  obtain ⟨name, target, ops, hops, rfl⟩ := h
  rw [(applyAll_retains _ ops).target] at ht
  exact (empty_laidOut name target).applyAll (empty_wellFormed name target) ht hops

/-- Completing a record whose members all have layouts: it gets their natural layout, unless words are too narrow for
the whole. -/
theorem completeRecord_of_natural (hes : u.Sized (d.tag == .union) (fields.map Prod.snd) es)
    (hone : ∀ e ∈ es, 1 ≤ e.align) (hnatural : Natural (d.tag == .union) 0 recordAlign es offsets whole)
    (hof : u.recordOf? t = some (id, d)) (hbody : d.body = none) :
    u.completeRecord t fields =
      if whole.width < wordLimit then
        (.ok (),
          { u with records := u.records.set! id.index { d with body := some ⟨membersAt fields offsets, whole⟩ } })
      else (.error (.layoutOverflow (u.describe t)), u) := by
  have hplaced := placeMembers_eq (by decide) hone hes hnatural
  unfold DeclUnit.completeRecord
  rw [hof]
  dsimp only
  rw [hbody, Option.isSome_none, if_neg Bool.false_ne_true, hplaced]
  by_cases hw : whole.width < wordLimit
  · rw [if_pos hw, if_pos hw]
  · rw [if_neg hw, if_neg hw]

/-- A record gets a body once. -/
theorem completeRecord_of_body {body : RecordBody} (hof : u.recordOf? t = some (id, d)) (hbody : d.body = some body) :
    u.completeRecord t fields = (.error (.redefinition (u.describe t)), u) := by
  unfold DeclUnit.completeRecord
  rw [hof]
  dsimp only
  rw [hbody, Option.isSome_some, if_pos rfl]

/-- Layouts of a reachable unit. A type keeps its layout through every run. The stored layout of a complete record is
the natural one of its members, as they are laid out now. Members that have layouts are refused for the width of the
whole exactly if a word cannot hold it. -/
theorem reachable_layouts (h : u.Reachable) (ht : u.target.Aligned) :
    (∀ ops t e, u.admitsAll ops = true → u.extent t = some e → (u.applyAll ops).extent t = some e) ∧
      (∀ id d body, u.record? id = some d → d.body = some body →
        ∃ es, u.Sized (d.tag == .union) (body.members.map Member.type) es ∧
          ∀ offsets whole, Natural (d.tag == .union) 0 recordAlign es offsets whole ↔
            body.members.map Member.offset = offsets ∧ body.extent = whole) ∧
      ∀ t id d fields es, u.recordOf? t = some (id, d) → u.Sized (d.tag == .union) (fields.map Prod.snd) es →
        ∃ offsets whole, Natural (d.tag == .union) 0 recordAlign es offsets whole ∧
          (u.completeRecord t fields = (.error (.layoutOverflow (u.describe t)), u) ↔
            d.body = none ∧ wordLimit ≤ whole.width) ∧
          (d.body = none → whole.width < wordLimit → ∃ v, u.completeRecord t fields = (.ok (), v)) := by
  have hu := h.wellFormed
  have hlaid := h.laidOut ht
  refine ⟨fun ops t e hops he => (applyAll_retains u ops).extent he,
    fun id d body hd hb => ?_, fun t id d fields es hof hes => ?_⟩
  · obtain ⟨es, hes, hnatural⟩ := hlaid id d body hd hb
    refine ⟨es, hes, fun offsets whole => ⟨hnatural.unique, ?_⟩⟩
    rintro ⟨rfl, rfl⟩
    exact hnatural
  · have hone := hlaid.sized_align hu ht hes
    obtain ⟨offsets, whole, hnatural⟩ := exists_natural (d.tag == .union) 0 recordAlign (by decide) hone
    refine ⟨offsets, whole, hnatural, ?_⟩
    cases hbody : d.body with
    | some body =>
      rw [completeRecord_of_body hof hbody]
      simp
    | none =>
      rw [completeRecord_of_natural hes hone hnatural hof hbody]
      by_cases hw : whole.width < wordLimit
      · simp [hw]
      · simp [hw, Nat.not_lt.1 hw]

/-- A struct that ends in an array of unknown size, and one whose two arrays end one bit behind the last word. -/
theorem reachable_layouts_arrays :
    let u := (empty "unit" .lp64).applyAll
      [.intern (.builtin .charS), .intern (.builtin .int), .intern (.incompleteArray ⟨1⟩),
        .intern (.constantArray ⟨0⟩ (2 ^ 60)), .declareRecord .struct "list", .declareRecord .struct "pair",
        .completeRecord ⟨4⟩ [("tag", ⟨0⟩), ("count", ⟨1⟩), ("items", ⟨2⟩)]]
    u.Reachable ∧ u.target.Aligned ∧ (u.apply (.intern (.pointer ⟨4⟩))).extent ⟨4⟩ = some ⟨64, 32⟩ ∧
      (∃ es, u.Sized false [⟨0⟩, ⟨1⟩, ⟨2⟩] es ∧ Natural false 0 recordAlign es [0, 32, 64] ⟨64, 32⟩) ∧
      u.completeRecord ⟨5⟩ [("left", ⟨3⟩), ("right", ⟨3⟩)] = (.error (.layoutOverflow (u.describe ⟨5⟩)), u) := by
  intro u
  have h : u.Reachable := ⟨"unit", .lp64, _, by decide +kernel, rfl⟩
  have ht : u.target.Aligned := by
    rw [(applyAll_retains _ _).target]
    exact Target.presets_aligned (t := .lp64) (by decide)
  obtain ⟨hkeep, hstored, hcomplete⟩ := reachable_layouts h ht
  refine ⟨h, ht, hkeep [.intern (.pointer ⟨4⟩)] ⟨4⟩ ⟨64, 32⟩ (by decide +kernel) (by decide +kernel), ?_, ?_⟩
  · have hrecord : u.record? ⟨0⟩ = some ⟨.struct, "list", some ⟨[⟨"tag", ⟨0⟩, 0⟩, ⟨"count", ⟨1⟩, 32⟩,
        ⟨"items", ⟨2⟩, 64⟩], ⟨64, 32⟩⟩⟩ := by decide +kernel
    obtain ⟨es, hes, hnatural⟩ := hstored ⟨0⟩ _ _ hrecord rfl
    exact ⟨es, hes, (hnatural _ _).2 ⟨rfl, rfl⟩⟩
  · have hof : u.recordOf? ⟨5⟩ = some (⟨1⟩, ⟨.struct, "pair", none⟩) := by decide +kernel
    have harray : u.extent ⟨3⟩ = some ⟨2 ^ 63, 8⟩ := by decide +kernel
    obtain ⟨offsets, whole, hnatural, hiff, -⟩ := hcomplete ⟨5⟩ _ _ [("left", ⟨3⟩), ("right", ⟨3⟩)] _ hof
      (.cons harray (.cons harray .nil))
    refine hiff.2 ⟨rfl, ?_⟩
    match offsets, hnatural.length_eq with
    | [left, right], _ =>
      obtain ⟨-, hnatural⟩ := natural_cons_iff.1 hnatural
      obtain ⟨hright, hnatural⟩ := natural_cons_iff.1 hnatural
      have hfirst : FirstFit 8 (max 0 (left + 2 ^ 63)) right := hright
      have hstart : left + 2 ^ 63 ≤ right := (le_max_right _ _).trans hfirst.le
      have hend : right + 2 ^ 63 ≤ whole.width := (le_max_right _ _).trans hnatural.stop_le
      have hlimit : wordLimit = 2 ^ 64 := rfl
      omega

end DeclUnit
end Cognate
