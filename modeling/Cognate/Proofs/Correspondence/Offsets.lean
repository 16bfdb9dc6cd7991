import Cognate.Proofs.Correspondence.Equivalence
import Cognate.Proofs.Readings.Texts
import Cognate.Proofs.Unit.Layout

/-!
# Offsets in corresponding records

Correspondence compares the tag and the layout of a whole record, and its members type by type, but never the sizes of
arrays. Those are all that it misses of a layout: paired types whose arrays have the same sizes are laid out alike
(`Pairing.extent_eq`), so members of corresponding records start at the same bit as long as no array in front of them
differs in size.
-/

namespace Cognate

namespace DeclUnit

variable {u : DeclUnit} {t : Ty} {isUnion : Bool} {stop i : Nat} {types : List Ty} {es es' : List Extent}
  {e e' : Extent}

/-! ## Members in their order -/

theorem Built.placed (h : u.Built) : u.Placed := h.induct empty_placed fun hv => hv.apply _

/-- The members of a complete record have layouts, which say where they start. -/
theorem Placed.sized (hu : u.Placed) {id : RecordId} {d : RecordDecl} {body : RecordBody} (hd : u.record? id = some d)
    (hb : d.body = some body) : ∃ es, u.Sized (d.tag == .union) (body.members.map Member.type) es ∧
      body.members.map Member.offset = starts (d.tag == .union) 0 es := by
  obtain ⟨v, hv, fields, hplaced⟩ := hu id d body hd hb
  obtain ⟨htypes, es, hes, hstarts⟩ := sized_of_placeMembers hplaced
  rw [htypes]
  exact ⟨es, hes.of_retains hv, hstarts⟩

/-- The members of a union start where it does. -/
theorem starts_union {offset : Nat} (h : offset ∈ starts true stop es) : offset = 0 := by
  induction es generalizing stop with
  | nil => cases h
  | cons e es ih => exact (List.mem_cons.1 h).elim id ih

theorem Placed.offset_of_union (hu : u.Placed) {id : RecordId} {d : RecordDecl} {body : RecordBody} {m : Member}
    (hd : u.record? id = some d) (hb : d.body = some body) (htag : d.tag = .union) (hm : m ∈ body.members) :
    m.offset = 0 := by
  obtain ⟨es, -, hstarts⟩ := hu.sized hd hb
  rw [htag] at hstarts
  exact starts_union (hstarts ▸ List.mem_map_of_mem hm)

/-- The layout of a member: that of its type, or of an array of unknown size. -/
def HasMemberExtent (u : DeclUnit) (t : Ty) (e : Extent) : Prop :=
  u.extent t = some e ∨
    ∃ element e', u.canonicalShape? t = some (.incompleteArray element) ∧ u.extent element = some e' ∧ e = ⟨0, e'.align⟩

theorem Sized.hasMemberExtent (h : u.Sized isUnion types es) (ht : types[i]? = some t) (he : es[i]? = some e) :
    u.HasMemberExtent t e := by
  induction h generalizing i with
  | nil => cases ht
  | cons hextent _ ih =>
    cases i with
    | zero =>
      cases ht
      cases he
      exact .inl hextent
    | succ i => exact ih ht he
  | flexible _ hshape hextent =>
    cases i with
    | zero =>
      cases ht
      cases he
      exact .inr ⟨_, _, hshape, hextent, rfl⟩
    | succ i => cases ht

/-- Where a member starts depends on the layouts in front of it, and on its own alignment. -/
theorem starts_congr (hbefore : es.take i = es'.take i) (he : es[i]? = some e) (he' : es'[i]? = some e')
    (halign : e.align = e'.align) : (starts isUnion stop es)[i]? = (starts isUnion stop es')[i]? := by
  induction i generalizing stop es es' with
  | zero =>
    obtain ⟨es, rfl⟩ := List.head?_eq_some_iff.1 (List.head?_eq_getElem?.trans he)
    obtain ⟨es', rfl⟩ := List.head?_eq_some_iff.1 (List.head?_eq_getElem?.trans he')
    simp [starts, halign]
  | succ i ih =>
    cases es with
    | nil => cases he
    | cons x es =>
      cases es' with
      | nil => cases he'
      | cons x' es' =>
        rw [List.take_succ_cons, List.take_succ_cons] at hbefore
        obtain ⟨rfl, hrest⟩ := List.cons_eq_cons.1 hbefore
        exact ih hrest he he'

/-! ## Sizes of arrays -/

/-- The sizes of arrays on which the width of a canonical shape depends, given those for its element. -/
def widthSizesOf (widthSizes : Ty → List Nat) : Option Shape → List Nat
  | some (.constantArray element size) => size :: widthSizes element
  | some (.vector element _ _) => widthSizes element
  | _ => []

def widthSizesWithin (u : DeclUnit) : Nat → Ty → List Nat
  | 0, _ => []
  | fuel + 1, t => widthSizesOf (u.widthSizesWithin fuel) (u.canonicalShape? t)

/-- The sizes of arrays on which the width of a type depends: of those that it nests, in vectors too. -/
def widthSizes (u : DeclUnit) (t : Ty) : List Nat := u.widthSizesWithin (t.index + 1) t

theorem widthSizes_eq (hu : u.WellFormed) (t : Ty) :
    u.widthSizes t = widthSizesOf u.widthSizes (u.canonicalShape? t) :=
  Descends.eq ⟨fun _ _ => rfl, fun {g h o} hgh => by
    rcases o with _ | s
    · rfl
    · cases s <;> simp_all [widthSizesOf, Shape.children]⟩ hu (Nat.lt_succ_self _)

/-- The sizes of arrays on which the alignment of a canonical shape depends, given those for its element. A vector is
aligned to its width. -/
def alignSizesOf (widthSizes alignSizes : Ty → List Nat) : Option Shape → List Nat
  | some (.constantArray element _) | some (.incompleteArray element) => alignSizes element
  | some (.vector element _ _) => widthSizes element
  | _ => []

def alignSizesWithin (u : DeclUnit) : Nat → Ty → List Nat
  | 0, _ => []
  | fuel + 1, t => alignSizesOf u.widthSizes (u.alignSizesWithin fuel) (u.canonicalShape? t)

/-- The sizes of arrays on which the alignment of a type depends: of those that a vector nests. -/
def alignSizes (u : DeclUnit) (t : Ty) : List Nat := u.alignSizesWithin (t.index + 1) t

theorem alignSizes_eq (hu : u.WellFormed) (t : Ty) :
    u.alignSizes t = alignSizesOf u.widthSizes u.alignSizes (u.canonicalShape? t) :=
  Descends.eq ⟨fun _ _ => rfl, fun {g h o} hgh => by
    rcases o with _ | s
    · rfl
    · cases s <;> simp_all [alignSizesOf, Shape.children]⟩ hu (Nat.lt_succ_self _)

theorem WellFormed.extent_record (hu : u.WellFormed) {id : RecordId} {d : RecordDecl} {body : RecordBody}
    (hs : u.canonicalShape? t = some (.record id)) (hd : u.record? id = some d) (hb : d.body = some body) :
    u.extent t = some body.extent := by
  rw [hu.extent_eq, hs, Option.bind_some, extentOf, hd, Option.bind_some, hb]
  rfl

theorem WellFormed.extent_constantArray (hu : u.WellFormed) {c : Ty} {size : Nat}
    (hs : u.canonicalShape? t = some (.constantArray c size)) : u.extent t = (u.extent c).bind (·.repeat? size) := by
  rw [hu.extent_eq, hs]
  rfl

theorem WellFormed.extent_vector (hu : u.WellFormed) {c : Ty} {count : Nat} {kind : VectorKind}
    (hs : u.canonicalShape? t = some (.vector c count kind)) : u.extent t = (u.extent c).bind (·.vector? count) := by
  rw [hu.extent_eq, hs]
  rfl

end DeclUnit

namespace Correspondence

open DeclUnit

variable {a b : DeclUnit} {R : Ty → Ty → Prop} {x y : Ty} {e e' : Extent}

/-! ## Paired types -/

/-- Paired types whose arrays have the same sizes are laid out alike, or both not at all. By induction on the type of
the first unit: a correspondence looks at the layouts of all but arrays and vectors, whose elements are paired. -/
theorem Pairing.extent_eq (hR : Pairing a b R) (ha : a.WellFormed) (hb : b.WellFormed)
    (h : R (a.canonical x) (b.canonical y)) (hsizes : a.widthSizes x = b.widthSizes y) : a.extent x = b.extent y := by
  induction hi : x.index using Nat.strong_induction_on generalizing x y with
  | _ i ih =>
    subst hi
    obtain ⟨p, q, hp, hq, -, halike, hall⟩ := hR.alike h
    have hx := canonicalShape?_of_shape? hp
    have hy := canonicalShape?_of_shape? hq
    rw [widthSizes_eq ha, widthSizes_eq hb, hx, hy] at hsizes
    have hsame : SameExtent ⟨a, a.canonical x⟩ ⟨b, b.canonical y⟩ → a.extent x = b.extent y := by
      intro hext
      rw [← ha.extent_canonical, ← hb.extent_canonical]
      exact hext.extent_eq
    have helement : ∀ {c d}, c ∈ p.children → R (a.canonical c) (b.canonical d) → a.widthSizes c = b.widthSizes d →
        a.extent c = b.extent d :=
      fun hc hcd hsizes => ih _ (ha.child_canonicalShape_lt hx hc) hcd hsizes rfl
    cases halike with
    | constantArray =>
      obtain ⟨rfl, hrest⟩ := List.cons_eq_cons.1 hsizes
      obtain ⟨hpaired, -⟩ := List.forall₂_cons.1 hall
      rw [ha.extent_constantArray hx, hb.extent_constantArray hy, helement (by simp [Shape.children]) hpaired hrest]
    | vector =>
      obtain ⟨hpaired, -⟩ := List.forall₂_cons.1 hall
      rw [ha.extent_vector hx, hb.extent_vector hy, helement (by simp [Shape.children]) hpaired hsizes]
    | incompleteArray | variableArray | prototype | noPrototype =>
      rw [ha.extent_eq, hb.extent_eq, hx, hy]
      rfl
    | builtin hext | complex hext | pointer hext | blockPointer hext | lvalueRef hext | rvalueRef hext
    | memberPointer hext | atomic hext => exact hsame hext
    | record _ _ _ _ _ hext _ | enum _ _ _ _ hext _ => exact hsame hext

/-- Paired types with layouts are aligned alike if arrays in vectors have the same sizes. -/
theorem Pairing.align_eq (hR : Pairing a b R) (ha : a.WellFormed) (hb : b.WellFormed)
    (h : R (a.canonical x) (b.canonical y)) (hsizes : a.alignSizes x = b.alignSizes y) (he : a.extent x = some e)
    (he' : b.extent y = some e') : e.align = e'.align := by
  induction hi : x.index using Nat.strong_induction_on generalizing x y e e' with
  | _ i ih =>
    subst hi
    -- An array is aligned like its elements; anything else has the same layout as its partner.
    have hsame : a.widthSizes x = b.widthSizes y → e.align = e'.align := by
      intro hwidth
      have hext := hR.extent_eq ha hb h hwidth
      rw [he, he'] at hext
      rw [Option.some.inj hext]
    obtain ⟨p, q, hp, hq, -, halike, hall⟩ := hR.alike h
    have hx := canonicalShape?_of_shape? hp
    have hy := canonicalShape?_of_shape? hq
    rw [widthSizes_eq ha, widthSizes_eq hb, hx, hy] at hsame
    cases halike with
    | @constantArray c d m n =>
      rw [ha.extent_constantArray hx] at he
      rw [hb.extent_constantArray hy] at he'
      rw [alignSizes_eq ha, alignSizes_eq hb, hx, hy] at hsizes
      obtain ⟨element, hc, he⟩ := Option.bind_eq_some_iff.1 he
      obtain ⟨element', hd, he'⟩ := Option.bind_eq_some_iff.1 he'
      obtain ⟨width, -, rfl⟩ := Option.map_eq_some_iff.1 he
      obtain ⟨width', -, rfl⟩ := Option.map_eq_some_iff.1 he'
      obtain ⟨hpaired, -⟩ := List.forall₂_cons.1 hall
      have halign : element.align = element'.align :=
        ih c.index (ha.child_canonicalShape_lt hx (by simp [Shape.children])) hpaired hsizes hc hd rfl
      exact halign
    | vector =>
      rw [alignSizes_eq ha, alignSizes_eq hb, hx, hy] at hsizes
      exact hsame hsizes
    | _ => exact hsame rfl

/-! ## Members of corresponding records -/

theorem Alike.incompleteArray_iff {s t : Site} {p q : Shape} (h : Alike s t p q) :
    (∃ c, p = .incompleteArray c) ↔ ∃ d, q = .incompleteArray d := by
  cases h <;> simp

/-- Members of paired types are aligned alike if arrays in vectors have the same sizes. -/
theorem Pairing.member_align_eq (hR : Pairing a b R) (ha : a.WellFormed) (hb : b.WellFormed)
    (h : R (a.canonical x) (b.canonical y)) (hsizes : a.alignSizes x = b.alignSizes y) (he : a.HasMemberExtent x e)
    (he' : b.HasMemberExtent y e') : e.align = e'.align := by
  obtain ⟨p, q, hp, hq, -, halike, hall⟩ := hR.alike h
  have hx := canonicalShape?_of_shape? hp
  have hy := canonicalShape?_of_shape? hq
  rcases he with he | ⟨c, f, hc, hf, rfl⟩
  · rcases he' with he' | ⟨d, -, hd, -⟩
    · exact hR.align_eq ha hb h hsizes he he'
    · obtain ⟨c, rfl⟩ := halike.incompleteArray_iff.2 ⟨d, Option.some.inj (hy.symm.trans hd)⟩
      rw [extent_incompleteArray hx] at he
      cases he
  · obtain rfl : p = .incompleteArray c := Option.some.inj (hx.symm.trans hc)
    obtain ⟨d, rfl⟩ := halike.incompleteArray_iff.1 ⟨c, rfl⟩
    rcases he' with he' | ⟨d', f', hd', hf', rfl⟩
    · rw [extent_incompleteArray hy] at he'
      cases he'
    · cases hy.symm.trans hd'
      obtain ⟨hpaired, -⟩ := List.forall₂_cons.1 hall
      rw [alignSizes_eq ha, alignSizes_eq hb, hx, hy] at hsizes
      have halign : f.align = f'.align := hR.align_eq ha hb hpaired hsizes hf hf'
      exact halign

/-- In front of the last member only complete types stand. By induction on how many stand in front. -/
theorem Pairing.take_extents (hR : Pairing a b R) (ha : a.WellFormed) (hb : b.WellFormed) {isUnion : Bool}
    {xs ys : List Ty} {es es' : List Extent} {i : Nat}
    (hpaired : List.Forall₂ (fun x y => R (a.canonical x) (b.canonical y)) xs ys) (hes : a.Sized isUnion xs es)
    (hes' : b.Sized isUnion ys es') (hi : i < xs.length)
    (hsizes : (xs.take i).map a.widthSizes = (ys.take i).map b.widthSizes) : es.take i = es'.take i := by
  induction i generalizing xs ys es es' with
  | zero => rfl
  | succ i ih =>
    cases hes with
    | nil => cases hi
    | flexible => exact absurd (Nat.lt_of_succ_lt_succ hi) (Nat.not_lt_zero i)
    | cons he hrest =>
      obtain ⟨y, ys, hhead, htail, rfl⟩ := List.forall₂_cons_left_iff.1 hpaired
      cases hes' with
      | flexible =>
        cases htail
        exact absurd (Nat.lt_of_succ_lt_succ hi) (Nat.not_lt_zero i)
      | cons he' hrest' =>
        obtain ⟨hsize, hsizes⟩ := List.cons_eq_cons.1 hsizes
        have hext := hR.extent_eq ha hb hhead hsize
        rw [he, he'] at hext
        rw [List.take_succ_cons, List.take_succ_cons, Option.some.inj hext,
          ih htail hrest hrest' (Nat.lt_of_succ_lt_succ hi) hsizes]

variable {id id' : RecordId} {d d' : RecordDecl} {xs ys : RecordBody}

/-- The members of paired records start at the same bit as long as the arrays in front of them have the same sizes. -/
theorem Pairing.offset_eq (hR : Pairing a b R) (ha : a.Built) (hb : b.Built) (hd : a.record? id = some d)
    (hd' : b.record? id' = some d') (hxs : d.body = some xs) (hys : d'.body = some ys) (htag : d.tag = d'.tag)
    (hpaired : List.Forall₂ (fun x y => R (a.canonical x) (b.canonical y)) (xs.members.map Member.type)
      (ys.members.map Member.type)) {i : Nat} {m m' : Member} (hm : xs.members[i]? = some m)
    (hm' : ys.members[i]? = some m')
    (hbefore : ((xs.members.map Member.type).take i).map a.widthSizes =
      ((ys.members.map Member.type).take i).map b.widthSizes)
    (halign : a.alignSizes m.type = b.alignSizes m'.type) : m.offset = m'.offset := by
  obtain ⟨es, hes, hstarts⟩ := ha.placed.sized hd hxs
  obtain ⟨es', hes', hstarts'⟩ := hb.placed.sized hd' hys
  rw [← htag] at hes' hstarts'
  have ht : (xs.members.map Member.type)[i]? = some m.type := by rw [List.getElem?_map, hm, Option.map_some]
  have ht' : (ys.members.map Member.type)[i]? = some m'.type := by rw [List.getElem?_map, hm', Option.map_some]
  obtain ⟨hlt, htype⟩ := List.getElem?_eq_some_iff.1 ht
  obtain ⟨hlt', htype'⟩ := List.getElem?_eq_some_iff.1 ht'
  have hpair : R (a.canonical m.type) (b.canonical m'.type) := htype ▸ htype' ▸ hpaired.get hlt hlt'
  obtain ⟨e, he⟩ : ∃ e, es[i]? = some e := ⟨_, List.getElem?_eq_getElem (hes.length_eq ▸ hlt)⟩
  obtain ⟨e', he'⟩ : ∃ e', es'[i]? = some e' := ⟨_, List.getElem?_eq_getElem (hes'.length_eq ▸ hlt')⟩
  have hfront := hR.take_extents ha.wellFormed hb.wellFormed hpaired hes hes' hlt hbefore
  have hmember := hR.member_align_eq ha.wellFormed hb.wellFormed hpair halign (hes.hasMemberExtent ht he)
    (hes'.hasMemberExtent ht' he')
  have hoffset : (starts (d.tag == .union) 0 es)[i]? = (starts (d.tag == .union) 0 es')[i]? :=
    starts_congr hfront he he' hmember
  rw [← hstarts, ← hstarts', List.getElem?_map, List.getElem?_map, hm, hm'] at hoffset
  exact Option.some.inj hoffset

/-- Corresponding records have the same tag and layout, and as many members. Those of unions all start at the first bit,
and those of others start at the same bit as long as the arrays in front of them have the same sizes. -/
theorem offsets_of_corresponds (ha : a.Built) (hb : b.Built) (h : corresponds a x b y = .ok true)
    (hx : a.recordOf? x = some (id, d)) (hy : b.recordOf? y = some (id', d')) (hxs : d.body = some xs)
    (hys : d'.body = some ys) :
    d.tag = d'.tag ∧ xs.extent = ys.extent ∧ xs.members.length = ys.members.length ∧
      (d.tag = .union → ∀ m, m ∈ xs.members ∨ m ∈ ys.members → m.offset = 0) ∧
      ∀ i m m', xs.members[i]? = some m → ys.members[i]? = some m' →
        ((xs.members.map Member.type).take i).map a.widthSizes =
          ((ys.members.map Member.type).take i).map b.widthSizes →
        a.alignSizes m.type = b.alignSizes m'.type → m.offset = m'.offset := by
  obtain ⟨R, hR, hpaired⟩ := pairing_of_corresponds h
  obtain ⟨hshape, hd⟩ := recordOf?_eq_some hx
  obtain ⟨hshape', hd'⟩ := recordOf?_eq_some hy
  obtain ⟨p, q, hp, hq, -, halike, hall⟩ := hR.alike hpaired
  cases hshape.symm.trans (canonicalShape?_of_shape? hp)
  cases hshape'.symm.trans (canonicalShape?_of_shape? hq)
  cases halike with
  | record hrecord hrecord' htag hbody hbody' hext hlength =>
    cases hd.symm.trans hrecord
    cases hd'.symm.trans hrecord'
    cases hxs.symm.trans hbody
    cases hys.symm.trans hbody'
    have hextent : a.extent (a.canonical x) = b.extent (b.canonical y) := hext.extent_eq
    rw [ha.wellFormed.extent_canonical, hb.wellFormed.extent_canonical, ha.wellFormed.extent_record hshape hd hxs,
      hb.wellFormed.extent_record hshape' hd' hys] at hextent
    simp only [compared, hd, hd', hxs, hys, Option.bind_some, Option.map_some, Option.getD_some] at hall
    refine ⟨htag, Option.some.inj hextent, hlength, fun hunion m hm => ?_, fun i m m' hm hm' =>
      hR.offset_eq ha hb hd hd' hxs hys htag hall hm hm'⟩
    rcases hm with hm | hm
    · exact ha.placed.offset_of_union hd hxs hunion hm
    · exact hb.placed.offset_of_union hd' hys (htag ▸ hunion) hm

/-- A number behind an array, in structs for targets with pointers of different sizes. -/
theorem offsets_of_corresponds_array :
    let first := (empty "a" .lp64).applyAll [.intern (.builtin .charS), .intern (.builtin .int), .nameType "letter" ⟨0⟩,
      .intern (.constantArray ⟨2⟩ 3), .declareRecord .struct "s",
      .completeRecord ⟨5⟩ [("head", ⟨4⟩), ("count", ⟨1⟩)]]
    let second := (empty "b" .ilp32).applyAll [.intern (.builtin .int), .intern (.builtin .charS),
      .intern (.constantArray ⟨1⟩ 3), .declareRecord .struct "t",
      .completeRecord ⟨3⟩ [("name", ⟨2⟩), ("length", ⟨0⟩)]]
    let xs : RecordBody := ⟨[⟨"head", ⟨4⟩, 0⟩, ⟨"count", ⟨1⟩, 32⟩], ⟨64, 32⟩⟩
    let ys : RecordBody := ⟨[⟨"name", ⟨2⟩, 0⟩, ⟨"length", ⟨0⟩, 32⟩], ⟨64, 32⟩⟩
    first.Built ∧ second.Built ∧ corresponds first ⟨5⟩ second ⟨3⟩ = .ok true ∧
      first.recordOf? ⟨5⟩ = some (⟨0⟩, ⟨.struct, "s", xs⟩) ∧ second.recordOf? ⟨3⟩ = some (⟨0⟩, ⟨.struct, "t", ys⟩) ∧
      ∀ m m', xs.members[1]? = some m → ys.members[1]? = some m' → m.offset = m'.offset := by
  intro first second xs ys
  have hfirst : first.Built := .inl ⟨"a", .lp64, _, by decide +kernel, rfl⟩
  have hsecond : second.Built := .inl ⟨"b", .ilp32, _, by decide +kernel, rfl⟩
  have hsame : corresponds first ⟨5⟩ second ⟨3⟩ = .ok true := by decide +kernel
  have hx : first.recordOf? ⟨5⟩ = some (⟨0⟩, ⟨.struct, "s", xs⟩) := by decide +kernel
  have hy : second.recordOf? ⟨3⟩ = some (⟨0⟩, ⟨.struct, "t", ys⟩) := by decide +kernel
  obtain ⟨-, -, -, -, hoffsets⟩ := offsets_of_corresponds hfirst hsecond hsame hx hy rfl rfl
  refine ⟨hfirst, hsecond, hsame, hx, hy, fun m m' hm hm' => hoffsets 1 m m' hm hm' (by decide +kernel) ?_⟩
  cases hm
  cases hm'
  decide +kernel

/-- Corresponding structs of two arrays each, the shorter one in front in the first and behind in the second. -/
theorem exists_offset_ne_of_corresponds : ¬∀ (a b : DeclUnit) (x y : Ty) (id id' : RecordId) (d d' : RecordDecl)
    (xs ys : RecordBody) (i : Nat) (m m' : Member), a.Built → b.Built → corresponds a x b y = .ok true →
    a.recordOf? x = some (id, d) → b.recordOf? y = some (id', d') → d.body = some xs → d'.body = some ys →
    xs.members[i]? = some m → ys.members[i]? = some m' → m.offset = m'.offset := by
  intro h
  let first := (empty "a" .lp64).applyAll [.intern (.builtin .charS), .intern (.constantArray ⟨0⟩ 1),
    .intern (.constantArray ⟨0⟩ 2), .declareRecord .struct "s", .completeRecord ⟨3⟩ [("p", ⟨1⟩), ("q", ⟨2⟩)]]
  let second := (empty "b" .lp64).applyAll [.intern (.builtin .charS), .intern (.constantArray ⟨0⟩ 2),
    .intern (.constantArray ⟨0⟩ 1), .declareRecord .struct "s", .completeRecord ⟨3⟩ [("p", ⟨1⟩), ("q", ⟨2⟩)]]
  have hfirst : first.Built := .inl ⟨"a", .lp64, _, by decide +kernel, rfl⟩
  have hsecond : second.Built := .inl ⟨"b", .lp64, _, by decide +kernel, rfl⟩
  have hx : first.recordOf? ⟨3⟩ =
      some (⟨0⟩, ⟨.struct, "s", some ⟨[⟨"p", ⟨1⟩, 0⟩, ⟨"q", ⟨2⟩, 8⟩], ⟨24, 8⟩⟩⟩) := by decide +kernel
  have hy : second.recordOf? ⟨3⟩ =
      some (⟨0⟩, ⟨.struct, "s", some ⟨[⟨"p", ⟨1⟩, 0⟩, ⟨"q", ⟨2⟩, 16⟩], ⟨24, 8⟩⟩⟩) := by decide +kernel
  have hoffset : 8 = 16 := h first second ⟨3⟩ ⟨3⟩ _ _ _ _ _ _ 1 ⟨"q", ⟨2⟩, 8⟩ ⟨"q", ⟨2⟩, 16⟩ hfirst hsecond
    (by decide +kernel) hx hy rfl rfl rfl rfl
  cases hoffset

end Correspondence
end Cognate
