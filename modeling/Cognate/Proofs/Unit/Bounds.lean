import Cognate.Proofs.Grammar.Words
import Cognate.Proofs.Unit.Extents

/-!
# Numbers of a unit

The numbers that a unit keeps fit the words they are kept in (`Bounded`): layouts and offsets words of 64 bits, enum
constants words of 128 bits, and positions are those of declared values. Each operation keeps it so, as long as vectors
are asked for that a declaration can write. On such a unit layouts are computed without overflow, and nothing is looked
up that is not there (`Bounded.measure_eq`).
-/

namespace Cognate

/-- Both numbers fit words of 64 bits. -/
def Extent.InWords (e : Extent) : Prop := e.width < wordLimit ∧ e.align < wordLimit

theorem Target.extent_inWords {target : Target} {b : Builtin} {e : Extent} (ht : target ∈ Target.presets)
    (he : target.extent b = some e) : e.InWords := by
  obtain ⟨hwidth, halign, -⟩ := Grammar.Target.extent_of_presets ht he
  have hlimit : 128 < wordLimit := by decide
  exact ⟨by omega, by omega⟩

theorem Target.pointer_inWords {target : Target} (ht : target ∈ Target.presets) : target.pointer.InWords := by
  have hall : ∀ target ∈ Target.presets, target.pointer.width < wordLimit ∧ target.pointer.align < wordLimit := by
    decide
  exact hall target ht

namespace DeclUnit

variable {u v : DeclUnit} {s : Shape} {t : Ty} {e : Extent} {name : String}

/-- A vector has elements of a builtin type, and a word of 32 bits holds their number. -/
def Packed (u : DeclUnit) : Shape → Prop
  | .vector element count _ => count < Nat.pow 2 32 ∧ ∃ b, u.builtinKind? element = some b
  | _ => True

/-- The stored layouts of all records fit words. -/
def StoredInWords (u : DeclUnit) : Prop :=
  ∀ id d body, u.record? id = some d → d.body = some body → body.extent.InWords

/-- Builtin types stand for themselves. -/
def Grounded (u : DeclUnit) : Prop := ∀ t n b, u.node? t = some n → n.shape = .builtin b → n.canonical = t

/-- All handles lead to something, and all numbers fit their words. -/
structure Bounded (u : DeclUnit) : Prop where
  target : u.target ∈ Target.presets
  closed : u.Closed
  grounded : u.Grounded
  packed : ∀ {t s}, u.shape? t = some s → u.Packed s
  bodies : ∀ {id d body}, u.record? id = some d → d.body = some body →
    body.extent.InWords ∧ ∀ m ∈ body.members, m.offset < wordLimit
  constants : ∀ {name value t}, u.constant? name = some (value, t) → Grammar.Fits value
  positions : ∀ {name position}, u.meaning? name = some (.value position) → position < u.values.size

theorem empty_bounded {target : Target} (ht : target ∈ Target.presets) : (empty name target).Bounded := by
  refine ⟨ht, empty_closed name target, ?_, ?_, ?_, ?_, ?_⟩ <;>
    simp [empty, Grounded, shape?, node?, record?, constant?, meaning?]

/-! ## Layouts -/

theorem word?_lt {n m : Nat} (h : word? n = some m) : m < wordLimit := by
  obtain ⟨rfl, hlt⟩ := word?_eq_some.1 h
  exact hlt

theorem repeat?_inWords {element : Extent} {count : Nat} (h : element.InWords) (he : element.repeat? count = some e) :
    e.InWords := by
  obtain ⟨width, hwidth, rfl⟩ := Option.map_eq_some_iff.1 he
  exact ⟨word?_lt hwidth, h.2⟩

theorem vector?_inWords {element : Extent} {count : Nat} (h : element.InWords) (he : element.vector? count = some e) :
    e.InWords := by
  obtain ⟨width, power, hwidth, hpower, rfl⟩ := Extent.vector?_eq_some.1 he
  exact ⟨word?_lt hwidth, max_lt (word?_lt hpower) h.2⟩

/-- One level of a layout, given layouts of the children that fit words. -/
theorem StoredInWords.extentOf (hu : u.StoredInWords) (ht : u.target ∈ Target.presets) {extent : Ty → Option Extent}
    (hm : ∀ c e, extent c = some e → e.InWords) (he : u.extentOf extent s = some e) : e.InWords := by
  cases s with
  | builtin b => exact Target.extent_inWords ht he
  | pointer | blockPointer | lvalueRef | rvalueRef | memberPointer | objcPointer | pipe =>
    cases he
    exact Target.pointer_inWords ht
  | complex element =>
    obtain ⟨e', he', hr⟩ := Option.bind_eq_some_iff.1 he
    exact repeat?_inWords (hm _ _ he') hr
  | constantArray element size =>
    obtain ⟨e', he', hr⟩ := Option.bind_eq_some_iff.1 he
    exact repeat?_inWords (hm _ _ he') hr
  | vector element count kind =>
    obtain ⟨e', he', hr⟩ := Option.bind_eq_some_iff.1 he
    exact vector?_inWords (hm _ _ he') hr
  | record id =>
    obtain ⟨body, hbody, rfl⟩ := Option.map_eq_some_iff.1 he
    obtain ⟨d, hd, hbody⟩ := Option.bind_eq_some_iff.1 hbody
    exact hu id d body hd hbody
  | enum id =>
    obtain ⟨body, -, he⟩ := Option.bind_eq_some_iff.1 he
    obtain ⟨b, -, he⟩ := Option.bind_eq_some_iff.1 he
    exact Target.extent_inWords ht he
  | typedef _ inner | qualified inner _ | atomic inner => exact hm inner e he
  | incompleteArray | variableArray | prototype | noPrototype | auto | deducedTemplate | objcObject | objcInterface =>
    cases he

theorem StoredInWords.measureWithin (hu : u.StoredInWords) (ht : u.target ∈ Target.presets) {fuel : Nat}
    (he : Extent.answered (u.measureWithin fuel t) = some e) : e.InWords := by
  induction fuel generalizing t e with
  | zero => cases he
  | succ fuel ih =>
    rw [measureWithin_succ, answered_measureShape] at he
    obtain ⟨s, -, he⟩ := Option.bind_eq_some_iff.1 he
    exact hu.extentOf ht (fun c e hc => ih hc) he

theorem StoredInWords.extent (hu : u.StoredInWords) (ht : u.target ∈ Target.presets) (he : u.extent t = some e) :
    e.InWords := hu.measureWithin ht he

theorem StoredInWords.memberExtent (hu : u.StoredInWords) (ht : u.target ∈ Target.presets) {isUnion isLast : Bool}
    (he : u.memberExtent isUnion isLast t = .ok (some e)) : e.InWords := by
  obtain he | ⟨-, -, element, e', -, he', rfl⟩ := memberExtent_cases he
  · exact hu.extent ht he
  · exact ⟨Nat.two_pow_pos 64, (hu.extent ht he').2⟩

/-- Placed members start within a word, and so does what is behind them end. -/
theorem StoredInWords.placeMembers (hu : u.StoredInWords) (ht : u.target ∈ Target.presets) {isUnion : Bool}
    {stop align : Nat} {fields : List (String × Ty)} {members : List Member} (halign : align < wordLimit)
    (h : u.placeMembers isUnion stop align fields = .ok (members, e)) :
    e.InWords ∧ ∀ m ∈ members, m.offset < wordLimit := by
  induction fields generalizing stop align members e with
  | nil =>
    unfold DeclUnit.placeMembers at h
    split at h
    · next width hwidth =>
      cases h
      exact ⟨⟨word?_lt hwidth, halign⟩, by simp⟩
    · cases h
  | cons field fields ih =>
    obtain ⟨name, type⟩ := field
    obtain ⟨e', offset, next, members', he, hoffset, -, hrest, rfl⟩ := placeMembers_cons_eq_ok h
    obtain ⟨hextent, hmembers⟩ := ih (max_lt halign (hu.memberExtent ht he).2) hrest
    refine ⟨hextent, fun m hm => ?_⟩
    rcases List.mem_cons.1 hm with rfl | hm
    · split_ifs at hoffset
      · cases hoffset
        exact Nat.two_pow_pos 64
      · exact word?_lt hoffset
    · exact hmembers m hm

theorem Bounded.stored (hu : u.Bounded) : u.StoredInWords := fun _ _ _ hd hb => (hu.bodies hd hb).1

theorem Bounded.extent_inWords (hu : u.Bounded) (he : u.extent t = some e) : e.InWords := hu.stored.extent hu.target he

/-! ## Interning -/

theorem Grounded.push (hu : u.Grounded) {k : Option Ty} (h : k = none ∨ ∀ b, s ≠ .builtin b) :
    (u.push s k).2.Grounded := by
  intro t n b hn hshape
  rcases push_cases hn with ⟨-, rfl⟩ | ho
  · rcases h with rfl | hne
    · rfl
    · exact absurd hshape (hne b)
  · exact hu t n b ho hshape

theorem Grounded.internFlat (hu : u.Grounded) (s : Shape) : (u.internFlat s).2.Grounded := by
  unfold DeclUnit.internFlat
  split
  · exact hu
  · exact hu.push (.inl rfl)

/-- Only sugar and shapes over sugar are interned with a canonical type. -/
theorem Grounded.intern (hu : u.Grounded) (s : Shape) : (u.intern s).2.Grounded := by
  cases hfind : u.find? s with
  | some t =>
    rw [intern_of_find? hfind]
    exact hu
  | none =>
    cases hsugar : s.isSugar with
    | true =>
      obtain ⟨c, hc⟩ := Shape.exists_child_of_isSugar hsugar
      rw [intern_of_sugar hfind hsugar (c := c) (by simp [hc])]
      exact hu.push (.inr fun b hb => by simp [hb, Shape.isSugar] at hsugar)
    | false =>
      by_cases hmap : s.map u.canonical = s
      · rw [intern_of_fixed hfind hsugar hmap]
        exact hu.push (.inl rfl)
      · rw [intern_of_flat hfind hsugar hmap]
        exact (hu.internFlat _).push (.inr fun b hb => hmap (by rw [hb, Shape.map]))

theorem Grounded.canonicalShape?_builtin (hu : u.Grounded) {b : Builtin} (h : u.shape? t = some (.builtin b)) :
    u.canonicalShape? t = some (.builtin b) := by
  obtain ⟨n, hn, hshape⟩ := shape?_eq_some.1 h
  rw [canonicalShape?_eq (contains_of_node? hn), canonical_of_node? hn, hu t n b hn hshape, h]

/-- What is behind the sugar of a builtin type is that builtin type. -/
theorem Bounded.builtinKind?_canonical (hu : u.Bounded) {b : Builtin} (h : u.builtinKind? t = some b) :
    u.builtinKind? (u.canonical t) = some b := by
  have hs := canonicalShape?_of_builtinKind? h
  rw [canonicalShape?_eq (contains_of_canonicalShape? hs)] at hs
  rw [builtinKind?, hu.grounded.canonicalShape?_builtin hs]

theorem Bounded.packed_canonical (hu : u.Bounded) (h : u.Packed s) : u.Packed (s.map u.canonical) := by
  cases s with
  | vector element count kind =>
    obtain ⟨hcount, b, hb⟩ := h
    exact ⟨hcount, b, hu.builtinKind?_canonical hb⟩
  | _ => trivial

theorem Packed.mono (h : u.Packed s) (he : u.Extends v) : v.Packed s := by
  cases s with
  | vector element count kind =>
    obtain ⟨hcount, b, hb⟩ := h
    exact ⟨hcount, b, he.builtinKind? hb⟩
  | _ => trivial

/-- What is interned is declared, and vectors are of builtin types. -/
theorem Bounded.intern (hu : u.Bounded) (hdeclared : u.Declared s) (hpacked : u.Packed s) :
    (u.intern s).2.Bounded := by
  have hframe := intern_frame u s
  have hext := intern_extends u s
  refine ⟨?_, hu.closed.intern hdeclared, hu.grounded.intern s, fun {t s'} hs => ?_, fun {id d body} hd => ?_,
    fun {name value t} hc => ?_, fun {name position} hm => ?_⟩
  · rw [hframe]
    exact hu.target
  · rcases intern_shapes hs with ho | rfl | ⟨-, rfl⟩
    · exact (hu.packed ho).mono hext
    · exact hpacked.mono hext
    · exact (hu.packed_canonical hpacked).mono hext
  · rw [hframe] at hd
    exact hu.bodies hd
  · rw [hframe] at hc
    exact hu.constants hc
  · rw [hframe] at hm ⊢
    exact hu.positions hm

theorem Bounded.qualify (hu : u.Bounded) (t : Ty) (q : Qualifiers) : (u.qualify t q).2.Bounded := by
  rcases u.qualify_or_intern t q with he | ⟨inner, p, he⟩
  · exact he.symm ▸ hu
  · exact he.symm ▸ hu.intern trivial trivial

/-! ## Records and enums -/

/-- A unit with the same nodes, and other records, enums or names: what is new in it has to fit. -/
theorem Bounded.of_nodes_eq (hu : u.Bounded) (hnodes : v.nodes = u.nodes) (htarget : v.target = u.target)
    (hclosed : v.Closed)
    (hbodies : ∀ {id d body}, v.record? id = some d → d.body = some body →
      (∃ d', u.record? id = some d' ∧ d'.body = some body) ∨
        body.extent.InWords ∧ ∀ m ∈ body.members, m.offset < wordLimit)
    (hconstants : ∀ {name value t}, v.constant? name = some (value, t) →
      u.constant? name = some (value, t) ∨ Grammar.Fits value)
    (hpositions : ∀ {name position}, v.meaning? name = some (.value position) → position < v.values.size) :
    v.Bounded := by
  have hnode : ∀ t, v.node? t = u.node? t := fun t => by rw [node?, hnodes, node?]
  refine ⟨htarget ▸ hu.target, hclosed, fun t n b hn => ?_, fun {t s} hs => ?_, fun hd hb => ?_, fun hc => ?_,
    hpositions⟩
  · exact hu.grounded t n b ((hnode t).symm.trans hn)
  · rw [shape?, hnode] at hs
    exact (hu.packed hs).mono (.of_nodes_eq hnodes)
  · rcases hbodies hd hb with ⟨d', hd', hb'⟩ | hn
    · exact hu.bodies hd' hb'
    · exact hn
  · rcases hconstants hc with ho | hn
    · exact hu.constants ho
    · exact hn

theorem Bounded.declareRecord (hu : u.Bounded) (tag : Tag) (name : Option String) :
    (u.declareRecord tag name).2.Bounded := by
  have hpush : Bounded { u with records := u.records.push ⟨tag, name, none⟩ } := by
    refine hu.of_nodes_eq rfl rfl (hu.closed.push_record tag name) (fun {id d body} hd hb => .inl ?_) .inl hu.positions
    simp only [record?, Array.getElem?_push] at hd
    split at hd
    · cases hd
      cases hb
    · exact ⟨d, hd, hb⟩
  exact hpush.intern ⟨⟨tag, name, none⟩, by simp [record?]⟩ trivial

theorem Bounded.declareEnum (hu : u.Bounded) (name : Option String) : (u.declareEnum name).2.Bounded := by
  have hpush : Bounded { u with enums := u.enums.push ⟨name, none⟩ } :=
    hu.of_nodes_eq rfl rfl (hu.closed.push_enum name) (fun hd hb => .inl ⟨_, hd, hb⟩) .inl hu.positions
  exact hpush.intern ⟨⟨name, none⟩, by simp [enum?]⟩ trivial

theorem Bounded.completeRecord (hu : u.Bounded) {fields : List (String × Ty)}
    (h : u.completeRecord t fields = (.ok (), v)) : v.Bounded := by
  have hclosed := hu.closed.completeRecord h
  obtain ⟨id, d, members, extent, hof, -, hplaced, rfl⟩ := completeRecord_eq_ok h
  have hid := (recordOf?_eq_some hof).2
  refine hu.of_nodes_eq rfl rfl hclosed (fun {id' d' body} hd hb => ?_) .inl hu.positions
  rw [record?_set hid] at hd
  split at hd
  · cases hd
    cases hb
    exact .inr (hu.stored.placeMembers hu.target (by decide) hplaced)
  · exact .inl ⟨d', hd, hb⟩

theorem Bounded.completeEnum (hu : u.Bounded) {base : Ty} {constants : List (String × Int)}
    (h : u.completeEnum t base constants = (.ok (), v)) : v.Bounded := by
  have hclosed := hu.closed.completeEnum h
  obtain ⟨id, d, b, enumerators, -, -, -, rfl⟩ := completeEnum_eq_ok h
  exact hu.of_nodes_eq rfl rfl hclosed (fun hd hb => .inl ⟨_, hd, hb⟩) .inl hu.positions

/-! ## Names -/

/-- Binding a name to a constant that fits, to a declared value, or to a type. -/
theorem Bounded.bind (hu : u.Bounded) {m : Meaning} (hconstant : ∀ value t, m = .constant value t → Grammar.Fits value)
    (hposition : ∀ position, m = .value position → position < u.values.size) : (u.bind name m).Bounded := by
  refine hu.of_nodes_eq rfl rfl (hu.closed.of_sameGraph ⟨rfl, rfl, rfl, rfl⟩) (fun hd hb => .inl ⟨_, hd, hb⟩)
    (fun {other value t} hc => ?_) (fun {other position} hm => ?_)
  · rw [constant?_eq_some, meaning?_bind] at hc
    split at hc
    · exact .inr (hconstant value t (Option.some.inj hc))
    · exact .inl (constant?_eq_some.2 hc)
  · rw [meaning?_bind] at hm
    split at hm
    · exact hposition position (Option.some.inj hm)
    · exact hu.positions hm

theorem Bounded.defineTag (hu : u.Bounded) (h : u.defineTag name t = (.ok (), v)) : v.Bounded := by
  have hclosed := hu.closed.of_sameGraph (defineTag_sameGraph h)
  obtain ⟨-, rfl⟩ := defineTag_eq_ok h
  exact hu.of_nodes_eq rfl rfl hclosed (fun hd hb => .inl ⟨_, hd, hb⟩) .inl hu.positions

theorem Bounded.defineConstant (hu : u.Bounded) {value : Int} (hvalue : Grammar.Fits value)
    (h : u.defineConstant name value t = (.ok (), v)) : v.Bounded := by
  obtain ⟨-, rfl⟩ := defineConstant_eq_ok h
  refine hu.bind ?_ (by simp)
  rintro _ _ ⟨⟩
  exact hvalue

theorem Bounded.defineTypedef (hu : u.Bounded) (name : String) (t : Ty) : (u.defineTypedef name t).2.Bounded := by
  have hintern : (u.intern (.typedef name t)).2.Bounded := hu.intern trivial trivial
  rcases defineTypedef_cases u name t with ⟨-, he⟩ | he
  · rw [he]
    exact hintern.bind (by simp) (by simp)
  · rw [he]
    exact hintern

theorem Bounded.declareValue (hu : u.Bounded) (h : u.declareValue name t = (.ok (), v)) : v.Bounded := by
  have hvalues : ∀ values : Array ValueDecl, u.values.size ≤ values.size → Bounded { u with values } :=
    fun values hle => hu.of_nodes_eq rfl rfl (hu.closed.of_sameGraph ⟨rfl, rfl, rfl, rfl⟩)
      (fun hd hb => .inl ⟨_, hd, hb⟩) .inl fun hm => (hu.positions hm).trans_le hle
  obtain ⟨-, rfl⟩ | ⟨i, d, -, -, rfl | ⟨-, rfl⟩⟩ := declareValue_eq_ok h
  · refine (hvalues _ (by simp)).bind (by simp) ?_
    rintro _ ⟨⟩
    simp
  · exact hu
  · exact hvalues _ (by simp)

/-! ## Layouts without a stop -/

/-- A vector that a declaration writes has far fewer bits than a word counts, and so has the power of two above it. -/
theorem vector_eq_ok {element : Extent} {count : Nat} (hwidth : element.width ≤ 128) (hcount : count < Nat.pow 2 32) :
    element.vector count = .ok (element.vector? count) := by
  have hbits : element.width * count ≤ 128 * 2 ^ 32 := Nat.mul_le_mul hwidth hcount.le
  have hword : word? (element.width * count) = some (element.width * count) :=
    word?_eq_some.2 ⟨rfl, hbits.trans_lt (by decide)⟩
  have hpower : ceilPowerOfTwo (element.width * count) < wordLimit := by
    unfold ceilPowerOfTwo
    split
    · decide
    · next hn =>
      have hlog : Nat.log2 (element.width * count - 1) < 63 := (Nat.log2_lt (by omega)).2 (by omega)
      exact Nat.pow_lt_pow_right (by decide) (by omega)
  have hfits : word? (ceilPowerOfTwo (element.width * count)) = some (ceilPowerOfTwo (element.width * count)) :=
    word?_eq_some.2 ⟨rfl, hpower⟩
  rw [Extent.vector?, Extent.vector, hword]
  dsimp only
  rw [hfits]
  rfl

/-- One level, given that no child stops, and that what is measured for a builtin type is its layout if anything. -/
theorem Bounded.measureOf (hu : u.Bounded) {measure : Ty → Except Overflow (Option Extent)} (hpacked : u.Packed s)
    (hchildren : ∀ c ∈ s.children, measure c = .ok (Extent.answered (measure c)))
    (hbuiltin : ∀ c b e, u.builtinKind? c = some b → measure c = .ok (some e) → u.target.extent b = some e) :
    u.measureOf measure s = .ok (u.extentOf (fun c => Extent.answered (measure c)) s) := by
  cases s with
  | complex element | constantArray element size =>
    simp only [DeclUnit.measureOf, extentOf]
    rw [hchildren element (by simp [Shape.children])]
    rfl
  | vector element count kind =>
    obtain ⟨hcount, b, hb⟩ := hpacked
    simp only [DeclUnit.measureOf, extentOf]
    rw [hchildren element (by simp [Shape.children])]
    cases he : Extent.answered (measure element) with
    | none => rfl
    | some e =>
      have hextent := hbuiltin element b e hb (Extent.answered_eq_some.1 he)
      exact vector_eq_ok (Grammar.Target.extent_of_presets hu.target hextent).1 hcount
  | typedef _ inner | qualified inner _ | atomic inner => exact hchildren inner (by simp [Shape.children])
  | _ => rfl

theorem exists_shape_of_canonicalShape? (h : u.canonicalShape? t = some s) : ∃ t, u.shape? t = some s :=
  ⟨_, (canonicalShape?_eq (contains_of_canonicalShape? h)).symm.trans h⟩

/-- On a bounded unit measuring a type never stops, through any number of levels. -/
theorem Bounded.measureWithin_eq (hu : u.Bounded) (fuel : Nat) (t : Ty) :
    u.measureWithin fuel t = .ok (Extent.answered (u.measureWithin fuel t)) := by
  induction fuel generalizing t with
  | zero => rfl
  | succ fuel ih =>
    rw [measureWithin_succ, answered_measureShape]
    cases hs : u.canonicalShape? t with
    | none => rfl
    | some s =>
      obtain ⟨t', hshape⟩ := exists_shape_of_canonicalShape? hs
      refine hu.measureOf (hu.packed hshape) (fun c _ => ih c) fun c b e hb he => ?_
      cases fuel with
      | zero => cases he
      | succ fuel =>
        rw [measureWithin_builtin hb] at he
        exact Except.ok.inj he

theorem Bounded.measure_eq (hu : u.Bounded) (t : Ty) : u.measure t = .ok (u.extent t) := hu.measureWithin_eq _ t

/-- The definition leaves a bounded unit, and does not stop. -/
def LeavesBounded {α : Type} (r : Except TypeFault α × DeclUnit) : Prop := r.2.Bounded ∧ r.1 ≠ .error .stopped

/-- What an accepted definition leaves is bounded, and a refused one leaves all as it was. -/
theorem AllOrNothing.leavesBounded {r : Except TypeFault Unit × DeclUnit} (h : u.AllOrNothing r) (hu : u.Bounded)
    (hv : ∀ v, r = (.ok (), v) → v.Bounded) (hstop : r.1 ≠ .error .stopped) : LeavesBounded r :=
  ⟨h.cases hu hv, hstop⟩

theorem Bounded.memberExtent_ne_error (hu : u.Bounded) (isUnion isLast : Bool) (t : Ty) (o : Overflow) :
    u.memberExtent isUnion isLast t ≠ .error o := by
  unfold DeclUnit.memberExtent flexibleExtent
  rw [hu.measure_eq]
  cases u.extent t with
  | some e => exact fun h => by cases h
  | none =>
    split
    · rw [hu.measure_eq]
      exact fun h => by cases h
    · exact fun h => by cases h

theorem Bounded.placeMembers_ne_stopped (hu : u.Bounded) (isUnion : Bool) (stop align : Nat)
    (fields : List (String × Ty)) : u.placeMembers isUnion stop align fields ≠ .error .stopped := by
  induction fields generalizing stop align with
  | nil =>
    unfold DeclUnit.placeMembers
    split <;> simp
  | cons field fields ih =>
    unfold DeclUnit.placeMembers
    split
    · next h => exact (hu.memberExtent_ne_error _ _ _ _ h).elim
    · simp
    · split
      · simp
      · split
        · simp
        · split
          · next h =>
            rw [← h]
            exact ih _ _
          · simp

theorem Bounded.completeRecord_leaves (hu : u.Bounded) (t : Ty) (fields : List (String × Ty)) :
    LeavesBounded (u.completeRecord t fields) := by
  refine (u.completeRecord_allOrNothing t fields).leavesBounded hu (fun _ => hu.completeRecord) ?_
  unfold DeclUnit.completeRecord
  split
  · simp
  · split
    · simp
    · split
      · simp
      · simp
      · next h => exact (hu.placeMembers_ne_stopped _ _ _ _ h).elim
      · simp

theorem Bounded.completeEnum_leaves (hu : u.Bounded) (t base : Ty) (constants : List (String × Int)) :
    LeavesBounded (u.completeEnum t base constants) := by
  refine (u.completeEnum_allOrNothing t base constants).leavesBounded hu (fun _ => hu.completeEnum) ?_
  unfold DeclUnit.completeEnum
  rw [hu.measure_eq]
  split
  · simp
  · split
    · simp
    · split
      · next h => cases h
      · simp
      · simp

theorem Bounded.defineTag_leaves (hu : u.Bounded) (name : String) (t : Ty) : LeavesBounded (u.defineTag name t) := by
  refine (u.defineTag_allOrNothing name t).leavesBounded hu (fun _ => hu.defineTag) ?_
  unfold DeclUnit.defineTag
  split <;> simp

theorem Bounded.defineConstant_leaves (hu : u.Bounded) {value : Int} (hvalue : Grammar.Fits value) (name : String)
    (t : Ty) : LeavesBounded (u.defineConstant name value t) := by
  refine (u.defineConstant_allOrNothing name value t).leavesBounded hu (fun _ => hu.defineConstant hvalue) ?_
  unfold DeclUnit.defineConstant defineName
  split <;> simp

theorem Bounded.declareValue_leaves (hu : u.Bounded) (name : String) (t : Ty) :
    LeavesBounded (u.declareValue name t) := by
  refine (u.declareValue_allOrNothing name t).leavesBounded hu (fun _ => hu.declareValue) ?_
  unfold DeclUnit.declareValue defineName
  split
  · split <;> simp
  · split
    · simp
    · split_ifs <;> simp
  · simp

theorem Bounded.defineTypedef_leaves (hu : u.Bounded) (name : String) (t : Ty) :
    LeavesBounded (u.defineTypedef name t) := by
  refine ⟨hu.defineTypedef name t, ?_⟩
  unfold DeclUnit.defineTypedef bindTypedef
  dsimp only
  split
  · simp
  · split <;> simp
  · simp

/-! ## Layouts, step by step -/

namespace Machine

/-- `measureOf`, stopping also at a record or enum that is not there. -/
def measureOf (u : DeclUnit) (measure : Ty → Option (Option Extent)) : Shape → Option (Option Extent)
  | .builtin b => some (u.target.extent b)
  | .complex element => (measure element).map (·.bind (·.repeat? 2))
  | .pointer _ | .blockPointer _ | .lvalueRef _ | .rvalueRef _ | .memberPointer _ _ | .objcPointer _
  | .pipe _ => some (some u.target.pointer)
  | .constantArray element size => (measure element).map (·.bind (·.repeat? size))
  | .vector element count _ => do
    match ← measure element with
    | none => return none
    | some e => (e.vector count).toOption
  | .record id => (u.record? id).map fun d => d.body.map RecordBody.extent
  | .enum id => do
    match (← u.enum? id).body with
    | none => return none
    | some body => measure body.base
  | .typedef _ inner | .qualified inner _ | .atomic inner => measure inner
  | .incompleteArray _ | .variableArray _ | .prototype _ _ _ _ | .noPrototype _ _ | .auto
  | .deducedTemplate | .objcObject | .objcInterface => some none

/-- `measureWithin`, stopping also at a canonical type that is not there, and where the levels do not suffice. -/
def measureWithin (u : DeclUnit) : Nat → Ty → Option (Option Extent)
  | 0, _ => none
  | fuel + 1, t =>
    match u.node? t with
    | none => some none
    | some n => do measureOf u (measureWithin u fuel) (← u.node? n.canonical).shape

/-- Layout of a type; the integer type of an enum takes one more level. -/
def measure (u : DeclUnit) (t : Ty) : Option (Option Extent) := measureWithin u (t.index + 2) t

end Machine

theorem Machine.measureWithin_succ (hu : u.WellFormed) (fuel : Nat) (t : Ty) :
    Machine.measureWithin u (fuel + 1) t =
      match u.canonicalShape? t with
      | none => some none
      | some s => Machine.measureOf u (Machine.measureWithin u fuel) s := by
  rw [Machine.measureWithin, canonicalShape?]
  cases hn : u.node? t with
  | none => rfl
  | some n =>
    have hcanonical := hu.contains_canonical (contains_of_node? hn)
    rw [canonical_of_node? hn] at hcanonical
    obtain ⟨c, hc⟩ := exists_node hcanonical
    simp [shape?, hc]

/-- One level, given that the children in front and all builtin types are measured without a stop. -/
theorem Bounded.machine_measureOf (hu : u.Bounded) {measure : Ty → Option (Option Extent)}
    (hdeclared : u.Declared s) (hchildren : ∀ c ∈ s.children, measure c = (u.measure c).toOption)
    (hbuiltin : ∀ c b, u.builtinKind? c = some b → measure c = some (u.target.extent b)) :
    Machine.measureOf u measure s = (u.measureOf u.measure s).toOption := by
  cases s with
  | complex element | constantArray element size =>
    simp only [Machine.measureOf, DeclUnit.measureOf, hchildren element (by simp [Shape.children])]
    cases u.measure element <;> rfl
  | vector element count kind =>
    simp only [Machine.measureOf, DeclUnit.measureOf, hchildren element (by simp [Shape.children])]
    rcases u.measure element with _ | _ | _ <;> rfl
  | record id =>
    obtain ⟨d, hd⟩ := hdeclared
    simp [Machine.measureOf, DeclUnit.measureOf, hd, Except.toOption]
  | enum id =>
    obtain ⟨d, hd⟩ := hdeclared
    simp only [Machine.measureOf, DeclUnit.measureOf, hd, Option.bind_eq_bind, Option.bind_some]
    cases hbody : d.body with
    | none => rfl
    | some body =>
      obtain ⟨b, hb⟩ := hu.closed.base hd hbody
      simp [hbuiltin _ b hb, hb, Except.toOption]
  | typedef _ inner | qualified inner _ | atomic inner => exact hchildren inner (by simp [Shape.children])
  | _ => rfl

theorem Machine.measureWithin_builtin (hu : u.WellFormed) {b : Builtin} (hb : u.builtinKind? t = some b) (fuel : Nat) :
    Machine.measureWithin u (fuel + 1) t = some (u.target.extent b) := by
  rw [Machine.measureWithin_succ hu, canonicalShape?_of_builtinKind? hb]
  rfl

/-- Nothing but a power that does not fit stops the measuring of a type, which a bounded unit excludes. -/
theorem Bounded.machine_measureWithin (hu : u.Bounded) (hw : u.WellFormed) {fuel : Nat} (h : t.index < fuel) :
    Machine.measureWithin u (fuel + 1) t = (u.measure t).toOption := by
  induction fuel generalizing t with
  | zero => exact absurd h (Nat.not_lt_zero _)
  | succ fuel ih =>
    rw [Machine.measureWithin_succ hw, hw.measure_eq]
    cases hs : u.canonicalShape? t with
    | none => rfl
    | some s =>
      have hshape : u.shape? (u.canonical t) = some s := by
        rw [← canonicalShape?_eq (contains_of_canonicalShape? hs), hs]
      refine hu.machine_measureOf (hu.closed.declared hshape) (fun c hc => ih ?_)
        fun c b hb => Machine.measureWithin_builtin hw hb fuel
      exact (hw.child_canonicalShape_lt hs hc).trans_le (Nat.le_of_lt_succ h)

theorem Bounded.machine_measure (hu : u.Bounded) (hw : u.WellFormed) (t : Ty) :
    Machine.measure u t = some (u.extent t) := by
  rw [Machine.measure, hu.machine_measureWithin hw (Nat.lt_succ_self _), hu.measure_eq]
  rfl

end DeclUnit
end Cognate
