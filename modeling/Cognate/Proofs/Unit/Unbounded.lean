import Cognate.Proofs.Readings.Texts
import Cognate.Proofs.Unit.Bodies
import Cognate.Proofs.Unit.Bounds
import Mathlib.Order.Bounds.Basic

/-!
# Layouts without a bound

The layout of a type over numbers without a bound, with all quantities that are computed on the way: `Lays`. Measuring
in words comes to that layout if all quantities fit a word. Otherwise the first that does not fit decides
(`measure_iff_lays`): widths are checked, and there is no layout then; the power of two that a vector is aligned to is
not, and measuring stops.
-/

namespace Cognate

/-- The shape of an address, whatever it leads to. -/
def Shape.isAddress : Shape → Bool
  | .pointer _ | .blockPointer _ | .lvalueRef _ | .rvalueRef _ | .memberPointer _ _ | .objcPointer _ | .pipe _ => true
  | _ => false

/-- The least power of two not below a number. -/
def LeastPower (n power : Nat) : Prop := IsLeast {p | n ≤ p ∧ ∃ k, p = 2 ^ k} power

theorem leastPower (n : Nat) : LeastPower n (ceilPowerOfTwo n) := by
  unfold ceilPowerOfTwo
  split
  · next hn =>
    refine ⟨⟨hn, 0, rfl⟩, ?_⟩
    rintro p ⟨-, k, rfl⟩
    exact Nat.one_le_two_pow
  · next hn =>
    have hne : n - 1 ≠ 0 := by omega
    refine ⟨⟨?_, _, rfl⟩, ?_⟩
    · have hlt : n - 1 < 2 ^ (Nat.log2 (n - 1) + 1) := Nat.lt_log2_self
      rw [Nat.pow_eq]
      omega
    · rintro p ⟨hle, k, rfl⟩
      have hlog : Nat.log2 (n - 1) < k := (Nat.log2_lt hne).2 (by omega)
      exact Nat.pow_le_pow_right (by decide) hlog

/-- A number that is computed for a layout. -/
inductive Quantity where
  /-- The width of a type made of elements. -/
  | width (n : Nat)
  /-- The power of two that a vector is aligned to. -/
  | power (n : Nat)

/-- The number fits a word. -/
def Quantity.fits : Quantity → Bool
  | width n | power n => decide (n < wordLimit)

namespace DeclUnit

/-- The layout of a type as written, and the quantities that are computed for it, in order. -/
inductive Lays (u : DeclUnit) : Ty → Extent → List Quantity → Prop
  | builtin {t : Ty} {b : Builtin} {e : Extent} (shape : u.shape? t = some (.builtin b))
      (extent : u.target.extent b = some e) : Lays u t e []
  | address {t : Ty} {s : Shape} (shape : u.shape? t = some s) (address : s.isAddress = true) :
      Lays u t u.target.pointer []
  | record {t : Ty} {id : RecordId} {d : RecordDecl} {body : RecordBody} (shape : u.shape? t = some (.record id))
      (declared : u.record? id = some d) (complete : d.body = some body) : Lays u t body.extent []
  | enum {t : Ty} {id : EnumId} {d : EnumDecl} {body : EnumBody} {e : Extent} {qs : List Quantity}
      (shape : u.shape? t = some (.enum id)) (declared : u.enum? id = some d) (complete : d.body = some body)
      (base : Lays u body.base e qs) : Lays u t e qs
  | typedef {t aliased : Ty} {name : String} {e : Extent} {qs : List Quantity}
      (shape : u.shape? t = some (.typedef name aliased)) (inner : Lays u aliased e qs) : Lays u t e qs
  | qualified {t bare : Ty} {q : Qualifiers} {e : Extent} {qs : List Quantity}
      (shape : u.shape? t = some (.qualified bare q)) (inner : Lays u bare e qs) : Lays u t e qs
  | atomic {t value : Ty} {e : Extent} {qs : List Quantity} (shape : u.shape? t = some (.atomic value))
      (inner : Lays u value e qs) : Lays u t e qs
  | complex {t part : Ty} {e : Extent} {qs : List Quantity} (shape : u.shape? t = some (.complex part))
      (each : Lays u part e qs) : Lays u t ⟨e.width * 2, e.align⟩ (qs ++ [.width (e.width * 2)])
  | constantArray {t element : Ty} {size : Nat} {e : Extent} {qs : List Quantity}
      (shape : u.shape? t = some (.constantArray element size)) (each : Lays u element e qs) :
      Lays u t ⟨e.width * size, e.align⟩ (qs ++ [.width (e.width * size)])
  | vector {t element : Ty} {count power : Nat} {kind : VectorKind} {e : Extent} {qs : List Quantity}
      (shape : u.shape? t = some (.vector element count kind)) (each : Lays u element e qs)
      (least : LeastPower (e.width * count) power) :
      Lays u t ⟨e.width * count, max power e.align⟩ (qs ++ [.width (e.width * count), .power power])

variable {u : DeclUnit} {t : Ty} {e : Extent} {qs : List Quantity}

/-- A type has one layout at most. -/
theorem Lays.unique {e' : Extent} {qs' : List Quantity} (h : u.Lays t e qs) (h' : u.Lays t e' qs') :
    e = e' ∧ qs = qs' := by
  induction h generalizing e' qs' with
  | vector shape _ least ih =>
    cases h' with
    | vector shape' each' least' =>
      cases shape.symm.trans shape'
      obtain ⟨rfl, rfl⟩ := ih each'
      obtain rfl := least.unique least'
      exact ⟨rfl, rfl⟩
    | _ => grind [Shape.isAddress]
  | _ => cases h' <;> grind [Shape.isAddress]

/-! ## In words -/

/-- The first quantity that does not fit a word. -/
def firstUnfit (qs : List Quantity) : Option Quantity := qs.find? fun q => !q.fits

theorem firstUnfit_eq_none : firstUnfit qs = none ↔ ∀ q ∈ qs, q.fits = true := by
  simp [firstUnfit]

/-- What measuring in words makes of a layout: the first quantity that does not fit decides. -/
def inWords (e : Extent) (qs : List Quantity) : Except Overflow (Option Extent) :=
  match firstUnfit qs with
  | none => .ok (some e)
  | some (.width _) => .ok none
  | some (.power _) => .error .overflow

theorem inWords_nil (e : Extent) : inWords e [] = .ok (some e) := rfl

theorem inWords_eq_some {e' : Extent} : inWords e qs = .ok (some e') ↔ e = e' ∧ firstUnfit qs = none := by
  unfold inWords
  rcases firstUnfit qs with _ | n | n <;> simp

theorem inWords_eq_none : inWords e qs = .ok none ↔ ∃ n, firstUnfit qs = some (.width n) := by
  unfold inWords
  rcases firstUnfit qs with _ | n | n <;> simp

theorem inWords_eq_error : inWords e qs = .error .overflow ↔ ∃ n, firstUnfit qs = some (.power n) := by
  unfold inWords
  rcases firstUnfit qs with _ | n | n <;> simp

/-- A step from a layout counts if all quantities before it fit. -/
theorem inWords_append {e' : Extent} {qs' : List Quantity} {f : Extent → Except Overflow (Option Extent)}
    (h : f e = inWords e' qs') :
    (do
      match ← inWords e qs with
      | none => return none
      | some e => f e) = inWords e' (qs ++ qs') := by
  unfold inWords firstUnfit at h ⊢
  rw [List.find?_append]
  cases qs.find? fun q => !q.fits with
  | none => exact h
  | some q => cases q <;> rfl

theorem repeat?_eq_inWords (e : Extent) (count : Nat) :
    .ok (e.repeat? count) = inWords ⟨e.width * count, e.align⟩ [.width (e.width * count)] := by
  by_cases h : e.width * count < wordLimit <;>
    simp [Extent.repeat?, word?, inWords, firstUnfit, Quantity.fits, h, List.find?]

/-- Widths of elements, without a stop of their own. -/
theorem inWords_append_repeat? (e : Extent) (qs : List Quantity) (count : Nat) :
    (do return (← inWords e qs).bind (·.repeat? count)) =
      inWords ⟨e.width * count, e.align⟩ (qs ++ [.width (e.width * count)]) := by
  rw [← inWords_append (f := fun e => .ok (e.repeat? count)) (repeat?_eq_inWords e count)]
  rcases inWords e qs with _ | _ | _ <;> rfl

theorem vector_eq_inWords {count power : Nat} (h : LeastPower (e.width * count) power) :
    e.vector count =
      inWords ⟨e.width * count, max power e.align⟩ [.width (e.width * count), .power power] := by
  obtain rfl := h.unique (leastPower _)
  by_cases hwidth : e.width * count < wordLimit
  · by_cases hpower : ceilPowerOfTwo (e.width * count) < wordLimit <;>
      simp [Extent.vector, word?, inWords, firstUnfit, Quantity.fits, hwidth, hpower, List.find?]
  · simp [Extent.vector, word?, inWords, firstUnfit, Quantity.fits, hwidth, List.find?]

theorem measureOf_address {s : Shape} {measure : Ty → Except Overflow (Option Extent)} (h : s.isAddress = true) :
    u.measureOf measure s = .ok u.target.pointer := by
  cases s <;> first | rfl | cases h

/-- The integer type of an enum has the layout of the builtin type that it stands for. -/
theorem Closed.measure_enum (hc : u.Closed) {id : EnumId} {d : EnumDecl} {body : EnumBody}
    {measure : Ty → Except Overflow (Option Extent)} (hd : u.enum? id = some d) (hb : d.body = some body) :
    u.measureOf measure (.enum id) = u.measure body.base := by
  obtain ⟨b, hbase⟩ := hc.base hd hb
  rw [measureOf, hd, Option.bind_some, hb, Option.bind_some, hbase, Option.bind_some, DeclUnit.measure,
    measureWithin_builtin hbase]

/-- By induction on the computation, one case for each kind of type. -/
theorem Lays.measure_eq (h : u.Lays t e qs) (hu : u.WellFormed) (hc : u.Closed) : u.measure t = inWords e qs := by
  induction h with
  | builtin shape extent =>
    rw [hu.measure_shape shape, measureOf, extent, inWords_nil]
  | address shape address =>
    rw [hu.measure_shape shape, measureOf_address address, inWords_nil]
  | record shape declared complete =>
    rw [hu.measure_shape shape, measureOf, declared, Option.bind_some, complete, Option.map_some, inWords_nil]
  | enum shape declared complete _ ih =>
    rw [hu.measure_shape shape, hc.measure_enum declared complete]
    exact ih
  | typedef shape _ ih | qualified shape _ ih | atomic shape _ ih =>
    rw [hu.measure_shape shape]
    exact ih
  | complex shape _ ih | constantArray shape _ ih =>
    rw [hu.measure_shape shape, measureOf, ih, inWords_append_repeat?]
  | vector shape _ least ih =>
    rw [hu.measure_shape shape, measureOf, ih]
    exact inWords_append (f := fun e => e.vector _) (vector_eq_inWords least)

/-- A layout of quantities that fit fits. -/
theorem Lays.inWords (h : u.Lays t e qs) (hs : u.StoredInWords) (ht : u.target ∈ Target.presets)
    (hfits : ∀ q ∈ qs, q.fits = true) : e.InWords := by
  induction h with
  | builtin _ extent => exact Target.extent_inWords ht extent
  | address => exact Target.pointer_inWords ht
  | record _ declared complete => exact hs _ _ _ declared complete
  | enum _ _ _ _ ih | typedef _ _ ih | qualified _ _ ih | atomic _ _ ih => exact ih hfits
  | complex _ _ ih | constantArray _ _ ih =>
    obtain ⟨hinner, hwidth⟩ := List.forall_mem_append.1 hfits
    exact ⟨of_decide_eq_true (hwidth _ List.mem_cons_self), (ih hinner).2⟩
  | vector _ _ _ ih =>
    obtain ⟨hinner, hown⟩ := List.forall_mem_append.1 hfits
    obtain ⟨hwidth, hpower⟩ := List.forall_mem_cons.1 hown
    exact ⟨of_decide_eq_true hwidth, max_lt (of_decide_eq_true (hpower _ List.mem_cons_self)) (ih hinner).2⟩

/-- A builtin type behind any sugar is laid out like itself. -/
theorem lays_of_builtinKind? (hu : u.WellFormed) {b : Builtin} (hb : u.builtinKind? t = some b)
    (he : u.target.extent b = some e) : u.Lays t e [] := by
  induction hi : t.index using Nat.strong_induction_on generalizing t with
  | _ i ih =>
    subst hi
    have hcanonical := canonicalShape?_of_builtinKind? hb
    obtain ⟨s, hs⟩ := exists_shape (contains_of_builtinKind? hb)
    cases hsugar : s.isSugar with
    | true =>
      have hinner : ∀ {c}, c ∈ s.children → u.Lays c e [] := fun hc => by
        refine ih _ (hu.child_lt hs hc) ?_ rfl
        rw [builtinKind?, ← hu.canonicalShape?_sugar hs hsugar hc, hcanonical]
      cases s with
      | typedef name aliased => exact .typedef hs (hinner (by simp [Shape.children]))
      | qualified bare q => exact .qualified hs (hinner (by simp [Shape.children]))
      | _ => cases hsugar
    | false =>
      rw [hu.canonicalShape?_flat hs hsugar] at hcanonical
      cases s with
      | builtin b' =>
        cases hcanonical
        exact .builtin hs he
      | _ => cases hcanonical

/-- Measuring that does not come to nothing starts from a layout. By induction on the position of a type; the integer
type of an enum may stand further on, but is a builtin type. -/
theorem exists_lays (hu : u.WellFormed) (hm : u.measure t ≠ .ok none) : ∃ e qs, u.Lays t e qs := by
  induction hi : t.index using Nat.strong_induction_on generalizing t with
  | _ i ih =>
    subst hi
    obtain ⟨s, hs⟩ := exists_shape (Bool.of_not_eq_false fun hc => hm (measure_of_not_contains hc))
    rw [hu.measure_shape hs] at hm
    have hchild : ∀ {c}, c ∈ s.children → u.measure c ≠ .ok none → ∃ e qs, u.Lays c e qs :=
      fun hc hm => ih _ (hu.child_lt hs hc) hm rfl
    cases s with
    | builtin b =>
      obtain ⟨e, he⟩ := Option.ne_none_iff_exists'.1 fun hnone => hm (congrArg Except.ok hnone)
      exact ⟨e, [], .builtin hs he⟩
    | pointer | blockPointer | lvalueRef | rvalueRef | memberPointer | objcPointer | pipe =>
      exact ⟨_, [], .address hs rfl⟩
    | record id =>
      obtain ⟨e, he⟩ := Option.ne_none_iff_exists'.1 fun hnone => hm (congrArg Except.ok hnone)
      obtain ⟨body, hbody, -⟩ := Option.map_eq_some_iff.1 he
      obtain ⟨d, hd, hb⟩ := Option.bind_eq_some_iff.1 hbody
      exact ⟨_, [], .record hs hd hb⟩
    | enum id =>
      obtain ⟨e, he⟩ := Option.ne_none_iff_exists'.1 fun hnone => hm (congrArg Except.ok hnone)
      obtain ⟨body, hbody, he⟩ := Option.bind_eq_some_iff.1 he
      obtain ⟨d, hd, hb⟩ := Option.bind_eq_some_iff.1 hbody
      obtain ⟨b, hkind, he⟩ := Option.bind_eq_some_iff.1 he
      exact ⟨e, [], .enum hs hd hb (lays_of_builtinKind? hu hkind he)⟩
    | typedef name aliased =>
      obtain ⟨e, qs, h⟩ := hchild (by simp [Shape.children]) hm
      exact ⟨e, qs, .typedef hs h⟩
    | qualified bare q =>
      obtain ⟨e, qs, h⟩ := hchild (by simp [Shape.children]) hm
      exact ⟨e, qs, .qualified hs h⟩
    | atomic value =>
      obtain ⟨e, qs, h⟩ := hchild (by simp [Shape.children]) hm
      exact ⟨e, qs, .atomic hs h⟩
    | complex part =>
      obtain ⟨e, qs, h⟩ := hchild (c := part) (by simp [Shape.children]) fun hnone => hm (by rw [measureOf, hnone]; rfl)
      exact ⟨_, _, .complex hs h⟩
    | constantArray element size =>
      obtain ⟨e, qs, h⟩ := hchild (c := element) (by simp [Shape.children]) fun hnone =>
        hm (by rw [measureOf, hnone]; rfl)
      exact ⟨_, _, .constantArray hs h⟩
    | vector element count kind =>
      obtain ⟨e, qs, h⟩ := hchild (c := element) (by simp [Shape.children]) fun hnone =>
        hm (by rw [measureOf, hnone]; rfl)
      exact ⟨_, _, .vector hs h (leastPower _)⟩
    | _ => exact absurd rfl hm

/-! ## Every unit -/

theorem Built.storedInWords (h : u.Built) (ht : u.target ∈ Target.presets) : u.StoredInWords := by
  refine h.induct (P := fun u => u.target ∈ Target.presets → u.StoredInWords) (fun name target _ id d body hd => ?_)
    (fun {v op} hv hop id d body hd hb => ?_) ht
  · simp [record?, empty] at hd
  · rw [(apply_retains v op).target] at hop
    rcases apply_body hd hb with hold | ⟨fields, hplaced⟩
    · exact hv hop id d body hold hb
    · exact ((hv hop).placeMembers hop (by decide) hplaced).1

/-- A type is measured with a layout exactly if it has it and all quantities fit a word; no layout is answered exactly
if it has none or the first quantity that does not fit is a width; and measuring stops exactly if that is the power of
two of a vector. What is answered fits. -/
theorem measure_iff_lays (h : u.Built) (ht : u.target ∈ Target.presets) (t : Ty) :
    (∀ e, u.measure t = .ok (some e) ↔ ∃ qs, u.Lays t e qs ∧ ∀ q ∈ qs, q.fits = true) ∧
      (u.measure t = .ok none ↔ ∀ e qs, u.Lays t e qs → ∃ n, firstUnfit qs = some (.width n)) ∧
      (u.measure t = .error .overflow ↔ ∃ e qs, u.Lays t e qs ∧ ∃ n, firstUnfit qs = some (.power n)) ∧
      ∀ e, u.measure t = .ok (some e) → e.InWords := by
  have hmeasure : ∀ {e qs}, u.Lays t e qs → u.measure t = inWords e qs :=
    fun hlays => hlays.measure_eq h.wellFormed h.closed
  have hfound : ∀ e, u.measure t = .ok (some e) → ∃ qs, u.Lays t e qs ∧ ∀ q ∈ qs, q.fits = true := by
    intro e he
    obtain ⟨e', qs, hlays⟩ := exists_lays h.wellFormed (t := t) (by simp [he])
    obtain ⟨rfl, hfits⟩ := inWords_eq_some.1 ((hmeasure hlays).symm.trans he)
    exact ⟨qs, hlays, firstUnfit_eq_none.1 hfits⟩
  refine ⟨fun e => ⟨hfound e, ?_⟩, ⟨fun hnone e qs hlays => ?_, fun hall => ?_⟩, ⟨fun hstop => ?_, ?_⟩, fun e he => ?_⟩
  · rintro ⟨qs, hlays, hfits⟩
    exact (hmeasure hlays).trans (inWords_eq_some.2 ⟨rfl, firstUnfit_eq_none.2 hfits⟩)
  · exact inWords_eq_none.1 ((hmeasure hlays).symm.trans hnone)
  · by_contra hne
    obtain ⟨e, qs, hlays⟩ := exists_lays h.wellFormed hne
    exact hne ((hmeasure hlays).trans (inWords_eq_none.2 (hall e qs hlays)))
  · obtain ⟨e, qs, hlays⟩ := exists_lays h.wellFormed (t := t) (by simp [hstop])
    exact ⟨e, qs, hlays, inWords_eq_error.1 ((hmeasure hlays).symm.trans hstop)⟩
  · rintro ⟨e, qs, hlays, hpower⟩
    exact (hmeasure hlays).trans (inWords_eq_error.2 hpower)
  · obtain ⟨qs, hlays, hfits⟩ := hfound e he
    exact hlays.inWords (h.storedInWords ht) ht hfits

/-- Vectors of arrays of `2 ^ 61` bits: four of them are aligned to half of all widths, and eight do not fit. -/
theorem measure_iff_lays_vectors :
    let u := (empty "unit" .lp64).applyAll [.intern (.builtin .charS), .intern (.constantArray ⟨0⟩ (2 ^ 58)),
      .intern (.vector ⟨1⟩ 4 .generic), .intern (.vector ⟨1⟩ 8 .generic)]
    u.Built ∧ u.target ∈ Target.presets ∧ u.measure ⟨2⟩ = .ok (some ⟨2 ^ 63, 2 ^ 63⟩) ∧ u.measure ⟨3⟩ = .ok none := by
  intro u
  have h : u.Built := .inl ⟨"unit", .lp64, _, by decide +kernel, rfl⟩
  have ht : u.target ∈ Target.presets := by decide +kernel
  have hchar : u.Lays ⟨0⟩ ⟨8, 8⟩ [] := .builtin (b := .charS) (by decide +kernel) (by decide +kernel)
  have hshape : u.shape? ⟨1⟩ = some (.constantArray ⟨0⟩ (2 ^ 58)) := by decide +kernel
  have harray : u.Lays ⟨1⟩ ⟨2 ^ 61, 8⟩ [.width (2 ^ 61)] := .constantArray hshape hchar
  have hfour : u.shape? ⟨2⟩ = some (.vector ⟨1⟩ 4 .generic) := by decide +kernel
  have height : u.shape? ⟨3⟩ = some (.vector ⟨1⟩ 8 .generic) := by decide +kernel
  have hpower : LeastPower (2 ^ 61 * 4) (2 ^ 63) := ⟨⟨le_rfl, 63, rfl⟩, fun p hp => hp.1⟩
  have hwhole : u.Lays ⟨2⟩ ⟨2 ^ 63, 2 ^ 63⟩ [.width (2 ^ 61), .width (2 ^ 63), .power (2 ^ 63)] :=
    .vector hfour harray hpower
  obtain ⟨hsome, -⟩ := measure_iff_lays h ht ⟨2⟩
  obtain ⟨-, hnone, -⟩ := measure_iff_lays h ht ⟨3⟩
  refine ⟨h, ht, (hsome _).2 ⟨_, hwhole, by decide⟩, hnone.2 fun e qs hlays => ?_⟩
  obtain ⟨-, rfl⟩ := hlays.unique (.vector height harray (leastPower _))
  exact ⟨2 ^ 64, rfl⟩

/-- A vector of five such arrays should have no layout, because its power of two does not fit. Measuring it stops. -/
theorem exists_measure_stops : ¬∀ (u : DeclUnit) (t : Ty), u.Built → u.target ∈ Target.presets →
    ∃ o, u.measure t = .ok o := by
  intro h
  let u := (empty "unit" .lp64).applyAll [.intern (.builtin .charS), .intern (.constantArray ⟨0⟩ (2 ^ 58)),
    .intern (.vector ⟨1⟩ 5 .generic)]
  obtain ⟨o, ho⟩ := h u ⟨2⟩ (.inl ⟨"unit", .lp64, _, by decide +kernel, rfl⟩) (by decide +kernel)
  have hstop : u.measure ⟨2⟩ = .error .overflow := by decide +kernel
  cases hstop.symm.trans ho

end DeclUnit
end Cognate
