import Cognate.Proofs.Unit.Closed
import Cognate.Unit.Measure

/-!
# Layouts of types

A type is measured by the children of its canonical shape (`WellFormed.measure_eq`), and its layout comes from theirs
(`WellFormed.extent_eq`), so that the bound on the depth does not show. A unit that keeps its nodes, its target and all
bodies keeps every layout (`Retains.extent`), and every operation on handles in range does so (`apply_retains`).
-/

namespace Cognate

/-- The layout that a vector is measured with, if it is with one. -/
def Extent.vector? (element : Extent) (count : Nat) : Option Extent := answered (element.vector count)

/-- The width and its power of two fit a word. -/
theorem Extent.vector?_eq_some {element e : Extent} {count : Nat} : element.vector? count = some e ↔
    ∃ width power, word? (element.width * count) = some width ∧ word? (ceilPowerOfTwo width) = some power ∧
      e = ⟨width, max power element.align⟩ := by
  unfold vector? vector
  cases word? (element.width * count) with
  | none => simp [answered]
  | some width => cases hp : word? (ceilPowerOfTwo width) <;> simp [answered, hp, eq_comm]

namespace DeclUnit

variable {u v w : DeclUnit} {s : Shape} {t : Ty} {e : Extent} {fuel : Nat} {op : Operation}

/-! ## One level of a type -/

/-- Measures a canonical shape, given the measures of its children. -/
def measureOf (u : DeclUnit) (measure : Ty → Except Overflow (Option Extent)) : Shape → Except Overflow (Option Extent)
  | .builtin b => .ok (u.target.extent b)
  | .complex element => return (← measure element).bind (·.repeat? 2)
  | .pointer _ | .blockPointer _ | .lvalueRef _ | .rvalueRef _ | .memberPointer _ _ | .objcPointer _
  | .pipe _ => .ok u.target.pointer
  | .constantArray element size => return (← measure element).bind (·.repeat? size)
  | .vector element count _ => do
    match ← measure element with
    | none => return none
    | some e => e.vector count
  | .record id => .ok (((u.record? id).bind RecordDecl.body).map RecordBody.extent)
  | .enum id => .ok (((u.enum? id).bind EnumDecl.body).bind fun body => (u.builtinKind? body.base).bind u.target.extent)
  | .typedef _ inner | .qualified inner _ | .atomic inner => measure inner
  | .incompleteArray _ | .variableArray _ | .prototype _ _ _ _ | .noPrototype _ _ | .auto
  | .deducedTemplate | .objcObject | .objcInterface => .ok none

/-- Layout of a canonical shape, given the layouts of its children. -/
def extentOf (u : DeclUnit) (extent : Ty → Option Extent) : Shape → Option Extent
  | .builtin b => u.target.extent b
  | .complex element => (extent element).bind (·.repeat? 2)
  | .pointer _ | .blockPointer _ | .lvalueRef _ | .rvalueRef _ | .memberPointer _ _ | .objcPointer _
  | .pipe _ => some u.target.pointer
  | .constantArray element size => (extent element).bind (·.repeat? size)
  | .vector element count _ => (extent element).bind (·.vector? count)
  | .record id => ((u.record? id).bind RecordDecl.body).map RecordBody.extent
  | .enum id => ((u.enum? id).bind EnumDecl.body).bind fun body => (u.builtinKind? body.base).bind u.target.extent
  | .typedef _ inner | .qualified inner _ | .atomic inner => extent inner
  | .incompleteArray _ | .variableArray _ | .prototype _ _ _ _ | .noPrototype _ _ | .auto
  | .deducedTemplate | .objcObject | .objcInterface => none

theorem answered_measureOf (u : DeclUnit) (measure : Ty → Except Overflow (Option Extent)) (s : Shape) :
    Extent.answered (u.measureOf measure s) = u.extentOf (fun c => Extent.answered (measure c)) s := by
  cases s with
  | complex c | constantArray c =>
    simp only [measureOf, extentOf]
    cases measure c <;> rfl
  | vector c count =>
    simp only [measureOf, extentOf]
    rcases measure c with _ | _ | _ <;> rfl
  | _ => rfl

/-- Measures what is behind the sugar of a type, given the measures of its children. -/
def measureShape (u : DeclUnit) (measure : Ty → Except Overflow (Option Extent)) :
    Option Shape → Except Overflow (Option Extent)
  | none => .ok none
  | some s => u.measureOf measure s

theorem measureWithin_succ (u : DeclUnit) (fuel : Nat) (t : Ty) :
    u.measureWithin (fuel + 1) t = u.measureShape (u.measureWithin fuel) (u.canonicalShape? t) := by
  rw [measureWithin]
  cases u.canonicalShape? t with
  | none => rfl
  | some s => cases s <;> rfl

theorem measureWithin_builtin {b : Builtin} (hb : u.builtinKind? t = some b) (fuel : Nat) :
    u.measureWithin (fuel + 1) t = .ok (u.target.extent b) := by
  rw [measureWithin_succ, canonicalShape?_of_builtinKind? hb]
  rfl

/-- A builtin type behind any sugar has the layout that the target gives it. -/
theorem extent_of_builtinKind? {b : Builtin} (hb : u.builtinKind? t = some b) : u.extent t = u.target.extent b := by
  rw [extent, measure, measureWithin_builtin hb, Extent.answered]

/-- Only the measures of the children matter. -/
theorem measureOf_congr {f g : Ty → Except Overflow (Option Extent)} (h : ∀ c ∈ s.children, f c = g c) :
    u.measureOf f s = u.measureOf g s := by
  cases s <;> simp_all [measureOf, Shape.children]

/-- The children of a canonical shape stand in front of every type that it is the shape of. -/
theorem WellFormed.child_canonicalShape_lt (hu : u.WellFormed) (hs : u.canonicalShape? t = some s) {c : Ty}
    (hc : c ∈ s.children) : c.index < t.index := by
  have ht := contains_of_canonicalShape? hs
  rw [canonicalShape?_eq ht] at hs
  exact (hu.child_lt hs hc).trans_le (hu.canonical_le ht)

/-- The function goes from a type to the children of its canonical shape, through at most so many levels. -/
structure Descends {α : Type} (u : DeclUnit) (f : Nat → Ty → α) (level : (Ty → α) → Option Shape → α) : Prop where
  succ : ∀ n t, f (n + 1) t = level (f n) (u.canonicalShape? t)
  congr : ∀ {g h : Ty → α} {o : Option Shape}, (∀ s, o = some s → ∀ c ∈ s.children, g c = h c) → level g o = level h o

/-- A depth beyond the index of a type changes nothing: every level is made of the whole of the levels below. -/
theorem Descends.eq {α : Type} {f : Nat → Ty → α} {level : (Ty → α) → Option Shape → α} (h : u.Descends f level)
    (hu : u.WellFormed) (hlt : t.index < fuel) :
    f fuel t = level (fun c => f (c.index + 1) c) (u.canonicalShape? t) := by
  induction hi : t.index using Nat.strong_induction_on generalizing t fuel with
  | _ i ih =>
    subst hi
    obtain ⟨fuel, rfl⟩ : ∃ m, fuel = m + 1 := ⟨fuel - 1, by omega⟩
    rw [h.succ]
    refine h.congr fun s hs c hc => ?_
    -- Both depths are beyond the index of a child, which is in front of the type.
    have hlt' := hu.child_canonicalShape_lt hs hc
    rw [ih c.index hlt' (by omega : c.index < fuel) rfl, ih c.index hlt' (Nat.lt_succ_self _) rfl]

theorem measureWithin_descends (u : DeclUnit) : u.Descends u.measureWithin u.measureShape :=
  ⟨u.measureWithin_succ, fun {_ _ o} h => by
    cases o with
    | none => rfl
    | some s => exact measureOf_congr (h s rfl)⟩

/-- A type is measured by the children of its canonical shape. -/
theorem WellFormed.measure_eq (hu : u.WellFormed) (t : Ty) :
    u.measure t = u.measureShape u.measure (u.canonicalShape? t) :=
  u.measureWithin_descends.eq hu (Nat.lt_succ_self _)

theorem WellFormed.measure_canonical (hu : u.WellFormed) (t : Ty) : u.measure (u.canonical t) = u.measure t := by
  cases ht : u.contains t with
  | true => rw [hu.measure_eq, hu.measure_eq t, hu.canonicalShape?_canonical ht]
  | false => rw [canonical_of_not_contains ht]

/-- A type is measured as written, by its children. -/
theorem WellFormed.measure_shape (hu : u.WellFormed) (hs : u.shape? t = some s) :
    u.measure t = u.measureOf u.measure s := by
  cases hsugar : s.isSugar with
  | true =>
    have hinner : ∀ {c}, c ∈ s.children → u.measure t = u.measure c := fun hc => by
      rw [hu.measure_eq, hu.canonicalShape?_sugar hs hsugar hc, ← hu.measure_eq]
    cases s with
    | typedef | qualified => exact hinner (by simp [Shape.children])
    | _ => cases hsugar
  | false =>
    have hmap : u.measureOf u.measure (s.map u.canonical) = u.measureOf (fun c => u.measure (u.canonical c)) s := by
      cases s <;> rfl
    rw [hu.measure_eq, hu.canonicalShape?_flat hs hsugar, measureShape, hmap, funext hu.measure_canonical]

theorem answered_measureShape (measure : Ty → Except Overflow (Option Extent)) (o : Option Shape) :
    Extent.answered (u.measureShape measure o) = o.bind (u.extentOf fun c => Extent.answered (measure c)) := by
  cases o with
  | none => rfl
  | some s => exact answered_measureOf u measure s

/-- The layout of a type, from the layouts of the children of its canonical shape. -/
theorem WellFormed.extent_eq (hu : u.WellFormed) (t : Ty) :
    u.extent t = (u.canonicalShape? t).bind (u.extentOf u.extent) := by
  rw [extent, hu.measure_eq, answered_measureShape]
  rfl

theorem WellFormed.extent_canonical (hu : u.WellFormed) (t : Ty) : u.extent (u.canonical t) = u.extent t := by
  rw [extent, hu.measure_canonical, extent]

/-! ## What keeps layouts -/

/-- Nodes and target are kept, and so are records and enums that have a body. -/
structure Retains (u v : DeclUnit) : Prop where
  nodes : u.Extends v
  target : v.target = u.target
  records : ∀ {id d body}, u.record? id = some d → d.body = some body → v.record? id = some d
  enums : ∀ {id d body}, u.enum? id = some d → d.body = some body → v.enum? id = some d

theorem Retains.refl (u : DeclUnit) : u.Retains u := ⟨.refl u, rfl, fun h _ => h, fun h _ => h⟩

theorem Retains.trans (h : u.Retains v) (h' : v.Retains w) : u.Retains w :=
  ⟨h.nodes.trans h'.nodes, h'.target.trans h.target, fun hd hb => h'.records (h.records hd hb) hb,
    fun hd hb => h'.enums (h.enums hd hb) hb⟩

theorem Retains.extentOf (h : u.Retains v) {f g : Ty → Option Extent}
    (hfg : ∀ c ∈ s.children, ∀ e, f c = some e → g c = some e) (he : u.extentOf f s = some e) :
    v.extentOf g s = some e := by
  have hbind : ∀ {c : Ty} {k : Extent → Option Extent}, c ∈ s.children → (f c).bind k = some e →
      (g c).bind k = some e := by
    intro c k hc hk
    obtain ⟨e', he', hk⟩ := Option.bind_eq_some_iff.1 hk
    rw [hfg c hc e' he']
    exact hk
  cases s with
  | builtin b =>
    rw [DeclUnit.extentOf, h.target]
    exact he
  | complex | constantArray | vector => exact hbind (by simp [Shape.children]) he
  | typedef | qualified | atomic => exact hfg _ (by simp [Shape.children]) e he
  | pointer | blockPointer | lvalueRef | rvalueRef | memberPointer | objcPointer | pipe =>
    rw [DeclUnit.extentOf, h.target]
    exact he
  | record id =>
    obtain ⟨body, hbody, rfl⟩ := Option.map_eq_some_iff.1 he
    obtain ⟨d, hd, hb⟩ := Option.bind_eq_some_iff.1 hbody
    rw [DeclUnit.extentOf, h.records hd hb, Option.bind_some, hb]
    rfl
  | enum id =>
    obtain ⟨body, hbody, hbase⟩ := Option.bind_eq_some_iff.1 he
    obtain ⟨d, hd, hb⟩ := Option.bind_eq_some_iff.1 hbody
    obtain ⟨b, hkind, he⟩ := Option.bind_eq_some_iff.1 hbase
    rw [DeclUnit.extentOf, h.enums hd hb, Option.bind_some, hb, Option.bind_some, h.nodes.builtinKind? hkind,
      Option.bind_some, h.target]
    exact he
  | _ => cases he

/-- A type keeps its layout, level by level. -/
theorem Retains.measureWithin (h : u.Retains v) (he : Extent.answered (u.measureWithin fuel t) = some e) :
    Extent.answered (v.measureWithin fuel t) = some e := by
  induction fuel generalizing t e with
  | zero => cases he
  | succ fuel ih =>
    rw [measureWithin_succ, answered_measureShape] at he ⊢
    obtain ⟨s, hs, he⟩ := Option.bind_eq_some_iff.1 he
    rw [h.nodes.canonicalShape? hs, Option.bind_some]
    exact h.extentOf (fun _ _ _ => ih) he

theorem Retains.extent (h : u.Retains v) (he : u.extent t = some e) : v.extent t = some e := h.measureWithin he

/-! ## Operations -/

theorem SameGraph.retains (h : u.SameGraph v) : u.Retains v := by
  obtain ⟨hn, hr, he, ht⟩ := h
  refine ⟨.of_nodes_eq hn, ht, fun {id d _} hd _ => ?_, fun {id d _} hd _ => ?_⟩
  · rw [record?, hr]
    exact hd
  · rw [enum?, he]
    exact hd

theorem intern_retains (u : DeclUnit) (s : Shape) : u.Retains (u.intern s).2 := by
  refine ⟨intern_extends u s, ?_, fun hd _ => ?_, fun hd _ => ?_⟩ <;> rw [intern_frame] <;> first | rfl | exact hd

theorem qualify_retains (u : DeclUnit) (t : Ty) (q : Qualifiers) : u.Retains (u.qualify t q).2 := by
  rcases u.qualify_or_intern t q with he | ⟨inner, p, he⟩
  · exact he.symm ▸ .refl u
  · exact he.symm ▸ intern_retains u _

theorem declareRecord_retains (u : DeclUnit) (tag : Tag) (name : Option String) :
    u.Retains (u.declareRecord tag name).2 := by
  have hpush : u.Retains { u with records := u.records.push ⟨tag, name, none⟩ } := by
    refine ⟨.of_nodes_eq rfl, rfl, fun hd _ => ?_, fun hd _ => hd⟩
    rw [record?, Array.getElem?_push_lt (Array.getElem?_eq_some_iff.1 hd).1, ← Array.getElem?_eq_getElem]
    exact hd
  exact hpush.trans (intern_retains _ _)

theorem declareEnum_retains (u : DeclUnit) (name : Option String) : u.Retains (u.declareEnum name).2 := by
  have hpush : u.Retains { u with enums := u.enums.push ⟨name, none⟩ } := by
    refine ⟨.of_nodes_eq rfl, rfl, fun hd _ => hd, fun hd _ => ?_⟩
    rw [enum?, Array.getElem?_push_lt (Array.getElem?_eq_some_iff.1 hd).1, ← Array.getElem?_eq_getElem]
    exact hd
  exact hpush.trans (intern_retains _ _)

/-- Only a record without a body is completed. -/
theorem completeRecord_retains {fields : List (String × Ty)} (h : u.completeRecord t fields = (.ok (), v)) :
    u.Retains v := by
  obtain ⟨id, d, members, extent, hof, hbody, -, rfl⟩ := completeRecord_eq_ok h
  have hid := (recordOf?_eq_some hof).2
  refine ⟨.of_nodes_eq rfl, rfl, fun {id' d' _} hd hb => ?_, fun hd _ => hd⟩
  rw [record?_set hid, if_neg]
  · exact hd
  · rintro rfl
    rw [hid] at hd
    cases hd
    rw [hbody] at hb
    cases hb

theorem completeEnum_retains {base : Ty} {constants : List (String × Int)}
    (h : u.completeEnum t base constants = (.ok (), v)) : u.Retains v := by
  obtain ⟨id, d, b, enumerators, hof, hbody, -, rfl⟩ := completeEnum_eq_ok h
  have hid := (enumOf?_eq_some hof).2
  refine ⟨.of_nodes_eq rfl, rfl, fun hd _ => hd, fun {id' d' _} hd hb => ?_⟩
  rw [enum?_set hid, if_neg]
  · exact hd
  · rintro rfl
    rw [hid] at hd
    cases hd
    rw [hbody] at hb
    cases hb

/-- Whatever it is given, an operation keeps all that layouts depend on. -/
theorem apply_retains (u : DeclUnit) (op : Operation) : u.Retains (u.apply op) := by
  cases op with
  | intern s => exact intern_retains u s
  | qualify t q => exact qualify_retains u t q
  | declareRecord tag name => exact declareRecord_retains u tag name
  | declareEnum name => exact declareEnum_retains u name
  | completeRecord t fields =>
    exact (u.completeRecord_allOrNothing t fields).cases (.refl u) fun _ hv => completeRecord_retains hv
  | completeEnum t base constants =>
    exact (u.completeEnum_allOrNothing t base constants).cases (.refl u) fun _ hv => completeEnum_retains hv
  | nameType name t => exact (intern_retains u (.typedef name t)).trans (defineTypedef_sameGraph u name t).retains
  | defineTag name t =>
    exact (u.defineTag_allOrNothing name t).cases (.refl u) fun _ hv => (defineTag_sameGraph hv).retains
  | defineConstant name value t =>
    exact (u.defineConstant_allOrNothing name value t).cases (.refl u) fun _ hv => (defineConstant_sameGraph hv).retains
  | declareValue name t =>
    exact (u.declareValue_allOrNothing name t).cases (.refl u) fun _ hv => (declareValue_sameGraph hv).retains

theorem applyAll_retains (u : DeclUnit) (ops : List Operation) : u.Retains (u.applyAll ops) := by
  induction ops generalizing u with
  | nil => exact .refl u
  | cons op ops ih => exact (apply_retains u op).trans (ih _)

end DeclUnit
end Cognate
