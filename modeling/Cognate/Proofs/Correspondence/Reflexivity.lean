import Cognate.Proofs.Correspondence.Stages
import Cognate.Proofs.Unit.Extents

/-!
# A type corresponds to itself

Within one unit types are the same if they stand for one node. A walk through a unit and the same unit under another
name stays on pairs of one node with itself (`tracking_self`), whatever cycles there are. So it answers yes as long as
it comes to nothing that is incomplete or has no rule; but for one thing. Complex and atomic types are compared by a
layout that is that of another type, and measuring that may stop, which ends the walk (`verdict_of_same`). Units that
are built alike differ in their names only.
-/

namespace Cognate.Correspondence

variable {u : DeclUnit} {t s x z : Ty} {p : Shape} {f : String → String}

/-- A record or enum has its body. -/
def isComplete (u : DeclUnit) : Shape → Bool
  | .record id => ((u.record? id).bind RecordDecl.body).isSome
  | .enum id => ((u.enum? id).bind EnumDecl.body).isSome
  | _ => true

/-- All records and enums are complete that a comparison comes to which starts at the type. -/
def Finished (u : DeclUnit) (x : Ty) : Prop :=
  ∀ z p, Relation.ReflTransGen (Step u) (u.canonical x) z → u.shape? z = some p → isComplete u p = true

theorem finished_of_nodes (h : u.nodes.all (fun n => isComplete u n.shape) = true) (x : Ty) : Finished u x := by
  intro z p _ hp
  obtain ⟨n, hn, rfl⟩ := DeclUnit.shape?_eq_some.1 hp
  exact Array.all_eq_true_iff_forall_mem.1 h n (Array.mem_of_getElem? hn)

/-- A type that is compared by its layout, which is that of a part. -/
def isLayered : Shape → Bool
  | .complex _ | .atomic _ => true
  | _ => false

/-- All complex and atomic types can be measured that a comparison comes to which starts at the type. -/
def Measurable (u : DeclUnit) (x : Ty) : Prop :=
  ∀ z p, Relation.ReflTransGen (Step u) (u.canonical x) z → u.shape? z = some p → isLayered p = true →
    ∃ e, u.measure z = .ok e

theorem measurable_of_nodes (h : u.nodes.all (fun n => !isLayered n.shape) = true) (x : Ty) : Measurable u x := by
  intro z p _ hp hlayered
  obtain ⟨n, hn, rfl⟩ := DeclUnit.shape?_eq_some.1 hp
  have hnot := Array.all_eq_true_iff_forall_mem.1 h n (Array.mem_of_getElem? hn)
  rw [hlayered] at hnot
  cases hnot

/-! ## Pairs of one node with itself -/

theorem sameExtent_self {e : Option Extent} (h : u.measure x = .ok e) : SameExtent ⟨u, x⟩ ⟨u.renamed f, x⟩ :=
  ⟨e, h, (DeclUnit.measure_renamed f u).trans h⟩

theorem sameExtent_self_eq_error (h : u.measure x = .error .overflow) :
    Site.sameExtent ⟨u, x⟩ ⟨u.renamed f, x⟩ = .error .overflow := sameExtent_eq_error.2 (.inl h)

/-- A complete shape without sugar that has a rule is alike itself, whatever the name of the unit, unless measuring it
stops. -/
theorem alike_self_or_stops (hw : u.WellFormed) (hp : u.shape? x = some p) (hsugar : p.isSugar = false)
    (hrule : p.cls.isIncomparable = false) (hcomplete : isComplete u p = true) :
    Alike ⟨u, x⟩ ⟨u.renamed f, x⟩ p p ∨ isLayered p = true ∧ u.measure x = .error .overflow ∧
      edges ⟨u, x⟩ ⟨u.renamed f, x⟩ p p = .error .overflow := by
  have hmeasure := hw.measure_shape hp
  cases p with
  | complex | atomic =>
    rcases hm : u.measure x with ⟨⟨⟩⟩ | e
    · exact .inr ⟨rfl, rfl, edgesIfSame_eq_error.2 (sameExtent_self_eq_error hm)⟩
    · exact .inl (by constructor; exact sameExtent_self hm)
  | builtin | pointer | blockPointer | lvalueRef | rvalueRef | memberPointer =>
    exact .inl (by constructor; exact sameExtent_self hmeasure)
  | constantArray element size => exact .inl .constantArray
  | incompleteArray element => exact .inl .incompleteArray
  | variableArray element => exact .inl .variableArray
  | vector element count kind => exact .inl .vector
  | prototype result params variadic traits => exact .inl (.prototype rfl)
  | noPrototype result traits => exact .inl .noPrototype
  | record id =>
    obtain ⟨body, hbody⟩ := Option.isSome_iff_exists.1 hcomplete
    obtain ⟨d, hd, hbody⟩ := Option.bind_eq_some_iff.1 hbody
    exact .inl (.record hd hd rfl hbody hbody (sameExtent_self hmeasure) rfl)
  | enum id =>
    obtain ⟨body, hbody⟩ := Option.isSome_iff_exists.1 hcomplete
    obtain ⟨d, hd, hbody⟩ := Option.bind_eq_some_iff.1 hbody
    exact .inl (.enum hd hd hbody hbody (sameExtent_self hmeasure) rfl)
  | typedef | qualified => cases hsugar
  | auto | deducedTemplate | objcObject | objcInterface | objcPointer | pipe => cases hrule

/-- What a comparison comes to is a type of the unit, and canonical. -/
theorem reached (hw : u.WellFormed) (hc : u.Closed) (ht : u.contains t = true)
    (hz : Relation.ReflTransGen (Step u) (u.canonical t) z) : u.contains z = true ∧ u.canonical z = z := by
  induction hz with
  | refl => exact ⟨hw.contains_canonical ht, hw.canonical_canonical t⟩
  | tail _ hstep _ =>
    obtain ⟨p, hp, c, hmem, rfl⟩ := hstep
    exact ⟨hw.contains_canonical (contains_compared hw hc hp c hmem), hw.canonical_canonical c⟩

/-- The canonical types that a comparison comes to, each with itself. -/
def Itself (u : DeclUnit) (t : Ty) (x y : Ty) : Prop := x = y ∧ Relation.ReflTransGen (Step u) (u.canonical t) x

/-- What is related to itself is alike, or measuring it stops. -/
theorem alike_or_stops (hw : u.WellFormed) (hc : u.Closed) (ht : u.contains t = true) (hrule : Comparable u t)
    (hcomplete : Finished u t) (hx : Relation.ReflTransGen (Step u) (u.canonical t) x) (hp : u.shape? x = some p) :
    Alike ⟨u, x⟩ ⟨u.renamed f, x⟩ p p ∨ isLayered p = true ∧ u.measure x = .error .overflow ∧
      edges ⟨u, x⟩ ⟨u.renamed f, x⟩ p p = .error .overflow :=
  alike_self_or_stops hw hp (hw.isSugar_of_fixed hp (reached hw hc ht hx).2) (hrule x p hx hp) (hcomplete x p hx hp)

theorem tracking_self (hw : u.WellFormed) (hc : u.Closed) (ht : u.contains t = true) (hrule : Comparable u t)
    (hcomplete : Finished u t) (f : String → String) : Tracking u (u.renamed f) (Itself u t) := by
  constructor
  · rintro x y y' ⟨rfl, -⟩ ⟨rfl, -⟩
    rfl
  · rintro x x' y ⟨rfl, -⟩ ⟨rfl, -⟩
    rfl
  · rintro x y ⟨rfl, hx⟩
    obtain ⟨p, hp⟩ := DeclUnit.exists_shape (reached hw hc ht hx).1
    refine ⟨p, p, hp, hp, rfl, hrule x p hx hp, ?_⟩
    obtain halike | ⟨-, -, hstop⟩ := alike_or_stops hw hc ht hrule hcomplete hx hp
    · right
      refine ⟨halike, ?_⟩
      change List.Forall₂ _ (compared u p) (compared u p)
      exact List.forall₂_same.2 fun c hmem => ⟨rfl, hx.tail ⟨p, hp, c, hmem, rfl⟩⟩
    · exact .inl hstop

/-- A pairing of a type with itself pairs everything with itself that a comparison comes to. -/
theorem Pairing.diagonal {R : Ty → Ty → Prop} (hR : Pairing u (u.renamed f) R)
    (ht : R (u.canonical t) (u.canonical t)) (hz : Relation.ReflTransGen (Step u) (u.canonical t) z) : R z z := by
  induction hz with
  | refl => exact ht
  | tail _ hstep ih =>
    obtain ⟨p, hp, c, hmem, rfl⟩ := hstep
    obtain ⟨p', q', hp', hq', -, -, hall⟩ := hR.alike ih
    cases hp.symm.trans hp'
    cases hp.symm.trans hq'
    exact List.forall₂_same.1 hall c hmem

/-- Types that are paired with themselves have been measured where that is part of the comparison. -/
theorem Pairing.measurable {R : Ty → Ty → Prop} (hR : Pairing u (u.renamed f) R)
    (ht : R (u.canonical t) (u.canonical t)) : Measurable u t := by
  intro z p hz hp hlayered
  obtain ⟨p', q', hp', hq', -, halike, -⟩ := hR.alike (hR.diagonal ht hz)
  cases hp.symm.trans hp'
  cases hp.symm.trans hq'
  cases halike with
  | complex hext | atomic hext => exact hext.imp fun _ h => h.1
  | _ => cases hlayered

/-! ## The same type -/

theorem same_iff : u.same t s = true ↔ u.contains t = true ∧ u.contains s = true ∧ u.canonical t = u.canonical s := by
  simp [DeclUnit.same, and_assoc]

/-- The answer for a type that is compared with itself: yes if all can be measured that has to be, and a stop
otherwise. -/
def Verdict (u : DeclUnit) (t : Ty) (answer : Except Stop Bool) : Prop :=
  (answer = .ok true ↔ Measurable u t) ∧ (¬Measurable u t → answer = .error .overflow)

/-- Types that stand for one node are compared as one with itself, also under another name of the unit. -/
theorem verdict_of_same (hw : u.WellFormed) (hc : u.Closed) (hrule : Comparable u t) (hcomplete : Finished u t)
    (hsame : u.same t s = true) (f : String → String) : Verdict u t (corresponds u t (u.renamed f) s) := by
  obtain ⟨ht, -, hts⟩ := same_iff.1 hsame
  have hpaired : Itself u t (u.canonical t) ((u.renamed f).canonical s) := ⟨hts, .refl⟩
  obtain hyes | ⟨hstop, x, y, p, q, ⟨rfl, hx⟩, hp, hq, hedges⟩ :=
    corresponds_of_tracking (tracking_self hw hc ht hrule hcomplete f) hpaired
  · obtain ⟨es, hes⟩ := corresponds_eq_true.1 hyes
    obtain ⟨hR, hmem⟩ := pairing_of_walk hes
    have hmeasurable : Measurable u t := by
      refine hR.measurable ?_
      rw [show (u.renamed f).canonical s = u.canonical t from hts.symm] at hmem
      exact hmem
    exact ⟨iff_of_true hyes hmeasurable, fun hnot => absurd hmeasurable hnot⟩
  · have hnot : ¬Measurable u t := fun hmeasurable => by
      cases hp.symm.trans hq
      obtain halike | ⟨hlayered, hmeasure, -⟩ := alike_or_stops (f := f) hw hc ht hrule hcomplete hx hp
      · cases (edges_of_alike halike).symm.trans hedges
      · obtain ⟨e, he⟩ := hmeasurable x p hx hp hlayered
        cases he.symm.trans hmeasure
    exact ⟨iff_of_false (by simp [hstop]) hnot, fun _ => hstop⟩

theorem ofSource_eq_ok {name : String} {target : Target} {source : String} :
    DeclUnit.ofSource name target source = .ok u ↔ (DeclUnit.empty name target).declare source = (.ok (), u) := by
  unfold DeclUnit.ofSource
  split
  · next hr => simp [hr]
  · next hr => simp [hr]

/-- A text makes the same unit under another name. -/
theorem ofSource_renamed {name : String} {target : Target} {source : String}
    (h : DeclUnit.ofSource name target source = .ok u) (name' : String) :
    DeclUnit.ofSource name' target source = .ok (u.renamed fun _ => name') := by
  have hr := DeclUnit.declare_renamed (fun _ => name') (DeclUnit.empty name target) source
  rw [ofSource_eq_ok.1 h] at hr
  exact ofSource_eq_ok.2 hr

/-- A type of a unit that operations or texts lead to is the same as itself. If a comparison that starts at it comes
only to types that are complete and have a rule, a walk answers that it corresponds to all types that are the same, and
to itself in a unit that is kept apart and was built under another name by the same operations or from the same text; or
it stops, which it does exactly if it comes to a complex or atomic type that cannot be measured. -/
theorem corresponds_self {Place : Type} [DecidableEq Place] (place place' : Place) :
    (∀ u : DeclUnit, u.Built → ∀ t, u.contains t = true →
      Kept.sameType ⟨place, u⟩ t ⟨place, u⟩ t = .ok true ∧
        (Comparable u t → Finished u t → Verdict u t (corresponds u t u t) ∧
          ∀ s, Kept.sameType ⟨place, u⟩ t ⟨place, u⟩ s = .ok true → Verdict u t (corresponds u t u s))) ∧
      (∀ name name' target ops t,
        let u := (DeclUnit.empty name target).applyAll ops
        let v := (DeclUnit.empty name' target).applyAll ops
        (DeclUnit.empty name target).admitsAll ops = true → u.contains t = true → Comparable u t → Finished u t →
          place ≠ place' → Verdict u t (Kept.sameType ⟨place, u⟩ t ⟨place', v⟩ t)) ∧
      ∀ name name' target source u t, DeclUnit.ofSource name target source = .ok u → u.contains t = true →
        Comparable u t → Finished u t → place ≠ place' →
          ∃ v, DeclUnit.ofSource name' target source = .ok v ∧
            Verdict u t (Kept.sameType ⟨place, u⟩ t ⟨place', v⟩ t) := by
  have hself : ∀ {u : DeclUnit} {t : Ty}, u.contains t = true → u.same t t = true :=
    fun ht => same_iff.2 ⟨ht, ht, rfl⟩
  refine ⟨fun u hu t ht => ⟨?_, fun hrule hcomplete => ?_⟩, ?_, ?_⟩
  · rw [Kept.sameType_of_eq rfl, hself ht]
  · have hsame : ∀ s, u.same t s = true → Verdict u t (corresponds u t u s) :=
      fun s hs => verdict_of_same hu.wellFormed hu.closed hrule hcomplete hs fun name => name
    refine ⟨hsame t (hself ht), fun s hs => hsame s ?_⟩
    rw [Kept.sameType_of_eq rfl] at hs
    exact Except.ok.inj hs
  · intro name name' target ops t u v hops ht hrule hcomplete hapart
    have hu : u.Reachable := ⟨name, target, ops, hops, rfl⟩
    have hrenamed : v = u.renamed fun _ => name' :=
      DeclUnit.applyAll_renamed (fun _ => name') (DeclUnit.empty name target) ops
    rw [Kept.sameType_of_ne hapart, hrenamed]
    exact verdict_of_same hu.wellFormed hu.closed hrule hcomplete (hself ht) _
  · intro name name' target source u t hsource ht hrule hcomplete hapart
    refine ⟨_, ofSource_renamed hsource name', ?_⟩
    have hu := DeclUnit.FromTexts.declare source (.empty name target)
    rw [ofSource_eq_ok.1 hsource] at hu
    rw [Kept.sameType_of_ne hapart]
    exact verdict_of_same hu.written.wellFormed hu.closed hrule hcomplete (hself ht) _

/-- A list that contains itself, from one text twice, and by the same operations twice. -/
theorem corresponds_self_list :
    let source := "struct list \x7b int value; struct list *next; \x7d; struct list head;"
    let ops := [Operation.declareRecord .struct (some "list"), .intern (.builtin .int), .intern (.pointer ⟨0⟩),
      .completeRecord ⟨0⟩ [("value", ⟨1⟩), ("next", ⟨2⟩)], .nameType "list" ⟨0⟩]
    let u := (DeclUnit.empty "a" .lp64).applyAll ops
    u.Reachable ∧ Kept.sameType ⟨0, u⟩ ⟨0⟩ ⟨0, u⟩ ⟨3⟩ = .ok true ∧ corresponds u ⟨0⟩ u ⟨3⟩ = .ok true ∧
      Kept.sameType ⟨0, u⟩ ⟨0⟩ ⟨1, (DeclUnit.empty "b" .lp64).applyAll ops⟩ ⟨0⟩ = .ok true ∧
      ∃ v w, DeclUnit.ofSource "a" .lp64 source = .ok v ∧ v.value? "head" = some ⟨"head", ⟨0⟩⟩ ∧
        DeclUnit.ofSource "b" .lp64 source = .ok w ∧ Kept.sameType ⟨0, v⟩ ⟨0⟩ ⟨1, w⟩ ⟨0⟩ = .ok true := by
  intro source ops u
  have hops : (DeclUnit.empty "a" .lp64).admitsAll ops = true := by decide +kernel
  have hu : u.Reachable := ⟨"a", .lp64, ops, hops, rfl⟩
  have hrule : Comparable u ⟨0⟩ := comparable_of_nodes (by decide +kernel) _
  have hcomplete : Finished u ⟨0⟩ := finished_of_nodes (by decide +kernel) _
  have hmeasurable : Measurable u ⟨0⟩ := measurable_of_nodes (by decide +kernel) _
  have hsame : Kept.sameType ⟨0, u⟩ ⟨0⟩ ⟨0, u⟩ ⟨3⟩ = .ok true := by decide +kernel
  obtain ⟨hself, hbuilt, hread⟩ := corresponds_self 0 1
  obtain ⟨-, hwalk⟩ := hself u (.inl hu) ⟨0⟩ (by decide +kernel)
  have hwalk := (hwalk hrule hcomplete).2 ⟨3⟩ hsame
  have hops' := hbuilt "a" "b" .lp64 ops ⟨0⟩ hops (by decide +kernel) hrule hcomplete (by decide)
  refine ⟨hu, hsame, hwalk.1.2 hmeasurable, hops'.1.2 hmeasurable, ?_⟩
  let v := ((DeclUnit.empty "a" .lp64).declare source).2
  obtain ⟨hok, hhead, hcontains, hnodes, hbodies, hplain⟩ : ((DeclUnit.empty "a" .lp64).declare source).1 = .ok () ∧
      v.value? "head" = some ⟨"head", ⟨0⟩⟩ ∧ v.contains ⟨0⟩ = true ∧
      v.nodes.all (fun n => !n.shape.cls.isIncomparable) = true ∧
      v.nodes.all (fun n => isComplete v n.shape) = true ∧
      v.nodes.all (fun n => !isLayered n.shape) = true := by decide +kernel
  have hv : DeclUnit.ofSource "a" .lp64 source = .ok v := ofSource_eq_ok.2 (Prod.ext hok rfl)
  obtain ⟨w, hw, hvw⟩ := hread "a" "b" .lp64 source v ⟨0⟩ hv hcontains (comparable_of_nodes hnodes _)
    (finished_of_nodes hbodies _) (by decide)
  exact ⟨v, w, hv, hhead, hw, hvw.1.2 (measurable_of_nodes hplain _)⟩

/-- An atomic vector of five arrays of `2 ^ 61` bits is complete and has a rule, but does not correspond to itself. -/
theorem exists_not_corresponds_self : ¬∀ (u : DeclUnit) (t : Ty), u.Built → u.contains t = true → Comparable u t →
    Finished u t → corresponds u t u t = .ok true := by
  intro h
  let u := (DeclUnit.empty "unit" .lp64).applyAll [.intern (.builtin .charS), .intern (.constantArray ⟨0⟩ (2 ^ 58)),
    .intern (.vector ⟨1⟩ 5 .generic), .intern (.atomic ⟨2⟩)]
  have hyes := h u ⟨3⟩ (.inl ⟨"unit", .lp64, _, by decide +kernel, rfl⟩) (by decide +kernel)
    (comparable_of_nodes (by decide +kernel) _) (finished_of_nodes (by decide +kernel) _)
  have hstop : corresponds u ⟨3⟩ u ⟨3⟩ = .error .overflow := by decide +kernel
  cases hstop.symm.trans hyes

end Cognate.Correspondence
