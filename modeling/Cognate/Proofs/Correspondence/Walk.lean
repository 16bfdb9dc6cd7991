import Cognate.Proofs.Correspondence.Matching
import Mathlib.Data.List.Nodup
import Mathlib.Data.List.Perm.Subperm

/-!
# A walk finds the matching

A walk over two units answers yes exactly if a matching pairs the two types, and then the pairs it has entered are one.
The invariant of a walk (`Entered`) says that its pairs are a one-to-one relation of canonical types; it grows through
the walk, and a walk that answers yes has seen to everything that its new pairs are made of (`walk_yes`). A walk
whose pairs are all related as a matching relates them does not answer no, as long as its allowance lasts
(`walk_tracked`).
-/

namespace Cognate.Correspondence

variable {a b : DeclUnit} {x y : Ty} {n : Nat} {es es' : Edges} {visit : Ty → Ty → Walk Bool}

/-! ## Runs -/

theorem walkAll_cons (rest : Edges) :
    walkAll visit ((x, y) :: rest) es =
      match visit x y es with
      | .ok (true, es') => walkAll visit rest es'
      | .ok (false, es') => .ok (false, es')
      | .error c => .error c := by
  simp only [walkAll, bind, StateT.bind, Except.bind]
  split
  · next h => simp [h]
  · next r h =>
    rcases r with ⟨_ | _, es'⟩ <;> simp only [h] <;> rfl

/-- A pair that is not entered yet is, and then the types it is made of are compared. -/
theorem walk_succ {p q : Shape} (hp : a.shape? (a.canonical x) = some p) (hq : b.shape? (b.canonical y) = some q) :
    walk a b (n + 1) x y es =
      if p.cls ≠ q.cls then .ok (false, es)
      else if (es.map (·.1)).idxOf? (a.canonical x) ≠ (es.map (·.2)).idxOf? (b.canonical y) then .ok (false, es)
      else if ((es.map (·.1)).idxOf? (a.canonical x)).isSome then .ok (true, es)
      else compareNew (walk a b n) ⟨a, a.canonical x⟩ ⟨b, b.canonical y⟩ p q
        (es ++ [(a.canonical x, b.canonical y)]) := by
  simp only [walk, hp, hq]
  split
  · rfl
  · simp only [bind, StateT.bind, get, getThe, MonadStateOf.get, StateT.get, Except.bind, pure, Except.pure]
    split
    · rfl
    · split <;> rfl

theorem walk_foreign (h : a.shape? (a.canonical x) = none ∨ b.shape? (b.canonical y) = none) :
    walk a b n x y es = .ok (false, es) := by
  cases n with
  | zero => rfl
  | succ n =>
    rcases h with h | h
    · simp only [walk, h]
      rfl
    · simp only [walk, h]
      cases a.shape? (a.canonical x) <;> rfl

theorem compareNew_run (s t : Site) (p q : Shape) :
    compareNew visit s t p q es =
      if p.cls.isIncomparable then .error (.unsupported p.cls)
      else match edges s t p q with
        | .error _ => .error .overflow
        | .ok none => .ok (false, es)
        | .ok (some found) => walkAll visit found es := by
  unfold compareNew
  split
  · rfl
  · rcases edges s t p q with _ | _ | _ <;> rfl

/-! ## Positions -/

theorem position_eq (h : ∀ e ∈ es, e.1 = x ↔ e.2 = y) :
    (es.map (·.1)).idxOf? x = (es.map (·.2)).idxOf? y := by
  induction es with
  | nil => rfl
  | cons e es ih =>
    have he : e.1 = x ↔ e.2 = y := h e (by simp)
    simp only [List.map_cons, List.idxOf?_cons, beq_iff_eq, he]
    rw [ih fun e he => h e (by simp [he])]

theorem mem_of_position_eq (h : (es.map (·.1)).idxOf? x = (es.map (·.2)).idxOf? y)
    (hs : ((es.map (·.1)).idxOf? x).isSome = true) : (x, y) ∈ es := by
  induction es with
  | nil => simp at hs
  | cons e es ih =>
    obtain ⟨x', y'⟩ := e
    simp only [List.map_cons, List.idxOf?_cons, beq_iff_eq] at h hs
    by_cases hx : x' = x <;> by_cases hy : y' = y
    · simp [hx, hy]
    · rw [if_pos hx, if_neg hy] at h
      cases hc : (es.map (·.2)).idxOf? y <;> simp [hc] at h
    · rw [if_neg hx, if_pos hy] at h
      cases hc : (es.map (·.1)).idxOf? x <;> simp [hc] at h
    · simp only [hx, hy, if_false] at h hs
      have ht := ih (Option.map_injective Nat.succ_injective h) (by simpa using hs)
      simp [ht]

/-- Types that stand nowhere are new on both sides. -/
theorem new_of_position_eq (h : (es.map (·.1)).idxOf? x = (es.map (·.2)).idxOf? y)
    (hs : ¬((es.map (·.1)).idxOf? x).isSome = true) : x ∉ es.map (·.1) ∧ y ∉ es.map (·.2) := by
  refine ⟨by simpa [List.isSome_idxOf?] using hs, ?_⟩
  rw [h] at hs
  simpa [List.isSome_idxOf?] using hs

/-! ## The invariant of a walk -/

/-- The pairs of a walk: types that stand for some type of their unit, each entered at most once on its side. -/
structure Entered (a b : DeclUnit) (es : Edges) : Prop where
  left : (es.map (·.1)).Nodup
  right : (es.map (·.2)).Nodup
  contains : ∀ e ∈ es, a.contains e.1 = true ∧ b.contains e.2 = true
  canonical : ∀ e ∈ es, ∃ x y, e = (a.canonical x, b.canonical y)

/-- A pair is alike, and what it is made of is entered. -/
def Settled (a b : DeclUnit) (es : Edges) (e : Ty × Ty) : Prop :=
  ∃ p q, a.shape? e.1 = some p ∧ b.shape? e.2 = some q ∧ Alike ⟨a, e.1⟩ ⟨b, e.2⟩ p q ∧
    ∀ c ∈ (compared a p).zip (compared b q), (a.canonical c.1, b.canonical c.2) ∈ es

/-- The pairs of a walk before and after some of it that went well: none is lost, and new ones are settled. -/
structure Grown (a b : DeclUnit) (es es' : Edges) : Prop where
  entered : Entered a b es'
  subset : es ⊆ es'
  settled : ∀ e ∈ es', e ∈ es ∨ Settled a b es' e

theorem Settled.mono {e : Ty × Ty} (h : Settled a b es e) (hs : es ⊆ es') : Settled a b es' e := by
  obtain ⟨p, q, hp, hq, halike, hall⟩ := h
  exact ⟨p, q, hp, hq, halike, fun c hc => hs (hall c hc)⟩

theorem Grown.refl (h : Entered a b es) : Grown a b es es := ⟨h, fun _ he => he, fun _ he => .inl he⟩

theorem Grown.trans {es'' : Edges} (h : Grown a b es es') (h' : Grown a b es' es'') : Grown a b es es'' := by
  refine ⟨h'.entered, fun e he => h'.subset (h.subset he), fun e he => ?_⟩
  rcases h'.settled e he with he | he
  · exact (h.settled e he).imp_right fun hs => hs.mono h'.subset
  · exact .inr he

theorem Entered.nil : Entered a b [] := by
  constructor <;> simp

/-- Types that stand nowhere yet can be entered together. -/
theorem Entered.concat (h : Entered a b es) (hx : a.contains (a.canonical x) = true)
    (hy : b.contains (b.canonical y) = true) (hnx : a.canonical x ∉ es.map (·.1))
    (hny : b.canonical y ∉ es.map (·.2)) : Entered a b (es ++ [(a.canonical x, b.canonical y)]) := by
  constructor
  · simpa [List.nodup_append] using ⟨h.left, fun a b hab he => hnx (List.mem_map.2 ⟨_, hab, he⟩)⟩
  · simpa [List.nodup_append] using ⟨h.right, fun a b hab he => hny (List.mem_map.2 ⟨_, hab, he⟩)⟩
  · intro e he
    rcases List.mem_append.1 he with he | he
    · exact h.contains e he
    · rw [List.mem_singleton.1 he]
      exact ⟨hx, hy⟩
  · intro e he
    rcases List.mem_append.1 he with he | he
    · exact h.canonical e he
    · exact ⟨x, y, List.mem_singleton.1 he⟩

/-- Distinct types of a unit are no more than its nodes. -/
theorem length_le_size {u : DeclUnit} {ts : List Ty} (hn : ts.Nodup) (hc : ∀ t ∈ ts, u.contains t = true) :
    ts.length ≤ u.size := by
  have hinj : Function.Injective Ty.index := fun s t hst => by cases s; cases t; simpa using hst
  have hsub : ts.map Ty.index ⊆ List.range u.size := by
    intro i hi
    obtain ⟨t, ht, rfl⟩ := List.mem_map.1 hi
    exact List.mem_range.2 (DeclUnit.contains_iff.1 (hc t ht))
  simpa using ((hn.map hinj).subperm hsub).length_le

/-- A walk enters no more pairs than either unit has nodes. -/
theorem Entered.length_le (h : Entered a b es) : es.length ≤ min a.size b.size := by
  have hl := length_le_size h.left fun t ht => by
    obtain ⟨e, he, rfl⟩ := List.mem_map.1 ht
    exact (h.contains e he).1
  have hr := length_le_size h.right fun t ht => by
    obtain ⟨e, he, rfl⟩ := List.mem_map.1 ht
    exact (h.contains e he).2
  simp only [List.length_map] at hl hr
  omega

/-! ## A walk that answers yes -/

theorem walkAll_yes {found : Edges}
    (hvisit : ∀ {x y es es'}, Entered a b es → visit x y es = .ok (true, es') →
      Grown a b es es' ∧ (a.canonical x, b.canonical y) ∈ es')
    (hes : Entered a b es) (h : walkAll visit found es = .ok (true, es')) :
    Grown a b es es' ∧ ∀ e ∈ found, (a.canonical e.1, b.canonical e.2) ∈ es' := by
  induction found generalizing es with
  | nil =>
    cases h
    exact ⟨.refl hes, by simp⟩
  | cons e found ih =>
    rw [walkAll_cons] at h
    split at h
    · next mid hmid =>
      obtain ⟨hgrown, hmem⟩ := hvisit hes hmid
      obtain ⟨hgrown', hall⟩ := ih hgrown.entered h
      refine ⟨hgrown.trans hgrown', ?_⟩
      simpa using ⟨hgrown'.subset hmem, fun x y hxy => hall (x, y) hxy⟩
    · simp at h
    · cases h

/-- A walk that answers yes has entered its pair, and settled all pairs that it has entered. -/
theorem walk_yes (hes : Entered a b es) (h : walk a b n x y es = .ok (true, es')) :
    Grown a b es es' ∧ (a.canonical x, b.canonical y) ∈ es' := by
  induction n generalizing x y es es' with
  | zero => cases h
  | succ n ih =>
    cases hp : a.shape? (a.canonical x) with
    | none => rw [walk_foreign (.inl hp)] at h; simp at h
    | some p =>
    cases hq : b.shape? (b.canonical y) with
    | none => rw [walk_foreign (.inr hq)] at h; simp at h
    | some q =>
    rw [walk_succ hp hq] at h
    split_ifs at h with hcls hpos hseen
    · simp at h
    · simp at h
    · obtain rfl : es = es' := by simpa using h
      rw [not_not] at hpos
      exact ⟨.refl hes, mem_of_position_eq hpos hseen⟩
    · rw [not_not] at hpos
      obtain ⟨hnx, hny⟩ := new_of_position_eq hpos hseen
      have hentered := hes.concat (DeclUnit.contains_of_shape? hp) (DeclUnit.contains_of_shape? hq) hnx hny
      rw [compareNew_run] at h
      split_ifs at h with hinc
      split at h
      · cases h
      · simp at h
      next found hfound =>
      obtain ⟨halike, rfl⟩ := edges_eq_some.1 hfound
      obtain ⟨hgrown, hall⟩ := walkAll_yes (fun hes h => ih hes h) hentered h
      have hmem : (a.canonical x, b.canonical y) ∈ es' := hgrown.subset (by simp)
      refine ⟨⟨hgrown.entered, fun e he => hgrown.subset (by simp [he]), fun e he => ?_⟩, hmem⟩
      rcases hgrown.settled e he with he | he
      · rcases List.mem_append.1 he with he | he
        · exact .inl he
        · rw [List.mem_singleton.1 he]
          exact .inr ⟨p, q, hp, hq, halike, hall⟩
      · exact .inr he

/-! ## The allowance of a walk -/

/-- Pairs that are entered are not lost again. -/
theorem Grown.length_le (h : Grown a b es es') (hes : Entered a b es) : es.length ≤ es'.length :=
  ((List.Nodup.of_map _ hes.left).subperm h.subset).length_le

theorem walkAll_congr {visit' : Ty → Ty → Walk Bool} {found : Edges} (least : Nat)
    (hsame : ∀ {x y es}, Entered a b es → least ≤ es.length → visit x y es = visit' x y es)
    (hyes : ∀ {x y es es'}, Entered a b es → visit x y es = .ok (true, es') → Grown a b es es')
    (hes : Entered a b es) (hlen : least ≤ es.length) : walkAll visit found es = walkAll visit' found es := by
  induction found generalizing es with
  | nil => rfl
  | cons e found ih =>
    rw [walkAll_cons, walkAll_cons, ← hsame hes hlen]
    cases hr : visit e.1 e.2 es with
    | error c => rfl
    | ok r =>
      rcases r with ⟨_ | _, mid⟩
      · rfl
      · have hgrown := hyes hes hr
        exact ih hgrown.entered (hlen.trans (hgrown.length_le hes))

/-- Beyond one level for each pair that is not entered yet, the allowance of a walk does not matter. -/
theorem walk_congr {m : Nat} (hes : Entered a b es) (hn : min a.size b.size + 1 ≤ n + es.length)
    (hm : min a.size b.size + 1 ≤ m + es.length) : walk a b n x y es = walk a b m x y es := by
  have hle := hes.length_le
  induction n generalizing m x y es with
  | zero => omega
  | succ n ih =>
    cases m with
    | zero => omega
    | succ m =>
    cases hp : a.shape? (a.canonical x) with
    | none => rw [walk_foreign (.inl hp), walk_foreign (.inl hp)]
    | some p =>
    cases hq : b.shape? (b.canonical y) with
    | none => rw [walk_foreign (.inr hq), walk_foreign (.inr hq)]
    | some q =>
    rw [walk_succ hp hq, walk_succ hp hq]
    split_ifs with hcls hpos hseen
    · rfl
    · rfl
    · rfl
    · rw [not_not] at hpos
      obtain ⟨hnx, hny⟩ := new_of_position_eq hpos hseen
      have hentered := hes.concat (DeclUnit.contains_of_shape? hp) (DeclUnit.contains_of_shape? hq) hnx hny
      rw [compareNew_run, compareNew_run]
      split
      · rfl
      · split
        · rfl
        · rfl
        · refine walkAll_congr (es.length + 1) (fun hes' hlen => ?_) (fun hes' h => (walk_yes hes' h).1) hentered
            (by simp)
          exact ih hes' (by omega) (by omega) hes'.length_le

/-! ## A walk within a matching -/

/-- The pairs of a walk are entered, and related. -/
structure Within (a b : DeclUnit) (R : Ty → Ty → Prop) (es : Edges) : Prop where
  entered : Entered a b es
  related : ∀ e ∈ es, R e.1 e.2

variable {R : Ty → Ty → Prop}

/-- What a walk comes to whose pairs are related: yes, with more pairs that are, or a stop. -/
def Tracked (a b : DeclUnit) (R : Ty → Ty → Prop) (es : Edges) (r : Except Stop (Bool × Edges)) : Prop :=
  (∃ es', r = .ok (true, es') ∧ Within a b R es' ∧ es.length ≤ es'.length) ∨ r = .error .overflow ∧ Halts a b R

theorem Tracked.of_le {es₀ : Edges} {r : Except Stop (Bool × Edges)} (h : Tracked a b R es r)
    (hle : es₀.length ≤ es.length) : Tracked a b R es₀ r :=
  h.imp_left fun ⟨es', hr, hwithin, hle'⟩ => ⟨es', hr, hwithin, hle.trans hle'⟩

theorem walkAll_tracked {found : Edges} (least : Nat)
    (hvisit : ∀ {x y es}, Within a b R es → R (a.canonical x) (b.canonical y) → least ≤ es.length →
      Tracked a b R es (visit x y es))
    (hes : Within a b R es) (hfound : ∀ e ∈ found, R (a.canonical e.1) (b.canonical e.2)) (hlen : least ≤ es.length) :
    Tracked a b R es (walkAll visit found es) := by
  induction found generalizing es with
  | nil => exact .inl ⟨es, rfl, hes, le_refl _⟩
  | cons e found ih =>
    rw [walkAll_cons]
    obtain ⟨mid, hmid, hwithin, hle⟩ | ⟨hstop, hhalts⟩ := hvisit hes (hfound e (by simp)) hlen
    · rw [hmid]
      exact (ih hwithin (fun e he => hfound e (by simp [he])) (hlen.trans hle)).of_le hle
    · rw [hstop]
      exact .inr ⟨rfl, hhalts⟩

/-- Each pair that is entered takes one off the allowance, and there are no more of them than nodes. -/
theorem walk_tracked (hR : Tracking a b R) (hes : Within a b R es) (hxy : R (a.canonical x) (b.canonical y))
    (hlen : min a.size b.size + 1 ≤ n + es.length) : Tracked a b R es (walk a b n x y es) := by
  induction n generalizing x y es with
  | zero =>
    have := hes.entered.length_le
    omega
  | succ n ih =>
    obtain ⟨p, q, hp, hq, hcls, hrule, hpair⟩ := hR.shapes hxy
    have hpos : (es.map (·.1)).idxOf? (a.canonical x) = (es.map (·.2)).idxOf? (b.canonical y) := by
      refine position_eq fun e he => ⟨fun h => ?_, fun h => ?_⟩
      · exact hR.functional (h ▸ hes.related e he) hxy
      · exact hR.injective (h ▸ hes.related e he) hxy
    rw [walk_succ hp hq, if_neg (by simp [hcls]), if_neg (by simp [hpos])]
    by_cases hseen : ((es.map (·.1)).idxOf? (a.canonical x)).isSome = true
    · rw [if_pos hseen]
      exact .inl ⟨es, rfl, hes, le_refl _⟩
    rw [if_neg hseen, compareNew_run, if_neg (by simp [hrule])]
    obtain hstop | ⟨halike, hall⟩ := hpair
    · rw [hstop]
      exact .inr ⟨rfl, _, _, p, q, hxy, hp, hq, hstop⟩
    · rw [edges_of_alike halike]
      obtain ⟨hnx, hny⟩ := new_of_position_eq hpos hseen
      have hwithin : Within a b R (es ++ [(a.canonical x, b.canonical y)]) := by
        refine ⟨hes.entered.concat (DeclUnit.contains_of_shape? hp) (DeclUnit.contains_of_shape? hq) hnx hny,
          fun e he => ?_⟩
        rcases List.mem_append.1 he with he | he
        · exact hes.related e he
        · rw [List.mem_singleton.1 he]
          exact hxy
      have hzip : ∀ e ∈ (compared a p).zip (compared b q), R (a.canonical e.1) (b.canonical e.2) :=
        fun e he => (List.forall₂_iff_zip.1 hall).2 he
      exact (walkAll_tracked (es.length + 1) (fun h hxy hle => ih h hxy (by omega)) hwithin hzip (by simp)).of_le
        (by simp)

/-! ## A walk that fails -/

/-- A comparison that starts at the type comes to one whose layout cannot be measured. -/
def Stops (u : DeclUnit) (x : Ty) : Prop :=
  ∃ z, Relation.ReflTransGen (Step u) (u.canonical x) z ∧ u.measure z = .error .overflow

theorem Stops.of_child {u : DeclUnit} {c : Ty} {p : Shape} (h : Stops u c) (hp : u.shape? (u.canonical x) = some p)
    (hc : c ∈ compared u p) : Stops u x := by
  obtain ⟨z, hz, hstop⟩ := h
  exact ⟨z, .head ⟨p, hp, c, hc, rfl⟩ hz, hstop⟩

/-- What a walk comes to that starts at two types without coming to one that has no rule. -/
def Outcome (a b : DeclUnit) (x y : Ty) (r : Except Stop (Bool × Edges)) : Prop :=
  (∃ answer, r = .ok answer) ∨ r = .error .overflow ∧ (Stops a x ∨ Stops b y)

theorem walkAll_outcome {found : Edges} (hvisit : ∀ e ∈ found, ∀ es, Outcome a b x y (visit e.1 e.2 es)) :
    Outcome a b x y (walkAll visit found es) := by
  induction found generalizing es with
  | nil => exact .inl ⟨(true, es), rfl⟩
  | cons e found ih =>
    rw [walkAll_cons]
    obtain ⟨⟨answer, es'⟩, hr⟩ | ⟨hr, hstops⟩ := hvisit e (by simp) es
    · rw [hr]
      cases answer with
      | true => exact ih fun e he => hvisit e (by simp [he])
      | false => exact .inl ⟨(false, es'), rfl⟩
    · rw [hr]
      exact .inr ⟨rfl, hstops⟩

/-- A walk fails only where it comes to a type without a rule, or to one that cannot be measured. -/
theorem walk_outcome (hx : Comparable a x) : Outcome a b x y (walk a b n x y es) := by
  induction n generalizing x y es with
  | zero => exact .inl ⟨(false, es), rfl⟩
  | succ n ih =>
    cases hp : a.shape? (a.canonical x) with
    | none => exact .inl ⟨_, walk_foreign (.inl hp)⟩
    | some p =>
    cases hq : b.shape? (b.canonical y) with
    | none => exact .inl ⟨_, walk_foreign (.inr hq)⟩
    | some q =>
    rw [walk_succ hp hq]
    split_ifs
    · exact .inl ⟨_, rfl⟩
    · exact .inl ⟨_, rfl⟩
    · exact .inl ⟨_, rfl⟩
    · rw [compareNew_run, if_neg (by simp [hx.shape hp])]
      split
      · next hstop =>
        have hmeasure := sameExtent_eq_error.1 (stopped_of_edges hstop).1
        exact .inr ⟨rfl, hmeasure.imp (fun h => ⟨_, .refl, h⟩) fun h => ⟨_, .refl, h⟩⟩
      · exact .inl ⟨_, rfl⟩
      next found hfound =>
      obtain ⟨-, rfl⟩ := edges_eq_some.1 hfound
      refine walkAll_outcome fun e he es => ?_
      obtain ⟨hleft, hright⟩ := List.of_mem_zip he
      exact (ih (hx.child hp hleft)).imp_right fun h =>
        ⟨h.1, h.2.imp (fun h => h.of_child hp hleft) fun h => h.of_child hq hright⟩

/-! ## Corresponding types -/

theorem corresponds_eq (a b : DeclUnit) (x y : Ty) :
    corresponds a x b y = (walk a b (allowance a) x y []).map (·.1) := rfl

/-- Types correspond exactly if a walk answers yes. -/
theorem corresponds_eq_true :
    corresponds a x b y = .ok true ↔ ∃ es, walk a b (allowance a) x y [] = .ok (true, es) := by
  rw [corresponds_eq]
  rcases walk a b (allowance a) x y [] with c | ⟨answer, es⟩
  · simp [Except.map]
  · simp [Except.map]

/-- The pairs of a walk that answers yes are a pairing. -/
theorem pairing_of_walk (h : walk a b n x y [] = .ok (true, es)) :
    Pairing a b (fun x y => (x, y) ∈ es) ∧ (a.canonical x, b.canonical y) ∈ es := by
  obtain ⟨hgrown, hmem⟩ := walk_yes .nil h
  refine ⟨⟨fun h h' => ?_, fun h h' => ?_, fun {x y} he => ?_⟩, hmem⟩
  · exact congrArg Prod.snd (List.inj_on_of_nodup_map hgrown.entered.left h h' rfl)
  · exact congrArg Prod.fst (List.inj_on_of_nodup_map hgrown.entered.right h h' rfl)
  · obtain ⟨p, q, hp, hq, halike, hall⟩ := (hgrown.settled _ he).resolve_left (by simp)
    refine ⟨p, q, hp, hq, halike.cls_eq, halike, List.forall₂_iff_zip.2 ⟨halike.length_eq, fun {c d} hcd => ?_⟩⟩
    exact hall (c, d) hcd

/-- Where canonical types stand for themselves, they are a matching. -/
theorem matching_of_walk (ha : a.WellFormed) (hb : b.WellFormed) (h : walk a b n x y [] = .ok (true, es)) :
    Matching a b (fun x y => (x, y) ∈ es) ∧ (a.canonical x, b.canonical y) ∈ es := by
  obtain ⟨hR, hmem⟩ := pairing_of_walk h
  refine ⟨⟨fun he => ?_, hR.functional, hR.injective, hR.alike⟩, hmem⟩
  obtain ⟨x, y, he⟩ := (walk_yes .nil h).1.entered.canonical _ he
  cases he
  exact ⟨ha.canonical_canonical x, hb.canonical_canonical y⟩

/-- Types that a tracking relation pairs correspond, or a comparison of types that it pairs stops. -/
theorem corresponds_of_tracking {R : Ty → Ty → Prop} (hR : Tracking a b R)
    (hxy : R (a.canonical x) (b.canonical y)) :
    corresponds a x b y = .ok true ∨ corresponds a x b y = .error .overflow ∧ Halts a b R := by
  rw [corresponds_eq]
  obtain ⟨es, hes, -⟩ | ⟨hstop, hhalts⟩ := walk_tracked hR ⟨.nil, by simp⟩ hxy (n := allowance a)
    (by simp only [allowance, List.length_nil]; omega)
  · exact .inl (by rw [hes]; rfl)
  · exact .inr ⟨by rw [hstop]; rfl, hhalts⟩

/-- A pairing of two types decides for them, whatever it is a pairing of. -/
theorem corresponds_of_pairing {R : Ty → Ty → Prop} (hR : Pairing a b R) (hxy : R (a.canonical x) (b.canonical y)) :
    corresponds a x b y = .ok true :=
  (corresponds_of_tracking hR.tracking hxy).resolve_right fun h => hR.not_halts h.2

/-- Two types of reachable units of which the first can be compared correspond exactly if a matching pairs their
canonical types; unless they come to a type that cannot be measured, they do correspond or they do not. -/
theorem corresponds_iff_matching (ha : a.Reachable) (hb : b.Reachable) (hx : Comparable a x) :
    (corresponds a x b y = .ok true ↔ ∃ R, Matching a b R ∧ R (a.canonical x) (b.canonical y)) ∧
      ((∃ r, corresponds a x b y = .ok r) ∨ corresponds a x b y = .error .overflow ∧ (Stops a x ∨ Stops b y)) := by
  refine ⟨⟨fun h => ?_, ?_⟩, ?_⟩
  · obtain ⟨es, hr⟩ := corresponds_eq_true.1 h
    obtain ⟨hR, hmem⟩ := matching_of_walk ha.wellFormed hb.wellFormed hr
    exact ⟨_, hR, hmem⟩
  · rintro ⟨R, hR, hxy⟩
    exact corresponds_of_pairing hR.pairing hxy
  · rw [corresponds_eq]
    have houtcome : Outcome a b x y (walk a b (allowance a) x y []) := walk_outcome hx
    obtain ⟨⟨answer, es⟩, hr⟩ | ⟨hr, hstops⟩ := houtcome
    · exact .inl ⟨answer, by rw [hr]; rfl⟩
    · exact .inr ⟨by rw [hr]; rfl, hstops⟩

/-- Two lists of numbers, declared in another order and once under a typedef: a matching pairs the records. -/
theorem corresponds_iff_matching_list :
    let a := (DeclUnit.empty "a" .lp64).applyAll
      [.declareRecord .struct (some "list"), .intern (.builtin .int), .intern (.pointer ⟨0⟩),
        .completeRecord ⟨0⟩ [("value", ⟨1⟩), ("next", ⟨2⟩)]]
    let b := (DeclUnit.empty "b" .lp64).applyAll
      [.intern (.builtin .int), .declareRecord .struct (some "numbers"), .nameType "numbers" ⟨1⟩,
        .intern (.pointer ⟨2⟩), .completeRecord ⟨2⟩ [("number", ⟨0⟩), ("rest", ⟨4⟩)]]
    a.Reachable ∧ b.Reachable ∧ Comparable a ⟨0⟩ ∧ corresponds a ⟨0⟩ b ⟨2⟩ = .ok true ∧
      ∃ R, Matching a b R ∧ R ⟨0⟩ ⟨1⟩ := by
  intro a b
  have ha : a.Reachable := ⟨"a", .lp64, _, by decide +kernel, rfl⟩
  have hb : b.Reachable := ⟨"b", .lp64, _, by decide +kernel, rfl⟩
  have hx : Comparable a ⟨0⟩ := comparable_of_nodes (by decide +kernel) _
  have hyes : corresponds a ⟨0⟩ b ⟨2⟩ = .ok true := by decide +kernel
  obtain ⟨R, hR, hxy⟩ := (corresponds_iff_matching ha hb hx).1.1 hyes
  rw [show a.canonical ⟨0⟩ = ⟨0⟩ by decide +kernel, show b.canonical ⟨2⟩ = ⟨1⟩ by decide +kernel] at hxy
  exact ⟨ha, hb, hx, hyes, R, hR, hxy⟩

end Cognate.Correspondence
