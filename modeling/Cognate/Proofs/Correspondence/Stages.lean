import Cognate.Proofs.Correspondence.Walk
import Cognate.Proofs.Readings.Texts
import Mathlib.Logic.Function.Iterate

/-!
# Stages of a walk

A walk as a row of stages, without an allowance: the types entered on either side, the pairs still to be compared, and
at last the answer. `walk_follows` shows that the stages come to what the walk answers. One invariant holds at every
stage (`Stage.Sound`), so that all of them are bounded by the number of nodes, and what a stage looks up is there
(`Legible`).
-/

namespace Cognate.Correspondence

variable {a b u : DeclUnit} {x y t : Ty} {n : Nat} {es : Edges} {s : Shape}

/-! ## What a comparison looks up -/

/-- The types whose layout the layout of a shape is made of. -/
def measured (u : DeclUnit) : Shape → List Ty
  | .complex t | .constantArray t _ | .vector t _ _ | .atomic t => [t]
  | .enum id => (((u.enum? id).bind EnumDecl.body).map fun body => [body.base]).getD []
  | _ => []

/-- What is looked up for a type is there: its canonical node, which is no sugar, the record or enum behind it, and
what is looked up for its layout, which ends. -/
inductive Legible (u : DeclUnit) : Ty → Prop where
  | intro {t : Ty} {s : Shape} : u.shape? (u.canonical t) = some s → s.isSugar = false → u.Declared s →
      (∀ c ∈ measured u s, Legible u c) → Legible u t

theorem Legible.of_builtin {k : Builtin} (h : u.builtinKind? t = some k) : Legible u t := by
  have hs := DeclUnit.canonicalShape?_of_builtinKind? h
  rw [DeclUnit.canonicalShape?_eq (DeclUnit.contains_of_builtinKind? h)] at hs
  exact .intro hs rfl trivial (by simp [measured])

/-- The layout of a shape is made of that of its children, but for enums. -/
theorem measured_cases (hu : u.Closed) {c : Ty} (hc : c ∈ measured u s) :
    c ∈ s.children ∨ ∃ k, u.builtinKind? c = some k := by
  cases s with
  | enum id =>
    right
    simp only [measured] at hc
    cases hd : u.enum? id with
    | none => simp [hd] at hc
    | some d =>
    cases hbody : d.body with
    | none => simp [hd, hbody] at hc
    | some body =>
      obtain rfl : c = body.base := by simpa [hd, hbody] using hc
      exact hu.base hd hbody
  | complex | constantArray | vector | atomic => exact .inl (by simpa [measured, Shape.children] using hc)
  | _ => simp [measured] at hc

/-- By induction on the position of the node: canonical nodes stand no later, and children before their owner. -/
theorem legible (hw : u.WellFormed) (hu : u.Closed) (ht : u.contains t = true) : Legible u t := by
  induction hi : t.index using Nat.strong_induction_on generalizing t with
  | _ i ih =>
    subst hi
    obtain ⟨s, hs⟩ := DeclUnit.exists_shape (hw.contains_canonical ht)
    refine .intro hs (hw.isSugar_of_fixed hs (hw.canonical_canonical t)) (hu.declared hs) fun c hc => ?_
    rcases measured_cases hu hc with hm | ⟨k, hk⟩
    · have hlt := hw.child_lt hs hm
      have hle := hw.canonical_le ht
      exact ih _ (by omega) (hw.contains_child hs hm) rfl
    · exact .of_builtin hk

/-- What is compared next belongs to the unit. -/
theorem contains_compared (hw : u.WellFormed) (hu : u.Closed) (hs : u.shape? t = some s) :
    ∀ c ∈ compared u s, u.contains c = true := by
  intro c hc
  have hchild : c ∈ s.children → u.contains c = true := hw.contains_child hs
  cases s with
  | record id =>
    simp only [compared] at hc
    cases hd : u.record? id with
    | none => simp [hd] at hc
    | some d =>
    cases hbody : d.body with
    | none => simp [hd, hbody] at hc
    | some body =>
      obtain ⟨m, hm, rfl⟩ : ∃ m ∈ body.members, m.type = c := by simpa [hd, hbody] using hc
      exact hu.member hd hbody m hm
  | enum id =>
    simp only [compared] at hc
    cases hd : u.enum? id with
    | none => simp [hd] at hc
    | some d =>
    cases hbody : d.body with
    | none => simp [hd, hbody] at hc
    | some body =>
      obtain rfl : c = body.base := by simpa [hd, hbody] using hc
      obtain ⟨k, hk⟩ := hu.base hd hbody
      exact DeclUnit.contains_of_builtinKind? hk
  | memberPointer pointee owner =>
    obtain rfl : c = pointee := by simpa [compared] using hc
    exact hchild (by simp [Shape.children])
  | prototype result params variadic traits => exact hchild (by simpa [compared, Shape.children] using hc)
  | _ => exact hchild (by simp_all [compared, Shape.children])

/-! ## Stages -/

/-- A walk between two steps: the types entered on either side, in order, the pairs that are still to be compared, the
next one first, and the answer, if there is one. -/
structure Stage where
  left : List Ty
  right : List Ty
  pending : Edges
  answer : Option (Except Stop Bool)

namespace Stage

/-- The first stage of a walk. -/
def first (x y : Ty) : Stage := ⟨[], [], [(x, y)], none⟩

/-- The stage of a walk that has entered these pairs. -/
def between (es pending : Edges) : Stage := ⟨es.map (·.1), es.map (·.2), pending, none⟩

def ends (g : Stage) (answer : Except Stop Bool) : Stage := { g with answer := some answer }

/-- Puts what has to correspond for two types of these shapes, which have just been entered, in front. -/
def compareNew (a b : DeclUnit) (g : Stage) (x y : Ty) (p q : Shape) : Stage :=
  if p.cls.isIncomparable then g.ends (.error (.unsupported p.cls))
  else
    match edges ⟨a, x⟩ ⟨b, y⟩ p q with
    | .error _ => g.ends (.error .overflow)
    | .ok none => g.ends (.ok false)
    | .ok (some found) => { g with pending := found ++ g.pending }

/-- Compares a pair that stood in front of all that is pending. -/
def compare (a b : DeclUnit) (g : Stage) (x y : Ty) : Stage :=
  match a.shape? (a.canonical x), b.shape? (b.canonical y) with
  | some p, some q =>
    if p.cls ≠ q.cls then g.ends (.ok false)
    else if g.left.idxOf? (a.canonical x) ≠ g.right.idxOf? (b.canonical y) then g.ends (.ok false)
    else if (g.left.idxOf? (a.canonical x)).isSome then g
    else
      compareNew a b { g with left := g.left ++ [a.canonical x], right := g.right ++ [b.canonical y] }
        (a.canonical x) (b.canonical y) p q
  | _, _ => g.ends (.ok false)

/-- One step; behind the answer nothing happens. -/
def next (a b : DeclUnit) (g : Stage) : Stage :=
  match g.answer, g.pending with
  | some _, _ => g
  | none, [] => g.ends (.ok true)
  | none, (x, y) :: rest => { g with pending := rest }.compare a b x y

/-- Some steps lead from one stage to the other. -/
def Leads (a b : DeclUnit) (g h : Stage) : Prop := ∃ k, (next a b)^[k] g = h

variable {g h i : Stage}

theorem Leads.refl (g : Stage) : Leads a b g g := ⟨0, rfl⟩

theorem Leads.head (hgh : next a b g = h) (hhi : Leads a b h i) : Leads a b g i := by
  obtain ⟨k, hk⟩ := hhi
  exact ⟨k + 1, by rw [Function.iterate_succ_apply, hgh, hk]⟩

theorem Leads.trans (hgh : Leads a b g h) (hhi : Leads a b h i) : Leads a b g i := by
  obtain ⟨k, rfl⟩ := hgh
  obtain ⟨m, rfl⟩ := hhi
  exact ⟨m + k, Function.iterate_add_apply _ m k g⟩

/-! ## Stages and walks -/

/-- The stages from `g` on come to an outcome of a walk: `rest` is what is left to be compared then. -/
def Follows (a b : DeclUnit) (g : Stage) (rest : Edges) : Except Stop (Bool × Edges) → Prop
  | .ok (true, es) => Leads a b g (between es rest)
  | .ok (false, _) => ∃ h, Leads a b g h ∧ h.answer = some (.ok false)
  | .error c => ∃ h, Leads a b g h ∧ h.answer = some (.error c)

theorem Follows.head {rest : Edges} {r : Except Stop (Bool × Edges)} (hgh : Leads a b g h)
    (hr : Follows a b h rest r) : Follows a b g rest r := by
  rcases r with c | ⟨_ | _, es⟩
  · obtain ⟨i, hi, hanswer⟩ := hr
    exact ⟨i, hgh.trans hi, hanswer⟩
  · obtain ⟨i, hi, hanswer⟩ := hr
    exact ⟨i, hgh.trans hi, hanswer⟩
  · exact hgh.trans hr

/-- Behind a walk that leaves nothing comes its answer. -/
theorem Follows.answer {r : Except Stop (Bool × Edges)} (hr : Follows a b g [] r) :
    ∃ k, ((next a b)^[k] g).answer = some (r.map (·.1)) := by
  rcases r with c | ⟨_ | _, es⟩
  · obtain ⟨h, ⟨k, rfl⟩, hanswer⟩ := hr
    exact ⟨k, hanswer⟩
  · obtain ⟨h, ⟨k, rfl⟩, hanswer⟩ := hr
    exact ⟨k, hanswer⟩
  · obtain ⟨k, hk⟩ := hr
    refine ⟨k + 1, ?_⟩
    rw [Function.iterate_succ_apply', hk]
    rfl

theorem walkAll_follows {visit : Ty → Ty → Walk Bool} {found : Edges} (least : Nat) (rest : Edges)
    (hvisit : ∀ {x y es} (rest : Edges), Entered a b es → least ≤ es.length →
      Follows a b (between es ((x, y) :: rest)) rest (visit x y es))
    (hyes : ∀ {x y es es'}, Entered a b es → visit x y es = .ok (true, es') → Grown a b es es')
    (hes : Entered a b es) (hlen : least ≤ es.length) :
    Follows a b (between es (found ++ rest)) rest (walkAll visit found es) := by
  induction found generalizing es with
  | nil => exact .refl _
  | cons e found ih =>
    have hstep := hvisit (x := e.1) (y := e.2) (found ++ rest) hes hlen
    rw [walkAll_cons]
    cases hr : visit e.1 e.2 es with
    | error c =>
      rw [hr] at hstep
      exact hstep
    | ok r =>
      rw [hr] at hstep
      rcases r with ⟨_ | _, mid⟩
      · exact hstep
      · have hgrown := hyes hes hr
        exact .head hstep (ih hgrown.entered (hlen.trans (hgrown.length_le hes)))

/-- By induction on the allowance, which lasts: each case of a walk is one step, and then those of what it compares. -/
theorem walk_follows (hes : Entered a b es) (hn : min a.size b.size + 1 ≤ n + es.length) (rest : Edges) :
    Follows a b (between es ((x, y) :: rest)) rest (walk a b n x y es) := by
  induction n generalizing x y es rest with
  | zero =>
    have := hes.length_le
    omega
  | succ n ih =>
    cases hp : a.shape? (a.canonical x) with
    | none =>
      rw [walk_foreign (.inl hp)]
      refine ⟨_, .head rfl (.refl _), ?_⟩
      simp [next, between, compare, ends, hp]
    | some p =>
    cases hq : b.shape? (b.canonical y) with
    | none =>
      rw [walk_foreign (.inr hq)]
      refine ⟨_, .head rfl (.refl _), ?_⟩
      simp [next, between, compare, ends, hp, hq]
    | some q =>
    have hstep : ∀ {g : Stage}, next a b (between es ((x, y) :: rest)) = g →
        ∀ {r}, Follows a b g rest r → Follows a b (between es ((x, y) :: rest)) rest r :=
      fun hg _ hr => .head (.head hg (.refl _)) hr
    rw [walk_succ hp hq]
    split_ifs with hcls hpos hseen
    · refine hstep (g := (between es rest).ends (.ok false)) ?_ ⟨_, .refl _, rfl⟩
      simp only [next, between, compare, hp, hq, if_pos hcls]
    · refine hstep (g := (between es rest).ends (.ok false)) ?_ ⟨_, .refl _, rfl⟩
      simp only [next, between, compare, hp, hq, if_neg hcls]
      exact if_pos hpos
    · refine hstep (g := between es rest) ?_ (.refl _)
      rw [not_not] at hcls hpos
      simp only [next, between, compare, hp, hq, hcls, ne_eq, hpos, not_true_eq_false, if_false]
      rw [hpos] at hseen
      rw [if_pos hseen]
    · rw [not_not] at hcls hpos
      obtain ⟨hnx, hny⟩ := new_of_position_eq hpos hseen
      have hentered := hes.concat (DeclUnit.contains_of_shape? hp) (DeclUnit.contains_of_shape? hq) hnx hny
      have hnew : next a b (between es ((x, y) :: rest)) =
          compareNew a b (between (es ++ [(a.canonical x, b.canonical y)]) rest)
            (a.canonical x) (b.canonical y) p q := by
        rw [hpos] at hseen
        simp only [next, between, compare, hp, hq, hcls, hpos, ne_eq, not_true_eq_false, if_false, if_neg hseen,
          List.map_append, List.map_cons, List.map_nil]
      rw [compareNew_run]
      split_ifs with hinc
      · refine hstep hnew ⟨_, .refl _, ?_⟩
        simp only [compareNew, if_pos hinc, ends]
      · rcases hfound : edges ⟨a, a.canonical x⟩ ⟨b, b.canonical y⟩ p q with o | _ | found
        · refine hstep hnew ⟨_, .refl _, ?_⟩
          simp only [compareNew, if_neg hinc, hfound, ends]
        · refine hstep hnew ⟨_, .refl _, ?_⟩
          simp only [compareNew, if_neg hinc, hfound, ends]
        · refine hstep hnew ?_
          simp only [compareNew, if_neg hinc, hfound]
          refine walkAll_follows (es.length + 1) rest (fun rest hes' hlen => ?_) (fun hes' h => (walk_yes hes' h).1)
            hentered (by simp)
          exact ih hes' (by omega) rest

/-! ## What holds at every stage -/

/-- The types entered are those of a walk, and all that is pending belongs to the units, but for the pair `(x, y)` that
a walk begins with. -/
structure Sound (a b : DeclUnit) (x y : Ty) (g : Stage) : Prop where
  entered : ∃ es, Entered a b es ∧ g.left = es.map (·.1) ∧ g.right = es.map (·.2)
  pending : ∀ e ∈ g.pending, e = (x, y) ∨ a.contains e.1 = true ∧ b.contains e.2 = true

theorem Sound.first (a b : DeclUnit) (x y : Ty) : Sound a b x y (.first x y) :=
  ⟨⟨[], .nil, rfl, rfl⟩, fun _ he => .inl (List.mem_singleton.1 he)⟩

theorem Sound.ends (hg : Sound a b x y g) (answer : Except Stop Bool) : Sound a b x y (g.ends answer) :=
  ⟨hg.entered, hg.pending⟩

variable {x' y' : Ty} {p q : Shape}

theorem Sound.compareNew (ha : a.Built) (hb : b.Built) (hg : Sound a b x y g)
    (hp : a.shape? x' = some p) (hq : b.shape? y' = some q) : Sound a b x y (compareNew a b g x' y' p q) := by
  unfold Stage.compareNew
  split_ifs
  · exact hg.ends _
  · split
    · exact hg.ends _
    · exact hg.ends _
    · next found hfound =>
      obtain ⟨-, rfl⟩ := edges_eq_some.1 hfound
      refine ⟨hg.entered, fun e he => ?_⟩
      rcases List.mem_append.1 he with hnew | hold
      · obtain ⟨hl, hr⟩ := List.of_mem_zip hnew
        right
        constructor
        · exact contains_compared ha.wellFormed ha.closed hp _ hl
        · exact contains_compared hb.wellFormed hb.closed hq _ hr
      · exact hg.pending e hold

theorem Sound.compare (ha : a.Built) (hb : b.Built) (hg : Sound a b x y g) :
    Sound a b x y (compare a b g x' y') := by
  unfold Stage.compare
  split
  next p q hp hq =>
    split_ifs with hcls hpos hseen
    · exact hg.ends _
    · exact hg.ends _
    · exact hg
    · rw [not_not] at hpos
      refine Sound.compareNew ha hb ⟨?_, hg.pending⟩ hp hq
      obtain ⟨es, hes, hl, hr⟩ := hg.entered
      rw [hl, hr] at hpos
      rw [hl] at hseen
      obtain ⟨hnx, hny⟩ := new_of_position_eq hpos hseen
      refine ⟨es ++ [(a.canonical x', b.canonical y')], ?_, by simp [hl], by simp [hr]⟩
      exact hes.concat (DeclUnit.contains_of_shape? hp) (DeclUnit.contains_of_shape? hq) hnx hny
  · exact hg.ends _

theorem Sound.next (ha : a.Built) (hb : b.Built) (hg : Sound a b x y g) : Sound a b x y (next a b g) := by
  unfold Stage.next
  split
  · exact hg
  · exact hg.ends _
  · next x' y' rest _ hpending =>
    refine Sound.compare ha hb ⟨hg.entered, fun e he => hg.pending e ?_⟩
    rw [hpending]
    exact List.mem_cons_of_mem _ he

theorem Sound.iterate (ha : a.Built) (hb : b.Built) (hg : Sound a b x y g) (k : Nat) :
    Sound a b x y ((Stage.next a b)^[k] g) := by
  induction k generalizing g with
  | zero => exact hg
  | succ k ih => exact ih (hg.next ha hb)

end Stage

/-- A walk over two units, each built by operations or from texts, ends with the answer of `corresponds`, whatever it
starts with. At each of its stages as many types are entered on either side, none of them twice and no more than either
unit has nodes. They are canonical, and so are no sugar; what has to be looked up for them, and for all that is pending,
is there, unless it is a handle that the walk was given and that does not belong to its unit. -/
theorem walk_stages (ha : a.Built) (hb : b.Built) (x y : Ty) :
    (∃ k, ((Stage.next a b)^[k] (.first x y)).answer = some (corresponds a x b y)) ∧
      ∀ k, let g := (Stage.next a b)^[k] (.first x y)
        g.left.length = g.right.length ∧ g.left.Nodup ∧ g.right.Nodup ∧ g.left.length ≤ min a.size b.size ∧
        (∀ t ∈ g.left, a.canonical t = t ∧ Legible a t) ∧ (∀ t ∈ g.right, b.canonical t = t ∧ Legible b t) ∧
        ∀ e ∈ g.pending,
          e = (x, y) ∧ (a.contains x = false ∨ b.contains y = false) ∨ Legible a e.1 ∧ Legible b e.2 := by
  constructor
  · have hlast : min a.size b.size + 1 ≤ allowance a + ([] : Edges).length := by
      simp only [allowance, List.length_nil]
      omega
    have hfollows := Stage.walk_follows (x := x) (y := y) .nil hlast []
    exact hfollows.answer
  · intro k g
    obtain ⟨⟨es, hes, hl, hr⟩, hpending⟩ := (Stage.Sound.first a b x y).iterate ha hb k
    change g.left = _ at hl
    change g.right = _ at hr
    have hleft : ∀ t ∈ g.left, a.canonical t = t ∧ Legible a t := by
      intro t ht
      rw [hl] at ht
      obtain ⟨e, he, rfl⟩ := List.mem_map.1 ht
      refine ⟨?_, legible ha.wellFormed ha.closed (hes.contains e he).1⟩
      obtain ⟨x', y', rfl⟩ := hes.canonical e he
      exact ha.wellFormed.canonical_canonical x'
    have hright : ∀ t ∈ g.right, b.canonical t = t ∧ Legible b t := by
      intro t ht
      rw [hr] at ht
      obtain ⟨e, he, rfl⟩ := List.mem_map.1 ht
      refine ⟨?_, legible hb.wellFormed hb.closed (hes.contains e he).2⟩
      obtain ⟨x', y', rfl⟩ := hes.canonical e he
      exact hb.wellFormed.canonical_canonical y'
    refine ⟨by simp [hl, hr], hl ▸ hes.left, hr ▸ hes.right, by simpa [hl] using hes.length_le, hleft, hright, ?_⟩
    intro e he
    rcases hpending e he with rfl | ⟨hx, hy⟩
    · by_cases hin : a.contains x = true ∧ b.contains y = true
      · exact .inr ⟨legible ha.wellFormed ha.closed hin.1, legible hb.wellFormed hb.closed hin.2⟩
      · exact .inl ⟨rfl, by simpa only [not_and_or, Bool.not_eq_true] using hin⟩
    · exact .inr ⟨legible ha.wellFormed ha.closed hx, legible hb.wellFormed hb.closed hy⟩

/-- Two records that point to each other, compared with one from a text that points to itself: their shapes do not line
up, and the walk ends with that after two pairs. -/
theorem walk_stages_cycles :
    let a := (DeclUnit.empty "a" .lp64).applyAll
      [.declareRecord .struct (some "even"), .declareRecord .struct (some "odd"), .intern (.pointer ⟨0⟩),
        .intern (.pointer ⟨1⟩), .completeRecord ⟨0⟩ [("next", ⟨3⟩)], .completeRecord ⟨1⟩ [("next", ⟨2⟩)]]
    let b := ((DeclUnit.empty "b" .lp64).declare "struct any \x7b struct any *next; \x7d;").2
    a.Built ∧ b.Built ∧
      (∃ k, ((Stage.next a b)^[k] (.first ⟨0⟩ ⟨0⟩)).answer = some (.ok false)) ∧
      (∃ k, ((Stage.next a a)^[k] (.first ⟨0⟩ ⟨1⟩)).answer = some (.ok true)) ∧
      ∀ k, ((Stage.next a b)^[k] (.first ⟨0⟩ ⟨0⟩)).left.length ≤ 2 := by
  intro a b
  have ha : a.Built := .inl ⟨"a", .lp64, _, by decide +kernel, rfl⟩
  have hb : b.Built := .inr (.declare _ (.empty "b" .lp64))
  obtain ⟨hno, hstages⟩ := walk_stages ha hb ⟨0⟩ ⟨0⟩
  obtain ⟨hyes, -⟩ := walk_stages ha ha ⟨0⟩ ⟨1⟩
  rw [show corresponds a ⟨0⟩ b ⟨0⟩ = .ok false by decide +kernel] at hno
  rw [show corresponds a ⟨0⟩ a ⟨1⟩ = .ok true by decide +kernel] at hyes
  refine ⟨ha, hb, hno, hyes, fun k => (hstages k).2.2.2.1.trans ?_⟩
  decide +kernel

end Cognate.Correspondence
