import Cognate.Grammar.Rules
import Cognate.Proofs.Unit.Declared

/-!
# What readers keep

A reader that starts with a written unit leaves a written unit that has grown, however it ends. `Keeps` says so, with
what is known of an answer and the unit at that point; a part of a reader that only looks at tokens `Looks`. The rules
for steps and loops are stated here, and those for the single readers are assembled from them.
-/

namespace Cognate.Grammar

variable {α β σ : Type} {u v : DeclUnit} {p : Parse α} {f : α → Parse β} {shape : Shape}

/-! ## Runs of the single steps -/

theorem bind_run (p : Parse α) (f : α → Parse β) (s : State) : (p >>= f) s =
    match p s with
    | .ok a s => f a s
    | .error e s => .error e s := by
  change EStateM.bind p f s = _
  unfold EStateM.bind
  cases p s <;> rfl

theorem get_bind_run (k : State → Parse α) (s : State) : (get >>= k) s = k s s := rfl

theorem unit_bind_run (k : DeclUnit → Parse α) (s : State) : (unit >>= k) s = k s.unit s := rfl

theorem build_bind_run (f : DeclUnit → Ty × DeclUnit) (k : Ty → Parse α) (s : State) :
    (build f >>= k) s = k (f s.unit).1 { s with unit := (f s.unit).2 } := rfl

theorem advance_run (s : State) : advance s =
    match takeItem s.stop s.ahead with
    | .ok (t, ahead) => .ok s.current { s with current := t, ahead }
    | .error fault => .error fault s := by
  rw [advance, get_bind_run]
  cases takeItem s.stop s.ahead <;> rfl

theorem peek_run (s : State) : peek s =
    match takeItem s.stop s.ahead with
    | .ok (t, _) => .ok t.token s
    | .error fault => .error fault s := by
  rw [peek, get_bind_run]
  cases takeItem s.stop s.ahead <;> rfl

theorem define_run (span : Span) (g : DeclUnit → Except TypeFault α × DeclUnit) (s : State) : define span g s =
    match g s.unit with
    | (.ok a, v) => .ok a { s with unit := v }
    | (.error fault, v) => .error ⟨.type fault, span⟩ { s with unit := v } := by
  rw [define, get_bind_run]
  rcases g s.unit with ⟨_ | _, v⟩ <;> rfl

theorem measured_run (t : Ty) (span : Span) (s : State) : measured t span s =
    match s.unit.measure t with
    | .ok e => .ok e s
    | .error _ => .error ⟨.type .stopped, span⟩ s := by
  rw [measured, unit_bind_run]
  cases s.unit.measure t <;> rfl

theorem loopFor_run (round : σ → Parse (Round σ α)) (n : Nat) (x : σ) (s : State) : loopFor round (n + 1) x s =
    match round x s with
    | .ok (.again y) t => loopFor round n y t
    | .ok (.done a) t => .ok a t
    | .error fault t => .error fault t := by
  rw [loopFor, bind_run]
  cases round x s with
  | error fault t => rfl
  | ok r t => cases r <;> rfl

/-! ## What is left to read -/

/-- The tokens from the one that is looked at to the end, which is none. -/
def State.left (s : State) : Nat := s.ahead.length + if s.current.token = .finish then 0 else 1

/-- A loop has a round for each token, and one that ends it. -/
theorem State.left_lt_allowance (s : State) : s.left < s.allowance := by
  unfold left allowance
  split <;> omega

/-- Moving on leaves no more tokens, and fewer in front of the end. -/
theorem State.left_take {s : State} {l : Lexed} {ahead : List (Except Fault Lexed)}
    (h : takeItem s.stop s.ahead = .ok (l, ahead)) : State.left { s with current := l, ahead } ≤ s.left ∧
      (s.current.token ≠ .finish → State.left { s with current := l, ahead } < s.left) := by
  unfold left
  cases hitems : s.ahead with
  | nil =>
    rw [hitems] at h
    cases h
    exact ⟨by simp [finishAt], fun hne => by simp [finishAt, hne]⟩
  | cons item items =>
    rw [hitems] at h
    cases item with
    | error fault => cases h
    | ok l =>
      cases h
      simp only [List.length_cons]
      refine ⟨?_, fun hne => ?_⟩
      · split <;> omega
      · rw [if_neg hne]
        split <;> omega

/-! ## Sound states -/

/-- If the token is a name, it is a word. -/
def Named (l : Lexed) : Prop := ∀ text, l.token = .name text → IsName text

/-- The unit is written, and all names still to be read are words. -/
structure State.Sound (s : State) : Prop where
  unit : s.unit.Written
  current : Named s.current
  ahead : ∀ l, .ok l ∈ s.ahead → Named l

/-- From unit `u`, the reader leaves a written unit that has grown, and an answer for which `Q` holds there. -/
def Keeps (u : DeclUnit) (p : Parse α) (Q : α → DeclUnit → Prop) : Prop :=
  ∀ s : State, s.Sound → s.unit = u →
    match p s with
    | .ok a s' => s'.Sound ∧ u.Grows s'.unit ∧ Q a s'.unit
    | .error _ s' => s'.Sound ∧ u.Grows s'.unit

theorem Keeps.of_ok {Q : α → DeclUnit → Prop} {s s' : State} {a : α} (hp : Keeps s.unit p Q) (hs : s.Sound)
    (h : p s = .ok a s') : s'.Sound ∧ s.unit.Grows s'.unit ∧ Q a s'.unit := by
  have hr := hp s hs rfl
  rwa [h] at hr

/-- The reader leaves the unit as it is. -/
def Looks (u : DeclUnit) (p : Parse α) (Q : α → Prop) : Prop := Keeps u p fun a v => v = u ∧ Q a

/-! ## Steps -/

theorem Keeps.of_written {Q : α → DeclUnit → Prop} (h : u.Written → Keeps u p Q) : Keeps u p Q :=
  fun s hs hu => h (hu ▸ hs.unit) s hs hu

theorem Keeps.pure {Q : α → DeclUnit → Prop} {a : α} (h : Q a u) : Keeps u (pure a) Q := by
  rintro s hs rfl
  exact ⟨hs, .refl _, h⟩

theorem Looks.pure {Q : α → Prop} {a : α} (h : Q a) : Looks u (Pure.pure a) Q := Keeps.pure ⟨rfl, h⟩

theorem Keeps.bind {Q : α → DeclUnit → Prop} {R : β → DeclUnit → Prop} (hp : Keeps u p Q)
    (hf : ∀ a v, u.Grows v → v.Written → Q a v → Keeps v (f a) R) : Keeps u (p >>= f) R := by
  intro s hs hu
  have h := hp s hs hu
  change match EStateM.bind p f s with | .ok a s' => _ | .error _ s' => _
  unfold EStateM.bind
  cases hr : p s with
  | error e s' =>
    rw [hr] at h
    exact h
  | ok a s' =>
    rw [hr] at h
    obtain ⟨hs', hgrows, hq⟩ := h
    have h' := hf a s'.unit hgrows hs'.unit hq s' hs' rfl
    dsimp only
    split at h'
    · exact ⟨h'.1, hgrows.trans h'.2.1, h'.2.2⟩
    · exact ⟨h'.1, hgrows.trans h'.2⟩

theorem Keeps.map {Q : α → DeclUnit → Prop} {g : α → β} (hp : Keeps u p Q) : Keeps u (g <$> p) fun _ _ => True := by
  intro s hs hu
  have h := hp s hs hu
  change match EStateM.map g p s with | .ok _ s' => _ | .error _ s' => _
  unfold EStateM.map
  cases hr : p s with
  | error e s' =>
    rw [hr] at h
    exact h
  | ok a s' =>
    rw [hr] at h
    exact ⟨h.1, h.2.1, trivial⟩

theorem Looks.bind {Q : α → Prop} {R : β → DeclUnit → Prop} (hp : Looks u p Q) (hf : ∀ a, Q a → Keeps u (f a) R) :
    Keeps u (p >>= f) R :=
  Keeps.bind hp fun a _ _ _ ⟨he, hq⟩ => he ▸ hf a hq

theorem Keeps.weaken {Q R : α → DeclUnit → Prop} (hp : Keeps u p Q) (h : ∀ a v, u.Grows v → v.Written → Q a v → R a v) :
    Keeps u p R := by
  intro s hs hu
  have hr := hp s hs hu
  split at hr
  · exact ⟨hr.1, hr.2.1, h _ _ hr.2.1 hr.1.unit hr.2.2⟩
  · exact hr

theorem Looks.weaken {Q R : α → Prop} (hp : Looks u p Q) (h : ∀ a, Q a → R a) : Looks u p R :=
  Keeps.weaken hp fun a _ _ _ ⟨he, hq⟩ => ⟨he, h a hq⟩

theorem Looks.keeps {Q : α → Prop} (hp : Looks u p Q) : Keeps u p fun _ _ => True :=
  Keeps.weaken hp fun _ _ _ _ _ => trivial

theorem Keeps.ite {Q : α → DeclUnit → Prop} {c : Prop} [Decidable c] {q : Parse α} (hp : c → Keeps u p Q)
    (hq : ¬c → Keeps u q Q) : Keeps u (if c then p else q) Q := by
  split
  · next h => exact hp h
  · next h => exact hq h

theorem keeps_fail {Q : α → DeclUnit → Prop} (cause : Cause) (span : Span) : Keeps u (fail cause span : Parse α) Q := by
  rintro s hs rfl
  exact ⟨hs, .refl _⟩

/-! ## Looking and moving on -/

/-- Reading a part of the state that does not move. -/
theorem looks_get {Q : α → Prop} {g : State → α} (h : ∀ s : State, s.Sound → s.unit = u → Q (g s)) :
    Looks u (return g (← get)) Q := by
  rintro s hs rfl
  exact ⟨hs, .refl _, rfl, h s hs rfl⟩

theorem looks_current : Looks u current Named := looks_get fun _ hs _ => hs.current

theorem looks_here : Looks u here fun _ => True := looks_get fun _ _ _ => trivial

theorem looks_atEnd : Looks u atEnd fun _ => True := looks_get fun _ _ _ => trivial

theorem looks_check (t : Token) : Looks u (check t) fun _ => True := looks_get fun _ _ _ => trivial

theorem looks_unit : Looks u unit fun v => v = u := looks_get fun _ _ hu => hu

theorem looks_measured (t : Ty) (span : Span) : Looks u (measured t span) fun e => u.measure t = .ok e := by
  rintro s hs rfl
  rw [measured_run]
  cases he : s.unit.measure t with
  | error o => exact ⟨hs, .refl _⟩
  | ok e => exact ⟨hs, .refl _, rfl, rfl⟩

theorem takeItem_named {stop : Nat} {items items' : List (Except Fault Lexed)} {l : Lexed}
    (h : takeItem stop items = .ok (l, items')) (hall : ∀ l, .ok l ∈ items → Named l) :
    Named l ∧ ∀ l, .ok l ∈ items' → Named l := by
  unfold takeItem at h
  split at h
  · cases h
    exact ⟨fun text ht => by simp [finishAt] at ht, hall⟩
  · cases h
    exact ⟨hall l (by simp), fun l' hl' => hall l' (by simp [hl'])⟩
  · cases h

theorem looks_advance : Looks u advance Named := by
  rintro s hs rfl
  rw [advance_run]
  cases ht : takeItem s.stop s.ahead with
  | error fault => exact ⟨hs, .refl _⟩
  | ok r =>
    obtain ⟨hl, hall⟩ := takeItem_named ht hs.ahead
    exact ⟨⟨hs.unit, hl, hall⟩, .refl _, rfl, hs.current⟩

theorem looks_peek : Looks u peek fun _ => True := by
  rintro s hs rfl
  rw [peek_run]
  cases takeItem s.stop s.ahead with
  | error fault => exact ⟨hs, .refl _⟩
  | ok r => exact ⟨hs, .refl _, rfl, trivial⟩

theorem looks_accept (t : Token) : Looks u (accept t) fun _ => True := by
  unfold accept
  refine (looks_check t).bind fun b _ => .ite (fun _ => ?_) fun _ => .pure ⟨rfl, trivial⟩
  exact looks_advance.bind fun _ _ => .pure ⟨rfl, trivial⟩

theorem looks_expect (mark : Punct) : Looks u (expect mark) fun _ => True := by
  unfold expect
  refine looks_current.bind fun t _ => .ite (fun _ => ?_) fun _ => keeps_fail _ _
  exact looks_advance.weaken fun _ _ => trivial

theorem looks_name? : Looks u name? fun r => ∀ found, r = some found → IsName found.1 := by
  unfold name?
  refine looks_current.bind fun l hl => ?_
  split
  · next text ht =>
    refine looks_advance.bind fun _ _ => .pure ⟨rfl, ?_⟩
    rintro _ ⟨⟩
    exact hl text ht
  · exact .pure ⟨rfl, by simp⟩

theorem looks_name : Looks u name fun found => IsName found.1 := by
  unfold name
  refine looks_name?.bind fun r hr => ?_
  split
  · next found => exact .pure ⟨rfl, hr found rfl⟩
  · exact looks_current.bind fun _ _ => keeps_fail _ _

/-! ## Building -/

theorem keeps_build {Q : Ty → DeclUnit → Prop} {g : DeclUnit → Ty × DeclUnit} (hw : (g u).2.Written)
    (hgrows : u.Grows (g u).2) (hq : Q (g u).1 (g u).2) : Keeps u (build g) Q := by
  rintro s hs rfl
  exact ⟨⟨hw, hs.current, hs.ahead⟩, hgrows, hq⟩

/-- Interning a shape that is no typedef: its node can be used. -/
theorem keeps_intern (hc : ∀ c ∈ shape.children, u.Usable c) (htagged : shape.isTagged = false)
    (hs : ∀ t, u.Writes t shape) : Keeps u (intern shape) fun t v => v.shape? t = some shape := by
  unfold intern
  refine .of_written fun hu => ?_
  obtain ⟨hw, hgrows⟩ := hu.intern hc htagged hs
  exact keeps_build hw hgrows (hu.shape?_intern hc)

/-- A definition that leaves the unit written and grown, be it that it is refused. -/
theorem keeps_define {span : Span} {g : DeclUnit → Except TypeFault α × DeclUnit}
    (h : u.Written → (g u).2.Written ∧ u.Grows (g u).2) : Keeps u (define span g) fun a v => g u = (.ok a, v) := by
  rintro s hs rfl
  rw [define_run]
  obtain ⟨hw, hgrows⟩ := h hs.unit
  rcases hg : g s.unit with ⟨outcome, v⟩
  rw [hg] at hw hgrows
  cases outcome with
  | error fault => exact ⟨⟨hw, hs.current, hs.ahead⟩, hgrows⟩
  | ok a => exact ⟨⟨hw, hs.current, hs.ahead⟩, hgrows, rfl⟩

/-- A definition that leaves the unit as it was where it is refused. -/
theorem keeps_allOrNothing {span : Span} {g : DeclUnit → Except TypeFault Unit × DeclUnit} (hg : u.AllOrNothing (g u))
    (h : u.Written → ∀ v, g u = (.ok (), v) → v.Written ∧ u.Grows v) :
    Keeps u (define span g) fun _ v => g u = (.ok (), v) :=
  keeps_define fun hu => hg.cases ⟨hu, .refl u⟩ (h hu)

/-! ## Loops -/

/-- Rounds that keep an invariant of the loop's state and the unit. -/
theorem keeps_loopFor {round : σ → Parse (Round σ α)} {I : σ → DeclUnit → Prop} {Q : α → DeclUnit → Prop}
    (hround : ∀ x v, u.Grows v → v.Written → I x v → Keeps v (round x) fun r w =>
      (∀ y, r = .again y → I y w) ∧ ∀ a, r = .done a → Q a w)
    {n : Nat} {x : σ} (hv : u.Grows v) (hx : I x v) : Keeps v (loopFor round n x) Q := by
  induction n generalizing v x with
  | zero => exact looks_here.bind fun _ _ => keeps_fail _ _
  | succ n ih =>
    refine .of_written fun hw => (hround x v hv hw hx).bind fun r w hgrows _ hr => ?_
    cases r with
    | again y => exact ih (hv.trans hgrows) (hr.1 y rfl)
    | done a => exact .pure (hr.2 a rfl)

theorem keeps_loop {round : σ → Parse (Round σ α)} {start : σ} (I : σ → DeclUnit → Prop) {Q : α → DeclUnit → Prop}
    (hstart : I start u)
    (hround : ∀ x v, u.Grows v → v.Written → I x v → Keeps v (round x) fun r w =>
      (∀ y, r = .again y → I y w) ∧ ∀ a, r = .done a → Q a w) : Keeps u (loop start round) Q := by
  rintro s hs rfl
  exact keeps_loopFor hround (.refl _) hstart s hs rfl

theorem looks_loop {round : σ → Parse (Round σ α)} {start : σ} (hround : ∀ x, Looks u (round x) fun _ => True) :
    Looks u (loop start round) fun _ => True := by
  unfold loop
  refine keeps_loop (fun _ v => v = u) rfl fun x v _ _ hv => ?_
  subst hv
  exact Keeps.weaken (hround x) fun r w _ _ ⟨hw, _⟩ => ⟨fun _ _ => hw, fun _ _ => ⟨hw, trivial⟩⟩

/-! ## Skipping -/

theorem looks_skipGroup : Looks u skipGroup fun _ => True := by
  unfold skipGroup
  refine looks_advance.bind fun opening _ => looks_loop fun depth => ?_
  refine looks_current.bind fun l _ => ?_
  dsimp only
  refine .ite (fun _ => keeps_fail _ _) fun _ => ?_
  exact looks_advance.bind fun _ _ => .pure ⟨rfl, trivial⟩

theorem looks_skipInitializer : Looks u skipInitializer fun _ => True := by
  unfold skipInitializer
  refine looks_here.bind fun start _ => looks_loop fun _ => ?_
  refine looks_current.bind fun l _ => ?_
  dsimp only
  refine .ite (fun _ => .pure ⟨rfl, trivial⟩) fun _ => ?_
  refine .ite (fun _ => keeps_fail _ _) fun _ => .ite (fun _ => ?_) fun _ => ?_
  · exact looks_skipGroup.bind fun _ _ => .pure ⟨rfl, trivial⟩
  · exact looks_advance.bind fun _ _ => .pure ⟨rfl, trivial⟩

theorem looks_skipToBody : Looks u skipToBody fun _ => True := by
  unfold skipToBody
  refine looks_here.bind fun start _ => looks_loop fun _ => ?_
  refine looks_current.bind fun l _ => ?_
  dsimp only
  refine .ite (fun _ => .pure ⟨rfl, trivial⟩) fun _ => .ite (fun _ => keeps_fail _ _) fun _ => ?_
  exact looks_advance.bind fun _ _ => .pure ⟨rfl, trivial⟩

end Cognate.Grammar
