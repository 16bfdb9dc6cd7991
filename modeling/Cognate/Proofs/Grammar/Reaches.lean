import Cognate.Proofs.Grammar.Keeps

/-!
# Where readers come to

A reader that starts at one place of a text and comes to another one behind certain tokens, whatever follows them there.
On its way it may intern types, and nothing else of the unit changes (`Enriches`). `Reaches` says what is known of the
answer, and of the cause if the reader fails; `Gives` is for readers that do not fail, and `Comes` for those that come
to an expected outcome. Single steps leave the unit as it is (`Answers`). The rules have the form of the monad's
operations.
-/

namespace Cognate

/-! ## Units that only got more nodes -/

/-- The second unit has the nodes of the first one and maybe more; nothing else differs. -/
structure DeclUnit.Enriches (u v : DeclUnit) : Prop where
  wellFormed : u.WellFormed → v.WellFormed
  nodes : u.Extends v
  frame : v = { u with nodes := v.nodes }

namespace DeclUnit.Enriches

variable {u v w : DeclUnit} {s : Shape}

theorem refl (u : DeclUnit) : u.Enriches u := ⟨fun hu => hu, .refl u, rfl⟩

theorem trans (h : u.Enriches v) (h' : v.Enriches w) : u.Enriches w := by
  refine ⟨fun hu => h'.wellFormed (h.wellFormed hu), h.nodes.trans h'.nodes, ?_⟩
  rw [h'.frame, h.frame]

theorem target (h : u.Enriches v) : v.target = u.target := by rw [h.frame]

theorem meaning? (h : u.Enriches v) (name : String) : v.meaning? name = u.meaning? name := by
  rw [h.frame]
  rfl

theorem typedef? (h : u.Enriches v) (name : String) : v.typedef? name = u.typedef? name := by
  rw [DeclUnit.typedef?, h.meaning?, DeclUnit.typedef?]

theorem constant? (h : u.Enriches v) (name : String) : v.constant? name = u.constant? name := by
  rw [DeclUnit.constant?, h.meaning?, DeclUnit.constant?]

theorem intern (hu : u.WellFormed) (hs : ∀ c ∈ s.children, u.contains c = true) : u.Enriches (u.intern s).2 :=
  have ⟨hw, hext, _⟩ := intern_spec hu hs
  ⟨fun _ => hw, hext, intern_frame u s⟩

end DeclUnit.Enriches

namespace Grammar

variable {α β σ : Type} {u v : DeclUnit} {s s' s'' : State} {ts ts' : List Token} {t : Token} {l : Lexed}
  {ahead : List (Except Fault Lexed)} {p : Parse α} {f : α → Parse β} {Q : α → DeclUnit → Prop}
  {R : β → DeclUnit → Prop} {D E : Cause → Prop} {cause : Cause} {a : α} {b : β}

/-! ## Places -/

/-- The same place in a text, with another unit. -/
def State.withUnit (s : State) (v : DeclUnit) : State := { s with unit := v }

/-- Moving past these tokens leads from the first place to the second one; what follows is left open. -/
inductive State.Passes : State → List Token → State → Prop
  | nil (s : State) : Passes s [] s
  | cons {s s' : State} {l : Lexed} {ahead : List (Except Fault Lexed)} {ts : List Token}
      (inside : s.current.token ≠ .finish) (take : takeItem s.stop s.ahead = .ok (l, ahead))
      (rest : Passes { s with current := l, ahead } ts s') : Passes s (s.current.token :: ts) s'

namespace State.Passes

theorem split (h : s.Passes (ts ++ ts') s'') : ∃ s', s.Passes ts s' ∧ s'.Passes ts' s'' := by
  induction ts generalizing s with
  | nil => exact ⟨s, .nil s, h⟩
  | cons t ts ih =>
    cases h with
    | cons inside take rest =>
      obtain ⟨s', hfirst, hsecond⟩ := ih rest
      exact ⟨s', .cons inside take hfirst, hsecond⟩

theorem split_cons (h : s.Passes (t :: ts) s'') : ∃ s', s.Passes [t] s' ∧ s'.Passes ts s'' := by
  rw [← List.singleton_append] at h
  exact h.split

theorem token (h : s.Passes (t :: ts) s') : s.current.token = t := by
  cases h
  rfl

/-- The step past one token. -/
theorem takes (h : s.Passes [t] s') :
    takeItem s.stop s.ahead = .ok (s'.current, s'.ahead) ∧
      s' = { s with current := s'.current, ahead := s'.ahead } := by
  cases h with
  | cons inside take rest =>
    cases rest
    exact ⟨take, rfl⟩

/-- Every token but the one that is looked at stands ahead. By induction on the tokens; behind the last item nothing
is moved past. -/
theorem length_le (h : s.Passes ts s') : s'.ahead.length + ts.length ≤ s.ahead.length + 1 := by
  induction h with
  | nil s => simp
  | @cons s s' l ahead ts inside take rest ih =>
    cases hahead : s.ahead with
    | nil =>
      rw [hahead] at take
      cases take
      cases rest with
      | nil => simp
      | cons inside' take' rest' => exact absurd rfl inside'
    | cons item items =>
      rw [hahead] at take
      cases item with
      | error fault => cases take
      | ok l' =>
        cases take
        simp only [List.length_cons] at ih ⊢
        omega

end State.Passes

/-! ## Readers -/

/-- From the first place, the reader comes to the second one, with an answer for which `Q` holds, or fails with a cause
for which `E` holds. -/
def Reaches (u : DeclUnit) (p : Parse α) (s s' : State) (Q : α → DeclUnit → Prop) (E : Cause → Prop) : Prop :=
  match p (s.withUnit u) with
  | .ok a t => ∃ v, t = s'.withUnit v ∧ u.Enriches v ∧ Q a v
  | .error fault _ => E fault.cause

/-- The reader does not fail. -/
def Gives (u : DeclUnit) (p : Parse α) (s s' : State) (Q : α → DeclUnit → Prop) : Prop :=
  Reaches u p s s' Q fun _ => False

/-- The reader comes to this outcome. -/
def Comes (u : DeclUnit) (p : Parse α) (s s' : State) (r : Except Cause α) : Prop :=
  Reaches u p s s' (fun a _ => r = .ok a) fun cause => r = .error cause

/-- A step that is known, and what follows it. -/
theorem Reaches.step (h : Reaches v (f a) s' s'' R E) (hv : u.Enriches v)
    (hp : p (s.withUnit u) = .ok a (s'.withUnit v)) : Reaches u (p >>= f) s s'' R E := by
  unfold Reaches at h ⊢
  rw [bind_run, hp]
  dsimp only
  cases hr : f a (s'.withUnit v) with
  | error fault t =>
    rw [hr] at h
    exact h
  | ok b t =>
    rw [hr] at h
    obtain ⟨w, hw, hvw, hb⟩ := h
    exact ⟨w, hw, hv.trans hvw, hb⟩

theorem Reaches.pure (h : Q a u) : Reaches u (pure a) s s Q E := ⟨u, rfl, .refl u, h⟩

theorem Reaches.bind (hp : Reaches u p s s' Q D) (hD : ∀ cause, D cause → E cause)
    (hf : ∀ a v, u.Enriches v → Q a v → Reaches v (f a) s' s'' R E) : Reaches u (p >>= f) s s'' R E := by
  unfold Reaches at hp
  cases hr : p (s.withUnit u) with
  | error fault t =>
    rw [hr] at hp
    unfold Reaches
    rw [bind_run, hr]
    exact hD _ hp
  | ok a t =>
    rw [hr] at hp
    obtain ⟨v, rfl, hv, hq⟩ := hp
    exact (hf a v hv hq).step hv hr

theorem Reaches.weaken {Q' : α → DeclUnit → Prop} (hp : Reaches u p s s' Q D)
    (hQ : ∀ a v, u.Enriches v → Q a v → Q' a v) (hD : ∀ cause, D cause → E cause) : Reaches u p s s' Q' E := by
  unfold Reaches at hp ⊢
  split at hp
  · obtain ⟨v, hv, huv, hq⟩ := hp
    exact ⟨v, hv, huv, hQ _ v huv hq⟩
  · exact hD _ hp

theorem Gives.bind (hp : Gives u p s s' Q) (hf : ∀ a v, u.Enriches v → Q a v → Reaches v (f a) s' s'' R E) :
    Reaches u (p >>= f) s s'' R E :=
  Reaches.bind hp (fun _ h => h.elim) hf

/-- What comes behind an outcome goes on with the answer, or stays with the cause. -/
theorem Comes.bind {r : Except Cause α} {g : α → Except Cause β} (hp : Comes u p s s' r)
    (hf : ∀ a v, u.Enriches v → r = .ok a → Comes v (f a) s' s'' (g a)) : Comes u (p >>= f) s s'' (r >>= g) := by
  refine Reaches.bind hp ?_ fun a v hv ha => ?_
  · rintro cause rfl
    rfl
  · have h := hf a v hv ha
    subst ha
    exact h

theorem Comes.pure : Comes u (Pure.pure a) s s (.ok a) := Reaches.pure rfl

theorem Comes.fail {span : Span} : Comes u (fail cause span : Parse α) s s' (.error cause) := rfl

/-! ## Steps -/

/-- The reader comes to the second place with this answer, and leaves the unit as it is. -/
def Answers (u : DeclUnit) (p : Parse α) (s s' : State) (a : α) : Prop := p (s.withUnit u) = .ok a (s'.withUnit u)

theorem Answers.pure : Answers u (pure a) s s a := rfl

theorem Answers.bind (hp : Answers u p s s' a) (h : Reaches u (f a) s' s'' R E) : Reaches u (p >>= f) s s'' R E :=
  h.step (.refl u) hp

theorem Answers.andThen (hp : Answers u p s s' a) (h : Answers u (f a) s' s'' b) : Answers u (p >>= f) s s'' b := by
  rw [Answers, bind_run, hp]
  exact h

theorem answers_current : Answers u current s s s.current := rfl

theorem answers_here : Answers u here s s s.current.span := rfl

theorem answers_unit : Answers u unit s s u := rfl

theorem answers_check : Answers u (check t) s s (s.current.token == t) := rfl

theorem answers_advance (hs : s.Passes [t] s') : Answers u advance s s' s.current := by
  obtain ⟨htake, hs'⟩ := hs.takes
  have htake' : takeItem (s.withUnit u).stop (s.withUnit u).ahead = .ok (s'.current, s'.ahead) := htake
  rw [Answers, advance_run, htake', hs']
  rfl

theorem answers_peek (hs : s.Passes [t] s') : Answers u peek s s s'.current.token := by
  have htake : takeItem (s.withUnit u).stop (s.withUnit u).ahead = .ok (s'.current, s'.ahead) := hs.takes.1
  rw [Answers, peek_run, htake]

theorem answers_accept (hs : s.Passes [t] s') : Answers u (accept t) s s' true := by
  refine answers_check.andThen ?_
  rw [if_pos (beq_iff_eq.2 hs.token)]
  exact (answers_advance hs).andThen .pure

theorem answers_accept_not (ht : s.current.token ≠ t) : Answers u (accept t) s s false := by
  refine answers_check.andThen ?_
  rw [if_neg (by simpa using ht)]
  exact .pure

theorem answers_expect {mark : Punct} (hs : s.Passes [.punct mark] s') : Answers u (expect mark) s s' s.current := by
  refine answers_current.andThen ?_
  rw [if_pos (beq_iff_eq.2 hs.token)]
  exact answers_advance hs

theorem reaches_build {g : DeclUnit → Ty × DeclUnit} {f : Ty → Parse β} (hg : u.Enriches (g u).2)
    (h : Reaches (g u).2 (f (g u).1) s s' R E) : Reaches u (build g >>= f) s s' R E := h.step hg rfl

/-! ## Loops -/

variable {round : σ → Parse (Round σ α)} {x : σ} {n : Nat}

theorem reaches_loop (h : ∀ n, s.allowance ≤ n → Reaches u (loopFor round n x) s s' Q E) :
    Reaches u (loop x round) s s' Q E := h _ le_rfl

/-- A loop whose first round ends it. -/
theorem answers_loop_done (hr : Answers u (round x) s s (.done a)) : Answers u (loop x round) s s a := by
  change loopFor round (s.ahead.length + 1 + 1) x (s.withUnit u) = _
  rw [loopFor_run, hr]

/-- A round that goes on, and the rounds behind it. -/
theorem reaches_again {P : σ → DeclUnit → Prop}
    (hr : Reaches u (round x) s s' (fun r v => ∃ y, r = .again y ∧ P y v) E)
    (hf : ∀ y v, u.Enriches v → P y v → Reaches v (loopFor round n y) s' s'' Q E) :
    Reaches u (loopFor round (n + 1) x) s s'' Q E := by
  refine Reaches.bind hr (fun _ h => h) ?_
  rintro _ v hv ⟨y, rfl, hy⟩
  exact hf y v hv hy

theorem Comes.again {r : Except Cause σ} {g : σ → Except Cause α} (hr : Comes u (round x) s s' (Round.again <$> r))
    (hf : ∀ y v, u.Enriches v → r = .ok y → Comes v (loopFor round n y) s' s'' (g y)) :
    Comes u (loopFor round (n + 1) x) s s'' (r >>= g) := by
  refine Reaches.bind hr ?_ fun z v hv hz => ?_
  · intro cause hcause
    cases r with
    | error cause' =>
      cases hcause
      rfl
    | ok y => cases hcause
  · cases r with
    | error cause' => cases hz
    | ok y =>
      cases hz
      exact hf y v hv rfl

/-- The round that ends a loop. -/
theorem reaches_done (hr : Reaches u (round x) s s' (fun r v => ∃ a, r = .done a ∧ Q a v) E) :
    Reaches u (loopFor round (n + 1) x) s s' Q E := by
  refine Reaches.bind hr (fun _ h => h) ?_
  rintro _ v _ ⟨a, rfl, ha⟩
  exact .pure ha

end Grammar
end Cognate
