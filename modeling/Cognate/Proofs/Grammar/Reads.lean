import Cognate.Proofs.Grammar.Keeps

/-!
# What readers take

A reader in front of certain tokens that takes the first of them, stops in front of the others, and leaves the unit as
it is. `Reads` says so for all texts that hold these tokens; the rules for steps and loops are those of `Keeps`, with
the tokens split between the steps.
-/

namespace Cognate.Grammar

variable {α β σ : Type} {u : DeclUnit} {p : Parse α} {f : α → Parse β} {ts ts' rest : List Token} {t : Token}

/-- A reader in front of the last tokens of a text of `stop` bytes. -/
def State.at (stop : Nat) (u : DeclUnit) : List Lexed → State
  | [] => ⟨finishAt stop, [], stop, u⟩
  | l :: ls => ⟨l, ls.map .ok, stop, u⟩

/-- In front of `ts` and then `rest`, the reader takes `ts`, with an answer for which `Q` holds. -/
def Reads (u : DeclUnit) (p : Parse α) (ts rest : List Token) (Q : α → Prop) : Prop :=
  ∀ stop (ls more : List Lexed), ls.map Lexed.token = ts → more.map Lexed.token = rest →
    ∃ a, p (.at stop u (ls ++ more)) = .ok a (.at stop u more) ∧ Q a

/-- The token in front, which is the end where there are no more. -/
def front (ts : List Token) : Token := ts.headD .finish

@[simp] theorem front_nil : front [] = .finish := rfl

@[simp] theorem front_cons : front (t :: ts) = t := rfl

theorem State.at_current (stop : Nat) (u : DeclUnit) (ls : List Lexed) :
    (State.at stop u ls).current.token = front (ls.map Lexed.token) := by
  cases ls <;> rfl

theorem State.at_unit (stop : Nat) (u : DeclUnit) (ls : List Lexed) : (State.at stop u ls).unit = u := by
  cases ls <;> rfl

theorem State.at_length (stop : Nat) (u : DeclUnit) (ls : List Lexed) :
    ls.length ≤ (State.at stop u ls).ahead.length + 1 := by
  cases ls <;> simp [State.at]

/-! ## Steps -/

theorem Reads.pure {Q : α → Prop} {a : α} (h : Q a) : Reads u (pure a) [] rest Q := by
  intro stop ls more hls _
  obtain rfl := List.map_eq_nil_iff.1 hls
  exact ⟨a, rfl, h⟩

theorem Reads.bind {Q : α → Prop} {R : β → Prop} (hp : Reads u p ts (ts' ++ rest) Q)
    (hf : ∀ a, Q a → Reads u (f a) ts' rest R) : Reads u (p >>= f) (ts ++ ts') rest R := by
  intro stop ls more hls hmore
  obtain ⟨ls₁, ls₂, rfl, h₁, h₂⟩ := List.map_eq_append_iff.1 hls
  obtain ⟨a, ha, hq⟩ := hp stop ls₁ (ls₂ ++ more) h₁ (by simp [h₂, hmore])
  obtain ⟨b, hb, hr⟩ := hf a hq stop ls₂ more h₂ hmore
  refine ⟨b, ?_, hr⟩
  change EStateM.bind p f _ = _
  rw [List.append_assoc, EStateM.bind, ha]
  exact hb

/-- A first step that takes nothing. -/
theorem Reads.look {Q : α → Prop} {R : β → Prop} (hp : Reads u p [] (ts ++ rest) Q)
    (hf : ∀ a, Q a → Reads u (f a) ts rest R) : Reads u (p >>= f) ts rest R := by
  suffices h : Reads u (p >>= f) ([] ++ ts) rest R from h
  exact hp.bind hf

/-- A last step that takes nothing more. -/
theorem Reads.bind_end {Q : α → Prop} {R : β → Prop} (hp : Reads u p ts rest Q)
    (hf : ∀ a, Q a → Reads u (f a) [] rest R) : Reads u (p >>= f) ts rest R := by
  have h := Reads.bind hp hf
  rwa [List.append_nil] at h

theorem Reads.bind_pure {Q : α → Prop} {R : β → Prop} {g : α → β} (hp : Reads u p ts rest Q) (hg : ∀ a, Q a → R (g a)) :
    Reads u (p >>= fun a => Pure.pure (g a)) ts rest R :=
  hp.bind_end fun a hq => .pure (hg a hq)

theorem Reads.weaken {Q R : α → Prop} (hp : Reads u p ts rest Q) (h : ∀ a, Q a → R a) : Reads u p ts rest R := by
  intro stop ls more hls hmore
  obtain ⟨a, ha, hq⟩ := hp stop ls more hls hmore
  exact ⟨a, ha, h a hq⟩

/-- Looking at the state takes nothing. -/
theorem reads_get {Q : α → Prop} {g : State → α}
    (h : ∀ s : State, s.unit = u → s.current.token = front rest → Q (g s)) : Reads u (return g (← get)) [] rest Q := by
  intro stop ls more hls hmore
  obtain rfl := List.map_eq_nil_iff.1 hls
  exact ⟨_, rfl, h _ (State.at_unit ..) (by rw [List.nil_append, State.at_current, hmore])⟩

theorem reads_current : Reads u current [] rest fun l => l.token = front rest := reads_get fun _ _ h => h

theorem reads_here : Reads u here [] rest fun _ => True := reads_get fun _ _ _ => trivial

theorem reads_unit : Reads u unit [] rest (· = u) := reads_get fun _ h _ => h

theorem reads_check (t : Token) : Reads u (check t) [] rest (· = (front rest == t)) :=
  reads_get fun _ _ h => by rw [h]

theorem reads_atType : Reads u atType [] rest (· = startsType u (front rest)) := by
  unfold atType
  refine reads_unit.bind_end fun w hw => reads_current.bind_pure fun l hl => ?_
  rw [hw, hl]

theorem takeItem_at (stop : Nat) (u : DeclUnit) (ls : List Lexed) :
    takeItem stop (ls.map .ok) = .ok ((State.at stop u ls).current, (State.at stop u ls).ahead) := by
  cases ls <;> rfl

theorem reads_advance : Reads u advance [t] rest (·.token = t) := by
  intro stop ls more hls hmore
  obtain ⟨l, rfl, rfl⟩ := List.map_eq_singleton_iff.1 hls
  refine ⟨l, ?_, rfl⟩
  rw [advance_run]
  simp only [List.singleton_append, State.at, takeItem_at stop u more]
  cases more <;> rfl

/-- Moving past the first of several tokens. -/
theorem reads_advance_bind {f : Lexed → Parse β} {R : β → Prop}
    (hf : ∀ l, l.token = t → Reads u (f l) ts rest R) : Reads u (advance >>= f) (t :: ts) rest R :=
  reads_advance.bind hf

theorem reads_peek (t : Token) (rest : List Token) : Reads u peek [] (t :: rest) (· = front rest) := by
  intro stop ls more hls hmore
  obtain rfl := List.map_eq_nil_iff.1 hls
  obtain ⟨l, more, rfl, -, hmore⟩ := List.map_eq_cons_iff.1 hmore
  refine ⟨front rest, ?_, rfl⟩
  rw [peek_run]
  simp only [List.nil_append, State.at, takeItem_at stop u more]
  subst hmore
  cases more <;> rfl

theorem reads_accept : Reads u (accept t) [t] rest (· = true) := by
  unfold accept
  refine (reads_check t).bind fun b hb => ?_
  rw [hb, if_pos (by simp)]
  exact reads_advance.bind fun _ _ => .pure rfl

/-- Accepting the first of several tokens. -/
theorem reads_accept_bind {f : Bool → Parse β} {R : β → Prop} (hf : Reads u (f true) ts rest R) :
    Reads u (accept t >>= f) (t :: ts) rest R := by
  refine reads_accept.bind fun b hb => ?_
  rw [hb]
  exact hf

theorem reads_accept_not (h : front rest ≠ t) : Reads u (accept t) [] rest (· = false) := by
  unfold accept
  refine (reads_check t).bind fun b hb => ?_
  rw [hb, if_neg (by simpa using h)]
  exact .pure rfl

theorem reads_expect {mark : Punct} : Reads u (expect mark) [.punct mark] rest fun _ => True := by
  unfold expect
  refine reads_current.bind fun l hl => ?_
  rw [if_pos (by simp [hl])]
  exact reads_advance.weaken fun _ _ => trivial

theorem reads_expect_bind {mark : Punct} {f : Lexed → Parse β} {R : β → Prop} (hf : ∀ l, Reads u (f l) ts rest R) :
    Reads u (expect mark >>= f) (.punct mark :: ts) rest R :=
  reads_expect.bind fun l _ => hf l

theorem reads_name? {text : String} : Reads u name? [.name text] rest fun r => r.map (·.1) = some text := by
  unfold name?
  refine reads_current.bind fun l hl => ?_
  simp only [hl, List.singleton_append, front_cons]
  exact reads_advance.bind fun _ _ => .pure rfl

theorem reads_name?_none (h : ∀ text, front rest ≠ .name text) : Reads u name? [] rest (· = none) := by
  unfold name?
  refine reads_current.bind fun l hl => ?_
  split
  · next text htext => exact absurd (hl.symm.trans htext) (h text)
  · exact .pure rfl

/-! ## Types that are there already -/

theorem reads_build {g : DeclUnit → Ty × DeclUnit} {x : Ty} (h : g u = (x, u)) : Reads u (build g) [] rest (· = x) := by
  intro stop ls more hls _
  obtain rfl := List.map_eq_nil_iff.1 hls
  refine ⟨x, ?_, rfl⟩
  have hrun : ∀ s, build g s = .ok (g s.unit).1 { s with unit := (g s.unit).2 } := fun _ => rfl
  rw [List.nil_append, hrun, State.at_unit, h]
  cases more <;> rfl

/-- A shape that has a node is not interned again. -/
theorem reads_intern (hu : u.WellFormed) {shape : Shape} {x : Ty} (h : u.shape? x = some shape) :
    Reads u (intern shape) [] rest (· = x) :=
  reads_build (DeclUnit.intern_of_find? (hu.find?_iff.2 h))

/-! ## Loops -/

/-- A loop may go on for as many rounds as there are tokens, and end in one more. -/
theorem reads_loop {round : σ → Parse (Round σ α)} {start : σ} {Q : α → Prop}
    (h : ∀ n, ts.length < n → Reads u (loopFor round n start) ts rest Q) : Reads u (loop start round) ts rest Q := by
  intro stop ls more hls hmore
  refine h (State.at stop u (ls ++ more)).allowance ?_ stop ls more hls hmore
  have hlength := State.at_length stop u (ls ++ more)
  rw [List.length_append] at hlength
  rw [State.allowance, ← hls, List.length_map]
  omega

/-- A round that goes on, and the rounds behind it. -/
theorem reads_again {round : σ → Parse (Round σ α)} {x : σ} {n : Nat} {P : σ → Prop} {Q : α → Prop}
    (hr : Reads u (round x) ts (ts' ++ rest) fun r => ∃ y, r = .again y ∧ P y)
    (hf : ∀ y, P y → Reads u (loopFor round n y) ts' rest Q) :
    Reads u (loopFor round (n + 1) x) (ts ++ ts') rest Q := by
  refine hr.bind fun r ⟨y, hy, hp⟩ => ?_
  subst hy
  exact hf y hp

/-- The round that ends a loop. -/
theorem reads_done {round : σ → Parse (Round σ α)} {x : σ} {n : Nat} {Q : α → Prop}
    (hr : Reads u (round x) ts rest fun r => ∃ a, r = .done a ∧ Q a) :
    Reads u (loopFor round (n + 1) x) ts rest Q := by
  suffices h : Reads u (loopFor round (n + 1) x) (ts ++ []) rest Q by
    rwa [List.append_nil] at h
  refine hr.bind fun r ⟨a, ha, hq⟩ => ?_
  subst ha
  exact .pure hq

/-- A loop whose first round ends it. -/
theorem reads_loop_done {round : σ → Parse (Round σ α)} {start : σ} {Q : α → Prop}
    (hr : Reads u (round start) [] rest fun r => ∃ a, r = .done a ∧ Q a) : Reads u (loop start round) [] rest Q := by
  refine reads_loop fun n hn => ?_
  obtain ⟨n, rfl⟩ : ∃ m, n = m + 1 := ⟨n - 1, by rw [List.length_nil] at hn; omega⟩
  exact reads_done hr

/-- Rounds each of which takes the tokens of one item, and what follows them. -/
theorem reads_items {ι : Type} {round : σ → Parse (Round σ α)} {Q : α → Prop} (text : ι → List Token)
    (add : σ → ι → σ) {items : List ι} {x : σ} (hne : ∀ i ∈ items, text i ≠ [])
    (hround : ∀ x i after, i :: after <:+ items →
      Reads u (round x) (text i) (after.flatMap text ++ (ts ++ rest)) (· = .again (add x i)))
    (hend : ∀ n, ts.length < n → Reads u (loopFor round n (items.foldl add x)) ts rest Q) :
    ∀ n, (items.flatMap text ++ ts).length < n →
      Reads u (loopFor round n x) (items.flatMap text ++ ts) rest Q := by
  induction items generalizing x with
  | nil => exact fun n hn => hend n hn
  | cons i items ih =>
    intro n hn
    have hpos := List.length_pos_iff.2 (hne i (by simp))
    simp only [List.flatMap_cons, List.append_assoc, List.length_append] at hn ⊢
    obtain ⟨n, rfl⟩ : ∃ m, n = m + 1 := ⟨n - 1, by omega⟩
    have hfirst := hround x i items (List.suffix_refl _)
    rw [← List.append_assoc] at hfirst
    -- Every item takes a token, so the rounds that are left are enough for the items behind it.
    refine reads_again (P := (· = add x i)) (hfirst.weaken fun r hr => ⟨_, hr, rfl⟩) fun y hy => ?_
    subst hy
    have hrest : (items.flatMap text ++ ts).length < n := by
      rw [List.length_append]
      omega
    refine ih (fun j hj => hne j (by simp [hj])) (fun y j after hsuffix => ?_) hend n hrest
    exact hround y j after (hsuffix.trans (List.suffix_cons i items))

/-- A loop over items that ends in front of what follows. -/
theorem reads_loop_items {ι : Type} {round : σ → Parse (Round σ α)} {Q : α → Prop} (text : ι → List Token)
    (add : σ → ι → σ) {items : List ι} {x : σ} (hne : ∀ i ∈ items, text i ≠ [])
    (hround : ∀ x i after, i :: after <:+ items →
      Reads u (round x) (text i) (after.flatMap text ++ rest) (· = .again (add x i)))
    (hend : Reads u (round (items.foldl add x)) [] rest fun r => ∃ a, r = .done a ∧ Q a) :
    Reads u (loop x round) (items.flatMap text) rest Q := by
  refine reads_loop fun n hn => ?_
  suffices h : Reads u (loopFor round n x) (items.flatMap text ++ []) rest Q by
    rwa [List.append_nil] at h
  refine reads_items text add hne hround (fun n hn => ?_) n (by rwa [List.append_nil])
  obtain ⟨n, rfl⟩ : ∃ m, n = m + 1 := ⟨n - 1, by rw [List.length_nil] at hn; omega⟩
  exact reads_done hend

end Cognate.Grammar
