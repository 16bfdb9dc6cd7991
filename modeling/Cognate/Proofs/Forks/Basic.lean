import Cognate.Proofs.Readings.Trees

/-!
# Texts that part

Two texts hold the same items up to a place where each goes on with a token of its own (`Fork`). Readers look at one
token, so one that only comes to this place looks at the two tokens and no further: if it asks nothing that tells them
apart, the second reading comes there as well (`Matches`). Where the first reading has gone past the place, nothing is
said of the second one. What stands between brackets is read in front of the place, and there the one reading follows
the other (`Matches.closed`).
-/

namespace Cognate.Grammar

variable {α β σ : Type}

/-! ## The place -/

/-- Two texts with the same items up to a token of their own and what is behind it. -/
structure Fork where
  /-- Bytes that stand in front of the second text alone. -/
  places : Nat
  /-- Bytes of the first text. -/
  stop : Nat
  /-- Bytes that the second text has more behind the place. -/
  behind : Nat
  /-- The items up to the place. -/
  common : List (Except Fault Lexed)
  first : Lexed
  rest : List (Except Fault Lexed)
  second : Lexed
  rest' : List (Except Fault Lexed)
  rest_le : rest.length ≤ rest'.length
  first_ne : first.token ≠ .finish

theorem takeItem_length {stop : Nat} {l : Lexed} {items ahead : List (Except Fault Lexed)}
    (h : takeItem stop items = .ok (l, ahead)) : ahead.length ≤ items.length - 1 := by
  cases items with
  | nil =>
    cases h
    exact Nat.zero_le _
  | cons item items =>
    cases item with
    | error fault => cases h
    | ok l =>
      cases h
      exact le_rfl

namespace Fork

variable (F : Fork)

/-- The first reading at the place. -/
def here (u : DeclUnit) : State := ⟨F.first, F.rest, F.stop, u⟩

/-- The second one. -/
def there (u : DeclUnit) : State := ⟨F.second, F.rest', F.stop + F.places + F.behind, u⟩

/-- The first reading has gone past the place. -/
def Past (s : State) : Prop := s.left ≤ F.rest.length

/-- The first reading stands in front of the place. -/
def Before (s : State) : Prop :=
  s.stop = F.stop ∧ ∃ before items, F.common = before ++ .ok s.current :: items ∧
    s.ahead = items ++ .ok F.first :: F.rest

/-- The first reading is carried over as long as neither it nor a look further comes to the place. -/
def transport : Transport where
  places := F.places
  rename name := name
  dropped := F.rest.length + 1
  more := .ok F.second :: F.rest'
  behind := F.behind
  isOpen := True
  lost s := s.ahead.length ≤ F.rest.length ∨
    s.ahead.length = F.rest.length + 1 ∧ looksBehind s.current.token = true
  closed h := (h trivial).elim
  dropped_le := Nat.succ_le_succ F.rest_le
  lost_advance := by
    intro s l ahead hlost htake
    have hle := takeItem_length htake
    refine .inl (hle.trans ?_)
    rcases hlost with hlost | ⟨hlost, -⟩ <;> omega
  lost_apply h _ := h
  lost_end := by
    intro _ s l ahead hle htake
    exact .inl ((takeItem_length htake).trans (Nat.sub_le_of_le_add hle))
  lost_peek := by
    intro _ s hle hlooks
    rcases Nat.lt_or_eq_of_le hle with hlt | heq
    · exact .inl (Nat.le_of_lt_succ hlt)
    · exact .inr ⟨heq, hlooks⟩

/-- The two readings stand at the same place. -/
inductive Meets : State → State → Prop
  | before {s : State} (h : F.Before s) : Meets s (F.transport.state s)
  | here (u : DeclUnit) : Meets (F.here u) (F.there u)

variable {F : Fork} {s s' t : State}

theorem state_of_ahead {items : List (Except Fault Lexed)} (hahead : s.ahead = items ++ .ok F.first :: F.rest) :
    F.transport.state s = ⟨s.current.shift F.places, items.map (shiftItem F.places) ++ .ok F.second :: F.rest',
      s.stop + F.places + F.behind, s.unit⟩ := by
  have hlength : s.ahead.length - F.transport.dropped = items.length := by
    rw [hahead, List.length_append, List.length_cons]
    exact Nat.add_sub_cancel _ _
  have htake : s.ahead.take (s.ahead.length - F.transport.dropped) = items := by
    rw [hlength, hahead, List.take_left]
  rw [Transport.state, htake]
  rfl

/-! ## Where a reading stands -/

theorem left_here (F : Fork) (u : DeclUnit) : (F.here u).left = F.rest.length + 1 := by
  rw [State.left, here, if_neg F.first_ne]

theorem Before.left (h : F.Before s) : F.rest.length < s.left := by
  obtain ⟨-, before, items, -, hahead⟩ := h
  rw [State.left, hahead, List.length_append, List.length_cons]
  omega

theorem Meets.not_past (h : F.Meets s s') : ¬F.Past s := by
  cases h with
  | before h => exact Nat.not_le.2 h.left
  | here u => exact Nat.not_le.2 (by rw [left_here]; exact Nat.lt_succ_self _)

theorem Meets.unit (h : F.Meets s s') : s'.unit = s.unit := by
  cases h <;> rfl

/-- What was built does not matter for the place. -/
theorem Meets.withUnit (h : F.Meets s s') (v : DeclUnit) : F.Meets { s with unit := v } { s' with unit := v } := by
  cases h with
  | before h => exact .before (s := { s with unit := v }) h
  | here u => exact .here v

theorem not_before_here (u : DeclUnit) : ¬F.Before (F.here u) := by
  rintro ⟨-, before, items, -, hahead⟩
  have hlength := congrArg List.length hahead
  rw [List.length_append, List.length_cons] at hlength
  change F.rest.length = _ at hlength
  omega

theorem Meets.eq_there {u : DeclUnit} (h : F.Meets (F.here u) s') : s' = F.there u := by
  generalize hs : F.here u = s at h
  cases h with
  | before h =>
    rw [← hs] at h
    exact absurd h (not_before_here u)
  | here v =>
    cases hs
    rfl

/-- The second reading has not come to the place where it still has the token of its own ahead. -/
theorem Meets.before_of_state (h : F.Meets s (F.transport.state s)) : F.Before s := by
  generalize hs' : F.transport.state s = s' at h
  cases h with
  | before h => exact h
  | here u =>
    have hlength := congrArg (fun t : State => t.ahead.length) hs'
    have hdropped : (F.here u).ahead.length - F.transport.dropped = 0 := Nat.sub_eq_zero_of_le (Nat.le_succ _)
    dsimp only [Transport.state] at hlength
    rw [hdropped, List.take_zero, List.map_nil, List.nil_append] at hlength
    exact absurd hlength (Nat.succ_ne_self _)

theorem Meets.allowance_le (h : F.Meets s s') : s.allowance ≤ s'.allowance := by
  cases h with
  | before h => exact (Grammar.allowance_le F.transport s).1
  | here u => exact Nat.add_le_add_right F.rest_le 2

/-- A reading of the first text stands in front of the place, at it, or past it. -/
def On (F : Fork) (s : State) : Prop := F.Before s ∨ s = F.here s.unit ∨ F.Past s

theorem Meets.on (h : F.Meets s s') : F.On s := by
  cases h with
  | before h => exact .inl h
  | here u => exact .inr (.inl rfl)

theorem On.take {l : Lexed} {ahead : List (Except Fault Lexed)} (h : F.On s)
    (htake : takeItem s.stop s.ahead = .ok (l, ahead)) : F.On { s with current := l, ahead } := by
  rcases h with ⟨hstop, before, items, hcommon, hahead⟩ | hs | hpast
  · rw [hahead] at htake
    cases items with
    | nil =>
      cases htake
      refine .inr (.inl ?_)
      rw [here, hstop]
    | cons item items =>
      cases item with
      | error fault => cases htake
      | ok l =>
        cases htake
        refine .inl ⟨hstop, before ++ [.ok s.current], items, ?_, rfl⟩
        rw [hcommon, List.append_assoc]
        rfl
  · have hlt := (State.left_take htake).2 (by rw [hs]; exact F.first_ne)
    rw [hs, left_here] at hlt
    exact .inr (.inr (Nat.le_of_lt_succ hlt))
  · exact .inr (.inr ((State.left_take htake).1.trans hpast))

theorem On.withUnit (h : F.On s) (v : DeclUnit) : F.On { s with unit := v } := by
  rcases h with h | h | h
  · exact .inl h
  · refine .inr (.inl ?_)
    rw [h]
    rfl
  · exact .inr (.inr h)

theorem past_of_advance {u : DeclUnit} {l : Lexed} (h : advance (F.here u) = .ok l t) : F.Past t := by
  have hlt := advance_left h F.first_ne
  rw [left_here] at hlt
  exact Nat.le_of_lt_succ hlt

/-- One token further, both stand at the same place again, or the first one has gone past it. -/
theorem Meets.advance {l : Lexed} (h : F.Meets s s') (hrun : advance s = .ok l t) :
    F.Past t ∨ ∃ t', Grammar.advance s' = .ok (l.shift F.places) t' ∧ F.Meets t t' := by
  cases h with
  | before h =>
    obtain ⟨hstop, before, items, hcommon, hahead⟩ := h
    rw [advance_run, hahead] at hrun
    rw [state_of_ahead hahead, advance_run]
    cases items with
    | nil =>
      cases hrun
      have hplace : ({ s with current := F.first, ahead := F.rest } : State) = F.here s.unit := by rw [Fork.here, hstop]
      refine .inr ⟨F.there s.unit, by rw [hstop]; rfl, ?_⟩
      rw [hplace]
      exact .here _
    | cons item items =>
      cases item with
      | error fault => cases hrun
      | ok l =>
        cases hrun
        let t : State := { s with current := l, ahead := items ++ .ok F.first :: F.rest }
        have hahead' : t.ahead = items ++ .ok F.first :: F.rest := rfl
        have hnext : F.Before t := by
          refine ⟨hstop, before ++ [.ok s.current], items, ?_, hahead'⟩
          rw [hcommon, List.append_assoc]
          rfl
        refine .inr ⟨_, ?_, .before hnext⟩
        exact congrArg (EStateM.Result.ok _) (state_of_ahead hahead').symm
  | here u => exact .inl (past_of_advance hrun)

/-- The token in front of the place is the last one of those that both texts have. -/
theorem Before.last {u : DeclUnit} {l : Lexed} (h : F.Before s) (hrun : Grammar.advance s = .ok l (F.here u)) :
    ∃ before, F.common = before ++ [.ok s.current] := by
  obtain ⟨-, before, items, hcommon, hahead⟩ := h
  rw [advance_run, hahead] at hrun
  cases items with
  | nil => exact ⟨before, hcommon⟩
  | cons item items =>
    cases item with
    | error fault => cases hrun
    | ok l =>
      have hlength := congrArg (fun r => (leaves r).ahead.length) hrun
      change (items ++ .ok F.first :: F.rest).length = F.rest.length at hlength
      rw [List.length_append, List.length_cons] at hlength
      omega

/-- A look further from in front of the place sees the same token twice, or those at the place. -/
theorem Before.peek {token : Token} (h : F.Before s) (hrun : peek s = .ok token t) :
    t = s ∧ (Grammar.peek (F.transport.state s) = .ok token (F.transport.state s) ∨
      token = F.first.token ∧ Grammar.peek (F.transport.state s) = .ok F.second.token (F.transport.state s)) := by
  obtain ⟨hstop, before, items, hcommon, hahead⟩ := h
  rw [peek_run, hahead] at hrun
  rw [state_of_ahead hahead, peek_run]
  cases items with
  | nil =>
    cases hrun
    exact ⟨rfl, .inr ⟨rfl, rfl⟩⟩
  | cons item items =>
    cases item with
    | error fault => cases hrun
    | ok l =>
      cases hrun
      exact ⟨rfl, .inl rfl⟩

end Fork

/-! ## Readers that come to the place -/

/-- From this state, the reader moves on, and where it does not go past the place, `p'` comes to where `p` does; `g`
carries answers over. -/
structure MatchesAt (F : Fork) (s s' : State) (g : α → α) (p p' : Parse α) : Prop where
  left : ∀ {a t}, p s = .ok a t → t.left ≤ s.left
  meets : F.Meets s s' → ∀ {a t}, p s = .ok a t → F.Past t ∨ ∃ t', p' s' = .ok (g a) t' ∧ F.Meets t t'

/-- From every state. -/
def Matches (F : Fork) (g : α → α) (p p' : Parse α) : Prop := ∀ s s', MatchesAt F s s' g p p'

variable {F : Fork} {g : α → α} {h : β → β} {p p' q q' : Parse α} {f f' : α → Parse β} {s s' t : State}

theorem MatchesAt.pure {a a' : α} (ha : a' = g a) : MatchesAt F s s' g (pure a) (pure a') := by
  subst ha
  constructor
  · rintro _ _ ⟨⟩
    exact le_rfl
  · rintro hs _ _ ⟨⟩
    exact .inr ⟨s', rfl, hs⟩

theorem Matches.pure {a a' : α} (ha : a' = g a) : Matches F g (pure a) (pure a') := fun _ _ => .pure ha

theorem matches_fail (cause : Cause) (span : Span) (q : Parse α) : Matches F g (fail cause span) q := by
  intro s s'
  constructor <;> intros <;> contradiction

/-- Nothing happens behind a fault. -/
theorem matches_fail_bind (cause : Cause) (span : Span) (q : Parse β) : Matches F h (fail cause span >>= f) q := by
  intro s s'
  constructor <;> intros <;> contradiction

theorem MatchesAt.bind_of (hp : MatchesAt F s s' g p p')
    (hf : ∀ a t, p s = .ok a t → ∀ t', MatchesAt F t t' h (f a) (f' (g a))) :
    MatchesAt F s s' h (p >>= f) (p' >>= f') := by
  constructor
  · intro b t hrun
    obtain ⟨a, s₁, hfirst, hlast⟩ := bind_eq_ok hrun
    exact ((hf a s₁ hfirst s₁).left hlast).trans (hp.left hfirst)
  · intro hs b t hrun
    obtain ⟨a, s₁, hfirst, hlast⟩ := bind_eq_ok hrun
    rcases hp.meets hs hfirst with hpast | ⟨s₁', hsecond, hs₁⟩
    · exact .inl (((hf a s₁ hfirst s₁).left hlast).trans hpast)
    · rw [bind_of_ok hsecond]
      exact (hf a s₁ hfirst s₁').meets hs₁ hlast

theorem MatchesAt.bind (hp : MatchesAt F s s' g p p') (hf : ∀ a, Matches F h (f a) (f' (g a))) :
    MatchesAt F s s' h (p >>= f) (p' >>= f') := hp.bind_of fun a t _ t' => hf a t t'

theorem Matches.bind (hp : Matches F g p p') (hf : ∀ a, Matches F h (f a) (f' (g a))) :
    Matches F h (p >>= f) (p' >>= f') := fun s s' => (hp s s').bind hf

theorem MatchesAt.ite {c : Prop} [Decidable c] (hp : c → MatchesAt F s s' g p p')
    (hq : ¬c → MatchesAt F s s' g q q') : MatchesAt F s s' g (if c then p else q) (if c then p' else q') := by
  split
  · next hc => exact hp hc
  · next hc => exact hq hc

theorem Matches.ite {c : Prop} [Decidable c] (hp : Matches F g p p') (hq : Matches F g q q') :
    Matches F g (if c then p else q) (if c then p' else q') := fun s s' => .ite (fun _ => hp s s') fun _ => hq s s'

/-- In front of the place and at it. -/
theorem Matches.of_places (hbefore : ∀ s, MatchesAt F s (F.transport.state s) g p p')
    (hhere : ∀ u, MatchesAt F (F.here u) (F.there u) g p p') : Matches F g p p' := by
  intro s s'
  refine ⟨(hbefore s).left, fun hs => ?_⟩
  cases hs with
  | before hs => exact (hbefore s).meets (.before hs)
  | here u => exact (hhere u).meets (.here u)

/-! ## Looking and moving on -/

theorem matches_advance : Matches F (Lexed.shift F.places) advance advance := by
  intro s s'
  refine ⟨fun {l t} hrun => ?_, fun hs _ _ hrun => hs.advance hrun⟩
  rw [advance_run] at hrun
  cases htake : takeItem s.stop s.ahead with
  | error fault =>
    rw [htake] at hrun
    cases hrun
  | ok r =>
    rw [htake] at hrun
    cases hrun
    exact (State.left_take htake).1

theorem MatchesAt.current_bind {f f' : Lexed → Parse β} (hf : MatchesAt F s s' h (f s.current) (f' s'.current)) :
    MatchesAt F s s' h (current >>= f) (current >>= f') := ⟨hf.left, hf.meets⟩

/-- What is read next depends on the token that is looked at: the same one, or those at the place. -/
theorem Matches.current_bind {f f' : Lexed → Parse β} (hf : ∀ l, Matches F h (f l) (f' (l.shift F.places)))
    (hplace : Matches F h (f F.first) (f' F.second)) : Matches F h (current >>= f) (current >>= f') :=
  .of_places (fun _ => .current_bind (hf _ _ _)) fun _ => .current_bind (hplace _ _)

theorem MatchesAt.here_bind {f f' : Span → Parse β}
    (hf : MatchesAt F s s' h (f s.current.span) (f' s'.current.span)) :
    MatchesAt F s s' h (here >>= f) (here >>= f') := ⟨hf.left, hf.meets⟩

/-- What is built so far is the same in both readings. -/
theorem MatchesAt.unit_bind {f f' : DeclUnit → Parse β}
    (hf : MatchesAt F s s' h (f s.unit) (f' s'.unit)) :
    MatchesAt F s s' h (unit >>= f) (unit >>= f') := ⟨hf.left, hf.meets⟩

theorem MatchesAt.unit_left {f : DeclUnit → Parse α} (hf : MatchesAt F s s' g (f s.unit) q) :
    MatchesAt F s s' g (unit >>= f) q := ⟨hf.left, hf.meets⟩

theorem MatchesAt.check_bind {f f' : Bool → Parse β} (token : Token)
    (hf : MatchesAt F s s' h (f (s.current.token == token)) (f' (s'.current.token == token))) :
    MatchesAt F s s' h (check token >>= f) (check token >>= f') := ⟨hf.left, hf.meets⟩

/-- Looking further in front of the place. -/
theorem MatchesAt.peek_bind {f f' : Token → Parse β}
    (hf : ∀ token, MatchesAt F s (F.transport.state s) h (f token) (f' token))
    (hplace : MatchesAt F s (F.transport.state s) h (f F.first.token) (f' F.second.token)) :
    MatchesAt F s (F.transport.state s) h (peek >>= f) (peek >>= f') := by
  constructor
  · intro b t hrun
    obtain ⟨token, s₁, hpeek, hlast⟩ := bind_eq_ok hrun
    rw [peek_run] at hpeek
    split at hpeek <;> cases hpeek
    exact (hf _).left hlast
  · intro hmeets b t hrun
    obtain ⟨token, s₁, hpeek, hlast⟩ := bind_eq_ok hrun
    obtain ⟨hs₁, hsame | ⟨htoken, hsecond⟩⟩ := hmeets.before_of_state.peek hpeek <;> rw [hs₁] at hlast
    · rw [bind_of_ok hsame]
      exact (hf token).meets hmeets hlast
    · rw [bind_of_ok hsecond]
      rw [htoken] at hlast
      exact hplace.meets hmeets hlast

/-- Moving on from the place goes past it. -/
theorem MatchesAt.past {k : Lexed → α} {u : DeclUnit} :
    MatchesAt F (F.here u) s' g (advance >>= fun l => Pure.pure (k l)) q := by
  have hrun : ∀ {a t}, (advance >>= fun l => (Pure.pure (k l) : Parse α)) (F.here u) = .ok a t → F.Past t := by
    intro a t hrun
    obtain ⟨l, s₁, hadvance, hlast⟩ := bind_eq_ok hrun
    cases hlast
    exact Fork.past_of_advance hadvance
  refine ⟨fun h => ?_, fun _ _ _ h => .inl (hrun h)⟩
  rw [Fork.left_here]
  exact (hrun h).trans (Nat.le_succ _)

/-- Neither of the tokens at the place is the one that is asked for. -/
theorem matches_check {token : Token} (hfirst : F.first.token ≠ token) (hsecond : F.second.token ≠ token) :
    Matches F (fun b => b) (check token) (check token) := by
  refine .of_places (fun s => (MatchesAt.pure rfl).check_bind token) fun u => MatchesAt.check_bind token (.pure ?_)
  change (F.second.token == token) = (F.first.token == token)
  rw [beq_eq_false_iff_ne.2 hfirst, beq_eq_false_iff_ne.2 hsecond]

/-- In front of the place the same token is asked for in both texts. -/
theorem MatchesAt.accept (s : State) (token : Token) :
    MatchesAt F s (F.transport.state s) (fun b => b) (accept token) (accept token) :=
  .check_bind _ (.ite (fun _ => (matches_advance _ _).bind fun _ => .pure rfl) fun _ => .pure rfl)

/-- The token at the place of the second text is not the one that is asked for. -/
theorem matches_accept {token : Token} (hsecond : F.second.token ≠ token) :
    Matches F (fun b => b) (accept token) (accept token) := by
  refine .of_places (fun s => .accept s token) fun u => .check_bind _ ?_
  have hfalse : ((F.there u).current.token == token) = false := beq_eq_false_iff_ne.2 hsecond
  rw [hfalse]
  by_cases hfirst : (F.here u).current.token == token
  · rw [if_pos hfirst]
    exact .past
  · rw [if_neg hfirst]
    exact .pure rfl

theorem matches_expect (mark : Punct) : Matches F (Lexed.shift F.places) (expect mark) (expect mark) := by
  refine .of_places (fun s => .current_bind ?_) fun u => .current_bind ?_
  · exact .ite (fun _ => matches_advance _ _) fun _ => matches_fail _ _ _ _ _
  · split
    · have hadvance : MatchesAt F (F.here u) (F.there u) (Lexed.shift F.places) advance advance := matches_advance _ _
      exact ⟨hadvance.left, fun _ _ _ hrun => .inl (Fork.past_of_advance hrun)⟩
    · exact matches_fail _ _ _ _ _

theorem name?_none (hnone : ∀ text, s.current.token ≠ .name text) : name? s = .ok none s := by
  refine (current_bind _ s).trans ?_
  cases htoken : s.current.token with
  | name text => exact absurd htoken (hnone text)
  | _ => rfl

/-- Both readers stay where they are. -/
theorem MatchesAt.stay {a : α} (hp : p s = .ok a s) (hp' : p' s' = .ok (g a) s') : MatchesAt F s s' g p p' := by
  constructor
  · intro b t hrun
    rw [hp] at hrun
    cases hrun
    exact le_rfl
  · intro hs b t hrun
    rw [hp] at hrun
    cases hrun
    exact .inr ⟨s', hp', hs⟩

/-- No name stands at the place of the second text. -/
theorem matches_name? (hsecond : ∀ text, F.second.token ≠ .name text) :
    Matches F (Option.map (shiftName F.places)) name? name? := by
  refine .of_places (fun s => .current_bind ?_) fun u => ?_
  · obtain ⟨⟨token, span⟩, ahead, stop, v⟩ := s
    cases token with
    | name text => exact (matches_advance _ _).bind fun _ => .pure rfl
    | _ => exact .pure rfl
  · cases hfirst : F.first.token with
    | name text =>
      refine .current_bind ?_
      dsimp only [Fork.here]
      rw [hfirst]
      exact .past
    | _ =>
      refine .stay (name?_none (s := F.here u) fun text => ?_) (name?_none (s := F.there u) hsecond)
      change F.first.token ≠ _
      rw [hfirst]
      exact Token.noConfusion

theorem matches_name (hsecond : ∀ text, F.second.token ≠ .name text) :
    Matches F (shiftName F.places) name name := by
  refine (matches_name? hsecond).bind fun r => ?_
  cases r with
  | some found => exact .pure rfl
  | none => exact fun s s' => .current_bind (matches_fail _ _ _ _ _)

/-! ## Readers that look at no token -/

/-- Whatever token stands there, the reader builds the same and gives the same answer as `p'`, unless it fails. -/
def Blind (p p' : Parse α) : Prop := ∀ s a t, p s = .ok a t → t = { s with unit := t.unit } ∧
  ∀ s' : State, s'.unit = s.unit → p' s' = .ok a { s' with unit := t.unit }

theorem Blind.stays (hp : Blind p p') {a : α} (hrun : p s = .ok a t) : t.current = s.current := by
  rw [(hp _ _ _ hrun).1]

theorem Blind.pure (a : α) : Blind (pure a) (pure a) := by
  rintro s _ _ ⟨⟩
  refine ⟨rfl, fun s' hunit => ?_⟩
  rw [← hunit]
  rfl

theorem blind_fail (cause : Cause) (span : Span) (q : Parse α) : Blind (fail cause span) q := by
  intro s a t hrun
  cases hrun

theorem blind_fail_bind (cause : Cause) (span : Span) (q : Parse β) : Blind (fail cause span >>= f) q := by
  intro s b t hrun
  cases hrun

theorem Blind.bind (hp : Blind p p') (hf : ∀ a, Blind (f a) (f' a)) : Blind (p >>= f) (p' >>= f') := by
  intro s b t hrun
  obtain ⟨a, s₁, hfirst, hlast⟩ := bind_eq_ok hrun
  obtain ⟨hs₁, hfirst'⟩ := hp _ _ _ hfirst
  obtain ⟨ht, hlast'⟩ := hf a _ _ _ hlast
  refine ⟨?_, fun s' hunit => ?_⟩
  · rw [ht, hs₁]
  · rw [bind_of_ok (hfirst' s' hunit)]
    exact hlast' _ rfl

theorem Blind.ite {c : Prop} [Decidable c] (hp : Blind p p') (hq : Blind q q') :
    Blind (if c then p else q) (if c then p' else q') := by
  split
  · exact hp
  · exact hq

theorem Blind.unit_bind {f f' : DeclUnit → Parse β} (hf : ∀ u, Blind (f u) (f' u)) :
    Blind (unit >>= f) (unit >>= f') := by
  intro s b t hrun
  obtain ⟨ht, hlast⟩ := hf s.unit _ _ _ hrun
  refine ⟨ht, fun s' hunit => ?_⟩
  rw [unit_bind_run, hunit]
  exact hlast s' hunit

theorem Blind.current_bind {f f' : Lexed → Parse β} (hf : ∀ l l', Blind (f l) (f' l')) :
    Blind (current >>= f) (current >>= f') := by
  intro s b t hrun
  obtain ⟨ht, hlast⟩ := hf s.current s.current _ _ _ hrun
  exact ⟨ht, fun s' hunit => (hf s.current s'.current _ _ _ hrun).2 s' hunit⟩

theorem Blind.here_bind {f f' : Span → Parse β} (hf : ∀ span span', Blind (f span) (f' span')) :
    Blind (here >>= f) (here >>= f') := Blind.current_bind fun l l' => hf l.span l'.span

theorem blind_unit : Blind unit unit := by
  rintro s _ _ ⟨⟩
  refine ⟨rfl, fun s' hunit => ?_⟩
  rw [← hunit]
  rfl

theorem blind_build (k : DeclUnit → Ty × DeclUnit) : Blind (build k) (build k) := by
  rintro s _ _ ⟨⟩
  refine ⟨rfl, fun s' hunit => ?_⟩
  rw [← hunit]
  rfl

theorem blind_define (span span' : Span) (k : DeclUnit → Except TypeFault α × DeclUnit) :
    Blind (define span k) (define span' k) := by
  intro s a t hrun
  rw [define_run] at hrun
  rcases hk : k s.unit with ⟨fault | a', v⟩
  · rw [hk] at hrun
    cases hrun
  · rw [hk] at hrun
    cases hrun
    refine ⟨rfl, fun s' hunit => ?_⟩
    rw [define_run, hunit, hk]

theorem blind_measured (t : Ty) (span span' : Span) : Blind (measured t span) (measured t span') := by
  intro s e t' hrun
  rw [measured_run] at hrun
  cases hm : s.unit.measure t with
  | error o =>
    rw [hm] at hrun
    cases hrun
  | ok e' =>
    rw [hm] at hrun
    cases hrun
    refine ⟨rfl, fun s' hunit => ?_⟩
    rw [measured_run, hunit, hm]
    exact congrArg (EStateM.Result.ok _) (by rw [← hunit])

theorem Blind.matches (hp : Blind p p') : Matches F (fun a => a) p p' := by
  intro s s'
  constructor
  · intro a t hrun
    rw [(hp _ _ _ hrun).1]
    exact le_rfl
  · intro hs a t hrun
    obtain ⟨ht, hsecond⟩ := hp _ _ _ hrun
    refine .inr ⟨_, hsecond s' hs.unit, ?_⟩
    rw [ht]
    exact hs.withUnit t.unit

/-! ## Loops -/

variable {i : σ → σ} {round round' : σ → Parse (Round σ α)}

/-- The second text leaves no fewer rounds. -/
theorem matches_loopFor (hround : ∀ x, Matches F (Round.map i g) (round x) (round' (i x))) {n m : Nat} (hle : n ≤ m)
    (x : σ) : Matches F g (loopFor round n x) (loopFor round' m (i x)) := by
  induction n generalizing m x with
  | zero =>
    intro s s'
    constructor <;> intros <;> contradiction
  | succ n ih =>
    obtain ⟨m, rfl⟩ := Nat.exists_eq_succ_of_ne_zero (show m ≠ 0 by omega)
    refine (hround x).bind fun r => ?_
    cases r with
    | again y => exact ih (by omega) y
    | done a => exact .pure rfl

theorem matches_loop (i : σ → σ) {start : σ} (hround : ∀ x, Matches F (Round.map i g) (round x) (round' (i x))) :
    Matches F g (loop start round) (loop (i start) round') := by
  intro s s'
  constructor
  · exact (matches_loopFor hround le_rfl start s s').left
  · intro hs a t hrun
    exact (matches_loopFor hround hs.allowance_le start s s').meets hs hrun

/-! ## What stands between brackets -/

/-- What is kept by every step is kept by the reader. -/
def Steps (p : Parse α) : Prop := ∀ P : State → Prop,
  (∀ {s l ahead}, P s → takeItem s.stop s.ahead = .ok (l, ahead) → P { s with current := l, ahead }) →
    (∀ {s op}, P s → IsPlain op → P { s with unit := s.unit.apply op }) → ∀ {s a t}, P s → p s = .ok a t → P t

theorem Steps.of_follows (hp : ∀ P hadvance happly, ∃ g p', Follows (.same P hadvance happly) g p p') : Steps p := by
  intro P hadvance happly s a t hs hrun
  obtain ⟨g, p', hfollows⟩ := hp P hadvance happly
  have hlost := (hfollows s).lost hs
  rwa [hrun] at hlost

theorem Steps.left (hp : Steps p) {a : α} (hrun : p s = .ok a t) : t.left ≤ s.left :=
  hp (fun t => t.left ≤ s.left) (fun hle htake => (State.left_take htake).1.trans hle) (fun hle _ => hle) le_rfl hrun

theorem Steps.on (hp : Steps p) {a : α} (hs : F.On s) (hrun : p s = .ok a t) : F.On t :=
  hp F.On (fun hs htake => hs.take htake) (fun hs _ => hs.withUnit _) hs hrun

/-- A reading that comes to be in front of the place was in front of it all along. -/
theorem Steps.before (hp : Steps p) {a : α} (hs : F.Meets s s') (hrun : p s = .ok a t) (ht : F.Before t) :
    F.Before s ∧ s' = F.transport.state s := by
  cases hs with
  | before hs => exact ⟨hs, rfl⟩
  | here u =>
    obtain ⟨-, _, items, -, hahead⟩ := ht
    have hle : t.ahead.length ≤ F.rest.length :=
      hp (fun t => t.ahead.length ≤ F.rest.length)
        (fun hle htake => (takeItem_length htake).trans ((Nat.sub_le _ _).trans hle)) (fun hle _ => hle) le_rfl hrun
    rw [hahead, List.length_append, List.length_cons] at hle
    omega

theorem token_of_expect {mark : Punct} {f : Lexed → Parse β} {b : β} (hrun : (expect mark >>= f) s = .ok b t) :
    s.current.token = .punct mark := by
  obtain ⟨l, s₁, hexpect, -⟩ := bind_eq_ok hrun
  rw [expect_run] at hexpect
  split at hexpect
  · next htoken => exact beq_iff_eq.1 htoken
  · cases hexpect

/-- In front of the place, the second reading follows where the first one looks no further. -/
theorem Follows.of_before (hp : Follows F.transport g p p') {a : α} (ht : F.Before t) (hrun : p s = .ok a t) :
    looksBehind t.current.token = true ∨ p' (F.transport.state s) = .ok (g a) (F.transport.state t) := by
  have hcarries := (hp s).carries
  rw [hrun] at hcarries
  rcases hcarries with ⟨-, hlost⟩ | hsecond
  · obtain ⟨-, _, items, -, hahead⟩ := ht
    rcases hlost with hlost | ⟨-, hlooks⟩
    · rw [hahead, List.length_append, List.length_cons] at hlost
      omega
    · exact .inl hlooks
  · exact .inr hsecond

/-- Up to a token that closes a group, the first reading is in front of the place, so that the second one follows. -/
theorem Matches.closed {mark : Punct} (hsteps : Steps p) (hp : Follows F.transport g p p')
    (hmark : looksBehind (.punct mark) = false) (hfirst : F.first.token ≠ .punct mark)
    (hcloses : ∀ {a b t t'}, f a t = .ok b t' → t.current.token = .punct mark)
    (hf : ∀ a, Matches F h (f a) (f' (g a))) : Matches F h (p >>= f) (p' >>= f') := by
  intro s s'
  constructor
  · intro b t hrun
    obtain ⟨a, s₁, hinner, hlast⟩ := bind_eq_ok hrun
    exact ((hf a s₁ s₁).left hlast).trans (hsteps.left hinner)
  · intro hs b t hrun
    obtain ⟨a, s₁, hinner, hlast⟩ := bind_eq_ok hrun
    have htoken := hcloses hlast
    -- The bracket is looked at in front of the place: another token stands at it, and it is not past it.
    rcases hsteps.on hs.on hinner with hs₁ | hs₁ | hs₁
    · obtain ⟨hs₀, rfl⟩ := hsteps.before hs hinner hs₁
      rcases hp.of_before hs₁ hinner with hlooks | hsecond
      · rw [htoken, hmark] at hlooks
        cases hlooks
      · rw [bind_of_ok hsecond]
        exact (hf a s₁ _).meets (.before hs₁) hlast
    · rw [hs₁] at htoken
      exact absurd htoken hfirst
    · exact .inl (((hf a s₁ s₁).left hlast).trans hs₁)

/-- The rules of the first reading are carried over, and keep what single steps keep. -/
structure Rules.Keep (F : Fork) (rules rules' : Rules) : Prop where
  follow : rules.Follow F.transport rules'
  steps : ∀ T, rules.Follow T rules

end Cognate.Grammar
