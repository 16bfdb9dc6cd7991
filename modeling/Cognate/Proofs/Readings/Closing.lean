import Cognate.Proofs.Readings.Texts

/-!
# Where declarations end

A declaration ends with a semicolon or with the body of a function. Its reader moves past that token and looks no
further: where the first text ends there and the second one goes on, the second reading stands at what follows
(`Transport.Joins`), and otherwise it is carried over. `Closes` says so of a reader some of whose answers end a
declaration.
-/

namespace Cognate.Grammar

variable {α β σ : Type}

/-- A last token of a declaration, or one that ends a group. -/
def endsPart (t : Token) : Bool := t == .punct .semi || closes t

/-- The first reading has moved on to the end of its text, where the second one goes on with what follows. -/
structure Transport.Joins (T : Transport) (t : State) (a : α) (r : EStateM.Result Fault State α) : Prop where
  finish : t.current.token = .finish
  moved : match takeItem (T.state t).stop T.more with
    | .ok (l, ahead) => r = .ok a { T.state t with current := l, ahead }
    | .error fault => ∃ s, r = .error fault s ∧ s.unit = T.unit t.unit

/-- What is known of the first reading alone once it has moved past a last token. Where it is lost in a text that goes
on behind its end, there is no such token. -/
structure Ending (T : Transport) where
  whole : T.dropped = 0
  after : State → Prop
  advance : ∀ {s l ahead}, T.lost s → endsPart s.current.token = true → takeItem s.stop s.ahead = .ok (l, ahead) →
    after { s with current := l, ahead }
  never : T.isOpen → ∀ s, ¬after s

/-- The answers told by `c` end a declaration. -/
structure ClosesAt {T : Transport} (E : Ending T) (s : State) (c : α → Bool) (p p' : Parse α) : Prop where
  lost : ∀ {a t}, T.lost s → p s = .ok a t → if c a then E.after t else T.lost t
  carries : ∀ {a t}, p s = .ok a t →
    (T.isOpen ∧ if c a then T.Joins t a (p' (T.state s)) else T.lost t) ∨ p' (T.state s) = .ok a (T.state t)

/-- From every state. -/
def Closes {T : Transport} (E : Ending T) (c : α → Bool) (p p' : Parse α) : Prop := ∀ s, ClosesAt E s c p p'

variable {T : Transport} {E : Ending T} {g : α → α} {c : α → Bool} {d : β → Bool} {p p' : Parse α}
  {f f' : α → Parse β} {s t : State} {a : α} {b : β} {rules rules' : Rules}

/-! ## Steps -/

theorem Transport.Joins.bind (hj : T.Joins t a (p' s)) (hf : f' a = pure b) : T.Joins t b ((p' >>= f') s) := by
  obtain ⟨hfinish, hmoved⟩ := hj
  refine ⟨hfinish, ?_⟩
  rw [bind_run]
  cases htake : takeItem (T.state t).stop T.more with
  | ok r =>
    rw [htake] at hmoved
    rw [hmoved]
    dsimp only
    rw [hf]
    rfl
  | error fault =>
    rw [htake] at hmoved
    obtain ⟨s', hs', hunit⟩ := hmoved
    rw [hs']
    exact ⟨s', rfl, hunit⟩

/-- Where the first reading is lost, it ends no declaration. -/
theorem ClosesAt.lost_of_open {r : EStateM.Result Fault State α} (h : ClosesAt E s c p p') (hopen : T.isOpen)
    (hs : T.lost s) (hrun : p s = .ok a t) : if c a then T.Joins t a r else T.lost t := by
  have ht := h.lost hs hrun
  split
  · next ha =>
    rw [if_pos ha] at ht
    exact (E.never hopen t ht).elim
  · next ha =>
    rwa [if_neg ha] at ht

theorem ClosesAt.pure (hb : d b = false) : ClosesAt E s d (pure b) (pure b) := by
  constructor
  · rintro _ _ hs ⟨⟩
    rw [hb]
    exact hs
  · rintro _ _ ⟨⟩
    exact .inr rfl

theorem Closes.pure (hb : d b = false) : Closes E d (pure b) (pure b) := fun _ => .pure hb

theorem closes_fail (cause : Cause) (span span' : Span) : Closes E c (fail cause span) (fail cause span') := by
  intro s
  constructor <;> intros <;> contradiction

/-- Behind a last token nothing is read any more, and a reader that ends no declaration moves past none. -/
theorem ClosesAt.advance (hb : endsPart s.current.token = false → d b = false) :
    ClosesAt E s d (advance >>= fun _ => Pure.pure b) (advance >>= fun _ => Pure.pure b) := by
  constructor
  · intro b' t hs hrun
    rw [bind_run, advance_run] at hrun
    cases htake : takeItem s.stop s.ahead with
    | error fault =>
      rw [htake] at hrun
      cases hrun
    | ok r =>
      rw [htake] at hrun
      cases hrun
      split
      · next hd =>
        refine E.advance hs ?_ htake
        by_contra hend
        rw [hb (by simpa using hend)] at hd
        cases hd
      · exact T.lost_advance hs htake
  · intro b' t hrun
    rw [bind_run, advance_run] at hrun
    rw [bind_run, advance_run]
    cases hahead : s.ahead with
    | nil =>
      rw [hahead] at hrun
      cases hrun
      by_cases hopen : T.isOpen
      · refine .inl ⟨hopen, ?_⟩
        split
        · refine ⟨rfl, ?_⟩
          rw [show (T.state s).ahead = T.more by
            simp only [Transport.state, hahead, List.take_nil, List.map_nil, List.nil_append]]
          dsimp only [Transport.state]
          cases takeItem (s.stop + T.places + T.behind) T.more with
          | ok r => rfl
          | error fault => exact ⟨_, rfl, rfl⟩
        · exact T.lost_end (s := s) hopen (by simp [hahead]) (by rw [hahead]; rfl)
      · rw [takeItem_end hopen hahead]
        obtain ⟨-, hmore, -⟩ := T.closed hopen
        refine .inr ?_
        simp only [Transport.state, List.take_nil, List.map_nil, hmore, List.append_nil]
        rfl
    | cons item ahead =>
      have hcommon : T.dropped < s.ahead.length := by
        rw [E.whole, hahead]
        exact Nat.zero_lt_succ _
      rw [takeItem_state hahead hcommon]
      rw [hahead] at hrun
      cases item with
      | error fault => cases hrun
      | ok l =>
        cases hrun
        exact .inr rfl

/-- A reader that is followed, and then one that may end a declaration. -/
theorem FollowsAt.closes_of {P : α → Prop} (hp : FollowsAt T s g p p') (hP : ∀ a t, p s = .ok a t → P a)
    (hf : ∀ a, P a → Closes E d (f a) (f' (g a))) : ClosesAt E s d (p >>= f) (p' >>= f') := by
  obtain ⟨hlost, hcarries⟩ := hp
  constructor
  · intro b t hs hrun
    obtain ⟨a, s', hfirst, hlast⟩ := bind_eq_ok hrun
    rw [hfirst] at hlost
    exact (hf a (hP a s' hfirst) s').lost (hlost hs) hlast
  · intro b t hrun
    obtain ⟨a, s', hfirst, hlast⟩ := bind_eq_ok hrun
    rw [hfirst] at hcarries
    have hnext := hf a (hP a s' hfirst) s'
    rcases hcarries with ⟨hopen, hs'⟩ | hsecond
    · exact .inl ⟨hopen, hnext.lost_of_open hopen hs' hlast⟩
    · rw [bind_run, hsecond]
      exact hnext.carries hlast

theorem Follows.closes (hp : Follows T g p p') (hf : ∀ a, Closes E d (f a) (f' (g a))) :
    Closes E d (p >>= f) (p' >>= f') :=
  fun s => (hp s).closes_of (P := fun _ => True) (fun _ _ _ => trivial) fun a _ => hf a

/-- Behind an answer that ends a declaration nothing may be read. -/
theorem Closes.bind_of {P : α → Prop} (hp : Closes E c p p') (hP : ∀ s a t, p s = .ok a t → P a)
    (hend : ∀ a, c a = true → ∃ b, d b = true ∧ f a = Pure.pure b ∧ f' a = Pure.pure b)
    (hf : ∀ a, P a → c a = false → Closes E d (f a) (f' a)) : Closes E d (p >>= f) (p' >>= f') := by
  intro s
  obtain ⟨hlost, hcarries⟩ := hp s
  constructor
  · intro b t hs hrun
    obtain ⟨a, s', hfirst, hlast⟩ := bind_eq_ok hrun
    have hs' := hlost hs hfirst
    cases ha : c a with
    | true =>
      obtain ⟨b, hb, hfa, -⟩ := hend a ha
      rw [hfa] at hlast
      cases hlast
      rw [if_pos hb]
      rwa [if_pos ha] at hs'
    | false =>
      rw [ha] at hs'
      exact (hf a (hP s a s' hfirst) ha s').lost hs' hlast
  · intro b t hrun
    obtain ⟨a, s', hfirst, hlast⟩ := bind_eq_ok hrun
    cases ha : c a with
    | true =>
      obtain ⟨b, hb, hfa, hfa'⟩ := hend a ha
      rw [hfa] at hlast
      cases hlast
      rcases hcarries hfirst with ⟨hopen, hjoins⟩ | hsecond
      · rw [if_pos ha] at hjoins
        refine .inl ⟨hopen, ?_⟩
        rw [if_pos hb]
        exact hjoins.bind hfa'
      · refine .inr ?_
        rw [bind_run, hsecond]
        dsimp only
        rw [hfa']
        rfl
    | false =>
      have hnext := hf a (hP s a s' hfirst) ha s'
      rcases hcarries hfirst with ⟨hopen, hs'⟩ | hsecond
      · rw [ha] at hs'
        exact .inl ⟨hopen, hnext.lost_of_open hopen hs' hlast⟩
      · rw [bind_run, hsecond]
        exact hnext.carries hlast

theorem Closes.bind (hp : Closes E c p p')
    (hend : ∀ a, c a = true → ∃ b, d b = true ∧ f a = Pure.pure b ∧ f' a = Pure.pure b)
    (hf : ∀ a, c a = false → Closes E d (f a) (f' a)) : Closes E d (p >>= f) (p' >>= f') :=
  hp.bind_of (P := fun _ => True) (fun _ _ _ _ => trivial) hend fun a _ => hf a

theorem ClosesAt.ite {e : Prop} [Decidable e] {q q' : Parse α} (hp : e → ClosesAt E s c p p')
    (hq : ¬e → ClosesAt E s c q q') : ClosesAt E s c (if e then p else q) (if e then p' else q') := by
  split
  · next he => exact hp he
  · next he => exact hq he

theorem Closes.ite {e : Prop} [Decidable e] {q q' : Parse α} (hp : Closes E c p p') (hq : Closes E c q q') :
    Closes E c (if e then p else q) (if e then p' else q') := fun s => .ite (fun _ => hp s) fun _ => hq s

theorem ClosesAt.check_bind {f f' : Bool → Parse β} (t : Token)
    (hf : ClosesAt E s d (f (s.current.token == t)) (f' (s.current.token == t))) :
    ClosesAt E s d (check t >>= f) (check t >>= f') := ⟨hf.lost, hf.carries⟩

theorem ClosesAt.current_bind {f f' : Lexed → Parse β}
    (hf : ClosesAt E s d (f s.current) (f' (s.current.shift T.places))) :
    ClosesAt E s d (current >>= f) (current >>= f') := ⟨hf.lost, hf.carries⟩

/-! ## Loops -/

/-- The last round has ended a declaration. -/
def Round.ends (c : α → Bool) : Round σ α → Bool
  | .again _ => false
  | .done a => c a

variable {round round' : σ → Parse (Round σ α)}

/-- By induction on the rounds that are left, with an invariant of the loop's state. -/
theorem closes_loopFor {I : σ → Prop} (hround : ∀ x, I x → Closes E (Round.ends c) (round x) (round' x))
    (hI : ∀ x s y t, I x → round x s = .ok (.again y) t → I y) {n m : Nat} (hle : n ≤ m) {x : σ} (hx : I x) :
    Closes E c (loopFor round n x) (loopFor round' m x) := by
  induction n generalizing m x with
  | zero =>
    intro s
    constructor <;> intros <;> contradiction
  | succ n ih =>
    obtain ⟨m, rfl⟩ := Nat.exists_eq_succ_of_ne_zero (show m ≠ 0 by omega)
    refine (hround x hx).bind_of (P := fun r => ∀ y, r = .again y → I y) ?_ ?_ ?_
    · rintro s _ t hr y rfl
      exact hI x s y t hx hr
    · rintro (y | a) ha
      · cases ha
      · exact ⟨a, ha, rfl, rfl⟩
    · rintro (y | a) hy ha
      · exact ih (by omega) (hy y rfl)
      · exact .pure ha

theorem closes_loop {I : σ → Prop} {start : σ} (hstart : I start)
    (hround : ∀ x, I x → Closes E (Round.ends c) (round x) (round' x))
    (hI : ∀ x s y t, I x → round x s = .ok (.again y) t → I y) :
    Closes E c (loop start round) (loop start round') := by
  intro s
  obtain ⟨hlost, hcarries⟩ := closes_loopFor hround hI (allowance_le T s).1 hstart s
  exact ⟨hlost, hcarries⟩

/-! ## Readers -/

theorem closes_accept : Closes E (fun b => b) (accept (.punct .semi)) (accept (.punct .semi)) := by
  intro s
  refine .check_bind _ (.ite (fun hsemi => .advance fun hend => ?_) fun _ => .pure rfl)
  rw [beq_iff_eq.1 hsemi] at hend
  cases hend

theorem expect_run (mark : Punct) (s : State) : expect mark s =
    if s.current.token == .punct mark then advance s else fail (.expected mark s.current.token) s.current.span s := by
  change (if _ then advance else fail _ _ : Parse Lexed) s = _
  split <;> rfl

theorem closes_expect :
    Closes E (fun _ => true) (expect .semi >>= fun _ => pure ()) (expect .semi >>= fun _ => pure ()) := by
  intro s
  by_cases hsemi : s.current.token = .punct .semi
  · have hstep : ∀ s : State, s.current.token = .punct .semi →
        (expect .semi >>= fun _ => (pure () : Parse Unit)) s = (advance >>= fun _ => pure ()) s := by
      intro s hs
      rw [bind_run, bind_run, expect_run, if_pos (beq_iff_eq.2 hs)]
    have hadvance : ClosesAt E s (fun _ => true) (advance >>= fun _ => pure ()) (advance >>= fun _ => pure ()) := by
      refine .advance fun hend => ?_
      rw [hsemi] at hend
      cases hend
    obtain ⟨hlost, hcarries⟩ := hadvance
    constructor
    · rw [hstep s hsemi]
      exact hlost
    · rw [hstep s hsemi, hstep (T.state s) hsemi]
      exact hcarries
  · have hfail : ∀ a t, (expect .semi >>= fun _ => (pure () : Parse Unit)) s ≠ .ok a t := by
      intro a t hrun
      rw [bind_run, expect_run, if_neg (by simpa using hsemi)] at hrun
      cases hrun
    constructor
    · exact fun _ hrun => (hfail _ _ hrun).elim
    · exact fun hrun => (hfail _ _ hrun).elim

/-- The depth stays positive up to the bracket that closes the group. -/
theorem closes_skipGroup : Closes E (fun _ => true) skipGroup skipGroup := by
  unfold skipGroup
  refine follows_advance.closes fun opening => closes_loop (I := fun depth => 0 < depth) Nat.one_pos ?_ ?_
  · intro depth hdepth s
    refine .current_bind (.ite (fun _ => closes_fail _ _ _ _) fun _ => .advance fun hend => ?_)
    have hcloses : closes s.current.token = false := (Bool.or_eq_false_iff.1 hend).2
    rw [hcloses, if_neg]
    · rfl
    · rw [if_neg Bool.false_ne_true]
      split <;> omega
  · intro depth s next t hdepth hrun
    obtain ⟨l, s', -, hrun⟩ := bind_eq_ok hrun
    dsimp only at hrun
    split at hrun
    · cases hrun
    · obtain ⟨_, _, -, hrun⟩ := bind_eq_ok hrun
      generalize (if opens l.token = true then depth + 1
        else if closes l.token = true then depth - 1 else depth) = d at hrun
      split at hrun
      · cases hrun
      · next hd =>
        cases hrun
        exact Nat.pos_of_ne_zero hd

theorem closes_functionBody : Closes E (fun b => b) functionBody functionBody := by
  have hrest : Closes E (fun b => b) (do
      if ← check (.punct .lbrace) then
        skipGroup
        return true
      return false) (do
      if ← check (.punct .lbrace) then
        skipGroup
        return true
      return false) := by
    refine (follows_check _).closes fun _ => .ite (closes_skipGroup.bind ?_ ?_) (.pure rfl)
    · exact fun _ _ => ⟨true, rfl, rfl, rfl⟩
    · exact fun _ h => nomatch h
  refine (follows_check _).closes fun _ => follows_atType.closes fun _ => .ite ?_ hrest
  exact follows_skipToBody.closes fun _ => hrest

/-- A function body ends the declaration. -/
theorem closes_initDeclarator (hr : rules.Follow T rules') (s : Specifiers) :
    Closes E (fun b => b) (initDeclarator rules s) (initDeclarator rules' (s.shift T.places)) := by
  unfold initDeclarator
  intro st
  refine (hr.declarator .named st).closes_of (hr.named st) fun d hnamed => (follows_attributes hr).closes fun late => ?_
  rw [Specifiers.shift, ← Attributes.shift_merge]
  refine (follows_declaredType _ _ _).closes fun t => ?_
  obtain ⟨name, derivations, span⟩ := d
  obtain ⟨found, rfl⟩ := Option.isSome_iff_exists.1 hnamed
  refine (follows_declareOne s.isTypedef found t).closes fun _ => ?_
  have hend : Closes E (fun b => b) (do
      if ← accept (.punct .eq) then skipInitializer
      return false : Parse Bool) (do
      if ← accept (.punct .eq) then skipInitializer
      return false) := by
    refine (follows_accept _).closes fun _ => .ite ?_ (.pure rfl)
    exact follows_skipInitializer.closes fun _ => .pure rfl
  refine .ite (closes_functionBody.bind ?_ ?_) hend
  · rintro ended rfl
    exact ⟨true, rfl, rfl, rfl⟩
  · rintro ended rfl
    exact hend

theorem closes_rulesHere_bind {f f' : Rules → Parse α}
    (hf : ∀ rules rules', rules.Follow T rules' → Closes E c (f rules) (f' rules')) :
    Closes E c (rulesHere >>= f) (rulesHere >>= f') := by
  intro s
  obtain ⟨hlost, hcarries⟩ := hf _ _ (rulesHere_follow T s) s
  exact ⟨hlost, hcarries⟩

/-- Every declaration ends with a token that may be the last one. -/
theorem closes_declaration : Closes E (fun _ => true) declaration declaration := by
  unfold declaration
  refine closes_accept.bind ?_ ?_
  · rintro b rfl
    exact ⟨(), rfl, rfl, rfl⟩
  rintro b rfl
  rw [if_neg Bool.false_ne_true]
  refine closes_rulesHere_bind fun rules rules' hr => hr.specifiers.closes fun s => closes_accept.bind ?_ ?_
  · rintro b rfl
    exact ⟨(), rfl, rfl, rfl⟩
  rintro b rfl
  rw [if_neg Bool.false_ne_true, if_neg Bool.false_ne_true]
  have hbodies : Closes E (fun b => b) (loop () fun () => do
      if ← initDeclarator rules s then return Round.done true
      else if ← accept (.punct .comma) then return Round.again ()
      else return Round.done false) (loop () fun () => do
      if ← initDeclarator rules' (s.shift T.places) then return Round.done true
      else if ← accept (.punct .comma) then return Round.again ()
      else return Round.done false) := by
    refine closes_loop (I := fun _ => True) trivial (fun _ _ => ?_) fun _ _ _ _ _ _ => trivial
    refine (closes_initDeclarator hr s).bind ?_ ?_
    · rintro b rfl
      exact ⟨.done true, rfl, rfl, rfl⟩
    · rintro b rfl
      exact (follows_accept _).closes fun _ => .ite (.pure rfl) (.pure rfl)
  refine hbodies.bind ?_ ?_
  · rintro b rfl
    exact ⟨(), rfl, rfl, rfl⟩
  · rintro b rfl
    exact closes_expect

end Cognate.Grammar
