import Cognate.Proofs.Grammar.Keeps
import Cognate.Proofs.Token.Places
import Cognate.Proofs.Unit.Renamed

/-!
# Readings side by side

One reading is carried over to another one: the text stands further on, or goes on behind its end or in place of it, or
the unit has another name (`Transport`). A reader `Follows` if the second reading does what the first one does, with
places and names carried over, unless the first one has come to where the texts part. What is known of the first reading
in that case (`lost`) only has to be kept by single steps. The rules for steps and loops are stated here; those for the
single readers are assembled from them.
-/

namespace Cognate.Grammar

variable {α β σ : Type} {u : DeclUnit}

/-! ## Carrying over -/

/-- The names of members, without the unnamed ones. -/
def givenNames (fields : List (String × Ty)) : List String := (fields.map Prod.fst).filter (· ≠ "")

/-- An operation that interns no record or enum by itself, and gives no record two members of one name. -/
structure IsPlain (op : Operation) : Prop where
  untagged : ∀ s, op = .intern s → s.isTagged = false
  distinct : ∀ t fields, op = .completeRecord t fields → (givenNames fields).Nodup

/-- A token behind which readers look at the next one. -/
def looksBehind : Token → Bool
  | .name _ | .keyword .void | .punct .lparen | .punct .star => true
  | _ => false

/-- How one reading is carried over to another one. -/
structure Transport where
  /-- Bytes that stand in front of the text. -/
  places : Nat
  /-- The name of the unit. -/
  rename : String → String
  /-- Number of items at the end of the text that others stand in place of. -/
  dropped : Nat
  /-- Items that follow the text, or stand in place of its last ones. -/
  more : List (Except Fault Lexed)
  /-- Bytes that the second text has more. -/
  behind : Nat
  /-- The texts may part. -/
  isOpen : Prop
  /-- What is kept by every step. Where texts may part, nothing is said of the second reading where this holds. -/
  lost : State → Prop
  closed : ¬isOpen → dropped = 0 ∧ more = [] ∧ behind = 0
  dropped_le : dropped ≤ more.length
  lost_advance : ∀ {s l ahead}, lost s → takeItem s.stop s.ahead = .ok (l, ahead) → lost { s with current := l, ahead }
  lost_apply : ∀ {s op}, lost s → IsPlain op → lost { s with unit := s.unit.apply op }
  /-- Behind the last common token. -/
  lost_end : isOpen → ∀ {s : State} {l ahead}, s.ahead.length ≤ dropped → takeItem s.stop s.ahead = .ok (l, ahead) →
    lost { s with current := l, ahead }
  /-- Looking behind the last common token. -/
  lost_peek : isOpen → ∀ {s : State}, s.ahead.length ≤ dropped → looksBehind s.current.token = true → lost s

namespace Transport

variable (T : Transport)

/-- The state of the second reading. -/
def state (s : State) : State where
  current := s.current.shift T.places
  ahead := (s.ahead.take (s.ahead.length - T.dropped)).map (shiftItem T.places) ++ T.more
  stop := s.stop + T.places + T.behind
  unit := s.unit.renamed T.rename

/-- The unit of the second reading. -/
abbrev unit (u : DeclUnit) : DeclUnit := u.renamed T.rename

/-- The second outcome is the first one carried over. -/
def Carries (g : α → α) : EStateM.Result Fault State α → EStateM.Result Fault State α → Prop
  | .ok a s, r => T.isOpen ∧ T.lost s ∨ r = .ok (g a) (T.state s)
  | .error f s, r => T.isOpen ∨ r = .error (f.shift T.places) (T.state s)

end Transport

/-- The state that an outcome leaves. -/
def leaves : EStateM.Result Fault State α → State
  | .ok _ s => s
  | .error _ s => s

/-- From this state of the first reading, `p'` does in the second one what `p` does in the first; `g` carries answers
over. -/
structure FollowsAt (T : Transport) (s : State) (g : α → α) (p p' : Parse α) : Prop where
  lost : T.lost s → T.lost (leaves (p s))
  carries : T.Carries g (p s) (p' (T.state s))

/-- From every state. -/
def Follows (T : Transport) (g : α → α) (p p' : Parse α) : Prop := ∀ s, FollowsAt T s g p p'

variable {T : Transport} {g : α → α} {h : β → β} {p p' : Parse α} {f f' : α → Parse β} {s s' : State}

/-! ## Steps -/

theorem FollowsAt.pure {a a' : α} (ha : a' = g a) : FollowsAt T s g (pure a) (pure a') := by
  subst ha
  exact ⟨fun hs => hs, .inr rfl⟩

theorem Follows.pure {a a' : α} (ha : a' = g a) : Follows T g (pure a) (pure a') := fun _ => .pure ha

theorem bind_of_ok {a : α} (h : p s = .ok a s') : (p >>= f) s = f a s' := by
  rw [bind_run, h]

theorem bind_of_error {fault : Fault} (h : p s = .error fault s') : (p >>= f) s = .error fault s' := by
  rw [bind_run, h]

theorem bind_eq_ok {b : β} {t : State} (hrun : (p >>= f) s = .ok b t) : ∃ a s', p s = .ok a s' ∧ f a s' = .ok b t := by
  rw [bind_run] at hrun
  cases hr : p s with
  | error e s' =>
    rw [hr] at hrun
    cases hrun
  | ok a s' =>
    rw [hr] at hrun
    exact ⟨a, s', rfl, hrun⟩

/-- Where the first reading is lost, whatever follows keeps that; otherwise what follows is carried over. -/
theorem FollowsAt.bind_of {P : α → Prop} (hp : FollowsAt T s g p p') (hP : ∀ a t, p s = .ok a t → P a)
    (hf : ∀ a, P a → Follows T h (f a) (f' (g a))) : FollowsAt T s h (p >>= f) (p' >>= f') := by
  obtain ⟨hlost, hcarries⟩ := hp
  cases hr : p s with
  | error e t =>
    rw [hr] at hlost hcarries
    constructor
    · rw [bind_run, hr]
      exact hlost
    · rw [bind_run, hr]
      rcases hcarries with hopen | hsecond
      · exact .inl hopen
      · rw [bind_run, hsecond]
        exact .inr rfl
  | ok a t =>
    rw [hr] at hlost hcarries
    have hnext := hf a (hP a t hr) t
    constructor
    · rw [bind_run, hr]
      exact fun hs => hnext.lost (hlost hs)
    · rw [bind_run, hr]
      rcases hcarries with ⟨hopen, ht⟩ | hsecond
      · have hend := hnext.lost ht
        dsimp only
        cases hlast : f a t with
        | error e t' => exact .inl hopen
        | ok b t' =>
          rw [hlast] at hend
          exact .inl ⟨hopen, hend⟩
      · rw [bind_run, hsecond]
        exact hnext.carries

theorem FollowsAt.bind (hp : FollowsAt T s g p p') (hf : ∀ a, Follows T h (f a) (f' (g a))) :
    FollowsAt T s h (p >>= f) (p' >>= f') :=
  hp.bind_of (P := fun _ => True) (fun _ _ _ => trivial) fun a _ => hf a

theorem Follows.bind_of {P : α → Prop} (hp : Follows T g p p') (hP : ∀ s a t, p s = .ok a t → P a)
    (hf : ∀ a, P a → Follows T h (f a) (f' (g a))) : Follows T h (p >>= f) (p' >>= f') :=
  fun s => (hp s).bind_of (hP s) hf

theorem Follows.bind (hp : Follows T g p p') (hf : ∀ a, Follows T h (f a) (f' (g a))) :
    Follows T h (p >>= f) (p' >>= f') := fun s => (hp s).bind hf

theorem Follows.map {k : α → β} (hp : Follows T g p p') (hk : ∀ a, k (g a) = h (k a)) :
    Follows T h (k <$> p) (k <$> p') := by
  rw [map_eq_pure_bind, map_eq_pure_bind]
  exact hp.bind fun a => .pure (hk a)

theorem FollowsAt.ite {c : Prop} [Decidable c] {q q' : Parse α} (hp : c → FollowsAt T s g p p')
    (hq : ¬c → FollowsAt T s g q q') : FollowsAt T s g (if c then p else q) (if c then p' else q') := by
  split
  · next hc => exact hp hc
  · next hc => exact hq hc

theorem Follows.ite {c : Prop} [Decidable c] {q q' : Parse α} (hp : Follows T g p p') (hq : Follows T g q q') :
    Follows T g (if c then p else q) (if c then p' else q') := fun s => .ite (fun _ => hp s) fun _ => hq s

theorem follows_fail (cause : Cause) (span : Span) :
    Follows T g (fail cause span) (fail cause (span.shift T.places)) := fun _ => ⟨fun hs => hs, .inr rfl⟩

/-- Nothing happens behind a fault. -/
theorem follows_fail_bind (cause : Cause) (span : Span) :
    Follows T h (fail cause span >>= f) (fail cause (span.shift T.places) >>= f') := fun _ => ⟨fun hs => hs, .inr rfl⟩

/-! ## Looking and moving on -/

/-- Reading a part of the state. -/
theorem follows_get {k : State → α} (hk : ∀ s, k (T.state s) = g (k s)) :
    Follows T g (return k (← get)) (return k (← get)) := fun s => ⟨fun hs => hs, .inr (by rw [← hk]; rfl)⟩

theorem follows_current : Follows T (Lexed.shift T.places) current current := follows_get fun _ => rfl

theorem follows_here : Follows T (Span.shift T.places) here here := follows_get fun _ => rfl

theorem follows_atEnd : Follows T (fun b => b) atEnd atEnd := follows_get fun _ => rfl

theorem follows_check (t : Token) : Follows T (fun b => b) (check t) (check t) := follows_get fun _ => rfl

theorem follows_unit : Follows T T.unit unit unit := follows_get fun _ => rfl

/-- What the second reading takes, where the first one still has a common item. -/
theorem takeItem_state {item : Except Fault Lexed} {ahead : List (Except Fault Lexed)} (h : s.ahead = item :: ahead)
    (hcommon : T.dropped < s.ahead.length) :
    takeItem (T.state s).stop (T.state s).ahead =
      (shiftItem T.places item).map fun l =>
        (l, (ahead.take (ahead.length - T.dropped)).map (shiftItem T.places) ++ T.more) := by
  have hlength : s.ahead.length - T.dropped = ahead.length - T.dropped + 1 := by
    rw [h, List.length_cons] at hcommon ⊢
    omega
  have hahead : (T.state s).ahead = shiftItem T.places item ::
      ((ahead.take (ahead.length - T.dropped)).map (shiftItem T.places) ++ T.more) := by
    change (s.ahead.take (s.ahead.length - T.dropped)).map (shiftItem T.places) ++ T.more = _
    rw [hlength, h, List.take_succ_cons, List.map_cons, List.cons_append]
  rw [hahead]
  cases item <;> rfl

/-- At the end of a text that does not go on. -/
theorem takeItem_end (hclosed : ¬T.isOpen) (h : s.ahead = []) :
    takeItem (T.state s).stop (T.state s).ahead = .ok ((finishAt s.stop).shift T.places, []) := by
  obtain ⟨-, hmore, hbehind⟩ := T.closed hclosed
  simp [Transport.state, h, hmore, hbehind, takeItem, finishAt_shift]

/-- Where no common item is left and the texts do not part, the first one ends. -/
theorem ahead_eq_nil (hclosed : ¬T.isOpen) (h : s.ahead.length ≤ T.dropped) : s.ahead = [] := by
  rw [(T.closed hclosed).1] at h
  exact List.eq_nil_of_length_eq_zero (Nat.le_zero.1 h)

theorem follows_advance : Follows T (Lexed.shift T.places) advance advance := by
  intro s
  constructor
  · intro hs
    rw [advance_run]
    cases htake : takeItem s.stop s.ahead with
    | error fault => exact hs
    | ok r => exact T.lost_advance hs htake
  · rw [advance_run, advance_run]
    by_cases hcommon : T.dropped < s.ahead.length
    · obtain ⟨item, ahead, hahead⟩ := List.exists_cons_of_length_pos (Nat.zero_lt_of_lt hcommon)
      rw [takeItem_state hahead hcommon, hahead]
      cases item with
      | error fault => exact .inr rfl
      | ok l => exact .inr rfl
    · by_cases hopen : T.isOpen
      · cases htake : takeItem s.stop s.ahead with
        | error fault => exact .inl hopen
        | ok r => exact .inl ⟨hopen, T.lost_end hopen (Nat.not_lt.1 hcommon) htake⟩
      · have hahead := ahead_eq_nil hopen (Nat.not_lt.1 hcommon)
        rw [takeItem_end hopen hahead, hahead]
        obtain ⟨-, hmore, -⟩ := T.closed hopen
        refine .inr ?_
        simp only [Transport.state, List.take_nil, List.map_nil, hmore, List.append_nil]

/-- Looking further is carried over, as the texts part behind no token of that kind. -/
theorem FollowsAt.peek (hlooks : looksBehind s.current.token = true) : FollowsAt T s (fun t => t) peek peek := by
  constructor
  · intro hs
    rw [peek_run]
    cases takeItem s.stop s.ahead <;> exact hs
  · rw [peek_run, peek_run]
    by_cases hcommon : T.dropped < s.ahead.length
    · obtain ⟨item, ahead, hahead⟩ := List.exists_cons_of_length_pos (Nat.zero_lt_of_lt hcommon)
      rw [takeItem_state hahead hcommon, hahead]
      cases item with
      | error fault => exact .inr rfl
      | ok l => exact .inr rfl
    · by_cases hopen : T.isOpen
      · cases htake : takeItem s.stop s.ahead with
        | error fault => exact .inl hopen
        | ok r => exact .inl ⟨hopen, T.lost_peek hopen (Nat.not_lt.1 hcommon) hlooks⟩
      · have hahead := ahead_eq_nil hopen (Nat.not_lt.1 hcommon)
        rw [takeItem_end hopen hahead, hahead]
        exact .inr rfl

/-- What is read next depends on the token that is looked at. -/
theorem FollowsAt.check_bind {f f' : Bool → Parse β} (t : Token)
    (hf : FollowsAt T s h (f (s.current.token == t)) (f' (s.current.token == t))) :
    FollowsAt T s h (check t >>= f) (check t >>= f') := ⟨hf.lost, hf.carries⟩

theorem FollowsAt.current_bind {f f' : Lexed → Parse β}
    (hf : FollowsAt T s h (f s.current) (f' (s.current.shift T.places))) :
    FollowsAt T s h (current >>= f) (current >>= f') := ⟨hf.lost, hf.carries⟩

theorem FollowsAt.unit_bind {f f' : DeclUnit → Parse β}
    (hf : FollowsAt T s h (f s.unit) (f' (T.unit s.unit))) :
    FollowsAt T s h (Grammar.unit >>= f) (Grammar.unit >>= f') := ⟨hf.lost, hf.carries⟩

theorem follows_accept (t : Token) : Follows T (fun b => b) (accept t) (accept t) := by
  unfold accept
  refine (follows_check t).bind fun b => .ite ?_ (.pure rfl)
  exact follows_advance.bind fun _ => .pure rfl

theorem follows_expect (mark : Punct) : Follows T (Lexed.shift T.places) (expect mark) (expect mark) := by
  unfold expect
  exact follows_current.bind fun l => .ite follows_advance (follows_fail _ _)

/-- A name and its place. -/
def shiftName (k : Nat) (found : String × Span) : String × Span := (found.1, found.2.shift k)

theorem follows_name? : Follows T (Option.map (shiftName T.places)) name? name? := by
  unfold name?
  refine follows_current.bind fun l => ?_
  obtain ⟨token, span⟩ := l
  cases token with
  | name text => exact follows_advance.bind fun _ => .pure rfl
  | _ => exact .pure rfl

theorem follows_name : Follows T (shiftName T.places) name name := by
  unfold name
  refine follows_name?.bind fun r => ?_
  cases r with
  | some found => exact .pure rfl
  | none => exact follows_current.bind fun l => follows_fail _ _

/-! ## Building -/

theorem follows_build {k k' : DeclUnit → Ty × DeclUnit}
    (hk : ∀ u, k' (u.renamed T.rename) = DeclUnit.renamedAt T.rename (k u))
    (hplain : ∀ u, ∃ op, IsPlain op ∧ (k u).2 = u.apply op) : Follows T (fun t => t) (build k) (build k') := by
  intro s
  constructor
  · intro hs
    obtain ⟨op, hop, he⟩ := hplain s.unit
    change T.lost { s with unit := (k s.unit).2 }
    rw [he]
    exact T.lost_apply hs hop
  · refine .inr ?_
    change EStateM.Result.ok (k' (s.unit.renamed T.rename)).1
      { T.state s with unit := (k' (s.unit.renamed T.rename)).2 } = _
    rw [hk]
    rfl

theorem follows_intern {shape : Shape} (htagged : shape.isTagged = false) :
    Follows T (fun t => t) (intern shape) (intern shape) := by
  refine follows_build (fun u => DeclUnit.intern_renamed _ u) fun u => ⟨.intern shape, ⟨?_, by simp⟩, rfl⟩
  rintro _ ⟨⟩
  exact htagged

theorem isPlain_of_ne {op : Operation} (h : (∀ s, op ≠ .intern s) ∧ ∀ t fields, op ≠ .completeRecord t fields) :
    IsPlain op := ⟨fun s hs => absurd hs (h.1 s), fun t fields hs => absurd hs (h.2 t fields)⟩

theorem follows_qualify (t : Ty) (q : Qualifiers) :
    Follows T (fun t => t) (build (·.qualify t q)) (build (·.qualify t q)) :=
  follows_build (fun u => DeclUnit.qualify_renamed _ u q) fun _ => ⟨.qualify t q, isPlain_of_ne (by simp), rfl⟩

theorem follows_define {span : Span} {k : DeclUnit → Except TypeFault α × DeclUnit}
    (hk : ∀ u, k (u.renamed T.rename) = DeclUnit.renamedAt T.rename (k u))
    (hplain : ∀ u : DeclUnit, ∃ op, IsPlain op ∧ u.apply op = (k u).2) :
    Follows T (fun x => x) (define span k) (define (span.shift T.places) k) := by
  intro s
  obtain ⟨op, hop, he⟩ := hplain s.unit
  constructor
  · intro hs
    have happly := T.lost_apply hs hop
    rw [he] at happly
    rw [define_run]
    rcases hr : k s.unit with ⟨_ | _, v⟩
    · rw [hr] at happly
      exact happly
    · rw [hr] at happly
      exact happly
  · have hsecond : k (T.state s).unit = _ := hk s.unit
    rw [define_run, define_run, hsecond]
    rcases k s.unit with ⟨_ | _, v⟩
    · exact .inr rfl
    · exact .inr rfl

theorem follows_measured (t : Ty) (span : Span) :
    Follows T (fun e => e) (measured t span) (measured t (span.shift T.places)) := by
  intro s
  constructor
  · intro hs
    rw [measured_run]
    cases s.unit.measure t <;> exact hs
  · have hsecond : (T.state s).unit.measure t = s.unit.measure t := DeclUnit.measure_renamed _ _
    rw [measured_run, measured_run, hsecond]
    cases s.unit.measure t <;> exact .inr rfl

/-! ## Loops -/

/-- What a round comes to, carried over. -/
def Round.map (g : σ → σ) (h : α → α) : Round σ α → Round σ α
  | .again x => .again (g x)
  | .done a => .done (h a)

variable {i : σ → σ} {round round' : σ → Parse (Round σ α)}

/-- What the rounds keep holds of the answer of the loop, wherever it starts. -/
theorem loop_of_rounds {I : σ → Prop} {P : α → Prop}
    (hround : ∀ x, I x → ∀ s r t, round x s = .ok r t → (∀ y, r = .again y → I y) ∧ ∀ a, r = .done a → P a)
    {x : σ} (hx : I x) {a : α} {t : State} (hrun : loop x round s = .ok a t) : P a := by
  have hrounds : ∀ n x s, I x → loopFor round n x s = .ok a t → P a := by
    intro n
    induction n with
    | zero =>
      intro x s _ h
      cases h
    | succ n ih =>
      intro x s hx h
      rw [loopFor_run] at h
      split at h
      · next y s' hr => exact ih y s' ((hround x hx s _ s' hr).1 y rfl) h
      · next b s' hr =>
        cases h
        exact (hround x hx s _ _ hr).2 _ rfl
      · cases h
  exact hrounds s.allowance x s hx hrun

/-- A text that goes on leaves more rounds. -/
theorem follows_loopFor (hround : ∀ x, Follows T (Round.map i g) (round x) (round' (i x))) {n m : Nat} (hle : n ≤ m)
    (hclosed : ¬T.isOpen → n = m) (x : σ) : Follows T g (loopFor round n x) (loopFor round' m (i x)) := by
  induction n generalizing m x with
  | zero =>
    by_cases hopen : T.isOpen
    · exact fun s => ⟨fun hs => hs, .inl hopen⟩
    · rw [← hclosed hopen]
      exact follows_here.bind fun _ => follows_fail _ _
  | succ n ih =>
    obtain ⟨m, rfl⟩ := Nat.exists_eq_succ_of_ne_zero (show m ≠ 0 by omega)
    refine (hround x).bind fun r => ?_
    cases r with
    | again y => exact ih (by omega) (fun hopen => Nat.succ_injective (hclosed hopen)) y
    | done a => exact .pure rfl

theorem allowance_state (s : State) :
    (T.state s).allowance = s.ahead.length - T.dropped + T.more.length + 2 := by
  simp only [State.allowance, Transport.state, List.length_append, List.length_map, List.length_take]
  omega

/-- The second text is no shorter, and no longer either where the texts do not part. -/
theorem allowance_le (T : Transport) (s : State) :
    s.allowance ≤ (T.state s).allowance ∧ (¬T.isOpen → s.allowance = (T.state s).allowance) := by
  have hle := T.dropped_le
  rw [allowance_state, State.allowance]
  refine ⟨by omega, fun hclosed => ?_⟩
  obtain ⟨hdropped, hmore, -⟩ := T.closed hclosed
  rw [hdropped, hmore, List.length_nil]
  omega

theorem follows_loop (i : σ → σ) {start : σ} (hround : ∀ x, Follows T (Round.map i g) (round x) (round' (i x))) :
    Follows T g (loop start round) (loop (i start) round') := by
  intro s
  obtain ⟨hle, hclosed⟩ := allowance_le T s
  obtain ⟨hlost, hcarries⟩ := follows_loopFor hround hle hclosed start s
  exact ⟨hlost, hcarries⟩

/-! ## Skipping -/

theorem follows_skipGroup : Follows T (fun x => x) skipGroup skipGroup := by
  unfold skipGroup
  refine follows_advance.bind fun opening => follows_loop (fun depth => depth) fun depth => ?_
  refine follows_current.bind fun l => .ite (follows_fail _ _) ?_
  refine follows_advance.bind fun _ => .pure ?_
  rw [apply_ite (Round.map _ _)]
  rfl

theorem follows_skipInitializer : Follows T (fun x => x) skipInitializer skipInitializer := by
  unfold skipInitializer
  refine follows_here.bind fun start => follows_loop (fun x => x) fun _ => ?_
  refine follows_current.bind fun l => .ite (.pure rfl) (.ite (follows_fail _ _) (.ite ?_ ?_))
  · exact follows_skipGroup.bind fun _ => .pure rfl
  · exact follows_advance.bind fun _ => .pure rfl

theorem follows_skipToBody : Follows T (fun x => x) skipToBody skipToBody := by
  unfold skipToBody
  refine follows_here.bind fun start => follows_loop (fun x => x) fun _ => ?_
  refine follows_current.bind fun l => .ite (.pure rfl) (.ite (follows_fail _ _) ?_)
  exact follows_advance.bind fun _ => .pure rfl

end Cognate.Grammar
