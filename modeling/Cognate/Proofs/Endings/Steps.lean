import Cognate.Proofs.Grammar.Keeps
import Cognate.Proofs.Unit.Bounds

/-!
# How readers end

A reader ends with an answer or with a fault of the text. It never goes back, and the tokens that are left
(`State.left`) bound what it still does: a loop whose rounds all move on has rounds enough. `Ends` says so of a reader
at one place, along with what is asked of the places of tokens and faults and of the unit (`Setting`). The rules for
steps, loops and skipping are here.
-/

namespace Cognate

/-- The text is at fault: neither the rounds of a loop, nor the depth of the readers, nor a layout was too much. -/
@[simp] def Cause.IsRefusal (cause : Cause) : Prop := cause ≠ .nestedTooDeep ∧ cause ≠ .type .stopped

namespace Grammar

/-- What is asked of the places in a text, and whether the unit is to stay bounded. -/
structure Setting where
  Place : Span → Prop
  merge : ∀ {a b : Span}, Place a → Place b → Place (a.merge b)
  bounded : Prop

variable {α β σ : Type} {W : Setting} {s t : State} {m n : Nat} {p q : Parse α} {f : α → Parse β}
  {Q R : α → State → Prop} {tok : Token} {span : Span} {cause : Cause}

/-! ## Places and progress -/

/-- A fault of the text itself, at one of its places. Measuring a type does not stop while the unit is bounded. -/
structure Setting.Blames (W : Setting) (fault : Fault) : Prop where
  place : W.Place fault.span
  notDeep : fault.cause ≠ .nestedTooDeep
  notStopped : W.bounded → fault.cause ≠ .type .stopped

def Setting.Item (W : Setting) : Except Fault Lexed → Prop
  | .ok l => W.Place l.span
  | .error fault => W.Blames fault

/-- All that is still to be read has its place. -/
structure State.Placed (W : Setting) (s : State) : Prop where
  current : W.Place s.current.span
  ahead : ∀ item ∈ s.ahead, W.Item item
  stop : W.Place ⟨s.stop, s.stop⟩
  unit : W.bounded → s.unit.Bounded

/-- From `s`, the reader comes to an answer for which `Q` holds where it stands then, or to a fault of the text. -/
def Ends (W : Setting) (p : Parse α) (s : State) (Q : α → State → Prop) : Prop :=
  match p s with
  | .ok a t => t.Placed W ∧ t.left ≤ s.left ∧ Q a t
  | .error fault t => W.Blames fault ∧ (W.bounded → t.unit.Bounded)

namespace Ends

theorem pure {a : α} (hs : s.Placed W) (h : Q a s) : Ends W (pure a) s Q := ⟨hs, le_rfl, h⟩

theorem bind {R : β → State → Prop} (hp : Ends W p s Q)
    (hf : ∀ a t, t.Placed W → t.left ≤ s.left → Q a t → Ends W (f a) t R) : Ends W (p >>= f) s R := by
  unfold Ends at hp ⊢
  rw [bind_run]
  cases hr : p s with
  | error fault t =>
    rw [hr] at hp
    exact hp
  | ok a t =>
    rw [hr] at hp
    obtain ⟨ht, hle, hq⟩ := hp
    have h := hf a t ht hle hq
    unfold Ends at h
    dsimp only
    cases hr' : f a t with
    | error fault t' =>
      rw [hr'] at h
      exact h
    | ok b t' =>
      rw [hr'] at h
      exact ⟨h.1, h.2.1.trans hle, h.2.2⟩

theorem weaken (hp : Ends W p s Q) (h : ∀ a t, t.left ≤ s.left → Q a t → R a t) : Ends W p s R := by
  unfold Ends at hp ⊢
  split at hp
  · exact ⟨hp.1, hp.2.1, h _ _ hp.2.1 hp.2.2⟩
  · exact hp

/-- Forgetting what is known of the answer. -/
theorem plain (hp : Ends W p s Q) : Ends W p s fun _ _ => True := hp.weaken fun _ _ _ _ => trivial

theorem map {g : α → β} {R : β → State → Prop} (hp : Ends W p s Q)
    (h : ∀ a t, t.left ≤ s.left → Q a t → R (g a) t) : Ends W (g <$> p) s R :=
  hp.bind fun a t ht hle hq => .pure ht (h a t hle hq)

theorem ite {c : Prop} [Decidable c] (hp : c → Ends W p s Q) (hq : ¬c → Ends W q s Q) :
    Ends W (if c then p else q) s Q := by
  split
  · next h => exact hp h
  · next h => exact hq h

theorem fail (hs : s.Placed W) (hspan : W.Place span) (hcause : cause.IsRefusal) :
    Ends W (fail cause span : Parse α) s Q := ⟨⟨hspan, hcause.1, fun _ => hcause.2⟩, hs.unit⟩

/-- A fault ends what would follow it. -/
theorem fail_bind {R : β → State → Prop} (hs : s.Placed W) (hspan : W.Place span)
    (hcause : cause.IsRefusal) :
    Ends W (Grammar.fail cause span >>= f) s R :=
  bind (Q := fun _ _ => False) (.fail hs hspan hcause) fun _ _ _ _ h => h.elim

/-! ## Looking -/

variable {R : β → State → Prop}

/-- Reading a part of the state. -/
theorem get {γ : Type} {g : State → γ} {f : γ → Parse β} (h : Ends W (f (g s)) s R) :
    Ends W ((do return g (← MonadState.get)) >>= f) s R := h

theorem current {f : Lexed → Parse β} (h : Ends W (f s.current) s R) : Ends W (Grammar.current >>= f) s R := h

theorem here {f : Span → Parse β} (h : Ends W (f s.current.span) s R) : Ends W (Grammar.here >>= f) s R := h

theorem unit {f : DeclUnit → Parse β} (h : Ends W (f s.unit) s R) : Ends W (Grammar.unit >>= f) s R := h

theorem checked {f : Bool → Parse β} (h : Ends W (f (s.current.token == tok)) s R) :
    Ends W (Grammar.check tok >>= f) s R := h

theorem check {p q : Parse β} (hp : s.current.token = tok → Ends W p s R) (hq : s.current.token ≠ tok → Ends W q s R) :
    Ends W (do if ← Grammar.check tok then p else q) s R := by
  refine .checked (.ite (fun h => hp (beq_iff_eq.1 h)) fun h => hq fun he => h (beq_iff_eq.2 he))

theorem atEnd {p q : Parse β} (hp : Ends W p s R) (hq : s.current.token ≠ .finish → Ends W q s R) :
    Ends W (do if ← Grammar.atEnd then p else q) s R := check (fun _ => hp) hq

end Ends

/-! ## Moving on -/

/-- The item in front, if it is a token, and those behind it have their places, and there are fewer of them. -/
theorem State.Placed.next (hs : s.Placed W) {l : Lexed} {ahead : List (Except Fault Lexed)}
    (h : takeItem s.stop s.ahead = .ok (l, ahead)) :
    { s with current := l, ahead }.Placed W ∧ { s with current := l, ahead }.left ≤ s.ahead.length := by
  have hall := hs.ahead
  unfold Grammar.takeItem at h
  split at h
  · next hnil =>
    cases h
    exact ⟨⟨hs.stop, by simp, hs.stop, hs.unit⟩, by simp [State.left, finishAt]⟩
  · next hcons =>
    cases h
    rw [hcons] at hall ⊢
    refine ⟨⟨hall (.ok l) (by simp), fun item hitem => hall item (by simp [hitem]), hs.stop, hs.unit⟩, ?_⟩
    simp only [State.left, List.length_cons]
    split <;> omega
  · cases h

theorem State.Placed.next_blames (hs : s.Placed W) {fault : Fault} (h : takeItem s.stop s.ahead = .error fault) :
    W.Blames fault := by
  have hall := hs.ahead
  unfold Grammar.takeItem at h
  split at h
  · cases h
  · cases h
  · next hcons =>
    cases h
    rw [hcons] at hall
    exact hall (.error fault) (by simp)

theorem State.lt_left (h : s.current.token ≠ .finish) (hle : t.left ≤ s.ahead.length) : t.left < s.left := by
  simp only [left, h, if_false] at hle ⊢
  omega

theorem advance_ends (hs : s.Placed W) :
    Ends W advance s fun l t => l = s.current ∧ (s.current.token ≠ .finish → t.left < s.left) := by
  unfold Ends
  rw [advance_run]
  cases htake : takeItem s.stop s.ahead with
  | error fault => exact ⟨hs.next_blames htake, hs.unit⟩
  | ok r =>
    obtain ⟨ht, hle⟩ := hs.next htake
    exact ⟨ht, hle.trans (Nat.le_add_right _ _), rfl, fun h => State.lt_left h hle⟩

theorem peek_ends (hs : s.Placed W) : Ends W peek s fun _ t => t = s := by
  unfold Ends
  rw [peek_run]
  cases htake : takeItem s.stop s.ahead with
  | error fault => exact ⟨hs.next_blames htake, hs.unit⟩
  | ok r => exact ⟨hs, le_rfl, rfl⟩

/-- Moving past a token that is known to stand here. -/
theorem Ends.advance {f : Lexed → Parse β} {R : β → State → Prop} (hs : s.Placed W) (htok : s.current.token ≠ .finish)
    (h : ∀ t, t.Placed W → t.left < s.left → Ends W (f s.current) t R) : Ends W (Grammar.advance >>= f) s R := by
  refine (advance_ends hs).bind fun l t ht _ hl => ?_
  rw [hl.1]
  exact h t ht (hl.2 htok)

theorem Ends.peek {f : Token → Parse β} {R : β → State → Prop} (hs : s.Placed W) (h : ∀ next, Ends W (f next) s R) :
    Ends W (Grammar.peek >>= f) s R := by
  refine (peek_ends hs).bind fun next t _ _ he => ?_
  rw [he]
  exact h next

theorem accept_ends (hs : s.Placed W) (htok : tok ≠ .finish) : Ends W (accept tok) s fun b t =>
    (b = true ∧ s.current.token = tok ∧ t.left < s.left) ∨ (b = false ∧ s.current.token ≠ tok ∧ t = s) := by
  refine .check (fun h => ?_) fun h => .pure hs (.inr ⟨rfl, h, rfl⟩)
  exact .advance hs (h ▸ htok) fun t ht hlt => .pure ht (.inl ⟨rfl, h, hlt⟩)

theorem Ends.accept {p q : Parse β} {R : β → State → Prop} (hs : s.Placed W) (htok : tok ≠ .finish)
    (hp : s.current.token = tok → ∀ t, t.Placed W → t.left < s.left → Ends W p t R)
    (hq : s.current.token ≠ tok → Ends W q s R) : Ends W (do if ← Grammar.accept tok then p else q) s R := by
  refine (accept_ends hs htok).bind fun b t ht _ hb => ?_
  rcases hb with ⟨rfl, h, hlt⟩ | ⟨rfl, h, rfl⟩
  · exact hp h t ht hlt
  · exact hq h

theorem expect_ends (hs : s.Placed W) (mark : Punct) :
    Ends W (expect mark) s fun l t => W.Place l.span ∧ t.left < s.left := by
  refine .current (.ite (fun h => ?_) fun _ => .fail hs hs.current (by simp))
  refine (advance_ends hs).weaken fun l t _ hl => ?_
  rw [hl.1]
  exact ⟨hs.current, hl.2 (by simp [beq_iff_eq.1 h])⟩

/-- Moving past a mark, whose own place does not matter. -/
theorem Ends.expect {f : Lexed → Parse β} {R : β → State → Prop} {mark : Punct} (hs : s.Placed W)
    (h : ∀ l t, t.Placed W → t.left < s.left → Ends W (f l) t R) : Ends W (Grammar.expect mark >>= f) s R :=
  (expect_ends hs mark).bind fun l t ht _ hl => h l t ht hl.2

theorem name?_ends (hs : s.Placed W) : Ends W name? s fun r _ => ∀ found ∈ r, W.Place found.2 := by
  refine .current ?_
  split
  · next text htok =>
    refine .advance hs (by simp [htok]) fun t ht _ => .pure ht ?_
    rintro _ ⟨⟩
    exact hs.current
  · exact .pure hs (by simp)

theorem name_ends (hs : s.Placed W) : Ends W name s fun found _ => W.Place found.2 := by
  refine (name?_ends hs).bind fun r t ht _ hr => ?_
  split
  · next found => exact .pure ht (hr found rfl)
  · exact .current (.fail ht ht.current (by simp))

/-! ## Building -/

theorem build_ends {g : DeclUnit → Ty × DeclUnit} (hs : s.Placed W)
    (hg : s.unit.Bounded → (g s.unit).2.Bounded) : Ends W (build g) s fun _ t => t.current = s.current :=
  ⟨⟨hs.current, hs.ahead, hs.stop, fun h => hg (hs.unit h)⟩, le_rfl, rfl⟩

theorem intern_ends (hs : s.Placed W) (shape : Shape) (hdeclared : s.unit.Declared shape)
    (hpacked : s.unit.Packed shape) : Ends W (intern shape) s fun _ t => t.current = s.current :=
  ⟨⟨hs.current, hs.ahead, hs.stop, fun h => (hs.unit h).intern hdeclared hpacked⟩, le_rfl, rfl⟩

theorem define_ends {g : DeclUnit → Except TypeFault α × DeclUnit} (hs : s.Placed W) (hspan : W.Place span)
    (hg : W.bounded → s.unit.Bounded → DeclUnit.LeavesBounded (g s.unit)) :
    Ends W (define span g) s fun _ t => t.current = s.current := by
  unfold Ends
  rw [define_run]
  have hleaves : W.bounded → DeclUnit.LeavesBounded (g s.unit) := fun h => hg h (hs.unit h)
  rcases hr : g s.unit with ⟨fault | a, v⟩
  · rw [hr] at hleaves
    exact ⟨⟨hspan, by simp, fun h hstop => (hleaves h).2 (congrArg _ (Cause.type.inj hstop))⟩, fun h => (hleaves h).1⟩
  · rw [hr] at hleaves
    exact ⟨⟨hs.current, hs.ahead, hs.stop, fun h => (hleaves h).1⟩, le_rfl, rfl⟩

/-- The layout of a type of a bounded unit is measured without a stop. -/
theorem measured_ends (hs : s.Placed W) (hspan : W.Place span) (t : Ty) :
    Ends W (measured t span) s fun e s' => s' = s ∧ s.unit.measure t = .ok e := by
  unfold Ends
  rw [measured_run]
  cases he : s.unit.measure t with
  | error o =>
    refine ⟨⟨hspan, by simp, fun h => ?_⟩, hs.unit⟩
    rw [(hs.unit h).measure_eq] at he
    cases he
  | ok e => exact ⟨hs, le_rfl, rfl, rfl⟩

theorem Ends.measured {f : Option Extent → Parse β} {R : β → State → Prop} {t : Ty} (hs : s.Placed W)
    (hspan : W.Place span) (h : ∀ e, s.unit.measure t = .ok e → Ends W (f e) s R) :
    Ends W (Grammar.measured t span >>= f) s R := by
  refine (measured_ends hs hspan t).bind fun e s' _ _ ⟨he, hm⟩ => ?_
  rw [he]
  exact h e hm

/-! ## Loops -/

/-- A round that goes on has moved on and keeps `I`; one that ends the loop makes its answer good. -/
def Onward (I : σ → State → Prop) (Q : α → State → Prop) (s : State) : Round σ α → State → Prop
  | .again y, t => t.left < s.left ∧ I y t
  | .done a, t => Q a t

/-- By induction on the rounds that are allowed, of which there are more than tokens left. -/
theorem loopFor_ends {round : σ → Parse (Round σ α)} {I : σ → State → Prop}
    (hround : ∀ y t, t.Placed W → t.left ≤ m → I y t → Ends W (round y) t (Onward I Q t)) {x : σ}
    (hs : s.Placed W) (hm : s.left ≤ m) (hn : s.left < n) (hx : I x s) : Ends W (loopFor round n x) s Q := by
  induction n generalizing s x with
  | zero => exact absurd hn (Nat.not_lt_zero _)
  | succ n ih =>
    refine (hround x s hs hm hx).bind fun r t ht hle hr => ?_
    cases r with
    | again y => exact ih ht (hle.trans hm) (hr.1.trans_le (Nat.le_of_lt_succ hn)) hr.2
    | done a => exact .pure ht hr

theorem loop_ends {round : σ → Parse (Round σ α)} {x : σ} (I : σ → State → Prop) (hs : s.Placed W) (hx : I x s)
    (hround : ∀ y t, t.Placed W → t.left ≤ s.left → I y t → Ends W (round y) t (Onward I Q t)) :
    Ends W (loop x round) s Q := loopFor_ends hround hs le_rfl s.left_lt_allowance hx

/-! ## Skipping -/

theorem skipGroup_ends (hs : s.Placed W) :
    Ends W skipGroup s fun _ t => s.current.token ≠ .finish → t.left < s.left := by
  refine (advance_ends hs).bind fun opening t ht _ hopening => ?_
  obtain ⟨rfl, hlt⟩ := hopening
  refine (loop_ends (Q := fun _ _ => True) (fun _ _ => True) ht trivial fun depth t' ht' _ _ => .current ?_).weaken
    fun _ t' hle _ h => hle.trans_lt (hlt h)
  dsimp only
  refine .ite (fun _ => .fail ht' hs.current (by simp)) fun hinside => ?_
  refine .advance ht' (by simpa using hinside) fun t'' ht'' hlt' => .pure ht'' ?_
  have hround : ∀ d : Nat, Onward (fun _ _ => True) (fun _ _ => True) t'
      (if d = 0 then Round.done () else Round.again d) t'' := by
    intro d
    split
    · exact trivial
    · exact ⟨hlt', trivial⟩
  exact hround _

theorem skipInitializer_ends (hs : s.Placed W) : Ends W skipInitializer s fun _ _ => True := by
  refine .here (loop_ends (fun _ _ => True) hs trivial fun _ t ht _ _ => .current ?_)
  dsimp only
  refine .ite (fun _ => .pure ht trivial) fun _ => .ite (fun _ => .fail ht hs.current (by simp)) fun hinside => ?_
  replace hinside : t.current.token ≠ .finish := by simpa using hinside
  refine .ite (fun _ => ?_) fun _ => ?_
  · exact (skipGroup_ends ht).bind fun _ t' ht' _ hlt => .pure ht' ⟨hlt hinside, trivial⟩
  · exact .advance ht hinside fun t' ht' hlt => .pure ht' ⟨hlt, trivial⟩

theorem skipToBody_ends (hs : s.Placed W) : Ends W skipToBody s fun _ _ => True := by
  refine .here (loop_ends (fun _ _ => True) hs trivial fun _ t ht _ _ => .current ?_)
  dsimp only
  refine .ite (fun _ => .pure ht trivial) fun _ => .ite (fun _ => .fail ht hs.current (by simp)) fun hinside => ?_
  exact .advance ht (by simpa using hinside) fun t' ht' hlt => .pure ht' ⟨hlt, trivial⟩

end Grammar
end Cognate
