import Cognate.Proofs.Token.Reference

/-!
# Looking ahead

A text that is looked at and taken from in any order of calls. Every call answers the item that is next (`call_next`);
a token that was only looked at is still next, and what was taken is gone, a stray lexeme also where it was only looked
at. The items taken are therefore those that taking alone gives, in the same order (`replies_prefix`).
-/

namespace Cognate

/-- What a token stream is asked for. -/
inductive Call where
  /-- To take the next item. -/
  | next
  /-- To look at it. -/
  | peek
deriving DecidableEq, Repr

namespace TokenStream

variable {s : TokenStream} {c : Call} {cs : List Call} {rs before after : List (Call × Except Fault Lexed)}
  {r : Call × Except Fault Lexed} {t : Lexed} {n : Nat}

/-- The answer to one call, and what is left. -/
def call (s : TokenStream) : Call → Except Fault Lexed × TokenStream
  | .next => s.next
  | .peek => s.peek

/-- The answers to calls one after another, each with its call. -/
def replies (s : TokenStream) : List Call → List (Call × Except Fault Lexed)
  | [] => []
  | c :: cs => (c, (s.call c).1) :: (s.call c).2.replies cs

/-- An item is taken where it was asked for, and a stray lexeme also where it was looked at. -/
def takes : Call × Except Fault Lexed → Bool
  | (.next, _) => true
  | (.peek, item) => !item.isOk

/-- The items that are taken, in order. -/
def taken (rs : List (Call × Except Fault Lexed)) : List (Except Fault Lexed) := (rs.filter takes).map Prod.snd

theorem taken_cons (r : Call × Except Fault Lexed) (rs : List (Call × Except Fault Lexed)) :
    taken (r :: rs) = if takes r then r.2 :: taken rs else taken rs := by
  unfold taken
  cases h : takes r <;> simp [h]

/-! ## One call -/

/-- Behind an item that is taken, no token is held back. -/
theorem peeked_next (s : TokenStream) : s.next.2.peeked = none := by
  obtain ⟨peeked, ahead, stop⟩ := s
  cases peeked with
  | some t => rfl
  | none => cases ahead <;> rfl

/-- A token that was looked at is held back, and then it is next. -/
theorem peek_of_ok (h : s.next.1 = .ok t) : s.peek = (.ok t, { s.next.2 with peeked := some t }) := by
  unfold peek
  rcases hnext : s.next with ⟨item, behind⟩
  rw [hnext] at h
  cases h
  rfl

theorem peek_of_error {fault : Fault} (h : s.next.1 = .error fault) : s.peek = s.next := by
  unfold peek
  rcases hnext : s.next with ⟨item, behind⟩
  rw [hnext] at h
  cases h
  rfl

/-- Every call answers the next item. One that takes it leaves what is behind; the others leave it next. -/
theorem call_next (s : TokenStream) (c : Call) : (s.call c).1 = s.next.1 ∧
    (takes (c, s.next.1) = true → (s.call c).2 = s.next.2) ∧
    (takes (c, s.next.1) = false → (s.call c).2.next = s.next) := by
  cases c with
  | next => exact ⟨rfl, fun _ => rfl, fun h => nomatch h⟩
  | peek =>
    cases hnext : s.next.1 with
    | error fault =>
      rw [call, peek_of_error hnext]
      exact ⟨hnext, fun _ => rfl, fun h => nomatch h⟩
    | ok t =>
      rw [call, peek_of_ok hnext]
      refine ⟨rfl, fun h => ?_, fun _ => ?_⟩
      · cases h
      · have hbehind : ({ s.next.2 with peeked := none } : TokenStream) = s.next.2 := by rw [← peeked_next s]
        exact Prod.ext hnext.symm hbehind

/-- Items that are taken one by one depend on the next one and on what is behind it. -/
theorem answers_congr {s' : TokenStream} (h : s'.next = s.next) : s'.answers n = s.answers n := by
  cases n with
  | zero => rfl
  | succ n => rw [answers, answers, h]

/-! ## Runs -/

theorem map_fst_replies (s : TokenStream) (cs : List Call) : (s.replies cs).map Prod.fst = cs := by
  induction cs generalizing s with
  | nil => rfl
  | cons c cs ih => rw [replies, List.map_cons, ih]

/-- By induction on the calls: what is behind the first one is as it would be if only items were taken. -/
theorem taken_replies (s : TokenStream) (cs : List Call) :
    taken (s.replies cs) = s.answers (taken (s.replies cs)).length := by
  induction cs generalizing s with
  | nil => rfl
  | cons c cs ih =>
    obtain ⟨hitem, htaken, hlooked⟩ := call_next s c
    rw [replies, hitem, taken_cons]
    split
    · next h => rw [List.length_cons, answers, ← htaken h, ← ih]
    · next h => rw [← answers_congr (hlooked (Bool.eq_false_iff.2 h)), ← ih]

/-- Behind any of the replies, the next one answers the item that is next among those not yet taken. By induction on
the calls. -/
theorem reply_next (h : s.replies cs = before ++ r :: after) :
    s.answers ((taken before).length + 1) = taken before ++ [r.2] := by
  induction cs generalizing s before with
  | nil => simp [replies] at h
  | cons c cs ih =>
    obtain ⟨hitem, htaken, hlooked⟩ := call_next s c
    rw [replies, hitem] at h
    cases before with
    | nil =>
      obtain ⟨rfl, -⟩ := List.cons.inj h
      rfl
    | cons first before =>
      obtain ⟨rfl, hrest⟩ := List.cons.inj h
      rw [taken_cons]
      split
      · next htakes =>
        rw [List.length_cons, answers, ← htaken htakes, ih hrest]
        rfl
      · next htakes => rw [← answers_congr (hlooked (Bool.eq_false_iff.2 htakes)), ih hrest]

/-- Every stray lexeme that is reported is taken. -/
theorem strays_taken (rs : List (Call × Except Fault Lexed)) :
    (rs.filter fun r => !r.2.isOk).map Prod.snd = (taken rs).filter fun item => !item.isOk := by
  induction rs with
  | nil => rfl
  | cons r rs ih =>
    obtain ⟨c, item⟩ := r
    rw [taken_cons]
    cases c <;> cases item <;> simp [takes, Except.isOk, Except.toBool] at ih ⊢ <;> exact ih

/-- A text that is taken from and looked at in any order of calls. The items taken are the first ones that taking alone
gives; a token that is looked at is the first one behind those taken so far; and the stray lexemes reported are those
among the items taken, each once. -/
theorem replies_prefix (source : String) (calls : List Call) :
    let s := ofSource source
    let rs := s.replies calls
    rs.map Prod.fst = calls ∧ taken rs = s.answers (taken rs).length ∧
      (∀ before t after, rs = before ++ (.peek, .ok t) :: after →
        s.answers ((taken before).length + 1) = taken before ++ [.ok t]) ∧
      (rs.filter fun r => !r.2.isOk).map Prod.snd =
        (s.answers (taken rs).length).filter fun item => !item.isOk := by
  intro s rs
  refine ⟨map_fst_replies s calls, taken_replies s calls, fun before t after h => reply_next h, ?_⟩
  rw [strays_taken, ← taken_replies]

/-- A stray lexeme is reported by the call that looks at it, and the token behind it is next. -/
example : (((ofSource "int @ x").replies [.peek, .next, .peek, .peek, .next, .next]).map fun r =>
    (r.2.toOption.map Lexed.token)) =
      [some (.keyword .int), some (.keyword .int), none, some (.name "x"), some (.name "x"), some .finish] := by
  decide +kernel

end TokenStream
end Cognate
