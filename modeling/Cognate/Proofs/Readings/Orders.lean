import Cognate.Proofs.Readings.Texts

/-!
# Specifiers in any order

Keywords that say something about a type may stand in any order in front of a declaration. Two readings from one state
`Agree` if they differ in what they answer at most, and in the places of their faults. Reading keywords adds them up
(`readFrom_words`), in another order to a state that is alike but for the order of its type words
(`SpecifierState.Alike`), and nothing that is read behind them asks for that order. `specifiers_perm` puts this
together for all keywords but `_Atomic` and attributes, valid and invalid collections of them alike.
-/

namespace Cognate.Grammar

variable {α β γ σ : Type} {rules : Rules} {words words' : List Keyword}

/-! ## Readings from one state -/

/-- Answers that are related, or faults of one cause, and the same state behind them. -/
def SameOutcome (R : α → β → Prop) : EStateM.Result Fault State α → EStateM.Result Fault State β → Prop
  | .ok a s, .ok b t => R a b ∧ s = t
  | .error fault s, .error fault' t => fault.cause = fault'.cause ∧ s = t
  | _, _ => False

/-- From every state, both readers come to the same but for places of faults. -/
def Agree (R : α → β → Prop) (p : Parse α) (q : Parse β) : Prop := ∀ s, SameOutcome R (p s) (q s)

variable {R : α → β → Prop} {S : γ → γ → Prop} {p : Parse α} {q : Parse β}

theorem Agree.pure {a : α} {b : β} (h : R a b) : Agree R (pure a) (pure b) := fun _ => ⟨h, rfl⟩

theorem Agree.refl (p : Parse α) : Agree Eq p p := by
  intro s
  cases p s <;> exact ⟨rfl, rfl⟩

theorem Agree.bind {f : α → Parse γ} {g : β → Parse γ} (hp : Agree R p q) (hf : ∀ a b, R a b → Agree S (f a) (g b)) :
    Agree S (p >>= f) (q >>= g) := by
  intro s
  have hs := hp s
  rw [bind_run, bind_run]
  cases hr : p s <;> cases hr' : q s <;> rw [hr, hr'] at hs
  · obtain ⟨h, rfl⟩ := hs
    exact hf _ _ h _
  · exact hs.elim
  · exact hs.elim
  · exact hs

/-- What follows the same reading. -/
theorem Agree.behind {f g : α → Parse γ} (p : Parse α) (hf : ∀ a, Agree S (f a) (g a)) :
    Agree S (p >>= f) (p >>= g) := (Agree.refl p).bind fun a _ h => h ▸ hf a

theorem Agree.ite {c : Prop} [Decidable c] {p' : Parse α} {q' : Parse β} (hp : Agree R p q) (hq : Agree R p' q') :
    Agree R (if c then p else p') (if c then q else q') := by
  split
  · exact hp
  · exact hq

theorem agree_fail (cause : Cause) (span span' : Span) :
    Agree R (fail cause span : Parse α) (fail cause span' : Parse β) := fun _ => ⟨rfl, rfl⟩

/-- Rounds that go on with related values, or end with them. -/
def Round.Both (R : σ → σ → Prop) : Round σ σ → Round σ σ → Prop
  | .again x, .again y => R x y
  | .done x, .done y => R x y
  | _, _ => False

theorem agree_loopFor {R : σ → σ → Prop} {round : σ → Parse (Round σ σ)}
    (hround : ∀ x y, R x y → Agree (Round.Both R) (round x) (round y)) (n : Nat) {x y : σ} (h : R x y) :
    Agree R (loopFor round n x) (loopFor round n y) := by
  induction n generalizing x y with
  | zero => exact .behind here fun _ => agree_fail _ _ _
  | succ n ih =>
    refine (hround x y h).bind fun r r' hr => ?_
    cases r <;> cases r'
    · exact ih hr
    · exact hr.elim
    · exact hr.elim
    · exact .pure hr

/-! ## Type words in any order -/

theorem contains_perm (h : words.Perm words') (k : Keyword) : words.contains k = words'.contains k := by
  rw [Bool.eq_iff_iff, List.contains_iff_mem, List.contains_iff_mem, h.mem_iff]

theorem kindOfWords_perm (h : words.Perm words') (target : Target) (found : Token) :
    kindOfWords target words found = kindOfWords target words' found := by
  have hsorted : sortedWords words = sortedWords words' := by
    simp only [sortedWords, h.count_eq]
  have hsign : signedness words = signedness words' := by
    simp only [signedness, contains_perm h]
  simp only [kindOfWords, hsorted, hsign, contains_perm h]

theorem agree_wordType (h : words.Perm words') (span span' : Span) :
    Agree Eq (wordType words span) (wordType words' span') := by
  refine .behind unit fun u => .behind current fun l => ?_
  rw [kindOfWords_perm h, contains_perm h]
  cases kindOfWords u.target words' l.token with
  | error cause => exact agree_fail _ _ _
  | ok b =>
    refine .behind (intern (.builtin b)) fun t => .ite (.pure rfl) (.ite ?_ (agree_fail _ _ _))
    exact .refl _

namespace SpecifierState

variable {x y z : SpecifierState}

/-- The same but for the order of type words. -/
def Alike (x y : SpecifierState) : Prop := ∃ words, x.words.Perm words ∧ y = { x with words }

theorem Alike.refl (x : SpecifierState) : x.Alike x := ⟨_, .refl _, rfl⟩

theorem Alike.lacksType (h : x.Alike y) : y.lacksType = x.lacksType := by
  obtain ⟨words, hperm, rfl⟩ := h
  rw [SpecifierState.lacksType, SpecifierState.lacksType, hperm.isEmpty_eq]

end SpecifierState

open SpecifierState (Alike)

variable {x y : SpecifierState}

theorem agree_specifierName (h : x.Alike y) (t : Ty) (span : Span) : Agree Alike (x.name t span) (y.name t span) := by
  unfold SpecifierState.name
  rw [h.lacksType]
  obtain ⟨words, hperm, rfl⟩ := h
  exact .ite (.pure ⟨words, hperm, rfl⟩) (agree_fail _ _ _)

theorem agree_atomic (h : x.Alike y) (span : Span) : Agree Alike (atomic rules x span) (atomic rules y span) := by
  refine .behind (accept (.punct .lparen)) fun _ => .ite ?_ ?_
  · refine .behind rules.typeName fun value => .behind (expect .rparen) fun _ => ?_
    exact .behind (intern (.atomic value)) fun t => agree_specifierName h t span
  · obtain ⟨words, hperm, rfl⟩ := h
    exact .pure ⟨words, hperm, rfl⟩

theorem agree_keywordSpecifier (h : x.Alike y) (k : Keyword) (span : Span) :
    Agree (Round.Both Alike) (keywordSpecifier rules x k span) (keywordSpecifier rules y k span) := by
  -- A type of its own, read by any reader of such types.
  have hnamed : ∀ p : Parse Ty, Agree (Round.Both Alike)
      (do
        let _ ← advance
        return Round.again (← x.name (← p) span))
      (do
        let _ ← advance
        return Round.again (← y.name (← p) span)) := fun p =>
    .behind advance fun _ => .behind p fun t => (agree_specifierName h t span).bind fun _ _ hx => .pure hx
  unfold keywordSpecifier
  cases k with
  | atomic => exact .behind advance fun _ => (agree_atomic h span).bind fun _ _ hx => .pure hx
  | struct | union | enum | autoType => exact hnamed _
  | typedef | const | volatile | restrict =>
    obtain ⟨words, hperm, rfl⟩ := h
    exact .behind advance fun _ => .pure ⟨words, hperm, rfl⟩
  | attributes =>
    obtain ⟨words, hperm, rfl⟩ := h
    exact .behind (attributes rules) fun late => .pure ⟨words, hperm, rfl⟩
  | _ =>
    obtain ⟨words, hperm, rfl⟩ := h
    refine .ite (.behind advance fun _ => .pure ⟨words, hperm, rfl⟩) (.ite (.ite (agree_fail _ _ _) ?_) ?_)
    · exact .behind advance fun _ => .pure ⟨_, hperm.cons _, rfl⟩
    · exact .pure ⟨words, hperm, rfl⟩

theorem agree_specifier (h : x.Alike y) :
    Agree (Round.Both Alike) (specifier rules x) (specifier rules y) := by
  refine .behind current fun l => ?_
  obtain ⟨token, span⟩ := l
  cases token with
  | keyword k => exact agree_keywordSpecifier h k span
  | name text =>
    refine .behind unit fun u => ?_
    rw [h.lacksType]
    obtain ⟨words, hperm, rfl⟩ := h
    cases if x.lacksType then u.typedef? text else none with
    | some found => exact .behind advance fun _ => .pure ⟨words, hperm, rfl⟩
    | none => exact .pure ⟨words, hperm, rfl⟩
  | _ => exact .pure h

theorem agree_specifiedType (h : x.Alike y) (start start' : Span) :
    Agree Eq (specifiedType start x) (specifiedType start' y) := by
  obtain ⟨words, hperm, rfl⟩ := h
  obtain ⟨isTypedef, quals, isAtomic, words', named, attributes⟩ := x
  cases named with
  | some t => exact .refl _
  | none => exact .behind here fun last => (agree_wordType hperm _ _).bind fun t _ h => h ▸ .refl _

/-! ## Keywords in front -/

/-- A keyword that says the same wherever it stands. `_Atomic` does not, as it may take the parenthesis behind it. -/
def standsAnywhere : Token → Bool
  | .keyword k => k.isTypeWord || k.isStorage || (k.isQualifier && k != .atomic)
  | _ => false

/-- What such a keyword adds. -/
def SpecifierState.add (x : SpecifierState) : Token → SpecifierState
  | .keyword k =>
    { x with
      isTypedef := x.isTypedef || k == .typedef
      qualifiers :=
        ⟨x.qualifiers.isConst || k == .const, x.qualifiers.isVolatile || k == .volatile,
          x.qualifiers.isRestrict || k == .restrict⟩
      words := if k.isTypeWord then k :: x.words else x.words }
  | _ => x

theorem SpecifierState.add_named (x : SpecifierState) (t : Token) : (x.add t).named = x.named := by
  cases t <;> rfl

theorem keywordSpecifier_eq {k : Keyword} (hnamed : x.named = none) (h : standsAnywhere (.keyword k) = true)
    (span : Span) : keywordSpecifier rules x k span = (do
      let _ ← advance
      return .again (x.add (.keyword k))) := by
  obtain ⟨isTypedef, ⟨isConst, isVolatile, isRestrict⟩, isAtomic, words, named, attributes⟩ := x
  cases hnamed
  cases k <;> first
    | exact absurd h (by decide)
    | simp [keywordSpecifier, SpecifierState.add, Keyword.isTypeWord, Keyword.isStorage, beq_eq_decide]

theorem SpecifierState.Alike.add (h : x.Alike y) (t : Token) : (x.add t).Alike (y.add t) := by
  obtain ⟨words, hperm, rfl⟩ := h
  cases t with
  | keyword k =>
    refine ⟨if k.isTypeWord then k :: words else words, ?_, rfl⟩
    by_cases hword : k.isTypeWord = true
    · simpa [SpecifierState.add, hword] using hperm
    · simpa [SpecifierState.add, hword] using hperm
  | _ => exact ⟨words, hperm, rfl⟩

/-- It does not matter which of two keywords comes first. -/
theorem SpecifierState.add_swap (x : SpecifierState) (t t' : Token) : ((x.add t).add t').Alike ((x.add t').add t) := by
  cases t with
  | keyword k =>
    cases t' with
    | keyword k' =>
      refine ⟨((x.add (.keyword k')).add (.keyword k)).words, ?_, ?_⟩
      · simp only [SpecifierState.add]
        cases k.isTypeWord <;> cases k'.isTypeWord <;> simp [List.Perm.swap]
      · simp only [SpecifierState.add, Bool.or_right_comm]
    | _ => exact .refl _
  | _ => exact .refl _

theorem SpecifierState.Alike.trans (h : x.Alike y) {z : SpecifierState} (h' : y.Alike z) : x.Alike z := by
  obtain ⟨words, hperm, rfl⟩ := h
  obtain ⟨words', hperm', rfl⟩ := h'
  exact ⟨words', hperm.trans hperm', rfl⟩

/-- The keywords of a list, added up. -/
def SpecifierState.addAll (x : SpecifierState) (tokens : List Token) : SpecifierState :=
  tokens.foldl SpecifierState.add x

theorem SpecifierState.Alike.addAll {tokens : List Token} (h : x.Alike y) :
    (x.addAll tokens).Alike (y.addAll tokens) := by
  induction tokens generalizing x y with
  | nil => exact h
  | cons t tokens ih => exact ih (h.add t)

/-- Keywords in another order add the same, by induction on the permutation. -/
theorem SpecifierState.alike_of_perm {tokens tokens' : List Token} (h : tokens.Perm tokens') (x : SpecifierState) :
    (x.addAll tokens).Alike (x.addAll tokens') := by
  induction h generalizing x with
  | nil => exact .refl _
  | cons t _ ih => exact ih (x.add t)
  | swap t t' tokens => exact (x.add_swap t' t).addAll
  | trans _ _ ih ih' => exact (ih x).trans (ih' x)

theorem SpecifierState.shift_addAll (k : Nat) (x : SpecifierState) (tokens : List Token) :
    (x.addAll tokens).shift k = (x.shift k).addAll tokens := by
  induction tokens generalizing x with
  | nil => rfl
  | cons t tokens ih =>
    have hadd : (x.add t).shift k = (x.shift k).add t := by
      cases t <;> rfl
    rw [addAll, addAll, List.foldl_cons, List.foldl_cons, ← hadd]
    exact ih (x.add t)

/-- The specifiers behind those that came to `x`. -/
def specifiersFrom (rules : Rules) (start : Span) (n : Nat) (x : SpecifierState) : Parse Specifiers := do
  let x ← loopFor (specifier rules) n x
  let t ← specifiedType start x
  return ⟨x.isTypedef, t, x.attributes⟩

theorem specifiers_run (s : State) :
    specifiers rules s = specifiersFrom rules s.current.span s.allowance {} s := by
  rw [specifiers_eq]
  rfl

theorem agree_specifiersFrom (h : x.Alike y) (start start' : Span) (n : Nat) :
    Agree Eq (specifiersFrom rules start n x) (specifiersFrom rules start' n y) := by
  refine (agree_loopFor (fun x y h => agree_specifier h) n h).bind fun x y h => ?_
  refine (agree_specifiedType h start start').bind fun t _ ht => ?_
  obtain ⟨words, hperm, rfl⟩ := h
  exact .pure (ht ▸ rfl)

theorem follows_specifiersFrom {T : Transport} (hr : rules.Follow T rules) (start : Span) (n : Nat)
    (x : SpecifierState) : Follows T (Specifiers.shift T.places) (specifiersFrom rules start n x)
      (specifiersFrom rules (start.shift T.places) n (x.shift T.places)) := by
  refine (follows_loopFor (follows_specifier hr) le_rfl (fun _ => rfl) x).bind fun x => ?_
  exact (follows_specifiedType start x).bind fun t => .pure rfl

/-- One keyword is read and added. -/
theorem readFrom_word (hnamed : x.named = none) {l : Lexed} (h : standsAnywhere l.token = true) (start : Span)
    (n stop : Nat) (items : List (Except Fault Lexed)) (u : DeclUnit) :
    readFrom (specifiersFrom rules start (n + 1) x) stop (.ok l :: items) u =
      readFrom (specifiersFrom rules start n (x.add l.token)) stop items u := by
  obtain ⟨token, span⟩ := l
  cases token with
  | keyword k =>
    have hround : specifier rules x ⟨⟨.keyword k, span⟩, items, stop, u⟩ = _ :=
      congrFun (keywordSpecifier_eq hnamed h span) _
    change outcome (specifiersFrom rules start (n + 1) x ⟨⟨.keyword k, span⟩, items, stop, u⟩) = _
    rw [specifiersFrom, bind_run, loopFor_run, hround, bind_run, advance_run, readFrom]
    cases takeItem stop items with
    | error fault => rfl
    | ok r =>
      dsimp only
      rw [specifiersFrom, bind_run]
      rfl
  | _ => cases h

/-- Keywords in front are read and added up, by induction on them. -/
theorem readFrom_words (hnamed : x.named = none) {words : List Lexed}
    (hwords : ∀ l ∈ words, standsAnywhere l.token = true) (start : Span) (n stop : Nat)
    (items : List (Except Fault Lexed)) (u : DeclUnit) :
    readFrom (specifiersFrom rules start (n + words.length) x) stop (words.map .ok ++ items) u =
      readFrom (specifiersFrom rules start n (x.addAll (words.map Lexed.token))) stop items u := by
  induction words generalizing x with
  | nil => rfl
  | cons l words ih =>
    obtain ⟨hl, hrest⟩ := List.forall_mem_cons.1 hwords
    have hadded : (x.add l.token).named = none := (x.add_named l.token).trans hnamed
    exact (readFrom_word hnamed hl start (n + words.length) stop _ u).trans (ih hadded hrest)

/-! ## What is answered -/

/-- Whether a typedef is declared, and the type, or the cause of the fault, which gives its kind and its message; and
the unit that is left. Places are left out. -/
def verdict (r : Except Fault Specifiers × DeclUnit) : Except Cause (Bool × Ty) × DeclUnit :=
  ((r.1.map fun s => (s.isTypedef, s.type)).mapError Fault.cause, r.2)

variable {p q : Parse Specifiers}

theorem verdict_agree (h : Agree Eq p q) (stop : Nat) (items : List (Except Fault Lexed)) (u : DeclUnit) :
    verdict (readFrom p stop items u) = verdict (readFrom q stop items u) := by
  rw [readFrom, readFrom]
  cases takeItem stop items with
  | error fault => rfl
  | ok r =>
    have hs := h ⟨r.1, r.2, stop, u⟩
    dsimp only
    cases hp : p ⟨r.1, r.2, stop, u⟩ <;> cases hq : q ⟨r.1, r.2, stop, u⟩ <;> rw [hp, hq] at hs
    · obtain ⟨rfl, rfl⟩ := hs
      rfl
    · exact hs.elim
    · exact hs.elim
    · obtain ⟨hcause, rfl⟩ := hs
      exact Prod.ext (congrArg Except.error hcause) rfl

theorem verdict_shift {k : Nat} (h : Follows (.whole k id) (Specifiers.shift k) p q) (stop : Nat)
    (items : List (Except Fault Lexed)) (u : DeclUnit) :
    verdict (readFrom q (stop + k) (items.map (shiftItem k)) u) = verdict (readFrom p stop items u) := by
  have hr := readFrom_follows (T := .whole k id) (fun h => h) h stop items u
  refine (congrArg verdict hr).trans ?_
  obtain ⟨answer, left⟩ := readFrom p stop items u
  cases answer <;> rfl

/-- What is answered behind keywords, wherever they and the items behind them stand. -/
theorem verdict_words {rest : List Lexed} {l : Lexed} (hwords : ∀ w ∈ l :: rest, standsAnywhere w.token = true)
    (start : Span) (depth stop k : Nat) (items : List (Except Fault Lexed)) (u : DeclUnit) :
    verdict (readFrom (specifiers (Rules.upTo depth)) (stop + k)
        ((l :: rest).map .ok ++ items.map (shiftItem k)) u) =
      verdict (readFrom (specifiersFrom (Rules.upTo depth) start (items.length + 1)
        (({} : SpecifierState).addAll ((l :: rest).map Lexed.token))) stop items u) := by
  have hallowance : (rest.map Except.ok ++ items.map (shiftItem k)).length + 2 =
      items.length + 1 + (l :: rest).length := by
    simp only [List.length_append, List.length_map, List.length_cons]
    omega
  have hfirst : readFrom (specifiers (Rules.upTo depth)) (stop + k)
        ((l :: rest).map .ok ++ items.map (shiftItem k)) u =
      readFrom (specifiersFrom (Rules.upTo depth) l.span (items.length + 1 + (l :: rest).length) {}) (stop + k)
        ((l :: rest).map .ok ++ items.map (shiftItem k)) u := by
    rw [← hallowance]
    exact congrArg outcome (specifiers_run _)
  rw [hfirst, readFrom_words rfl hwords,
    verdict_agree (agree_specifiersFrom (.refl _) l.span (start.shift k) (items.length + 1))]
  have hfollows := follows_specifiersFrom (Rules.upTo_follow_self depth (.whole k id)) start (items.length + 1)
    (({} : SpecifierState).addAll ((l :: rest).map Lexed.token))
  rw [SpecifierState.shift_addAll] at hfollows
  exact verdict_shift hfollows stop items u

/-- Keywords that stand anywhere may stand in any order in front of the same items: the specifiers declare a typedef or
not, and name one type, or are refused for one cause. -/
theorem specifiers_perm {words words' : List Lexed} (hwords : ∀ l ∈ words, standsAnywhere l.token = true)
    (hperm : (words.map Lexed.token).Perm (words'.map Lexed.token)) (depth stop k k' : Nat)
    (items : List (Except Fault Lexed)) (u : DeclUnit) :
    verdict (readFrom (specifiers (Rules.upTo depth)) (stop + k) (words.map .ok ++ items.map (shiftItem k)) u) =
      verdict (readFrom (specifiers (Rules.upTo depth)) (stop + k')
        (words'.map .ok ++ items.map (shiftItem k')) u) := by
  have hwords' : ∀ l ∈ words', standsAnywhere l.token = true := by
    intro l hl
    obtain ⟨w, hw, htoken⟩ := List.mem_map.1 (hperm.mem_iff.2 (List.mem_map_of_mem hl))
    exact htoken ▸ hwords w hw
  have hnone : ∀ k, verdict (readFrom (specifiers (Rules.upTo depth)) (stop + k) (items.map (shiftItem k)) u) =
      verdict (readFrom (specifiers (Rules.upTo depth)) stop items u) := fun k =>
    verdict_shift (follows_specifiers (Rules.upTo_follow_self depth (.whole k id))) stop items u
  cases words with
  | nil =>
    cases words' with
    | nil => exact (hnone k).trans (hnone k').symm
    | cons l rest => exact absurd hperm.length_eq (by simp)
  | cons l rest =>
    cases words' with
    | nil => exact absurd hperm.length_eq (by simp)
    | cons l' rest' =>
      rw [verdict_words hwords l.span, verdict_words hwords' l.span]
      exact verdict_agree (agree_specifiersFrom (SpecifierState.alike_of_perm hperm {}) _ _ _) stop items u

theorem specifiers_perm_unsigned_long :
    let words : List Lexed := [⟨.keyword .unsigned, ⟨0, 8⟩⟩, ⟨.keyword .const, ⟨9, 14⟩⟩, ⟨.keyword .long, ⟨15, 19⟩⟩]
    let words' : List Lexed := [⟨.keyword .long, ⟨0, 4⟩⟩, ⟨.keyword .const, ⟨5, 10⟩⟩, ⟨.keyword .unsigned, ⟨11, 19⟩⟩]
    let u := DeclUnit.empty "" .lp64
    let answer := fun words : List Lexed =>
      verdict (readFrom (specifiers (Rules.upTo 3)) 21 (words.map .ok ++ [.ok ⟨.name "x", ⟨20, 21⟩⟩]) u)
    scan "unsigned const long x" = words.map .ok ++ [.ok ⟨.name "x", ⟨20, 21⟩⟩] ∧
      (answer words).1 = .ok (false, ⟨1⟩) ∧ answer words = answer words' := by
  refine ⟨by decide +kernel, by decide +kernel, ?_⟩
  exact specifiers_perm (by decide) (by decide) 3 21 0 0 [.ok ⟨.name "x", ⟨20, 21⟩⟩] _

end Cognate.Grammar
