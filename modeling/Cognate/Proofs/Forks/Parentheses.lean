import Cognate.Proofs.Expression.Reading
import Cognate.Proofs.Forks.Declarators
import Cognate.Proofs.Forks.Specifiers
import Cognate.Proofs.Readings.Concat

/-!
# Declarators in parentheses

A declaration of specifiers and one declarator, and the same one with the declarator in parentheses: both leave the same
unit (`declare_parenthesized`). The specifiers are read up to the place where the texts part, and the declarator up to
the place where it ends. What is declared is read off no token, so that it is the same in both texts. Before a
parenthesis some specifiers go on, though, and a parenthesis behind another one opens parameters
(`exists_not_parenthesized`).
-/

namespace Cognate

namespace Grammar

/-- The rules that a declaration from here on is read by. -/
def State.rules (s : State) : Rules := Rules.upTo s.allowance

variable {rules : Rules} {s s₁ s₂ s' t : State} {depth : Nat}

/-! ## What readers start with -/

/-- Specifiers start with a word. -/
theorem specifiers_starts {a : Specifiers} (h : specifiers rules s = .ok a t) :
    (∃ k, s.current.token = .keyword k) ∨ ∃ text, s.current.token = .name text := by
  by_contra hnone
  rw [not_or, not_exists, not_exists] at hnone
  have hround : specifier rules {} s = .ok (.done {}) s := by
    refine (current_bind _ s).trans ?_
    cases htoken : s.current.token with
    | keyword k => exact absurd htoken (hnone.1 k)
    | name text => exact absurd htoken (hnone.2 text)
    | _ => rfl
  rw [specifiers_eq, here_bind, bind_of_ok (Rounds.loop (.done hround))] at h
  obtain ⟨b, s₁, htype, -⟩ := bind_eq_ok h
  cases htype

theorem pointers_none (h : pointer? s = .ok none s) : pointers s = .ok [] s := Rounds.loop (.done (bind_of_ok h))

/-- A declarator with a name starts with a pointer operator, a name or a parenthesis. -/
theorem declarator_starts {d : Declarator} (h : declarator rules .named s = .ok d t) :
    opensDeclarator s.current.token = true ∨ s.current.token = .punct .lparen := by
  by_contra hnone
  rw [not_or] at hnone
  obtain ⟨hopens, hparen⟩ := hnone
  have hname : ∀ text, s.current.token ≠ .name text := by
    intro text htext
    rw [htext] at hopens
    exact hopens rfl
  have hpointer : pointer? s = .ok none s := by
    refine (bind_of_ok (atMemberPointer_not hname)).trans ((current_bind _ s).trans ?_)
    revert hopens
    cases s.current.token with
    | punct mark => cases mark <;> intro hopens <;> first | rfl | exact absurd rfl hopens
    | _ => exact fun _ => rfl
  have hnested : atNested s = .ok false s := bind_of_ok (check_of_ne hparen)
  have hcore : core rules .named s = .ok .absent s := (bind_of_ok hnested).trans (bind_of_ok (name?_none hname))
  rw [declarator_run] at h
  unfold declaratorParts at h
  rw [bind_of_ok (pointers_none hpointer), bind_of_ok hcore, bind_run] at h
  cases hsuffixes : suffixes rules s <;> rw [hsuffixes] at h <;> cases h

/-! ## Up to a semicolon -/

theorem attributes_none (h : s.current.token ≠ .keyword .attributes) : attributes rules s = .ok {} s := by
  unfold attributes
  exact Rounds.loop (.done (bind_of_ok (accept_of_ne h)))

theorem functionBody_semi (h : s.current.token = .punct .semi) : functionBody s = .ok false s := by
  have hbrace : check (.punct .lbrace) s = .ok false s := check_of_ne (by simp [h])
  have htype : atType s = .ok false s := by
    change EStateM.Result.ok (startsType s.unit s.current.token) s = _
    rw [h]
    rfl
  refine (bind_of_ok hbrace).trans ((bind_of_ok htype).trans ?_)
  exact bind_of_ok hbrace

/-- What follows a declarator is not there in front of a semicolon. -/
theorem initDeclarator_semi {a : Specifiers} {d : Declarator} (hdeclarator : rules.declarator .named s = .ok d t)
    (ht : t.current.token = .punct .semi) :
    initDeclarator rules a s = (do declareAs a d; return false : Parse Bool) t := by
  have hlast : ∀ t : State, t.current.token = .punct .semi → (do
      if ← accept (.punct .eq) then skipInitializer
      return false : Parse Bool) t = .ok false t := fun t ht => bind_of_ok (accept_of_ne (by simp [ht]))
  unfold initDeclarator declareAs
  rw [bind_of_ok hdeclarator, bind_of_ok (attributes_none (by simp [ht])), bind_assoc, bind_run, bind_run]
  cases htype : declaredType a.type d (a.attributes.merge {}) t with
  | error fault t₁ => rfl
  | ok type t₁ =>
    dsimp only
    rw [bind_run, bind_run]
    cases hdeclare : declareOne a.isTypedef (d.name.getD ("", ⟨0, 0⟩)) type t₁ with
    | error fault t₂ => rfl
    | ok _ t₂ =>
      have ht₁ : t₁.current = t.current := (blind_declaredType _ d.name d.name _ d.span d.span _ 0).stays htype
      have ht₂ : t₂.current = t₁.current := (blind_declareOne _ _ _ ⟨0, 0⟩ _).stays hdeclare
      have hsemi : t₂.current.token = .punct .semi := by rw [ht₂, ht₁, ht]
      dsimp only
      split
      · exact (bind_of_ok (functionBody_semi hsemi)).trans (hlast t₂ hsemi)
      · exact hlast t₂ hsemi

theorem declareAs_current {a : Specifiers} {d : Declarator} (h : declareAs a d s = .ok () t) :
    t.current = s.current := (blind_declareAs a d.name _ d.span d.span 0 0).stays h

/-- One round of the loop over the declarators of a declaration. -/
def nextDeclarator (rules : Rules) (a : Specifiers) (_ : Unit) : Parse (Round Unit Bool) := do
  if ← initDeclarator rules a then return .done true
  else if ← accept (.punct .comma) then return .again ()
  else return .done false

theorem declaration_eq : declaration = (do
    if ← accept (.punct .semi) then return
    let rules ← rulesHere
    let specifiers ← rules.specifiers
    if ← accept (.punct .semi) then return
    let ended ← loop () (nextDeclarator rules specifiers)
    if !ended then
      let _ ← expect .semi) := rfl

theorem nextDeclarator_semi {a : Specifiers} {d : Declarator} (hdeclarator : rules.declarator .named s = .ok d t)
    (ht : t.current.token = .punct .semi) :
    nextDeclarator rules a () s = (do declareAs a d; return .done false : Parse (Round Unit Bool)) t := by
  rw [nextDeclarator, bind_run, initDeclarator_semi hdeclarator ht, bind_run, bind_run]
  cases hdeclare : declareAs a d t with
  | error fault t₁ => rfl
  | ok _ t₁ =>
    have hcomma : t₁.current.token ≠ .punct .comma := by
      rw [declareAs_current hdeclare, ht]
      decide
    exact bind_of_ok (accept_of_ne hcomma)

/-- A single declarator with nothing behind it. -/
theorem declarators_semi {a : Specifiers} {d : Declarator} (hdeclarator : rules.declarator .named s = .ok d t)
    (ht : t.current.token = .punct .semi) :
    loop () (nextDeclarator rules a) s = (do declareAs a d; return false : Parse Bool) t := by
  change loopFor _ (s.ahead.length + 1 + 1) () s = _
  rw [loopFor_run, nextDeclarator_semi hdeclarator ht, bind_run, bind_run]
  cases declareAs a d t <;> rfl

theorem declaration_semi {a : Specifiers} {d : Declarator} (hs : s.current.token ≠ .punct .semi)
    (hspecifiers : s.rules.specifiers s = .ok a s₁) (hs₁ : s₁.current.token ≠ .punct .semi)
    (hdeclarator : s.rules.declarator .named s₁ = .ok d s₂) (hs₂ : s₂.current.token = .punct .semi) :
    declaration s = (do
      declareAs a d
      let _ ← expect .semi : Parse Unit) s₂ := by
  have hrules : rulesHere s = .ok s.rules s := rfl
  rw [declaration_eq, bind_of_ok (accept_of_ne hs), if_neg Bool.false_ne_true]
  refine (bind_of_ok hrules).trans ((bind_of_ok hspecifiers).trans ?_)
  rw [bind_of_ok (accept_of_ne hs₁), if_neg Bool.false_ne_true, bind_run, declarators_semi hdeclarator hs₂, bind_run,
    bind_run]
  cases declareAs a d s₂ <;> rfl

/-- A text of one declaration with one declarator. -/
theorem outcome_semi {a : Specifiers} {d : Declarator} {stop : Nat} {w : DeclUnit} {semi : Lexed} (hproper : s.Proper)
    (hspecifiers : s.rules.specifiers s = .ok a s₁)
    (hdeclarator : s.rules.declarator .named s₁ = .ok d (.at stop w [semi])) (hsemi : semi.token = .punct .semi) :
    outcome (declarations s) = outcome (declareAs a d (.at stop w [semi])) := by
  have hs : s.current.token ≠ .finish ∧ s.current.token ≠ .punct .semi := by
    have hrun : specifiers (Rules.upTo (s.ahead.length + 1)) s = .ok a s₁ := hspecifiers
    rcases specifiers_starts hrun with ⟨k, hk⟩ | ⟨text, htext⟩
    · simp [hk]
    · simp [htext]
  have hs₁ : s₁.current.token ≠ .punct .semi := by
    intro h
    have hrun : declarator (Rules.upTo (s.ahead.length + 1)) .named s₁ = .ok d (.at stop w [semi]) := hdeclarator
    have hstarts := declarator_starts hrun
    rw [h] at hstarts
    exact absurd hstarts (by decide)
  rw [declarations_run hproper hs.1, declaration_semi hs.2 hspecifiers hs₁ hdeclarator hsemi, bind_run]
  cases hdeclare : declareAs a d (.at stop w [semi]) with
  | error fault t => rfl
  | ok _ t =>
    have ht : t = .at stop t.unit [semi] := (blind_declareAs a d.name d.derivations d.span d.span 0 0 _ _ _ hdeclare).1
    have hexpect : expect .semi (.at stop t.unit [semi]) = .ok semi (.at stop t.unit []) := by
      rw [expect_run]
      change (if semi.token == .punct .semi then _ else _) = _
      rw [hsemi]
      rfl
    dsimp only
    rw [ht, bind_of_ok hexpect]
    change outcome (declarations (.at stop t.unit [])) = _
    rw [declarations_finish rfl]
    rfl

/-! ## Around a parenthesis -/

/-- A declarator in parentheses is the one between them. -/
theorem declarator_nested {d : Declarator} (opens : s.Passes [.punct .lparen] s₁)
    (starts : OpensInner s₁.unit s₁.current.token) (inner : (Rules.upTo depth).declarator .named s₁ = .ok d s₂)
    (closes : s₂.Passes [.punct .rparen] t) (hbracket : t.current.token ≠ .punct .lbracket)
    (hparen : t.current.token ≠ .punct .lparen) :
    declarator (Rules.upTo depth) .named s = .ok ⟨d.name, d.derivations, s.current.span.merge t.current.span⟩ t := by
  have hname : d.name.isSome = true := ((Rules.upTo_follow_self depth (.whole 0 id)).named _ _ _ inner)
  have hcore : core (Rules.upTo depth) .named s = .ok (.nested d) t := by
    refine (bind_of_ok (atNested_of_opensInner opens starts)).trans ((bind_of_ok opens.advance).trans ?_)
    exact (bind_of_ok inner).trans (bind_of_ok closes.expect)
  have hparts : declaratorParts (Rules.upTo depth) .named s = .ok ([], .nested d, []) t := by
    refine (bind_of_ok (pointers_none (pointer?_parenthesis opens.token))).trans ((bind_of_ok hcore).trans ?_)
    exact bind_of_ok (Behind.nil hbracket hparen).suffixes
  rw [declarator_run, hparts]
  obtain ⟨name, derivations, span⟩ := d
  obtain ⟨found, rfl⟩ := Option.isSome_iff_exists.1 hname
  rfl

/-- Texts of tokens that part. -/
def Fork.ofTokens (places stop behind : Nat) (common rest rest' : List Lexed) (first second : Lexed)
    (hle : rest.length ≤ rest'.length) (hfinish : first.token ≠ .finish) : Fork where
  places := places
  stop := stop
  behind := behind
  common := common.map .ok
  first := first
  rest := rest.map .ok
  second := second
  rest' := rest'.map .ok
  rest_le := by simpa using hle
  first_ne := hfinish

/-- At the beginning. -/
theorem Fork.meets_ofTokens {places stop behind : Nat} {common rest rest' : List Lexed} {first second : Lexed}
    (hle : rest.length ≤ rest'.length) (hfinish : first.token ≠ .finish) (u : DeclUnit) :
    (Fork.ofTokens places stop behind common rest rest' first second hle hfinish).Meets
      (.at stop u (common ++ first :: rest))
      (.at (stop + places + behind) u (common.map (Lexed.shift places) ++ second :: rest')) := by
  cases common with
  | nil => exact .here u
  | cons l ls =>
    have hahead : (State.at stop u (l :: ls ++ first :: rest)).ahead = ls.map .ok ++ .ok first :: rest.map .ok :=
      List.map_append
    have hmeets := Fork.Meets.before
      (F := .ofTokens places stop behind (l :: ls) rest rest' first second hle hfinish)
      (s := .at stop u (l :: ls ++ first :: rest)) ⟨rfl, [], ls.map .ok, rfl, hahead⟩
    have hitems : (ls.map Except.ok).map (shiftItem places) = (ls.map (Lexed.shift places)).map .ok := by
      rw [List.map_map, List.map_map]
      rfl
    rw [state_of_ahead hahead] at hmeets
    change Fork.Meets _ _ ⟨_, (ls.map .ok).map (shiftItem places) ++ (second :: rest').map .ok, _, _⟩ at hmeets
    rw [hitems, ← List.map_append] at hmeets
    exact hmeets

/-! ## Texts -/

theorem readFrom_at {α : Type} (p : Parse α) (stop : Nat) (ls : List Lexed) (u : DeclUnit) :
    readFrom p stop (ls.map .ok) u = outcome (p (.at stop u ls)) := by
  cases ls <;> rfl

theorem State.at_proper {stop : Nat} {u : DeclUnit} {ls : List Lexed} (h : ∀ l ∈ ls, l.token ≠ .finish) :
    (State.at stop u ls).Proper := by
  cases ls with
  | nil => exact ⟨fun _ h => (nomatch h), fun _ => rfl⟩
  | cons l ls =>
    refine ⟨fun l' hl' => ?_, fun hfinish => absurd hfinish (h l List.mem_cons_self)⟩
    obtain ⟨_, hmem, he⟩ := List.mem_map.1 hl'
    cases he
    exact h _ (List.mem_cons_of_mem _ hmem)

theorem advance_at {stop : Nat} {ls : List Lexed} {l : Lexed} (hstop : s.stop = stop) (hahead : s.ahead = ls.map .ok)
    (h : advance s = .ok l t) : t = .at stop s.unit ls := by
  rw [advance_run, hahead, hstop, takeItem_at stop s.unit ls] at h
  cases h
  cases ls <;> rw [State.at, ← hstop]

/-- A run is known by where it ends. -/
theorem run_at {α : Type} {p : Parse α} {stop : Nat} {l : Lexed} {ls : List Lexed}
    (hok : (outcome (p s)).1.isOk = true)
    (hplace : ((leaves (p s)).current, (leaves (p s)).ahead, (leaves (p s)).stop) = (l, ls.map .ok, stop)) :
    ∃ a, p s = .ok a (.at stop (leaves (p s)).unit (l :: ls)) := by
  cases hrun : p s with
  | error fault t =>
    rw [hrun] at hok
    cases hok
  | ok a t =>
    rw [hrun] at hplace
    obtain ⟨current, ahead, stop, v⟩ := t
    cases hplace
    exact ⟨a, rfl⟩

/-- These are the tokens of a declaration with one declarator: its specifiers are read up to the declarator, whose names
are looked up in `w`, and the declarator up to a semicolon. -/
structure Declares (stop : Nat) (u w : DeclUnit) (specs inner : List Lexed) (semi : Lexed) : Prop where
  ends : semi.token = .punct .semi
  specifiers : ∃ a, (State.at stop u (specs ++ inner ++ [semi])).rules.specifiers
    (.at stop u (specs ++ inner ++ [semi])) = .ok a (.at stop w (inner ++ [semi]))
  declarator : ∃ d v, (State.at stop u (specs ++ inner ++ [semi])).rules.declarator .named
    (.at stop w (inner ++ [semi])) = .ok d (.at stop v [semi])

/-- Nothing takes an opening parenthesis away from the declarator. -/
structure Parenthesizes (stop : Nat) (w : DeclUnit) (specs inner : List Lexed) (semi : Lexed) : Prop where
  /-- The declarator starts neither with a parenthesis of its own nor with the name of a typedef. -/
  starts : ∀ l ∈ inner.head?, l.token ≠ .punct .lparen ∧ ∀ text, l.token = .name text → w.typedef? text = none
  /-- `_Atomic` in front of a parenthesis takes a type. -/
  atomic : ∀ l ∈ specs.getLast?, l.token ≠ .keyword .atomic
  /-- No type that an enumeration is given is named up to the declarator. -/
  given : ∀ before colon behind, specs = before ++ colon :: behind → colon.token = .punct .colon →
    ∀ depth v t v', (Rules.upTo depth).typeName (.at stop v (behind ++ inner ++ [semi])) ≠
      .ok t (.at stop v' (inner ++ [semi]))

variable {stop : Nat} {u w : DeclUnit} {specs tail rest : List Lexed} {first semi second : Lexed} {a : Specifiers}

/-- The specifiers of the text with parentheses. -/
theorem Parenthesizes.specifiers_there (hp : Parenthesizes stop w specs (first :: tail) semi)
    (hfirst : opensDeclarator first.token = true) (hsecond : second.token = .punct .lparen)
    (hle : (tail ++ [semi]).length ≤ rest.length)
    (hrun : specifiers (Rules.upTo depth) (.at stop u (specs ++ first :: (tail ++ [semi]))) =
      .ok a (.at stop w (first :: (tail ++ [semi])))) :
    specifiers (Rules.upTo (depth + 2)) (.at (stop + 2) u (specs ++ second :: rest)) =
      .ok (a.shift 0) (.at (stop + 2) w (second :: rest)) := by
  have hfinish : first.token ≠ .finish := by
    intro h
    rw [h] at hfirst
    cases hfirst
  -- The texts part behind the specifiers, whose tokens stand at the same places.
  let F : Fork := .ofTokens 0 stop 2 specs (tail ++ [semi]) rest first second hle hfinish
  have hF : F.Opens := by
    refine ⟨hfirst, hsecond, fun {before l} hcommon => hp.atomic l ?_⟩
    obtain ⟨front, last, rfl, -, hlast⟩ := List.map_eq_append_iff.1 hcommon
    obtain ⟨l', rfl, he⟩ := List.map_eq_singleton_iff.1 hlast
    cases he
    exact List.getLast?_concat
  have hgiven : F.Given (Rules.upTo depth) := by
    rintro s s₁ l t v ⟨hstop, before, items, hcommon, hahead⟩ hcolon hadvance hname
    obtain ⟨front, last, rfl, -, hlast⟩ := List.map_eq_append_iff.1 hcommon
    obtain ⟨colon, behind, rfl, he, rfl⟩ := List.map_eq_cons_iff.1 hlast
    cases he
    have hs₁ : s₁ = .at stop s.unit (behind ++ (first :: tail) ++ [semi]) := by
      refine advance_at hstop ?_ hadvance
      rw [hahead, List.append_assoc, List.map_append]
      rfl
    rw [hs₁] at hname
    exact hp.given _ _ _ rfl hcolon _ _ _ _ hname
  have hkeep : (Rules.upTo depth).Keep F (Rules.upTo (depth + 2)) :=
    ⟨Rules.upTo_follow (Nat.le_add_right _ _) fun h => (h trivial).elim, Rules.upTo_follow_self depth⟩
  have hmeets : F.Meets _ _ := Fork.meets_ofTokens hle hfinish u
  have hspecs : specs.map (Lexed.shift 0) = specs := List.map_id'' Lexed.shift_zero specs
  rw [hspecs] at hmeets
  exact Grammar.specifiers_there hF hgiven hkeep hmeets hrun

/-- The declarator of the text with parentheses. -/
theorem Parenthesizes.declarator_there {opening closing semi' : Lexed} {d : Declarator} {v : DeclUnit}
    (hp : Parenthesizes stop w specs (first :: tail) semi) (hfirst : opensDeclarator first.token = true)
    (hsemi : semi.token = .punct .semi) (hopening : opening.token = .punct .lparen)
    (hclosing : closing.token = .punct .rparen) (hsemi' : semi'.token = .punct .semi)
    (hrun : declarator (Rules.upTo depth) .named (.at stop w (first :: tail ++ [semi])) = .ok d (.at stop v [semi])) :
    ∃ span, declarator (Rules.upTo (depth + 2)) .named
      (.at (stop + 2) w (opening :: ((first :: tail).map (Lexed.shift 1) ++ [closing, semi']))) =
        .ok ⟨d.name.map (shiftName 1), d.derivations, span⟩ (.at (stop + 2) v [semi']) := by
  have hfinish : semi.token ≠ .finish := by
    rw [hsemi]
    decide
  -- The texts part behind the declarator, which stands one place further on in the second one.
  let F : Fork := .ofTokens 1 stop 1 (first :: tail) [] [semi'] semi closing (Nat.zero_le _) hfinish
  have hF : F.Closes := ⟨hsemi, hclosing⟩
  have hkeep : (Rules.upTo depth).Keep F (Rules.upTo (depth + 1)) :=
    ⟨Rules.upTo_follow (Nat.le_add_right _ _) fun h => (h trivial).elim, Rules.upTo_follow_self depth⟩
  have hmeets : F.Meets _ _ := Fork.meets_ofTokens (Nat.zero_le _) hfinish w
  have hpasses : ∀ {l : Lexed} {mark : Punct} {ls : List Lexed} {x : DeclUnit}, l.token = .punct mark →
      (State.at (stop + 2) x (l :: ls)).Passes [.punct mark] (.at (stop + 2) x ls) := by
    intro l mark ls x hl
    rw [← hl]
    exact State.passes_at [l] (by simp [hl])
  obtain ⟨span, hinside⟩ := Grammar.declarator_there hF hkeep hmeets hrun
  have hinside : (Rules.upTo (depth + 2)).declarator .named
      (.at (stop + 2) w ((first :: tail).map (Lexed.shift 1) ++ [closing, semi'])) =
        .ok ⟨d.name.map (shiftName 1), d.derivations, span⟩ (.at (stop + 2) v [closing, semi']) := hinside
  have hstarts : OpensInner w first.token := by
    revert hfirst
    have hname := (hp.starts first rfl).2
    cases htoken : first.token with
    | name text => exact fun _ => .inr ⟨text, rfl, hname text htoken⟩
    | punct mark => exact fun hopens => .inl (by cases mark <;> first | rfl | exact absurd hopens (by decide))
    | _ => exact fun hopens => nomatch hopens
  have hopens : (State.at (stop + 2) w (opening :: ((first :: tail).map (Lexed.shift 1) ++ [closing, semi']))).Passes
      [.punct .lparen] (.at (stop + 2) w ((first :: tail).map (Lexed.shift 1) ++ [closing, semi'])) := hpasses hopening
  have hlast : (State.at (stop + 2) v [semi']).current.token = .punct .semi := hsemi'
  refine ⟨_, declarator_nested hopens hstarts hinside (hpasses hclosing) ?_ ?_⟩ <;> simp [hlast]

theorem State.rules_at {ls : List Lexed} {n : Nat} (h : ls.length = n + 1) :
    (State.at stop u ls).rules = Rules.upTo (n + 2) := by
  obtain ⟨l, ls, rfl⟩ := List.exists_cons_of_length_eq_add_one h
  have hlength : (ls.map (Except.ok (ε := Fault))).length + 1 = n + 1 := by simpa using h
  change Rules.upTo ((ls.map (Except.ok (ε := Fault))).length + 1 + 1) = _
  rw [hlength]

/-- What is declared in front of one semicolon is declared in front of another one. -/
theorem outcome_declareAs {stop' : Nat} {semi' : Lexed} {d : Declarator} {v v' : DeclUnit} (span : Span) (j k : Nat)
    (h : outcome (declareAs a d (.at stop v [semi])) = (.ok (), v')) :
    outcome (declareAs (a.shift j) ⟨d.name.map (shiftName k), d.derivations, span⟩ (.at stop' v [semi'])) =
      (.ok (), v') := by
  have hrun := run_of_outcome (congrArg Prod.fst h)
  obtain ⟨-, hsecond⟩ := blind_declareAs a d.name d.derivations d.span span j k _ _ _ hrun
  rw [hrun] at h
  rw [hsecond (.at stop' v [semi']) rfl]
  exact h

theorem outcome_parenthesized {inner : List Lexed} {opening closing semi' : Lexed} {v : DeclUnit}
    (hd : Declares stop u w specs inner semi) (hp : Parenthesizes stop w specs inner semi)
    (hopening : opening.token = .punct .lparen) (hclosing : closing.token = .punct .rparen)
    (hsemi' : semi'.token = .punct .semi) (hplain : ∀ l ∈ specs ++ inner ++ [semi], l.token ≠ .finish)
    (hnested : ∀ l ∈ specs ++ opening :: (inner.map (Lexed.shift 1) ++ [closing, semi']), l.token ≠ .finish)
    (hrun : outcome (declarations (.at stop u (specs ++ inner ++ [semi]))) = (.ok (), v)) :
    outcome (declarations (.at (stop + 2) u (specs ++ opening :: (inner.map (Lexed.shift 1) ++ [closing, semi'])))) =
      (.ok (), v) := by
  obtain ⟨hsemi, ⟨a, hspecifiers⟩, d, v₀, hdeclarator⟩ := hd
  have hrules : (State.at stop u (specs ++ inner ++ [semi])).rules = Rules.upTo (specs.length + inner.length + 2) :=
    State.rules_at (by simp; omega)
  have hrules' : (State.at (stop + 2) u (specs ++ opening :: (inner.map (Lexed.shift 1) ++ [closing, semi']))).rules =
      Rules.upTo (specs.length + inner.length + 4) := State.rules_at (by simp; omega)
  have hstarts := hdeclarator
  rw [hrules] at hstarts
  cases inner with
  | nil =>
    -- A semicolon starts no declarator.
    rcases declarator_starts hstarts with hopens | hparen
    · rw [List.nil_append, State.at, hsemi] at hopens
      cases hopens
    · exact absurd (hsemi.symm.trans hparen) (by decide)
  | cons first tail =>
    have hfirst : opensDeclarator first.token = true :=
      (declarator_starts hstarts).resolve_right (hp.starts first rfl).1
    have hsecond : ((State.at (stop + 2) u
        (specs ++ opening :: ((first :: tail).map (Lexed.shift 1) ++ [closing, semi']))).rules.specifiers
          (.at (stop + 2) u (specs ++ opening :: ((first :: tail).map (Lexed.shift 1) ++ [closing, semi'])))) =
        .ok (a.shift 0) (.at (stop + 2) w (opening :: ((first :: tail).map (Lexed.shift 1) ++ [closing, semi']))) := by
      rw [hrules, List.append_assoc] at hspecifiers
      rw [hrules']
      exact hp.specifiers_there hfirst hopening (by simp) hspecifiers
    obtain ⟨span, hinner⟩ := hp.declarator_there hfirst hsemi hopening hclosing hsemi' hstarts
    have hinner : (State.at (stop + 2) u
        (specs ++ opening :: ((first :: tail).map (Lexed.shift 1) ++ [closing, semi']))).rules.declarator .named
          (.at (stop + 2) w (opening :: ((first :: tail).map (Lexed.shift 1) ++ [closing, semi']))) =
        .ok ⟨d.name.map (shiftName 1), d.derivations, span⟩ (.at (stop + 2) v₀ [semi']) := by
      rw [hrules']
      exact hinner
    rw [outcome_semi (State.at_proper hplain) hspecifiers hdeclarator hsemi] at hrun
    rw [outcome_semi (State.at_proper hnested) hsecond hinner hsemi']
    exact outcome_declareAs span 0 1 hrun

end Grammar

namespace DeclUnit

open Grammar

/-- Where a declaration of one declarator is accepted, it is accepted with the declarator in parentheses as well, and
leaves the same unit: the same name is declared, with the same type. The second text has the tokens of the first one,
and the parentheses. -/
theorem declare_parenthesized {u v w : DeclUnit} {b d : String} {specs inner : List Lexed}
    {semi opening closing semi' : Lexed} (hplain : scan (b ++ d ++ ";") = (specs ++ inner ++ [semi]).map .ok)
    (hnested : scan (b ++ "(" ++ d ++ ");") =
      (specs ++ opening :: (inner.map (Lexed.shift 1) ++ [closing, semi'])).map .ok)
    (hopening : opening.token = .punct .lparen) (hclosing : closing.token = .punct .rparen)
    (hsemi' : semi'.token = .punct .semi) (hd : Declares (b ++ d ++ ";").utf8ByteSize u w specs inner semi)
    (hp : Parenthesizes (b ++ d ++ ";").utf8ByteSize w specs inner semi)
    (haccepted : u.declare (b ++ d ++ ";") = (.ok (), v)) : u.declare (b ++ "(" ++ d ++ ");") = (.ok (), v) := by
  have hfinish : ∀ {source : String} {ls : List Lexed}, scan source = ls.map .ok → ∀ l ∈ ls, l.token ≠ .finish := by
    intro source ls hscan l hl
    have hmem : .ok l ∈ scan source := by
      rw [hscan]
      exact List.mem_map_of_mem hl
    exact scan_ne_finish hmem
  have hsize : (b ++ "(" ++ d ++ ");").utf8ByteSize = (b ++ d ++ ";").utf8ByteSize + 2 := by
    simp only [String.utf8ByteSize_append]
    change b.utf8ByteSize + 1 + d.utf8ByteSize + 2 = b.utf8ByteSize + d.utf8ByteSize + 1 + 2
    omega
  unfold declare at haccepted ⊢
  rw [read_eq, hplain, readFrom_at] at haccepted
  rw [read_eq, hnested, hsize, readFrom_at]
  exact outcome_parenthesized hd hp hopening hclosing hsemi' (hfinish hplain) (hfinish hnested) haccepted

/-- `f` holds two pointers to functions whose results are pointers; its declarator has parentheses of its own. -/
theorem declare_parenthesized_function :
    let u := empty "unit" .lp64
    let b := "const long "
    let d := "*(*f[2])(int)"
    (u.declare (b ++ d ++ ";")).1 = .ok () ∧
      u.declare (b ++ "(" ++ d ++ ");") = (.ok (), (u.declare (b ++ d ++ ";")).2) := by
  intro u b d
  let specs : List Lexed := [⟨.keyword .const, ⟨0, 5⟩⟩, ⟨.keyword .long, ⟨6, 10⟩⟩]
  let inner : List Lexed :=
    [⟨.punct .star, ⟨11, 12⟩⟩, ⟨.punct .lparen, ⟨12, 13⟩⟩, ⟨.punct .star, ⟨13, 14⟩⟩, ⟨.name "f", ⟨14, 15⟩⟩,
     ⟨.punct .lbracket, ⟨15, 16⟩⟩, ⟨.literal .decimal "2", ⟨16, 17⟩⟩, ⟨.punct .rbracket, ⟨17, 18⟩⟩,
     ⟨.punct .rparen, ⟨18, 19⟩⟩, ⟨.punct .lparen, ⟨19, 20⟩⟩, ⟨.keyword .int, ⟨20, 23⟩⟩, ⟨.punct .rparen, ⟨23, 24⟩⟩]
  let semi : Lexed := ⟨.punct .semi, ⟨24, 25⟩⟩
  let opening : Lexed := ⟨.punct .lparen, ⟨11, 12⟩⟩
  let closing : Lexed := ⟨.punct .rparen, ⟨25, 26⟩⟩
  let semi' : Lexed := ⟨.punct .semi, ⟨26, 27⟩⟩
  have hplain : scan (b ++ d ++ ";") = (specs ++ inner ++ [semi]).map .ok := by decide +kernel
  have hnested : scan (b ++ "(" ++ d ++ ");") =
      (specs ++ opening :: (inner.map (Lexed.shift 1) ++ [closing, semi'])).map .ok := by decide +kernel
  have haccepted : (u.declare (b ++ d ++ ";")).1 = .ok () := by decide +kernel
  let s := State.at 25 u (specs ++ inner ++ [semi])
  let w := (leaves (s.rules.specifiers s)).unit
  have hspecifiers : ∃ a, s.rules.specifiers s = .ok a (.at 25 w (inner ++ [semi])) :=
    run_at (by decide +kernel) (by decide +kernel)
  let inside := State.at 25 w (inner ++ [semi])
  have hdeclarator : ∃ d, s.rules.declarator .named inside =
      .ok d (.at 25 (leaves (s.rules.declarator .named inside)).unit [semi]) :=
    run_at (by decide +kernel) (by decide +kernel)
  have hd : Declares 25 u w specs inner semi := by
    obtain ⟨declared, hdeclared⟩ := hdeclarator
    exact ⟨rfl, hspecifiers, declared, _, hdeclared⟩
  have hcolon : ∀ l ∈ specs, l.token ≠ .punct .colon := by decide
  have hp : Parenthesizes 25 w specs inner semi := by
    refine ⟨?_, ?_, fun before colon behind hsplit h => absurd h (hcolon colon (by simp [hsplit]))⟩
    · rintro l ⟨⟩
      exact ⟨by decide, fun text h => nomatch h⟩
    · rintro l ⟨⟩
      decide
  exact ⟨haccepted, declare_parenthesized hplain hnested rfl rfl rfl hd hp (Prod.ext haccepted rfl)⟩

/-- A parenthesis is not transparent everywhere: behind `_Atomic` it holds a type, the type that an enumeration is given
goes on with it, and behind another one it opens parameters. -/
theorem exists_not_parenthesized :
    let u := empty "unit" .lp64
    ((u.declare "int _Atomic x;").1 = .ok () ∧
      (u.declare "int _Atomic (x);").1 = .error ⟨.expectedType (.name "x"), ⟨13, 14⟩⟩) ∧
    ((u.declare "enum e : int x;").1 = .ok () ∧
      (u.declare "enum e : int (x);").1 = .error ⟨.expected .rparen (.name "x"), ⟨14, 15⟩⟩) ∧
    (u.declare "int (x);").1 = .ok () ∧
      (u.declare "int ((x));").1 = .error ⟨.expectedType (.punct .lparen), ⟨5, 6⟩⟩ := by
  decide +kernel

end DeclUnit

end Cognate
