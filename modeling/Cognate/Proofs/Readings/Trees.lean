import Cognate.Proofs.Grammar.Reaches
import Cognate.Proofs.Readings.Enumerations
import Cognate.Proofs.Spelling.Declarators

/-!
# Trees of declarators

A declarator with a name as a tree (`DeclaratorTree`), and how it stands in a text (`Stands`): operators in front, the
name or another declarator in parentheses, and arrays and parameters behind. It is read as the name and the steps of its
levels, outermost first: those in front from left to right, then those behind from right to left (`declarator_stands`).
-/

namespace Cognate.Grammar

variable {α σ : Type} {u : DeclUnit} {s s' s₁ s₂ : State} {t : Token} {ts : List Token} {depth : Nat}

/-! ## Rounds -/

/-- The rounds of a loop up to its answer. Each of them leaves fewer tokens. -/
inductive Rounds (round : σ → Parse (Round σ α)) : σ → State → α → State → Prop
  | again {x y : σ} {s s₁ s' : State} {a : α} (first : round x s = .ok (.again y) s₁) (moved : s₁.left < s.left)
      (rest : Rounds round y s₁ a s') : Rounds round x s a s'
  | done {x : σ} {s s' : State} {a : α} (last : round x s = .ok (.done a) s') : Rounds round x s a s'

/-- The fuel of a loop is enough. -/
theorem Rounds.loop {round : σ → Parse (Round σ α)} {x : σ} {a : α} (h : Rounds round x s a s') :
    loop x round s = .ok a s' := by
  have hfor : ∀ n, s.left < n → loopFor round n x s = .ok a s' := by
    induction h with
    | again first moved rest ih =>
      intro n hn
      obtain ⟨n, rfl⟩ := Nat.exists_eq_succ_of_ne_zero (Nat.ne_of_gt (Nat.zero_lt_of_lt hn))
      rw [loopFor_run, first]
      exact ih n (by omega)
    | done last =>
      intro n hn
      obtain ⟨n, rfl⟩ := Nat.exists_eq_succ_of_ne_zero (Nat.ne_of_gt (Nat.zero_lt_of_lt hn))
      rw [loopFor_run, last]
  exact hfor _ s.left_lt_allowance

/-! ## Fixed tokens -/

theorem current_bind (k : Lexed → Parse α) (s : State) : (current >>= k) s = k s.current s := rfl

theorem here_bind (k : Span → Parse α) (s : State) : (here >>= k) s = k s.current.span s := rfl

namespace State.Passes

theorem unit (h : s.Passes ts s') : s'.unit = s.unit := by
  induction h with
  | nil s => rfl
  | cons inside take rest ih => exact ih

theorem left (h : s.Passes ts s') : s'.left ≤ s.left ∧ (ts ≠ [] → s'.left < s.left) := by
  induction h with
  | nil s => exact ⟨le_rfl, fun hne => absurd rfl hne⟩
  | cons inside take rest ih =>
    have hlt := (State.left_take take).2 inside
    exact ⟨ih.1.trans hlt.le, fun _ => ih.1.trans_lt hlt⟩

theorem advance (h : s.Passes [t] s') : advance s = .ok s.current s' := by
  have hrun : Answers s.unit Grammar.advance s s' s.current := answers_advance h
  have hunit : s'.withUnit s.unit = s' := by rw [← h.unit]; rfl
  exact hrun.trans (by rw [hunit])

theorem peek (h : s.Passes [t] s') : peek s = .ok s'.current.token s := answers_peek (u := s.unit) h

theorem expect {mark : Punct} (h : s.Passes [.punct mark] s') : expect mark s = .ok s.current s' := by
  refine (current_bind _ s).trans ?_
  rw [if_pos (beq_iff_eq.2 h.token)]
  exact h.advance

theorem accept (h : s.Passes [t] s') : accept t s = .ok true s' := by
  refine (bind_of_ok (check_of_token h.token)).trans ?_
  exact bind_of_ok h.advance

end State.Passes

theorem check_of_ne (h : s.current.token ≠ t) : check t s = .ok false s := by
  change EStateM.Result.ok (s.current.token == t) s = _
  rw [beq_eq_false_iff_ne.2 h]

theorem accept_of_ne (h : s.current.token ≠ t) : accept t s = .ok false s := bind_of_ok (check_of_ne h)

/-! ## Qualifiers -/

/-- One round of the loop over qualifiers. -/
def qualifierRound (q : Qualifiers) : Parse (Round Qualifiers Qualifiers) := do
  match (← current).token with
  | .keyword .const => do
    let _ ← advance
    return .again { q with isConst := true }
  | .keyword .volatile => do
    let _ ← advance
    return .again { q with isVolatile := true }
  | .keyword .restrict => do
    let _ ← advance
    return .again { q with isRestrict := true }
  | _ => return .done q

theorem qualifiers_eq : qualifiers = loop Qualifiers.none qualifierRound := rfl

/-- A keyword of a qualifier. -/
def IsQualifier (k : Keyword) : Prop := k = .const ∨ k = .volatile ∨ k = .restrict

/-- The qualifiers that some words come to, in any order and repeated as one likes. -/
def qualifiersOf (ws : List Keyword) : Qualifiers := ws.foldl addQualifier .none

theorem qualifierRound_word {k : Keyword} (hk : IsQualifier k) (h : s.Passes [.keyword k] s') (q : Qualifiers) :
    qualifierRound q s = .ok (.again (addQualifier q k)) s' := by
  refine (current_bind _ s).trans ?_
  rcases hk with rfl | rfl | rfl <;> rw [h.token] <;> exact bind_of_ok h.advance

theorem qualifierRound_end (h : ∀ k, s.current.token ≠ .keyword k) (q : Qualifiers) :
    qualifierRound q s = .ok (.done q) s := by
  refine (current_bind _ s).trans ?_
  cases htoken : s.current.token with
  | keyword k => exact absurd htoken (h k)
  | _ => rfl

theorem qualifiers_words {ws : List Keyword} (hws : ∀ k ∈ ws, IsQualifier k) (h : s.Passes (ws.map .keyword) s')
    (hend : ∀ k, s'.current.token ≠ .keyword k) : qualifiers s = .ok (qualifiersOf ws) s' := by
  have hrounds : ∀ q, Rounds qualifierRound q s (ws.foldl addQualifier q) s' := by
    induction ws generalizing s with
    | nil =>
      cases h
      exact fun q => .done (qualifierRound_end hend q)
    | cons k ws ih =>
      intro q
      obtain ⟨s₁, hfirst, hrest⟩ := h.split_cons
      have hrest := ih (fun k' hk' => hws k' (List.mem_cons_of_mem _ hk')) hrest
      exact .again (qualifierRound_word (hws k List.mem_cons_self) hfirst q) (hfirst.left.2 (by simp)) (hrest _)
  rw [qualifiers_eq]
  exact (hrounds .none).loop

/-! ## Operators in front -/

/-- The tokens of an operator in front of a declarator, and its step. -/
inductive Prefixed (u : DeclUnit) : List Token → Derivation → Prop
  | pointer {ws : List Keyword} (hws : ∀ k ∈ ws, IsQualifier k) :
    Prefixed u (.punct .star :: ws.map .keyword) (.pointer (qualifiersOf ws))
  | blockPointer {ws : List Keyword} (hws : ∀ k ∈ ws, IsQualifier k) :
    Prefixed u (.punct .caret :: ws.map .keyword) (.blockPointer (qualifiersOf ws))
  | lvalueRef : Prefixed u [.punct .amp] .lvalueRef
  | rvalueRef : Prefixed u [.punct .andAnd] .rvalueRef
  /-- The class is a tag, or else a typedef. -/
  | memberPointer {owner : String} {t : Ty} {ws : List Keyword}
      (found : (u.tag? owner <|> u.typedef? owner) = some t) (hws : ∀ k ∈ ws, IsQualifier k) :
    Prefixed u (.name owner :: .punct .colonColon :: .punct .star :: ws.map .keyword)
      (.memberPointer t (qualifiersOf ws))

theorem atMemberPointer_not (h : ∀ text, s.current.token ≠ .name text) : atMemberPointer s = .ok false s := by
  refine (current_bind _ s).trans ?_
  cases htoken : s.current.token with
  | name text => exact absurd htoken (h text)
  | _ => rfl

theorem atMemberPointer_name {text : String} (h : s.Passes [.name text] s') :
    atMemberPointer s = .ok (s'.current.token == .punct .colonColon) s := by
  refine (current_bind _ s).trans ?_
  rw [h.token]
  exact bind_of_ok h.peek

theorem name_of_passes {text : String} (h : s.Passes [.name text] s') :
    name? s = .ok (some (text, s.current.span)) s' ∧ name s = .ok (text, s.current.span) s' := by
  have hname : name? s = .ok (some (text, s.current.span)) s' := by
    refine (current_bind _ s).trans ?_
    rw [h.token]
    exact bind_of_ok h.advance
  exact ⟨hname, bind_of_ok hname⟩

/-- The first token is no qualifier. -/
theorem Prefixed.cons {d : Derivation} (h : Prefixed u ts d) :
    ∃ t rest, ts = t :: rest ∧ ∀ k, t ≠ .keyword k := by
  cases h <;> exact ⟨_, _, rfl, by simp⟩

theorem pointer?_prefixed {d : Derivation} (hd : Prefixed s.unit ts d) (h : s.Passes ts s')
    (hend : ∀ k, s'.current.token ≠ .keyword k) : pointer? s = .ok (some d) s' := by
  cases hd with
  | pointer hws | blockPointer hws =>
    obtain ⟨s₁, hmark, hwords⟩ := h.split_cons
    refine (bind_of_ok (atMemberPointer_not (by simp [hmark.token]))).trans ?_
    refine (current_bind _ s).trans ?_
    rw [hmark.token]
    exact (bind_of_ok hmark.advance).trans (bind_of_ok (qualifiers_words hws hwords hend))
  | lvalueRef | rvalueRef =>
    refine (bind_of_ok (atMemberPointer_not (by simp [h.token]))).trans ?_
    refine (current_bind _ s).trans ?_
    rw [h.token]
    exact bind_of_ok h.advance
  | @memberPointer owner t ws found hws =>
    obtain ⟨s₁, howner, hrest⟩ := h.split_cons
    obtain ⟨s₂, hcolons, hrest⟩ := hrest.split_cons
    obtain ⟨s₃, hstar, hwords⟩ := hrest.split_cons
    have hunit : s₃.unit = s.unit := hstar.unit.trans (hcolons.unit.trans howner.unit)
    have hmember : memberPointer s = .ok (.memberPointer t (qualifiersOf ws)) s' := by
      refine (bind_of_ok (name_of_passes howner).2).trans ?_
      refine (bind_of_ok hcolons.expect).trans ((bind_of_ok hstar.expect).trans ?_)
      rw [unit_bind_run, hunit, found]
      exact bind_of_ok (qualifiers_words hws hwords hend)
    refine (bind_of_ok (atMemberPointer_name howner)).trans ?_
    rw [if_pos (beq_iff_eq.2 hcolons.token)]
    exact bind_of_ok hmember

/-- One round of the loop over operators in front. -/
def pointerRound (before : List Derivation) : Parse (Round (List Derivation) (List Derivation)) := do
  match ← pointer? with
  | some d => return .again (before ++ [d])
  | none => return .done before

theorem pointers_eq : pointers = loop [] pointerRound := rfl

/-- No qualifier stands in front of operators. -/
theorem not_keyword_of_prefixed {xs : List (List Token × Derivation)} (hxs : ∀ x ∈ xs, Prefixed u x.1 x.2)
    (h : s.Passes (xs.flatMap Prod.fst) s') (hend : ∀ k, s'.current.token ≠ .keyword k) :
    ∀ k, s.current.token ≠ .keyword k := by
  cases xs with
  | nil =>
    cases h
    exact hend
  | cons x xs =>
    obtain ⟨t, rest, hx, ht⟩ := (List.forall_mem_cons.1 hxs).1.cons
    rw [List.flatMap_cons, hx] at h
    rw [h.token]
    exact ht

/-- All operators are read, and no qualifier behind the last one. -/
theorem pointers_prefixed {xs : List (List Token × Derivation)} (hxs : ∀ x ∈ xs, Prefixed s.unit x.1 x.2)
    (h : s.Passes (xs.flatMap Prod.fst) s') (hend : ∀ k, s'.current.token ≠ .keyword k)
    (hnone : pointer? s' = .ok none s') : pointers s = .ok (xs.map Prod.snd) s' := by
  have hrounds : ∀ before, Rounds pointerRound before s (before ++ xs.map Prod.snd) s' := by
    induction xs generalizing s with
    | nil =>
      intro before
      cases h
      rw [List.map_nil, List.append_nil]
      exact .done (bind_of_ok hnone)
    | cons x xs ih =>
      intro before
      rw [List.flatMap_cons] at h
      obtain ⟨s₁, hfirst, hrest⟩ := h.split
      obtain ⟨hx, hxs⟩ := List.forall_mem_cons.1 hxs
      have hbehind := not_keyword_of_prefixed hxs hrest hend
      have hmoved : s₁.left < s.left := by
        obtain ⟨t, rest, hts, -⟩ := hx.cons
        exact hfirst.left.2 (by simp [hts])
      have hround : pointerRound before s = .ok (.again (before ++ [x.2])) s₁ :=
        bind_of_ok (pointer?_prefixed hx hfirst hbehind)
      have hrest := ih (by rwa [hfirst.unit]) hrest (before ++ [x.2])
      rw [List.append_assoc, List.singleton_append] at hrest
      exact .again hround hmoved hrest
  rw [pointers_eq]
  exact (hrounds []).loop

/-- A name with more behind it than its class, or an opening parenthesis, is no operator. -/
theorem pointer?_name {text : String} (h : s.Passes [.name text] s') (hwhole : s'.current.token ≠ .punct .colonColon) :
    pointer? s = .ok none s := by
  refine (bind_of_ok (atMemberPointer_name h)).trans ?_
  rw [beq_eq_false_iff_ne.2 hwhole]
  refine (current_bind _ s).trans ?_
  rw [h.token]
  rfl

theorem pointer?_parenthesis (h : s.current.token = .punct .lparen) : pointer? s = .ok none s := by
  refine (bind_of_ok (atMemberPointer_not (by simp [h]))).trans ?_
  refine (current_bind _ s).trans ?_
  rw [h]
  rfl

/-! ## Arrays and parameters -/

/-- A token that constant expressions start with. -/
def opensConstant : Token → Bool
  | .literal _ _ | .name _ | .keyword .sizeof | .keyword .alignof => true
  | .punct .lparen | .punct .minus | .punct .plus | .punct .tilde | .punct .bang => true
  | _ => false

theorem primary_opens {rules : Rules} {r : Option Int} (h : primary rules s = .ok r s') :
    opensConstant s.current.token = true := by
  obtain ⟨l, s₁, hadvance, h⟩ := bind_eq_ok h
  obtain rfl : s.current = l := by
    rw [advance_run] at hadvance
    split at hadvance <;> cases hadvance
    rfl
  revert h
  cases s.current.token with
  | literal c text => exact fun _ => rfl
  | name text => exact fun _ => rfl
  | keyword k => exact fun h => nomatch h
  | punct p => cases p <;> first | exact fun _ => rfl | exact fun h => nomatch h
  | finish => exact fun h => nomatch h

theorem unary_opens {rules : Rules} {r : Option Int} (h : unary rules s = .ok r s') :
    opensConstant s.current.token = true := by
  by_contra hnot
  have hparen : s.current.token ≠ .punct .lparen := fun he => hnot (by rw [he]; rfl)
  have hat : atParenthesizedType s = .ok false s := bind_of_ok (check_of_ne hparen)
  have hprimary : unary rules s = primary rules s := by
    refine (bind_of_ok hat).trans ?_
    refine (current_bind _ s).trans ?_
    revert hnot
    cases s.current.token with
    | keyword k => cases k <;> simp [opensConstant]
    | punct p => cases p <;> simp [opensConstant]
    | _ => simp
  exact hnot (primary_opens (hprimary.symm.trans h))

theorem constant_opens {r : Option Int} (h : (Rules.upTo depth).constant s = .ok r s') :
    opensConstant s.current.token = true := by
  cases depth with
  | zero => cases h
  | succ depth =>
    obtain ⟨_, _, hbinary, -⟩ := bind_eq_ok h
    obtain ⟨_, _, hunary, -⟩ := bind_eq_ok hbinary
    exact unary_opens hunary

/-- No words stand in front of the bound. -/
theorem boundWords_none (h : isBoundWord s.current.token = false) :
    (loop () fun () => do
      if isBoundWord (← current).token then
        let _ ← advance
        return .again ()
      else return .done () : Parse Unit) s = .ok () s := by
  refine Rounds.loop (.done ((current_bind _ s).trans ?_))
  rw [h]
  rfl

/-- Behind the opening bracket, a token in front of which no words are read. -/
theorem arrayBound_behind {rules : Rules} {r : EStateM.Result Fault State ArrayBound}
    (opens : s.Passes [.punct .lbracket] s₁) (h : isBoundWord s₁.current.token = false)
    (hrest : (do
      if ← accept (.punct .rbracket) then return .incomplete
      else if (← check (.punct .star)) then
        if (← peek) == .punct .rbracket then
          let _ ← advance
          let _ ← advance
          return .variable
        else arrayBound.boundExpression rules
      else arrayBound.boundExpression rules : Parse ArrayBound) s₁ = r) : arrayBound rules s = r :=
  (bind_of_ok opens.expect).trans ((bind_of_ok (boundWords_none h)).trans hrest)

theorem arrayBound_expression {rules : Rules} (opens : s.Passes [.punct .lbracket] s₁)
    (h : opensConstant s₁.current.token = true) : arrayBound rules s = arrayBound.boundExpression rules s₁ := by
  have hword : isBoundWord s₁.current.token = false := by
    revert h
    cases s₁.current.token with
    | keyword k => cases k <;> simp [opensConstant, isBoundWord, Token.isQualifier, Keyword.isQualifier]
    | _ => exact fun _ => rfl
  refine arrayBound_behind opens hword ?_
  have hclosing : s₁.current.token ≠ .punct .rbracket := fun he => by simp [he, opensConstant] at h
  have hstar : s₁.current.token ≠ .punct .star := fun he => by simp [he, opensConstant] at h
  exact (bind_of_ok (accept_of_ne hclosing)).trans (bind_of_ok (check_of_ne hstar))

/-- What stands behind a declarator, from its first token to its last one, and its step. -/
inductive Suffixed (rules : Rules) : State → Derivation → State → Prop
  | incomplete {s s' : State} (h : s.Passes [.punct .lbracket, .punct .rbracket] s') :
    Suffixed rules s (.array .incomplete) s'
  | star {s s' : State} (h : s.Passes [.punct .lbracket, .punct .star, .punct .rbracket] s') :
    Suffixed rules s (.array .variable) s'
  | size {s s₁ s₂ s' : State} {n : Int} (opens : s.Passes [.punct .lbracket] s₁)
      (value : rules.constant s₁ = .ok (some n) s₂) (fits : 0 ≤ n ∧ n < wordLimit)
      (closes : s₂.Passes [.punct .rbracket] s') : Suffixed rules s (.array (.constant n.toNat)) s'
  /-- A size whose value is not known. -/
  | unknown {s s₁ s₂ s' : State} (opens : s.Passes [.punct .lbracket] s₁) (value : rules.constant s₁ = .ok none s₂)
      (closes : s₂.Passes [.punct .rbracket] s') : Suffixed rules s (.array .variable) s'
  | function {s s₁ s₂ s' : State} {d : Derivation} (opens : s.Passes [.punct .lparen] s₁)
      (list : parameters rules s₁ = .ok d s₂) (closes : s₂.Passes [.punct .rparen] s') : Suffixed rules s d s'

theorem suffix?_array {rules : Rules} {bound : ArrayBound} (h : s.current.token = .punct .lbracket)
    (hbound : arrayBound rules s = .ok bound s') : suffix? rules s = .ok (some (.array bound)) s' := by
  refine (bind_of_ok (check_of_token h)).trans ?_
  exact bind_of_ok hbound

theorem suffix?_suffixed {d : Derivation} (h : Suffixed (Rules.upTo depth) s d s') :
    suffix? (Rules.upTo depth) s = .ok (some d) s' := by
  cases h with
  | incomplete h =>
    obtain ⟨s₁, opens, closes⟩ := h.split_cons
    refine suffix?_array h.token (arrayBound_behind opens (by rw [closes.token]; rfl) ?_)
    exact bind_of_ok closes.accept
  | star h =>
    obtain ⟨s₁, opens, hrest⟩ := h.split_cons
    obtain ⟨s₂, star, closes⟩ := hrest.split_cons
    refine suffix?_array h.token (arrayBound_behind opens (by rw [hrest.token]; rfl) ?_)
    refine (bind_of_ok (accept_of_ne (by simp [hrest.token]))).trans ?_
    refine (bind_of_ok (check_of_token hrest.token)).trans ((bind_of_ok star.peek).trans ?_)
    rw [beq_iff_eq.2 closes.token]
    exact (bind_of_ok star.advance).trans (bind_of_ok closes.advance)
  | size opens value fits closes =>
    refine suffix?_array opens.token ((arrayBound_expression opens (constant_opens value)).trans ?_)
    refine (here_bind _ _).trans ((bind_of_ok value).trans ?_)
    dsimp only
    rw [if_pos fits]
    exact bind_of_ok closes.expect
  | unknown opens value closes =>
    refine suffix?_array opens.token ((arrayBound_expression opens (constant_opens value)).trans ?_)
    refine (here_bind _ _).trans ((bind_of_ok value).trans ?_)
    exact bind_of_ok closes.expect
  | function opens list closes =>
    refine (bind_of_ok (check_of_ne (by simp [opens.token]))).trans ?_
    refine (bind_of_ok opens.accept).trans ?_
    exact (bind_of_ok list).trans (bind_of_ok closes.expect)

/-- Something stands behind a declarator: its own tokens are moved past, and whatever is read in between does not move
back. -/
theorem Suffixed.left {d : Derivation} (h : Suffixed (Rules.upTo depth) s d s') : s'.left < s.left := by
  have hconstant : ∀ {s₁ s₂ : State} {r : Option Int}, (Rules.upTo depth).constant s₁ = .ok r s₂ → s₂.left ≤ s₁.left :=
    fun value => ((Rules.upTo_follow_self depth (.onward _)).constant.precedes value).left
  have hlist : ∀ {s₁ s₂ : State} {d : Derivation}, parameters (Rules.upTo depth) s₁ = .ok d s₂ → s₂.left ≤ s₁.left :=
    fun list => ((follows_parameters (Rules.upTo_follow_self depth (.onward _))).precedes list).left
  cases h with
  | incomplete h | star h => exact h.left.2 (by simp)
  | size opens value fits closes => exact (closes.left.1.trans (hconstant value)).trans_lt (opens.left.2 (by simp))
  | unknown opens value closes => exact (closes.left.1.trans (hconstant value)).trans_lt (opens.left.2 (by simp))
  | function opens list closes => exact (closes.left.1.trans (hlist list)).trans_lt (opens.left.2 (by simp))

/-- All that stands behind a declarator. -/
inductive Behind (rules : Rules) : State → List Derivation → State → Prop
  | nil {s : State} (hbracket : s.current.token ≠ .punct .lbracket) (hparen : s.current.token ≠ .punct .lparen) :
    Behind rules s [] s
  | cons {s s₁ s' : State} {d : Derivation} {ds : List Derivation} (first : Suffixed rules s d s₁)
      (rest : Behind rules s₁ ds s') : Behind rules s (d :: ds) s'

/-- One round of the loop over what stands behind. -/
def suffixRound (rules : Rules) (before : List Derivation) : Parse (Round (List Derivation) (List Derivation)) := do
  match ← suffix? rules with
  | some d => return .again (d :: before)
  | none => return .done before

theorem suffixes_eq (rules : Rules) : suffixes rules = loop [] (suffixRound rules) := rfl

/-- The last one is the first step. -/
theorem Behind.suffixes {ds : List Derivation} (h : Behind (Rules.upTo depth) s ds s') :
    suffixes (Rules.upTo depth) s = .ok ds.reverse s' := by
  have hrounds : ∀ before, Rounds (suffixRound (Rules.upTo depth)) before s (ds.reverse ++ before) s' := by
    induction h with
    | nil hbracket hparen =>
      intro before
      have hnone : ∀ s : State, s.current.token ≠ .punct .lbracket → s.current.token ≠ .punct .lparen →
          suffix? (Rules.upTo depth) s = .ok none s := fun s hbracket hparen =>
        (bind_of_ok (check_of_ne hbracket)).trans (bind_of_ok (accept_of_ne hparen))
      exact .done (bind_of_ok (hnone _ hbracket hparen))
    | cons first rest ih =>
      intro before
      rw [List.reverse_cons, List.append_assoc, List.singleton_append]
      exact .again (bind_of_ok (suffix?_suffixed first)) first.left (ih _)
  rw [suffixes_eq, ← List.append_nil ds.reverse]
  exact (hrounds []).loop

/-! ## Whole declarators -/

/-- A declarator with a name: what stands in front of the name or of another declarator, and what stands behind, from
left to right. -/
inductive DeclaratorTree where
  | name (before : List Derivation) (name : String × Span) (behind : List Derivation)
  | nested (before : List Derivation) (inner : DeclaratorTree) (behind : List Derivation)

namespace DeclaratorTree

/-- The declared name. -/
def declared : DeclaratorTree → String × Span
  | name _ found _ => found
  | nested _ inner _ => inner.declared

/-- The steps of one level after those of the levels around it: what stands in front from left to right, and what stands
behind from right to left. -/
def steps : DeclaratorTree → List Derivation
  | name before _ behind => before ++ behind.reverse
  | nested before inner behind => before ++ behind.reverse ++ inner.steps

end DeclaratorTree

/-- A token that shows that a parenthesis opens a declarator. -/
def OpensInner (u : DeclUnit) (t : Token) : Prop :=
  startsPointer t = true ∨ ∃ text, t = .name text ∧ u.typedef? text = none

/-- The text from one place to another is that of a declarator. What stands behind a name or a parenthesis is read by
the rules there are at so many levels. -/
inductive Stands : Nat → DeclaratorTree → State → State → Prop
  | name {depth : Nat} {s s₁ s₂ s' : State} {xs : List (List Token × Derivation)} {text : String}
      {behind : List Derivation} (front : ∀ x ∈ xs, Prefixed s.unit x.1 x.2)
      (before : s.Passes (xs.flatMap Prod.fst) s₁) (named : s₁.Passes [.name text] s₂)
      (whole : s₂.current.token ≠ .punct .colonColon) (suffixes : Behind (Rules.upTo depth) s₂ behind s') :
    Stands depth (.name (xs.map Prod.snd) (text, s₁.current.span) behind) s s'
  | nested {depth : Nat} {s s₁ s₂ s₃ s₄ s' : State} {xs : List (List Token × Derivation)} {inner : DeclaratorTree}
      {behind : List Derivation} (front : ∀ x ∈ xs, Prefixed s.unit x.1 x.2)
      (before : s.Passes (xs.flatMap Prod.fst) s₁) (opens : s₁.Passes [.punct .lparen] s₂)
      (starts : OpensInner s₂.unit s₂.current.token) (tree : Stands depth inner s₂ s₃)
      (closes : s₃.Passes [.punct .rparen] s₄) (suffixes : Behind (Rules.upTo (depth + 1)) s₄ behind s') :
    Stands (depth + 1) (.nested (xs.map Prod.snd) inner behind) s s'

theorem atNested_of_opensInner (opens : s.Passes [.punct .lparen] s') (h : OpensInner s'.unit s'.current.token) :
    atNested s = .ok true s := by
  refine (bind_of_ok (check_of_token opens.token)).trans ((bind_of_ok opens.peek).trans ?_)
  rcases h with h | ⟨text, htext, hnone⟩
  · revert h
    cases s'.current.token with
    | punct p => cases p <;> first | exact fun _ => rfl | exact fun h => nomatch h
    | _ => exact fun h => nomatch h
  · rw [htext]
    refine (unit_bind_run _ s).trans ?_
    rw [← opens.unit, hnone]
    rfl

theorem core_name {rules : Rules} {naming : Naming} {text : String} (hnaming : naming ≠ .abstract)
    (h : s.Passes [.name text] s') : core rules naming s = .ok (.name text s.current.span) s' := by
  have hnested : atNested s = .ok false s := bind_of_ok (check_of_ne (by simp [h.token]))
  refine (bind_of_ok hnested).trans ?_
  rw [if_neg Bool.false_ne_true, if_neg (by simpa using hnaming)]
  exact bind_of_ok (name_of_passes h).1

/-- Where names may stand, a declarator is read as its name and its steps. By induction on its levels. -/
theorem declarator_of_stands {naming : Naming} {tree : DeclaratorTree} (hnaming : naming ≠ .abstract)
    (h : Stands depth tree s s') : declarator (Rules.upTo depth) naming s =
      .ok ⟨some tree.declared, tree.steps, s.current.span.merge s'.current.span⟩ s' := by
  induction h with
  | name front before named whole suffixes =>
    have hpointers := pointers_prefixed front before (by simp [named.token]) (pointer?_name named whole)
    refine (here_bind _ _).trans ((bind_of_ok hpointers).trans ((bind_of_ok (core_name hnaming named)).trans ?_))
    refine (bind_of_ok suffixes.suffixes).trans ?_
    cases naming <;> rfl
  | @nested depth s s₁ s₂ s₃ s₄ s' xs inner behind front before opens starts tree closes suffixes ih =>
    have hpointers := pointers_prefixed front before (by simp [opens.token]) (pointer?_parenthesis opens.token)
    have hcore : core (Rules.upTo (depth + 1)) naming s₁ =
        .ok (.nested ⟨some inner.declared, inner.steps, s₂.current.span.merge s₃.current.span⟩) s₄ := by
      refine (bind_of_ok (atNested_of_opensInner opens starts)).trans ((bind_of_ok opens.advance).trans ?_)
      exact (bind_of_ok ih).trans (bind_of_ok closes.expect)
    refine (here_bind _ _).trans ((bind_of_ok hpointers).trans ((bind_of_ok hcore).trans ?_))
    refine (bind_of_ok suffixes.suffixes).trans ?_
    cases naming <;> rfl

theorem declarator_stands {tree : DeclaratorTree} (h : Stands depth tree s s') :
    declarator (Rules.upTo depth) .named s =
      .ok ⟨some tree.declared, tree.steps, s.current.span.merge s'.current.span⟩ s' :=
  declarator_of_stands (by decide) h

end Cognate.Grammar
