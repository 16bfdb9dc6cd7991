import Cognate.Grammar.Declaration
import Cognate.Proofs.Expression.Casts

/-!
# Reading expressions back

The tokens of an expression with parentheses at least where the levels of its operators need them, and any further ones
(`Renders`). Such tokens are read to their end and come to the value of the tree. By induction on how the tokens were
put together: a level says which of the three mutual readers an expression can stand in front of (`Readable`). For
operators of one level the reader is a loop, so what is said of it there is where its rounds go on behind an operand
(`ReadsBinary`).
-/

namespace Cognate.Grammar

variable {u v : DeclUnit} {e left right condition yes no : Expression} {ts ls rs cs ys ns : List Token}
  {s s' : State} {level depth : Nat} {op : BinaryOp} {rules : Rules}

/-! ## Tokens of an expression -/

/-- How tightly the operand of a prefix operator or of a cast has to bind. -/
def prefixLevel : Nat := 14

/-- How tightly the condition of a conditional has to bind; the conditional itself binds less tightly. -/
def conditionLevel : Nat := 4

/-- The tokens stand for the expression where at least that level is asked for. A whole expression is asked for level 0,
and operators of one level group to the left. -/
inductive Renders (u : DeclUnit) : Nat → Expression → List Token → Prop
  | parens {level : Nat} {e : Expression} {ts : List Token} (inside : Renders u 0 e ts) :
      Renders u level e (.punct .lparen :: (ts ++ [.punct .rparen]))
  | literal {level : Nat} {c : LiteralClass} {text : String} : Renders u level (.literal c text) [.literal c text]
  | name {level : Nat} {text : String} (other : u.typedef? text = none) : Renders u level (.name text) [.name text]
  | unary {level : Nat} {op : UnaryOp} {e : Expression} {ts : List Token} (enough : level ≤ prefixLevel)
      (operand : Renders u prefixLevel e ts) : Renders u level (.unary op e) (.punct op.mark :: ts)
  | cast {level : Nat} {words : List Keyword} {e : Expression} {ts : List Token} (enough : level ≤ prefixLevel)
      (type : SpellsType u.target words) (operand : Renders u prefixLevel e ts) :
      Renders u level (.cast words e) (.punct .lparen :: (words.map .keyword ++ .punct .rparen :: ts))
  | binary {level : Nat} {op : BinaryOp} {mark : Punct} {left right : Expression} {ls rs : List Token}
      (operator : mark.binaryOp? = some op) (enough : level ≤ op.precedence) (first : Renders u op.precedence left ls)
      (second : Renders u (op.precedence + 1) right rs) :
      Renders u level (.binary op left right) (ls ++ .punct mark :: rs)
  | conditional {level : Nat} {condition yes no : Expression} {cs ys ns : List Token} (enough : level < conditionLevel)
      (known : Renders u conditionLevel condition cs) (first : Renders u 0 yes ys) (second : Renders u 0 no ns) :
      Renders u level (.conditional condition yes no) (cs ++ .punct .question :: (ys ++ .punct .colon :: ns))

/-- No expression starts like a type. -/
theorem Renders.front (h : Renders u level e ts) : ∃ t rest, ts = t :: rest ∧ startsType u t = false := by
  induction h with
  | parens inside ih => exact ⟨_, _, rfl, rfl⟩
  | literal => exact ⟨_, _, rfl, rfl⟩
  | name other => exact ⟨_, _, rfl, by rw [startsType, other, Option.isSome_none]⟩
  | unary enough operand ih => exact ⟨_, _, rfl, rfl⟩
  | cast enough type operand ih => exact ⟨_, _, rfl, rfl⟩
  | binary operator enough first second ihl ihr =>
    obtain ⟨t, rest, rfl, ht⟩ := ihl
    exact ⟨t, _, rfl, ht⟩
  | conditional enough known first second ihc ihy ihn =>
    obtain ⟨t, rest, rfl, ht⟩ := ihc
    exact ⟨t, _, rfl, ht⟩

theorem Renders.length_pos (h : Renders u level e ts) : 0 < ts.length := by
  obtain ⟨t, rest, rfl, -⟩ := h.front
  exact Nat.succ_pos _

theorem startsType_enriches (h : u.Enriches v) (t : Token) : startsType v t = startsType u t := by
  cases t with
  | name text => rw [startsType, h.typedef?, startsType]
  | _ => rfl

theorem State.passes_at {stop : Nat} {more : List Lexed} (items : List Lexed) (h : ∀ l ∈ items, l.token ≠ .finish) :
    (State.at stop u (items ++ more)).Passes (items.map Lexed.token) (.at stop u more) := by
  induction items with
  | nil => exact .nil _
  | cons l items ih =>
    have hrest := ih fun l' hl' => h l' (by simp [hl'])
    refine .cons (h l (by simp)) (takeItem_at stop u (items ++ more)) ?_
    have hplace : ({ State.at stop u (l :: (items ++ more)) with
        current := (State.at stop u (items ++ more)).current
        ahead := (State.at stop u (items ++ more)).ahead } : State) = .at stop u (items ++ more) := by
      cases items ++ more <;> rfl
    exact hplace ▸ hrest

/-! ## What the readers come to -/

/-- Can follow a whole expression. -/
def endsExpression (t : Token) : Prop := t.binaryOp? = none ∧ t ≠ .punct .question

/-- One round of the loop over the operators of an expression. -/
def binaryRound (rules : Rules) (least : Nat) (left : Option Int) : Parse (Round (Option Int) (Option Int)) := do
  match (← current).token.binaryOp? with
  | none => return .done left
  | some op =>
    if op.precedence < least then return .done left
    else
      let operator ← advance
      let right ← rules.binary (op.precedence + 1)
      match left, right with
      | some a, some b => return .again (← evaluated operator.span (fold op a b))
      | _, _ => return .again none

theorem binary_eq (rules : Rules) (least : Nat) :
    binary rules least = unary rules >>= fun first => loop first (binaryRound rules least) := rfl

/-- Read as an operand. -/
def ReadsUnary (u : DeclUnit) (e : Expression) (ts : List Token) : Prop :=
  ∀ ⦃depth s s' v⦄, ts.length ≤ depth + 1 → s.Passes ts s' → u.Enriches v →
    Comes v (unary (Rules.upTo depth)) s s' (e.value u)

/-- Read in front of operators that bind no more tightly than `level`: the rounds of the loop go on behind it. -/
def ReadsBinary (u : DeclUnit) (level : Nat) (e : Expression) (ts : List Token) : Prop :=
  ∀ ⦃depth least s s' s'' v⦄ ⦃g : Option Int → Except Cause (Option Int)⦄, ts.length ≤ depth + 1 → least ≤ level →
    s.Passes ts s' → (∀ op, s'.current.token.binaryOp? = some op → op.precedence ≤ level) → u.Enriches v →
    (∀ a w n, u.Enriches w → e.value u = .ok a → s'.allowance ≤ n →
      Comes w (loopFor (binaryRound (Rules.upTo depth) least) n a) s' s'' (g a)) →
    Comes v (binary (Rules.upTo depth) least) s s'' (e.value u >>= g)

/-- Read as a whole. -/
def ReadsConstant (u : DeclUnit) (e : Expression) (ts : List Token) : Prop :=
  ∀ ⦃depth s s' v⦄, ts.length ≤ depth + 1 → s.Passes ts s' → endsExpression s'.current.token → u.Enriches v →
    Comes v (constant (Rules.upTo depth)) s s' (e.value u)

/-- Read wherever at most that level is asked for. -/
structure Readable (u : DeclUnit) (level : Nat) (e : Expression) (ts : List Token) : Prop where
  unary : prefixLevel ≤ level → ReadsUnary u e ts
  binary : conditionLevel ≤ level → ReadsBinary u level e ts
  constant : ReadsConstant u e ts

/-! ## From operands to whole expressions -/

theorem comes_binary_end {least n : Nat} {a : Option Int} (hn : 0 < n)
    (hs : ∀ op, s.current.token.binaryOp? = some op → op.precedence < least) :
    Comes u (loopFor (binaryRound rules least) n a) s s (.ok a) := by
  obtain ⟨n, rfl⟩ : ∃ m, n = m + 1 := ⟨n - 1, by omega⟩
  refine reaches_done (answers_current.bind ?_)
  cases hop : s.current.token.binaryOp? with
  | none => exact .pure ⟨a, rfl, rfl⟩
  | some op =>
    dsimp only
    rw [if_pos (hs op hop)]
    exact .pure ⟨a, rfl, rfl⟩

theorem ReadsUnary.binary (h : ReadsUnary u e ts) (level : Nat) : ReadsBinary u level e ts := by
  intro depth least s s' s'' v g hdepth _ hs _ hv hnext
  rw [binary_eq]
  refine (h hdepth hs hv).bind fun a w hw ha => ?_
  exact reaches_loop fun n hn => hnext a w n (hv.trans hw) ha hn

theorem ReadsBinary.weaken {level' : Nat} (h : ReadsBinary u level e ts) (hlevel : level' ≤ level) :
    ReadsBinary u level' e ts := by
  intro depth least s s' s'' v g hdepth hleast hs hs' hv hnext
  exact h hdepth (hleast.trans hlevel) hs (fun op hop => (hs' op hop).trans hlevel) hv hnext

/-- In front of an operator that binds less tightly than is asked for, the loop ends behind the operand. -/
theorem ReadsBinary.comes (h : ReadsBinary u level e ts) {least : Nat} (hdepth : ts.length ≤ depth + 1)
    (hleast : least ≤ level) (hs : s.Passes ts s')
    (hs' : ∀ op, s'.current.token.binaryOp? = some op → op.precedence < least) (hv : u.Enriches v) :
    Comes v (Grammar.binary (Rules.upTo depth) least) s s' (e.value u) := by
  have hwhole := h (g := pure) hdepth hleast hs (fun op hop => ((hs' op hop).trans_le hleast).le) hv
    fun a w n _ _ hn => comes_binary_end (by unfold State.allowance at hn; omega) hs'
  rwa [bind_pure] at hwhole

theorem ReadsBinary.constant (h : ReadsBinary u level e ts) : ReadsConstant u e ts := by
  intro depth s s' v hdepth hs hs' hv
  have hcondition := h.comes hdepth (Nat.zero_le level) hs (fun op hop => by rw [hs'.1] at hop; cases hop) hv
  rw [← bind_pure (e.value u)]
  exact hcondition.bind fun a w _ _ => (answers_accept_not hs'.2).bind (Comes.pure (a := a))

theorem Readable.of_unary (h : ReadsUnary u e ts) : Readable u level e ts :=
  ⟨fun _ => h, fun _ => h.binary level, ReadsBinary.constant (h.binary level)⟩

theorem Readable.of_binary {p : Nat} (h : ReadsBinary u p e ts) (hlevel : level ≤ p) (hp : p < prefixLevel) :
    Readable u level e ts :=
  ⟨fun hle => absurd (hle.trans hlevel) (by omega), fun _ => h.weaken hlevel, h.constant⟩

theorem Readable.of_constant (h : ReadsConstant u e ts) (hlevel : level < conditionLevel) : Readable u level e ts :=
  ⟨fun hle => absurd hle (by unfold prefixLevel conditionLevel at *; omega), fun hle => absurd hle (by omega), h⟩

/-! ## Operands -/

theorem comes_literalValue {x : Option Int} {cause : Cause} {span : Span} :
    Comes u (literalValue x cause span) s s (some <$> x.elim (.error cause) .ok) := by
  cases x with
  | none => exact Comes.fail
  | some n => exact Comes.pure

theorem comes_evaluated {r : Except Cause Int} {span : Span} : Comes u (evaluated span r) s s (some <$> r) := by
  cases r with
  | error cause => exact Comes.fail
  | ok n => exact Comes.pure

/-- In front of anything but the opening parenthesis of a type. -/
theorem answers_atParenthesizedType_not (hs : s.current.token ≠ .punct .lparen) :
    Answers u atParenthesizedType s s false := by
  refine answers_check.andThen ?_
  rw [if_neg (by simpa using hs)]
  exact .pure

theorem answers_atParenthesizedType (hs : s.Passes [.punct .lparen] s') :
    Answers u atParenthesizedType s s (startsType u s'.current.token) := by
  refine answers_check.andThen ?_
  rw [if_pos (beq_iff_eq.2 hs.token)]
  exact answers_unit.andThen ((answers_peek hs).andThen .pure)

theorem readsUnary_literal {c : LiteralClass} {text : String} :
    ReadsUnary u (.literal c text) [.literal c text] := by
  intro depth s s' v _ hs hv
  refine answers_here.bind ((answers_atParenthesizedType_not (by simp [hs.token])).bind (answers_current.bind ?_))
  simp only [hs.token]
  refine (answers_advance hs).bind ?_
  simp only [hs.token, Expression.value, ← hv.target]
  cases c with
  | char => exact answers_unit.bind comes_literalValue
  | float => exact Comes.fail
  | string => exact Comes.fail
  | hex => exact comes_literalValue
  | binary => exact comes_literalValue
  | octal => exact comes_literalValue
  | decimal => exact comes_literalValue

theorem readsUnary_name {text : String} : ReadsUnary u (.name text) [.name text] := by
  intro depth s s' v _ hs hv
  refine answers_here.bind ((answers_atParenthesizedType_not (by simp [hs.token])).bind (answers_current.bind ?_))
  simp only [hs.token]
  refine (answers_advance hs).bind ?_
  simp only [hs.token, Expression.value, ← hv.constant?]
  exact answers_unit.bind Comes.pure

theorem readsUnary_parens (h : ReadsConstant u e ts) (hfront : ∃ t rest, ts = t :: rest ∧ startsType u t = false) :
    ReadsUnary u e (.punct .lparen :: (ts ++ [.punct .rparen])) := by
  intro depth s s' v hdepth hs hv
  obtain ⟨s₁, hopen, hrest⟩ := hs.split_cons
  obtain ⟨s₂, hinside, hclose⟩ := hrest.split
  simp only [List.length_cons, List.length_append, List.length_nil] at hdepth
  obtain ⟨depth, rfl⟩ : ∃ d, depth = d + 1 := ⟨depth - 1, by omega⟩
  have hat : startsType v s₁.current.token = false := by
    obtain ⟨t, rest, rfl, ht⟩ := hfront
    rw [hinside.token, startsType_enriches hv, ht]
  refine answers_here.bind ((answers_atParenthesizedType hopen).bind ?_)
  rw [hat]
  refine answers_current.bind ?_
  simp only [hopen.token]
  refine (answers_advance hopen).bind ?_
  simp only [hopen.token]
  rw [← bind_pure (e.value u)]
  have hends : endsExpression s₂.current.token := by
    rw [hclose.token]
    exact ⟨rfl, by simp⟩
  have hvalue : Comes v (Rules.upTo (depth + 1)).constant s₁ s₂ (e.value u) := h (by omega) hinside hends hv
  exact hvalue.bind fun a w _ _ => (answers_expect hclose).bind (Comes.pure (a := a))

theorem readsUnary_unary {op : UnaryOp} (h : ReadsUnary u e ts) (hpos : 0 < ts.length) :
    ReadsUnary u (.unary op e) (.punct op.mark :: ts) := by
  intro depth s s' v hdepth hs hv
  obtain ⟨s₁, hmark, hrest⟩ := hs.split_cons
  rw [List.length_cons] at hdepth
  obtain ⟨depth, rfl⟩ : ∃ d, depth = d + 1 := ⟨depth - 1, by omega⟩
  have hoperand : Comes v (Rules.upTo (depth + 1)).unary s₁ s' (e.value u) := h (by omega) hrest hv
  have hparen : op.mark ≠ .lparen := by cases op <;> decide
  refine answers_here.bind ((answers_atParenthesizedType_not (by simp [hmark.token, hparen])).bind ?_)
  refine answers_current.bind ?_
  rw [Expression.value]
  cases op with
  | plus =>
    simp only [hmark.token, UnaryOp.mark]
    refine (answers_advance hmark).bind ?_
    have hsame : onKnown UnaryOp.plus.apply = pure := by
      funext x
      cases x <;> rfl
    rw [hsame, bind_pure]
    exact hoperand
  | negate =>
    simp only [hmark.token, UnaryOp.mark]
    refine (answers_advance hmark).bind (hoperand.bind fun a w _ _ => ?_)
    cases a with
    | none => exact Comes.pure
    | some n => exact comes_evaluated
  | complement =>
    simp only [hmark.token, UnaryOp.mark]
    refine (answers_advance hmark).bind (hoperand.bind fun a w _ _ => ?_)
    cases a <;> exact Comes.pure
  | not =>
    simp only [hmark.token, UnaryOp.mark]
    refine (answers_advance hmark).bind (hoperand.bind fun a w _ _ => ?_)
    cases a <;> exact Comes.pure

theorem readsUnary_cast {words : List Keyword} (hu : u.WellFormed) (hwords : SpellsType u.target words)
    (h : ReadsUnary u e ts) :
    ReadsUnary u (.cast words e) (.punct .lparen :: (words.map .keyword ++ .punct .rparen :: ts)) := by
  intro depth s s' v hdepth hs hv
  obtain ⟨s₁, hopen, hrest⟩ := hs.split_cons
  obtain ⟨s₂, hinside, hrest⟩ := hrest.split
  obtain ⟨s₃, hclose, hrest⟩ := hrest.split_cons
  obtain ⟨k, rest, hfront, hk⟩ := hwords.front
  simp only [hfront, List.length_cons, List.length_append, List.length_map] at hdepth
  obtain ⟨depth, rfl⟩ : ∃ d, depth = d + 1 := ⟨depth - 1, by omega⟩
  have hat : startsType v s₁.current.token = true := by
    rw [hfront, List.map_cons] at hinside
    rw [hinside.token]
    exact hk
  have htype : Gives v (parenthesizedType (Rules.upTo (depth + 1))) s s₃
      fun t w => Converts w t (castValue u.target words) := by
    rw [← hv.target] at hwords ⊢
    refine (answers_advance hopen).bind ((gives_typeName (hv.wellFormed hu) hwords hinside hclose.token).bind ?_)
    exact fun t w _ ht => (answers_expect hclose).bind (.pure ht)
  refine answers_here.bind ((answers_atParenthesizedType hopen).bind ?_)
  rw [hat]
  refine htype.bind fun t w hw ht => ?_
  have hoperand : Comes w (Rules.upTo (depth + 1)).unary s₃ s' (e.value u) := h (by omega) hrest (hv.trans hw)
  refine hoperand.bind fun a x hx _ => answers_unit.bind ?_
  rw [(ht.enriches hx).convertTo_eq]
  exact Comes.pure

/-! ## Operators -/

/-- The round at an operator that binds tightly enough: the operand behind it, and the operation on both. -/
theorem comes_binaryRound {least : Nat} {mark : Punct} {a : Option Int} (hop : mark.binaryOp? = some op)
    (hleast : least ≤ op.precedence) (h : ReadsBinary u (op.precedence + 1) right rs) (hdepth : rs.length ≤ depth + 1)
    (hs : s.Passes (.punct mark :: rs) s')
    (hs' : ∀ op', s'.current.token.binaryOp? = some op' → op'.precedence ≤ op.precedence) (hv : u.Enriches v) :
    Comes v (binaryRound (Rules.upTo (depth + 1)) least a) s s'
      (Round.again <$> (right.value u >>= fun b => onBoth (fold op) a b)) := by
  obtain ⟨s₁, hmark, hrest⟩ := hs.split_cons
  have hright : Comes v ((Rules.upTo (depth + 1)).binary (op.precedence + 1)) s₁ s' (right.value u) :=
    h.comes hdepth le_rfl hrest (fun op' hop' => Nat.lt_succ_of_le (hs' op' hop')) hv
  have htoken : s.current.token.binaryOp? = some op := by
    rw [hmark.token]
    exact hop
  refine answers_current.bind ?_
  simp only [htoken]
  rw [if_neg (by omega), map_bind]
  refine (answers_advance hmark).bind (hright.bind fun b w _ _ => ?_)
  cases a with
  | none => exact Comes.pure
  | some m =>
    cases b with
    | none => exact Comes.pure
    | some n =>
      rw [map_eq_pure_bind]
      exact comes_evaluated.bind fun _ _ _ _ => Comes.pure

theorem readsBinary_binary {mark : Punct} (hop : mark.binaryOp? = some op)
    (hleft : ReadsBinary u op.precedence left ls) (hright : ReadsBinary u (op.precedence + 1) right rs)
    (hpos : 0 < rs.length) : ReadsBinary u op.precedence (.binary op left right) (ls ++ .punct mark :: rs) := by
  intro depth least s s' s'' v g hdepth hleast hs hs' hv hnext
  obtain ⟨s₁, hfirst, hrest⟩ := hs.split
  simp only [List.length_append, List.length_cons] at hdepth
  obtain ⟨depth, rfl⟩ : ∃ d, depth = d + 1 := ⟨depth - 1, by omega⟩
  have hfollow : ∀ op', s₁.current.token.binaryOp? = some op' → op'.precedence ≤ op.precedence := by
    intro op' hop'
    rw [hrest.token] at hop'
    exact (congrArg BinaryOp.precedence (Option.some.inj (hop'.symm.trans hop))).le
  rw [Expression.value, bind_assoc]
  refine hleft (by omega) hleast hfirst hfollow hv fun a w n hw ha hn => ?_
  -- The operator and its second operand are two tokens at least, so the rounds that are left are enough behind them.
  have hlength := hrest.length_le
  rw [List.length_cons] at hlength
  unfold State.allowance at hn hnext
  obtain ⟨n, rfl⟩ : ∃ m, n = m + 1 := ⟨n - 1, by omega⟩
  refine Comes.again (comes_binaryRound hop hleast hright (by omega) hrest hs' hw) fun y x hx hy => ?_
  refine hnext y x n (hw.trans hx) ?_ (by omega)
  rw [Expression.value, ha]
  exact hy

theorem readsConstant_conditional (hcondition : ReadsBinary u conditionLevel condition cs)
    (hyes : ReadsConstant u yes ys) (hno : ReadsConstant u no ns) (hpos : 0 < ns.length) :
    ReadsConstant u (.conditional condition yes no) (cs ++ .punct .question :: (ys ++ .punct .colon :: ns)) := by
  intro depth s s' v hdepth hs hs' hv
  obtain ⟨s₁, hknown, hrest⟩ := hs.split
  obtain ⟨s₂, hquestion, hrest⟩ := hrest.split_cons
  obtain ⟨s₃, hfirst, hrest⟩ := hrest.split
  obtain ⟨s₄, hcolon, hsecond⟩ := hrest.split_cons
  simp only [List.length_append, List.length_cons] at hdepth
  obtain ⟨depth, rfl⟩ : ∃ d, depth = d + 1 := ⟨depth - 1, by omega⟩
  have hends : endsExpression s₃.current.token := by
    rw [hcolon.token]
    exact ⟨rfl, by simp⟩
  have hnone : ∀ op, s₁.current.token.binaryOp? = some op → op.precedence < 0 := by
    intro op hop
    rw [hquestion.token] at hop
    cases hop
  refine (hcondition.comes (by omega) (Nat.zero_le _) hknown hnone hv).bind fun known w hw _ => ?_
  refine (answers_accept hquestion).bind ?_
  have hfirst' : Comes w (Rules.upTo (depth + 1)).constant s₂ s₃ (yes.value u) :=
    hyes (by omega) hfirst hends (hv.trans hw)
  refine hfirst'.bind fun a x hx _ => (answers_expect hcolon).bind ?_
  have hsecond' : Comes x (Rules.upTo (depth + 1)).constant s₄ s' (no.value u) :=
    hno (by omega) hsecond hs' ((hv.trans hw).trans hx)
  exact hsecond'.bind fun b _ _ _ => Comes.pure

/-! ## Whole expressions -/

theorem BinaryOp.precedence_lt (op : BinaryOp) : op.precedence < prefixLevel := by
  cases op <;> decide

theorem BinaryOp.conditionLevel_le (op : BinaryOp) : conditionLevel ≤ op.precedence := by
  cases op <;> decide

/-- By induction on how the tokens were put together. -/
theorem Renders.readable (hu : u.WellFormed) (h : Renders u level e ts) : Readable u level e ts := by
  induction h with
  | parens inside ih => exact .of_unary (readsUnary_parens ih.constant inside.front)
  | literal => exact .of_unary readsUnary_literal
  | name other => exact .of_unary readsUnary_name
  | unary enough operand ih => exact .of_unary (readsUnary_unary (ih.unary le_rfl) operand.length_pos)
  | cast enough type operand ih => exact .of_unary (readsUnary_cast hu type (ih.unary le_rfl))
  | @binary level op mark left right ls rs operator enough first second ihl ihr =>
    have hlevel := BinaryOp.conditionLevel_le op
    refine .of_binary ?_ enough (BinaryOp.precedence_lt op)
    exact readsBinary_binary operator (ihl.binary hlevel) (ihr.binary (hlevel.trans (Nat.le_succ _))) second.length_pos
  | conditional enough known first second ihc ihy ihn =>
    refine .of_constant ?_ enough
    exact readsConstant_conditional (ihc.binary le_rfl) ihy.constant ihn.constant second.length_pos

/-- The tokens of an expression are read to their end, and come to the value of the tree: a number, no known value, or a
fault. It is a fault exactly if the operation of some part is refused, whether or not the value of that part counts. -/
theorem constant_of_renders (hu : s.unit.WellFormed) (h : Renders s.unit 0 e ts) (hs : s.Passes ts s')
    (hs' : endsExpression s'.current.token) (hdepth : ts.length ≤ depth) :
    (match e.value s.unit with
      | .ok a => ∃ v, s.unit.Enriches v ∧ (Rules.upTo depth).constant s = .ok a { s' with unit := v }
      | .error cause => ∃ span t, (Rules.upTo depth).constant s = .error ⟨cause, span⟩ t) ∧
    ((∃ fault t, (Rules.upTo depth).constant s = .error fault t) ↔ ∃ p ∈ e.parts, p.Refused s.unit) := by
  have hpos := h.length_pos
  obtain ⟨depth, rfl⟩ : ∃ d, depth = d + 1 := ⟨depth - 1, by omega⟩
  have hcomes : Comes s.unit (Rules.upTo (depth + 1)).constant s s' (e.value s.unit) :=
    (h.readable hu).constant hdepth hs hs' (.refl _)
  have hrun : s.withUnit s.unit = s := rfl
  unfold Comes Reaches at hcomes
  rw [hrun] at hcomes
  rw [← Expression.value_error_iff]
  cases hr : (Rules.upTo (depth + 1)).constant s with
  | ok a t =>
    rw [hr] at hcomes
    obtain ⟨v, rfl, hv, hvalue⟩ := hcomes
    rw [hvalue]
    exact ⟨⟨v, hv, rfl⟩, by simp⟩
  | error fault t =>
    rw [hr] at hcomes
    dsimp only at hcomes
    rw [hcomes]
    exact ⟨⟨fault.span, t, rfl⟩, by simp⟩

/-- `(unsigned char)300 - 10 - 2 * (one + 3) ? -5 : x` in front of a semicolon: the condition is 26, so that the value
of `x` does not matter. -/
theorem constant_of_renders_conditional :
    let u : DeclUnit := { DeclUnit.empty "unit" .lp64 with ordinary := [("one", .constant 1 ⟨0⟩)] }
    let ts : List Token :=
      [.punct .lparen, .keyword .unsigned, .keyword .char, .punct .rparen, .literal .decimal "300", .punct .minus,
       .literal .decimal "10", .punct .minus, .literal .decimal "2", .punct .star, .punct .lparen, .name "one",
       .punct .plus, .literal .decimal "3", .punct .rparen, .punct .question, .punct .minus, .literal .decimal "5",
       .punct .colon, .name "x"]
    let behind := State.at 50 u [⟨.punct .semi, ⟨49, 50⟩⟩]
    ∃ v, u.Enriches v ∧
      (Rules.upTo 20).constant (.at 50 u (ts.map (⟨·, ⟨0, 49⟩⟩) ++ [⟨.punct .semi, ⟨49, 50⟩⟩])) =
        .ok (some (-5)) { behind with unit := v } := by
  intro u ts behind
  let number : Expression := .cast [.unsigned, .char] (.literal .decimal "300")
  let factor : Expression := .binary .add (.name "one") (.literal .decimal "3")
  let difference : Expression := .binary .subtract (.binary .subtract number (.literal .decimal "10"))
    (.binary .multiply (.literal .decimal "2") factor)
  let e : Expression := .conditional difference (.unary .negate (.literal .decimal "5")) (.name "x")
  have hu : u.WellFormed := (DeclUnit.empty_wellFormed "unit" .lp64).of_nodes_eq rfl
  have htype : SpellsType u.target [.unsigned, .char] := .builtin (by decide) (b := .uchar) (by decide) (by decide)
  have hplus : Punct.plus.binaryOp? = some .add := rfl
  have hminus : Punct.minus.binaryOp? = some .subtract := rfl
  have hstar : Punct.star.binaryOp? = some .multiply := rfl
  have hfactor : Renders u 14 factor [.punct .lparen, .name "one", .punct .plus, .literal .decimal "3",
      .punct .rparen] :=
    .parens (.binary hplus (by decide) (.name rfl) .literal)
  have hdifference : Renders u 4 difference (ts.take 15) :=
    .binary hminus (by decide) (.binary hminus le_rfl (.cast (by decide) htype .literal) .literal)
      (.binary hstar (by decide) .literal hfactor)
  have he : Renders u 0 e ts :=
    .conditional (by decide) hdifference (.unary (by decide) .literal) (.name rfl)
  have hplace : (State.at 50 u (ts.map (⟨·, ⟨0, 49⟩⟩) ++ [⟨.punct .semi, ⟨49, 50⟩⟩])).Passes ts behind :=
    State.passes_at (ts.map (⟨·, ⟨0, 49⟩⟩)) (by decide)
  have hvalue : e.value u = .ok (some (-5)) := by decide +kernel
  obtain ⟨v, hv, hrun⟩ : ∃ v, u.Enriches v ∧ _ := hvalue ▸ (constant_of_renders hu he hplace ⟨rfl, by decide⟩ le_rfl).1
  exact ⟨v, hv, hrun⟩

end Cognate.Grammar
