import Cognate.Proofs.Spelling.Declarators
import Cognate.Proofs.Token.Numerals

/-!
# Reading arrays and parameters back

The suffixes of declarators: bounds of arrays, as they are spelled, and parameters. Whether a parenthesis opens
parameters is decided by the token behind it.
-/

namespace Cognate.Grammar

variable {u : DeclUnit} {ts rest : List Token} {t : Token} {rules : Rules}

/-! ## Bounds -/

/-- A number in front of a closing bracket is a whole constant expression. -/
theorem reads_constant {n : Nat} (hn : n < literalLimit) :
    Reads u (constant rules) [.literal .decimal (toString n)] (.punct .rbracket :: rest) (· = some (n : Int)) := by
  have hprimary : Reads u (primary rules) [.literal .decimal (toString n)] (.punct .rbracket :: rest)
      (· = some (n : Int)) := by
    refine reads_advance_bind ?_
    intro l hl
    simp only [hl, integerValue?_toString hn]
    exact .pure rfl
  have hparenthesized : Reads u atParenthesizedType [] ([.literal .decimal (toString n)] ++ .punct .rbracket :: rest)
      (· = false) := by
    refine (reads_check _).bind_end ?_
    intro b hb
    subst hb
    exact .pure rfl
  have hunary : Reads u (unary rules) [.literal .decimal (toString n)] (.punct .rbracket :: rest)
      (· = some (n : Int)) := by
    refine reads_here.bind fun start _ => hparenthesized.bind fun b hb => ?_
    subst hb
    refine reads_current.bind ?_
    intro l hl
    simp only [hl, List.singleton_append, front_cons]
    exact hprimary
  have hbinary : Reads u (binary rules 0) [.literal .decimal (toString n)] (.punct .rbracket :: rest)
      (· = some (n : Int)) := by
    refine hunary.bind_end fun first hfirst => reads_loop_done (reads_current.bind_end fun l hl => ?_)
    simp only [hl, front_cons]
    exact .pure ⟨_, rfl, hfirst⟩
  refine hbinary.bind_end ?_
  intro condition hcondition
  refine (reads_accept_not (by simp)).bind_end ?_
  intro b hb
  subst hb
  exact .pure hcondition

/-- No words stand in front of the bound. -/
theorem reads_boundWords (h : isBoundWord (front rest) = false) :
    Reads u (loop () fun () => do
      if isBoundWord (← current).token then
        let _ ← advance
        return .again ()
      else return .done () : Parse Unit) [] rest fun _ => True := by
  refine reads_loop_done (reads_current.bind_end fun l hl => ?_)
  rw [if_neg (by rw [hl, h]; exact Bool.false_ne_true)]
  exact .pure ⟨(), rfl, trivial⟩

def boundTokens : ArrayBound → List Token
  | .constant size => [.punct .lbracket, .literal .decimal (toString size), .punct .rbracket]
  | .incomplete => [.punct .lbracket, .punct .rbracket]
  | .variable => [.punct .lbracket, .punct .star, .punct .rbracket]

theorem reads_arrayBound {bound : ArrayBound} (hbound : ∀ size, bound = .constant size → size < wordLimit) {depth : Nat}
    (hdepth : 0 < depth) : Reads u (arrayBound (Rules.upTo depth)) (boundTokens bound) rest (· = bound) := by
  obtain ⟨depth, rfl⟩ : ∃ m, depth = m + 1 := ⟨depth - 1, by omega⟩
  cases bound with
  | constant size =>
    have hsize := hbound size rfl
    refine reads_expect_bind fun _ => (reads_boundWords rfl).look fun _ _ => ?_
    refine (reads_accept_not (by simp)).bind ?_
    intro b hb
    subst hb
    refine (reads_check _).bind ?_
    intro b hb
    subst hb
    refine reads_here.bind fun span _ => ?_
    have hconstant : Reads u (Rules.upTo (depth + 1)).constant [.literal .decimal (toString size)]
        ([.punct .rbracket] ++ rest) (· = some (size : Int)) := by
      have hlimit : wordLimit < literalLimit := by decide
      exact reads_constant (hsize.trans hlimit)
    refine hconstant.bind ?_
    intro r hr
    subst hr
    dsimp only
    rw [if_pos ⟨by omega, by omega⟩]
    refine Reads.look (Q := (· = ArrayBound.constant size)) (.pure rfl) ?_
    intro r hr
    exact reads_expect.bind_end fun _ _ => .pure hr
  | incomplete =>
    refine reads_expect_bind fun _ => (reads_boundWords rfl).look fun _ _ => ?_
    refine reads_accept.bind_end ?_
    intro b hb
    subst hb
    exact .pure rfl
  | «variable» =>
    refine reads_expect_bind fun _ => (reads_boundWords rfl).look fun _ _ => ?_
    refine (reads_accept_not (by simp)).bind ?_
    intro b hb
    subst hb
    refine (reads_check _).bind ?_
    intro b hb
    subst hb
    refine Reads.look (reads_peek (.punct .star) _) ?_
    intro next hnext
    subst hnext
    exact reads_advance_bind fun _ _ => reads_advance_bind fun _ _ => .pure rfl

theorem readsSuffix_array {bound : ArrayBound} (hbound : ∀ size, bound = .constant size → size < wordLimit) :
    ReadsSuffix u (boundTokens bound) (.array bound) := by
  refine ⟨.inl ?_, fun depth hdepth rest => ?_⟩
  · cases bound <;> exact ⟨_, rfl⟩
  · have hlength : 0 < (boundTokens bound).length := by cases bound <;> exact Nat.succ_pos _
    have hfront : front (boundTokens bound ++ rest) = .punct .lbracket := by cases bound <;> rfl
    refine (reads_check _).look ?_
    intro b hb
    rw [hb, hfront, if_pos (by simp)]
    exact (reads_arrayBound hbound (by omega)).bind_pure fun r hr => by rw [hr]

/-! ## Types -/

/-- Starts a type, and no attribute in front of it. -/
def startsPlainType (u : DeclUnit) (t : Token) : Bool := startsType u t && t != .keyword .attributes

/-- The tokens of a type without a name, which stands alone or as a parameter. -/
structure ReadsType (u : DeclUnit) (ts : List Token) (x : Ty) : Prop where
  start : startsPlainType u (front ts) = true
  /-- Only the word alone is read as `void`, and not every type may follow it in parentheses. -/
  void : ∀ ts', ts = .keyword .void :: ts' →
    front ts' ≠ .punct .rparen ∧ (ts' = [] → u.shape? x = some (.builtin .void))
  typeName : ∀ depth, ts.length < depth → ∀ rest, endsType (front rest) = true →
    Reads u (Rules.upTo depth).typeName ts rest (· = x)
  parameter : u.IsObject x → ∀ depth, ts.length < depth → ∀ rest, endsType (front rest) = true →
    Reads u (parameter (Rules.upTo depth)) ts rest (· = x)

theorem startsNested_of_startsPlainType (h : startsPlainType u t = true) : startsNested u t = false := by
  simp only [startsPlainType, Bool.and_eq_true, bne_iff_ne] at h
  obtain ⟨h, hne⟩ := h
  cases t with
  | keyword k =>
    cases k <;> first | rfl | exact absurd rfl hne
  | name text =>
    rw [startsNested, ← Option.not_isSome, show (u.typedef? text).isSome = true from h]
    rfl
  | punct p => cases h
  | literal c text => cases h
  | finish => cases h

theorem ReadsType.eq_cons {x : Ty} (h : ReadsType u ts x) : ∃ t ts', ts = t :: ts' ∧ startsPlainType u t = true := by
  cases ts with
  | nil => cases h.start
  | cons t ts' => exact ⟨t, ts', rfl, h.start⟩

/-! ## Parameters -/

/-- Types of parameters, each with its tokens, and dots behind them. -/
structure Parameters where
  items : List (List Token × Ty)
  variadic : Bool

namespace Parameters

def pieces (ps : Parameters) : List (List Token) :=
  ps.items.map Prod.fst ++ if ps.variadic then [[.punct .ellipsis]] else []

/-- A comma stands between two pieces. -/
def tokens (ps : Parameters) : List Token := [.punct .comma].intercalate ps.pieces

def types (ps : Parameters) : List Ty := ps.items.map Prod.snd

/-- Objects only, and not nothing. -/
structure Readable (u : DeclUnit) (ps : Parameters) : Prop where
  items : ∀ x ∈ ps.items, ReadsType u x.1 x.2 ∧ u.IsObject x.2
  pieces : ps.pieces ≠ []

theorem pieces_eq_nil {xs : List (List Token × Ty)} {variadic : Bool} :
    (Parameters.mk xs variadic).pieces = [] ↔ xs = [] ∧ variadic = false := by
  cases xs <;> cases variadic <;> simp [pieces]

theorem tokens_cons {x : List Token × Ty} {xs : List (List Token × Ty)} {variadic : Bool}
    (h : (Parameters.mk xs variadic).pieces ≠ []) :
    (Parameters.mk (x :: xs) variadic).tokens =
      x.1 ++ .punct .comma :: (Parameters.mk xs variadic).tokens := by
  have hpieces : (Parameters.mk (x :: xs) variadic).pieces = x.1 :: (Parameters.mk xs variadic).pieces := rfl
  rw [tokens, tokens, hpieces, List.intercalate_cons_of_ne_nil h, List.append_assoc, List.singleton_append]

theorem tokens_last {x : List Token × Ty} : (Parameters.mk [x] false).tokens = x.1 := List.intercalate_singleton

end Parameters

/-- One round of a prototype. -/
def prototypeRound (rules : Rules) (before : List Ty) : Parse (Round (List Ty) Derivation) := do
  if ← accept (.punct .ellipsis) then return .done (.function before true)
  else
    let params := before ++ [← parameter rules]
    if ← accept (.punct .comma) then return .again params
    else return .done (.function params false)

theorem prototype_eq (rules : Rules) : prototype rules = loop [] (prototypeRound rules) := rfl

/-- One parameter and what follows it. -/
theorem reads_prototypeRound {x : Ty} {depth : Nat} (hx : ReadsType u ts x) (ho : u.IsObject x)
    (hdepth : ts.length < depth) (before : List Ty) (rest : List Token) :
    Reads u (prototypeRound (Rules.upTo depth) before) (ts ++ [.punct .comma]) rest (· = .again (before ++ [x])) ∧
      Reads u (prototypeRound (Rules.upTo depth) before) ts (.punct .rparen :: rest)
        (· = .done (.function (before ++ [x]) false)) := by
  obtain ⟨t, ts', hts, ht⟩ := hx.eq_cons
  have hellipsis : ∀ rest : List Token, front (ts ++ rest) ≠ .punct .ellipsis := by
    rintro rest he
    rw [hts, List.cons_append, front_cons] at he
    rw [he] at ht
    cases ht
  constructor
  · rw [prototypeRound]
    refine (reads_accept_not (by simpa using hellipsis _)).look ?_
    intro b hb
    subst hb
    refine Reads.bind (hx.parameter ho depth hdepth _ rfl) ?_
    intro y hy
    subst hy
    refine reads_accept.bind_end ?_
    intro b hb
    subst hb
    exact .pure rfl
  · rw [prototypeRound]
    refine (reads_accept_not (hellipsis _)).look ?_
    intro b hb
    subst hb
    refine (hx.parameter ho depth hdepth _ rfl).bind_end ?_
    intro y hy
    subst hy
    refine (reads_accept_not (by simp)).bind_end ?_
    intro b hb
    subst hb
    exact .pure rfl

/-- By induction on the parameters; the ones that were read before are kept. -/
theorem reads_prototypeFor {depth : Nat} {xs : List (List Token × Ty)} {variadic : Bool}
    (h : (Parameters.mk xs variadic).Readable u) (hdepth : (Parameters.mk xs variadic).tokens.length < depth)
    (before : List Ty) (n : Nat) (hn : (Parameters.mk xs variadic).tokens.length < n) :
    Reads u (loopFor (prototypeRound (Rules.upTo depth)) n before) (Parameters.mk xs variadic).tokens
      (.punct .rparen :: rest) (· = .function (before ++ xs.map Prod.snd) variadic) := by
  induction xs generalizing before n with
  | nil =>
    obtain ⟨n, rfl⟩ : ∃ m, n = m + 1 := ⟨n - 1, by omega⟩
    cases variadic with
    | false => exact absurd rfl h.pieces
    | true =>
      refine reads_done (reads_accept.bind_end fun b hb => ?_)
      subst hb
      exact .pure ⟨_, rfl, by simp⟩
  | cons x xs ih =>
    obtain ⟨n, rfl⟩ : ∃ m, n = m + 1 := ⟨n - 1, by omega⟩
    obtain ⟨hx, ho⟩ := h.items x (by simp)
    by_cases hlast : (Parameters.mk xs variadic).pieces = []
    · obtain ⟨rfl, rfl⟩ := Parameters.pieces_eq_nil.1 hlast
      rw [Parameters.tokens_last] at hdepth ⊢
      refine reads_done (((reads_prototypeRound hx ho hdepth before rest).2).weaken fun r hr => ?_)
      exact ⟨_, hr, rfl⟩
    -- A comma and more behind it.
    · rw [Parameters.tokens_cons hlast] at hdepth hn ⊢
      simp only [List.length_append, List.length_cons] at hdepth hn
      have hround := (reads_prototypeRound hx ho (Nat.lt_of_le_of_lt (Nat.le_add_right _ _) hdepth) before
        ((Parameters.mk xs variadic).tokens ++ .punct .rparen :: rest)).1
      rw [List.append_cons]
      refine reads_again (P := (· = before ++ [x.2])) (hround.weaken fun r hr => ⟨_, hr, rfl⟩) fun y hy => ?_
      subst hy
      have hrest : (Parameters.mk xs variadic).Readable u := ⟨fun y hy => h.items y (by simp [hy]), hlast⟩
      refine (ih hrest (by omega) (before ++ [x.2]) n (by omega)).weaken ?_
      intro r hr
      rw [hr, List.map_cons, List.append_assoc, List.singleton_append]

theorem reads_prototype {depth : Nat} {ps : Parameters} (h : ps.Readable u) (hdepth : ps.tokens.length < depth)
    (rest : List Token) :
    Reads u (prototype (Rules.upTo depth)) ps.tokens (.punct .rparen :: rest) (· = .function ps.types ps.variadic) := by
  rw [prototype_eq]
  exact reads_loop fun n hn => reads_prototypeFor h hdepth [] n hn

/-- The first parameter, or the dots. -/
theorem Parameters.Readable.front_tokens {ps : Parameters} (h : ps.Readable u) :
    startsPlainType u (front ps.tokens) = true ∨ front ps.tokens = .punct .ellipsis := by
  obtain ⟨items, variadic⟩ := ps
  cases items with
  | nil =>
    cases variadic with
    | false => exact absurd rfl h.pieces
    | true => exact .inr rfl
  | cons x xs =>
    obtain ⟨t, ts', hts, ht⟩ := (h.items x (by simp)).1.eq_cons
    left
    by_cases hlast : (Parameters.mk xs variadic).pieces = []
    · obtain ⟨rfl, rfl⟩ := Parameters.pieces_eq_nil.1 hlast
      rwa [tokens_last, hts, front_cons]
    · rwa [tokens_cons hlast, hts, List.cons_append, front_cons]

/-- The word `void` in front, and what stands behind it. -/
theorem Parameters.Readable.void {ps : Parameters} (h : ps.Readable u)
    (hvoid : ∀ x, ps = ⟨[x], false⟩ → u.shape? x.2 ≠ some (.builtin .void)) (ts rest : List Token)
    (hts : ps.tokens = .keyword .void :: ts) :
    front (ts ++ .punct .rparen :: rest) ≠ .punct .rparen := by
  obtain ⟨items, variadic⟩ := ps
  cases items with
  | nil =>
    cases variadic with
    | false => exact absurd rfl h.pieces
    | true => cases hts
  | cons x xs =>
    have hx := (h.items x (by simp)).1
    obtain ⟨t, ts', hxs, -⟩ := hx.eq_cons
    by_cases hlast : (Parameters.mk xs variadic).pieces = []
    · obtain ⟨rfl, rfl⟩ := pieces_eq_nil.1 hlast
      rw [tokens_last] at hts
      obtain ⟨hfront, hempty⟩ := hx.void ts hts
      cases ts with
      | nil => exact absurd (hempty rfl) (hvoid x rfl)
      | cons t' ts => exact hfront
    · rw [tokens_cons hlast, hxs] at hts
      obtain ⟨rfl, rfl⟩ := List.cons.inj hts
      cases ts' with
      | nil => simp
      | cons t' ts' => exact (hx.void (t' :: ts') hxs).1

theorem reads_parameters {depth : Nat} {ps : Parameters} (h : ps.Readable u) (hdepth : ps.tokens.length < depth)
    (hvoid : ∀ x, ps = ⟨[x], false⟩ → u.shape? x.2 ≠ some (.builtin .void)) :
    Reads u (parameters (Rules.upTo depth)) ps.tokens (.punct .rparen :: rest)
      (· = .function ps.types ps.variadic) := by
  have hprototype := reads_prototype h hdepth rest
  have hfront := h.front_tokens
  have hbehind := fun ts => h.void hvoid ts rest
  cases hts : ps.tokens with
  | nil =>
    rw [hts] at hfront
    rcases hfront with hfront | hfront <;> cases hfront
  | cons t ts =>
    rw [hts, front_cons] at hfront
    rw [hts] at hprototype
    refine reads_current.look ?_
    intro l hl
    rw [List.cons_append, front_cons] at hl
    have hclosing : l.token ≠ .punct .rparen := by
      rw [hl]
      rintro rfl
      rcases hfront with hfront | hfront <;> cases hfront
    simp only [beq_iff_eq, if_neg hclosing]
    split
    -- Behind `void` stands more, or it would be read as no parameters at all.
    · next hkeyword =>
      obtain rfl := hl.symm.trans hkeyword
      refine Reads.look (reads_peek (.keyword .void) (ts ++ .punct .rparen :: rest)) ?_
      intro next hnext
      rw [hnext, if_neg (hbehind ts hts)]
      exact hprototype
    · split
      -- A name is that of a typedef, and starts no list of names.
      · next text hname =>
        obtain rfl := hl.symm.trans hname
        have htype : startsType u (.name text) = true := by
          rcases hfront with hfront | hfront
          · simp only [startsPlainType, Bool.and_eq_true] at hfront
            exact hfront.1
          · cases hfront
        refine reads_atType.look ?_
        intro b hb
        rw [hb, List.cons_append, front_cons, if_pos htype]
        exact hprototype
      · exact hprototype

/-! ## Functions -/

/-- Parentheses around what is read as parameters. -/
theorem readsSuffix_of_parameters (ts : List Token) {d : Derivation}
    (hstart : startsNested u (front (ts ++ [.punct .rparen])) = false)
    (h : ∀ depth, ts.length < depth → ∀ rest,
      Reads u (parameters (Rules.upTo depth)) ts (.punct .rparen :: rest) (· = d)) :
    ReadsSuffix u (.punct .lparen :: (ts ++ [.punct .rparen])) d := by
  refine ⟨.inr ?_, fun depth hdepth rest => ?_⟩
  · cases ts with
    | nil => exact ⟨_, [], rfl, hstart⟩
    | cons t ts => exact ⟨t, _, rfl, hstart⟩
  · refine (reads_check _).look ?_
    intro b hb
    subst hb
    refine reads_accept_bind ?_
    simp only [List.length_cons, List.length_append] at hdepth
    refine Reads.bind (h depth (by omega) rest) ?_
    intro r hr
    exact reads_expect.bind_end fun _ _ => .pure (by rw [hr])

theorem readsSuffix_function {ps : Parameters} (h : ps.Readable u)
    (hvoid : ∀ x, ps = ⟨[x], false⟩ → u.shape? x.2 ≠ some (.builtin .void)) :
    ReadsSuffix u (.punct .lparen :: (ps.tokens ++ [.punct .rparen])) (.function ps.types ps.variadic) := by
  refine readsSuffix_of_parameters _ ?_ fun depth hdepth rest => reads_parameters h hdepth hvoid
  have hfront := h.front_tokens
  cases hts : ps.tokens with
  | nil =>
    rw [hts] at hfront
    rcases hfront with hfront | hfront <;> cases hfront
  | cons t ts =>
    rw [hts, front_cons] at hfront
    rcases hfront with hfront | rfl
    · exact startsNested_of_startsPlainType hfront
    · rfl

theorem readsSuffix_void : ReadsSuffix u [.punct .lparen, .keyword .void, .punct .rparen] (.function [] false) := by
  refine readsSuffix_of_parameters [.keyword .void] rfl fun depth _ rest => ?_
  refine reads_current.look ?_
  intro l hl
  rw [List.singleton_append, front_cons] at hl
  simp only [hl]
  refine Reads.look (reads_peek (.keyword .void) (.punct .rparen :: rest)) ?_
  intro next hnext
  subst hnext
  exact reads_advance_bind fun _ _ => .pure rfl

theorem readsSuffix_noPrototype : ReadsSuffix u [.punct .lparen, .punct .rparen] .noPrototype := by
  refine readsSuffix_of_parameters [] rfl fun depth _ rest => ?_
  refine reads_current.look ?_
  intro l hl
  rw [List.nil_append, front_cons] at hl
  simp only [hl]
  exact .pure rfl

end Cognate.Grammar
