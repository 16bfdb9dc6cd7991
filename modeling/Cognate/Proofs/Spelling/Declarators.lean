import Cognate.Grammar.Declaration
import Cognate.Proofs.Grammar.Reads

/-!
# Reading declarators back

A declarator without a name as its tokens: pointers, another declarator in parentheses or nothing, and suffixes. It is
read as the steps of its parts, pointers first, then the suffixes from the last to the first, then the inner steps.
-/

namespace Cognate.Grammar

variable {u : DeclUnit} {ts rest : List Token} {t : Token}

/-! ## Qualifiers -/

/-- The keywords of a set of qualifiers, in the order in which they are spelled. -/
def qualifierWords (q : Qualifiers) : List Keyword :=
  (if q.isConst then [.const] else []) ++ (if q.isVolatile then [.volatile] else []) ++
    if q.isRestrict then [.restrict] else []

/-- A set of qualifiers and one more. -/
def addQualifier (q : Qualifiers) : Keyword → Qualifiers
  | .const => { q with isConst := true }
  | .volatile => { q with isVolatile := true }
  | .restrict => { q with isRestrict := true }
  | _ => q

def qualifierTokens (q : Qualifiers) : List Token := (qualifierWords q).flatMap fun k => [.keyword k]

theorem mem_qualifierWords {q : Qualifiers} {k : Keyword} (h : k ∈ qualifierWords q) :
    k = .const ∨ k = .volatile ∨ k = .restrict := by
  revert h
  rcases q with ⟨_ | _, _ | _, _ | _⟩ <;> cases k <;> decide

theorem foldl_addQualifier (q : Qualifiers) : (qualifierWords q).foldl addQualifier Qualifiers.none = q := by
  rcases q with ⟨_ | _, _ | _, _ | _⟩ <;> rfl

theorem reads_qualifiers (q : Qualifiers) (h : ∀ k, front rest ≠ .keyword k) :
    Reads u qualifiers (qualifierTokens q) rest (· = q) := by
  unfold qualifiers
  refine reads_loop_items _ addQualifier (by simp) (fun p k after hk => ?_) ?_
  · refine reads_current.bind ?_
    intro l hl
    rcases mem_qualifierWords (hk.subset (List.mem_cons_self (a := k))) with rfl | rfl | rfl <;>
      simp only [hl, List.singleton_append, front_cons] <;>
      exact reads_advance_bind fun _ _ => .pure rfl
  · refine reads_current.bind ?_
    intro l hl
    rw [foldl_addQualifier]
    split
    · next hk => exact absurd (hl.symm.trans hk) (h _)
    · next hk => exact absurd (hl.symm.trans hk) (h _)
    · next hk => exact absurd (hl.symm.trans hk) (h _)
    · exact .pure ⟨q, rfl, rfl⟩

/-! ## Pointers -/

/-- A step that is written in front of a name, but for pointers to members. -/
def Derivation.isPointer : Derivation → Bool
  | pointer _ | blockPointer _ | lvalueRef | rvalueRef => true
  | _ => false

def pointerTokens : Derivation → List Token
  | .pointer q => .punct .star :: qualifierTokens q
  | .blockPointer q => .punct .caret :: qualifierTokens q
  | .lvalueRef => [.punct .amp]
  | .rvalueRef => [.punct .andAnd]
  | _ => []

/-- A mark that a pointer starts with. -/
def startsPointer : Token → Bool
  | .punct .star | .punct .caret | .punct .amp | .punct .andAnd => true
  | _ => false

theorem pointerTokens_cons {d : Derivation} (h : d.isPointer = true) :
    ∃ t ts, pointerTokens d = t :: ts ∧ startsPointer t = true := by
  cases d <;> simp_all [Derivation.isPointer, pointerTokens, startsPointer]

theorem reads_atMemberPointer_not (h : ∀ text, front rest ≠ .name text) :
    Reads u atMemberPointer [] rest (· = false) := by
  unfold atMemberPointer
  refine reads_current.bind ?_
  intro l hl
  split
  · next text htext => exact absurd (hl.symm.trans htext) (h text)
  · exact .pure rfl

theorem reads_pointer? {d : Derivation} (hd : d.isPointer = true) (h : ∀ k, front rest ≠ .keyword k) :
    Reads u pointer? (pointerTokens d) rest (· = some d) := by
  have hmember : Reads u atMemberPointer [] (pointerTokens d ++ rest) (· = false) := by
    obtain ⟨t, ts, hts, ht⟩ := pointerTokens_cons hd
    refine reads_atMemberPointer_not ?_
    intro text htext
    rw [hts, List.cons_append, front_cons] at htext
    rw [htext] at ht
    cases ht
  refine hmember.bind ?_
  intro b hb
  subst hb
  refine reads_current.bind ?_
  intro l hl
  cases d with
  | pointer q =>
    simp only [hl, List.cons_append, front_cons]
    refine reads_advance_bind fun _ _ => ?_
    exact (reads_qualifiers q h).bind_pure fun _ hq => by rw [hq]
  | blockPointer q =>
    simp only [hl, List.cons_append, front_cons]
    refine reads_advance_bind fun _ _ => ?_
    exact (reads_qualifiers q h).bind_pure fun _ hq => by rw [hq]
  | lvalueRef =>
    simp only [hl, List.cons_append, front_cons]
    exact reads_advance_bind fun _ _ => .pure rfl
  | rvalueRef =>
    simp only [hl, List.cons_append, front_cons]
    exact reads_advance_bind fun _ _ => .pure rfl
  | _ => cases hd

/-- Ends pointers: neither one more, nor a name. -/
def endsPointers : Token → Bool
  | .punct .lparen | .punct .lbracket | .punct .rparen | .punct .comma | .finish => true
  | _ => false

theorem reads_pointer?_none (h : endsPointers (front rest) = true) : Reads u pointer? [] rest (· = none) := by
  unfold pointer?
  refine Reads.bind (reads_atMemberPointer_not fun text htext => ?_) fun b hb => ?_
  · rw [List.nil_append] at htext
    rw [htext] at h
    cases h
  · subst hb
    refine reads_current.bind ?_
    intro l hl
    rw [List.nil_append] at hl
    rw [← hl] at h
    split
    · next hm => rw [hm] at h; cases h
    · next hm => rw [hm] at h; cases h
    · next hm => rw [hm] at h; cases h
    · next hm => rw [hm] at h; cases h
    · exact .pure rfl

theorem front_ne_keyword_of_startsPointer (h : startsPointer t = true) (k : Keyword) : t ≠ .keyword k := by
  rintro rfl
  cases h

theorem front_ne_keyword_of_endsPointers (h : endsPointers t = true) (k : Keyword) : t ≠ .keyword k := by
  rintro rfl
  cases h

theorem foldl_append_singleton {α : Type} (xs ys : List α) : ys.foldl (fun xs y => xs ++ [y]) xs = xs ++ ys := by
  induction ys generalizing xs with
  | nil => simp
  | cons y ys ih => rw [List.foldl_cons, ih, List.append_assoc, List.singleton_append]

theorem reads_pointers {ds : List Derivation} (hds : ∀ d ∈ ds, d.isPointer = true)
    (h : endsPointers (front rest) = true) : Reads u pointers (ds.flatMap pointerTokens) rest (· = ds) := by
  unfold pointers
  refine reads_loop_items pointerTokens (fun before d => before ++ [d]) (fun d hd => ?_)
    (fun before d after hsuffix => ?_) ?_
  · obtain ⟨t, ts, hts, -⟩ := pointerTokens_cons (hds d hd)
    simp [hts]
  -- Another pointer or the end stands behind the qualifiers of one, and neither is read as one more of them.
  · have hkeyword : ∀ k, front (after.flatMap pointerTokens ++ rest) ≠ .keyword k := by
      cases after with
      | nil => exact front_ne_keyword_of_endsPointers h
      | cons e after =>
        obtain ⟨t, ts, hts, ht⟩ := pointerTokens_cons (hds e (hsuffix.subset (by simp)))
        rw [List.flatMap_cons, hts]
        exact front_ne_keyword_of_startsPointer ht
    refine (reads_pointer? (hds d (hsuffix.subset (by simp))) hkeyword).bind_end ?_
    intro r hr
    subst hr
    exact .pure rfl
  · refine (reads_pointer?_none h).bind_end fun r hr => ?_
    subst hr
    exact .pure ⟨ds, by rw [foldl_append_singleton, List.nil_append], rfl⟩

/-! ## Suffixes -/

/-- Behind an opening parenthesis: the start of a declarator, not of parameters. -/
def startsNested (u : DeclUnit) : Token → Bool
  | .punct .star | .punct .caret | .punct .amp | .punct .andAnd | .keyword .attributes => true
  | .name text => (u.typedef? text).isNone
  | _ => false

theorem startsNested_of_startsPointer (h : startsPointer t = true) : startsNested u t = true := by
  unfold startsPointer at h
  split at h
  · rfl
  · rfl
  · rfl
  · rfl
  · cases h

theorem reads_atNested : Reads u atNested [] (.punct .lparen :: rest) (· = startsNested u (front rest)) := by
  unfold atNested
  refine (reads_check _).bind_end ?_
  intro b hb
  rw [hb, front_cons, if_pos (by simp)]
  refine (reads_peek _ _).bind_end ?_
  intro next hnext
  subst hnext
  cases front rest with
  | keyword k => cases k <;> exact .pure rfl
  | punct p => cases p <;> exact .pure rfl
  | name text => exact reads_unit.bind_pure fun w hw => by rw [hw]; rfl
  | literal c text => exact .pure rfl
  | finish => exact .pure rfl

theorem reads_atNested_not (h : front rest ≠ .punct .lparen) : Reads u atNested [] rest (· = false) := by
  unfold atNested
  refine (reads_check _).bind_end ?_
  intro b hb
  rw [hb, if_neg (by simpa using h)]
  exact .pure rfl

/-- The tokens of a suffix, which is read as one step. -/
structure ReadsSuffix (u : DeclUnit) (ts : List Token) (d : Derivation) : Prop where
  start : (∃ ts', ts = .punct .lbracket :: ts') ∨ ∃ t ts', ts = .punct .lparen :: t :: ts' ∧ startsNested u t = false
  reads : ∀ depth, ts.length ≤ depth → ∀ rest, Reads u (suffix? (Rules.upTo depth)) ts rest (· = some d)

/-- Ends the name of a type. -/
def endsType : Token → Bool
  | .punct .rparen | .punct .comma | .finish => true
  | _ => false

theorem endsPointers_of_endsType (h : endsType t = true) : endsPointers t = true := by
  unfold endsType at h
  split at h
  · rfl
  · rfl
  · rfl
  · cases h

theorem reads_suffixes (depth : Nat) {xs : List (List Token × Derivation)} (hxs : ∀ x ∈ xs, ReadsSuffix u x.1 x.2)
    (hdepth : (xs.flatMap Prod.fst).length ≤ depth) (h : endsType (front rest) = true) :
    Reads u (suffixes (Rules.upTo depth)) (xs.flatMap Prod.fst) rest (· = (xs.map Prod.snd).reverse) := by
  have hfold : ∀ (xs : List (List Token × Derivation)) (ds : List Derivation),
      xs.foldl (fun before x => x.2 :: before) ds = (xs.map Prod.snd).reverse ++ ds := by
    intro xs
    induction xs with
    | nil => intro ds; rfl
    | cons x xs ih => intro ds; simp [ih]
  refine reads_loop_items Prod.fst (fun before x => x.2 :: before) (fun x hx => ?_)
    (fun before x after hsuffix => ?_) ?_
  · rcases (hxs x hx).start with ⟨ts', hts⟩ | ⟨t, ts', hts, -⟩ <;> simp [hts]
  · have hmem : x ∈ xs := hsuffix.subset (by simp)
    have hlength : x.1.length ≤ depth := by
      obtain ⟨before, after, rfl⟩ := List.append_of_mem hmem
      simp only [List.flatMap_append, List.flatMap_cons, List.length_append] at hdepth
      omega
    refine ((hxs x hmem).reads depth hlength _).bind_end ?_
    intro r hr
    subst hr
    exact .pure rfl
  · have hlbracket : front rest ≠ .punct .lbracket := by rintro he; rw [he] at h; cases h
    have hlparen : front rest ≠ .punct .lparen := by rintro he; rw [he] at h; cases h
    have hnone : Reads u (suffix? (Rules.upTo depth)) [] rest (· = none) := by
      refine (reads_check _).bind_end ?_
      intro b hb
      rw [hb, if_neg (by simpa using hlbracket)]
      refine (reads_accept_not hlparen).bind_end ?_
      intro b hb
      subst hb
      exact .pure rfl
    refine hnone.bind_end ?_
    intro r hr
    subst hr
    exact .pure ⟨_, rfl, by rw [hfold, List.append_nil]⟩

/-! ## Whole declarators -/

/-- The tokens of a declarator without a name, which is read as certain steps. -/
def ReadsDeclarator (u : DeclUnit) (ts : List Token) (ds : List Derivation) : Prop :=
  ∀ depth, ts.length ≤ depth → ∀ naming, naming ≠ .named → ∀ rest, endsType (front rest) = true →
    Reads u (declarator (Rules.upTo depth) naming) ts rest fun d => d.name = none ∧ d.derivations = ds

/-- The parts of a declarator without a name: pointers, the tokens and steps of another declarator in parentheses, and
suffixes. -/
structure Outline where
  pointers : List Derivation := []
  inner : Option (List Token × List Derivation) := none
  suffixes : List (List Token × Derivation) := []

namespace Outline

/-- What stands between pointers and suffixes. -/
def innerTokens (o : Outline) : List Token :=
  match o.inner with
  | some (ts, _) => .punct .lparen :: (ts ++ [.punct .rparen])
  | none => []

def tokens (o : Outline) : List Token :=
  o.pointers.flatMap pointerTokens ++ (o.innerTokens ++ o.suffixes.flatMap Prod.fst)

/-- The steps, the first one first. -/
def steps (o : Outline) : List Derivation :=
  o.pointers ++ (o.suffixes.map Prod.snd).reverse ++ ((o.inner.map Prod.snd).getD [])

/-- All parts can be read. -/
structure Readable (u : DeclUnit) (o : Outline) : Prop where
  pointers : ∀ d ∈ o.pointers, d.isPointer = true
  inner : ∀ ts ds, o.inner = some (ts, ds) →
    ReadsDeclarator u ts ds ∧ ∃ t ts', ts = t :: ts' ∧ startsPointer t = true
  suffixes : ∀ x ∈ o.suffixes, ReadsSuffix u x.1 x.2

end Outline

theorem reads_core_nested {depth : Nat} {naming : Naming} {ds : List Derivation} (hnaming : naming ≠ .named)
    (hinner : ReadsDeclarator u ts ds) (hstart : ∃ t ts', ts = t :: ts' ∧ startsPointer t = true)
    (hdepth : ts.length < depth) :
    Reads u (core (Rules.upTo depth) naming) (.punct .lparen :: (ts ++ [.punct .rparen])) rest
      fun c => ∃ d, c = .nested d ∧ d.name = none ∧ d.derivations = ds := by
  have hat : Reads u atNested [] (.punct .lparen :: (ts ++ [.punct .rparen]) ++ rest) (· = true) := by
    obtain ⟨t, ts', rfl, ht⟩ := hstart
    exact reads_atNested.weaken fun b hb => hb.trans (startsNested_of_startsPointer ht)
  refine hat.bind ?_
  intro b hb
  subst hb
  refine reads_advance_bind fun _ _ => ?_
  -- The inner declarator is read by the rules one level further down.
  obtain ⟨depth, rfl⟩ : ∃ m, depth = m + 1 := ⟨depth - 1, by omega⟩
  refine Reads.bind (hinner depth (by omega) naming hnaming _ rfl) ?_
  intro d hd
  exact reads_expect.bind_end fun _ _ => .pure ⟨d, rfl, hd⟩

/-- No middle: what stands here starts a suffix, or ends the type. -/
theorem reads_core_absent {rules : Rules} {naming : Naming} (hname : ∀ text, front rest ≠ .name text)
    (hnested : ∀ ts, rest = .punct .lparen :: ts → startsNested u (front ts) = false) :
    Reads u (core rules naming) [] rest (· = .absent) := by
  have hat : Reads u atNested [] rest (· = false) := by
    cases rest with
    | nil => exact reads_atNested_not (by simp)
    | cons t ts =>
      by_cases ht : t = .punct .lparen
      · subst ht
        exact reads_atNested.weaken fun b hb => hb.trans (hnested ts rfl)
      · exact reads_atNested_not (by simpa using ht)
  refine hat.bind_end ?_
  intro b hb
  subst hb
  simp only [Bool.false_eq_true, if_false]
  split
  · exact .pure rfl
  · refine (reads_name?_none hname).bind_end fun r hr => ?_
    subst hr
    exact .pure rfl

namespace Outline

/-- What ends the type of a declarator without any part behind its pointers ends the pointers. -/
theorem Readable.front_behind {o : Outline} (ho : o.Readable u) (h : endsType (front rest) = true) :
    endsPointers (front (o.innerTokens ++ (o.suffixes.flatMap Prod.fst ++ rest))) = true := by
  cases hinner : o.inner with
  | some inner => simp [innerTokens, hinner, endsPointers]
  | none =>
    cases hsuffixes : o.suffixes with
    | nil => simpa [innerTokens, hinner] using endsPointers_of_endsType h
    | cons x xs =>
      rcases (ho.suffixes x (by simp [hsuffixes])).start with ⟨ts', hts⟩ | ⟨t, ts', hts, -⟩ <;>
        simp [innerTokens, hinner, hts, endsPointers]

theorem Readable.reads_core {o : Outline} (ho : o.Readable u) {depth : Nat} {naming : Naming}
    (hnaming : naming ≠ .named) (hdepth : o.innerTokens.length ≤ depth) (h : endsType (front rest) = true) :
    Reads u (core (Rules.upTo depth) naming) o.innerTokens (o.suffixes.flatMap Prod.fst ++ rest) fun c =>
      match o.inner with
      | some (_, ds) => ∃ d, c = .nested d ∧ d.name = none ∧ d.derivations = ds
      | none => c = .absent := by
  cases hinner : o.inner with
  | some inner =>
    obtain ⟨ts, ds⟩ := inner
    obtain ⟨hreads, hstart⟩ := ho.inner ts ds hinner
    simp only [innerTokens, hinner, List.length_cons, List.length_append] at hdepth ⊢
    exact reads_core_nested hnaming hreads hstart (by omega)
  | none =>
    simp only [innerTokens, hinner]
    have hbehind := ho.front_behind h
    simp only [innerTokens, hinner, List.nil_append] at hbehind
    refine reads_core_absent (fun text htext => ?_) fun ts hts => ?_
    · rw [htext] at hbehind
      cases hbehind
    · cases hsuffixes : o.suffixes with
      | nil =>
        rw [hsuffixes, List.flatMap_nil, List.nil_append] at hts
        rw [hts] at h
        cases h
      | cons x xs =>
        rw [hsuffixes, List.flatMap_cons] at hts
        rcases (ho.suffixes x (by simp [hsuffixes])).start with ⟨ts', hx⟩ | ⟨t, ts', hx, ht⟩
        · rw [hx] at hts
          cases hts
        · rw [hx] at hts
          cases hts
          exact ht

theorem Readable.reads {o : Outline} (ho : o.Readable u) : ReadsDeclarator u o.tokens o.steps := by
  intro depth hdepth naming hnaming rest hrest
  simp only [tokens, List.length_append] at hdepth
  refine reads_here.bind fun start _ => ?_
  have hpointers := reads_pointers (u := u) ho.pointers (by simpa using ho.front_behind hrest)
  refine Reads.bind (by simpa using hpointers) ?_
  intro before hbefore
  subst hbefore
  refine Reads.bind (ho.reads_core hnaming (by omega) hrest) ?_
  intro middle hmiddle
  have hsuffixes := reads_suffixes depth ho.suffixes (by omega) hrest
  refine hsuffixes.bind_end fun behind hbehind => reads_current.bind_end fun next _ => ?_
  subst hbehind
  rw [if_neg (by simp [hnaming])]
  refine .pure ?_
  cases hinner : o.inner with
  | some inner =>
    rw [hinner] at hmiddle
    obtain ⟨d, rfl, hname, hd⟩ := hmiddle
    exact ⟨hname, by simp [steps, hinner, hd]⟩
  | none =>
    rw [hinner] at hmiddle
    subst hmiddle
    exact ⟨rfl, by simp [steps, hinner]⟩

end Outline

end Cognate.Grammar
