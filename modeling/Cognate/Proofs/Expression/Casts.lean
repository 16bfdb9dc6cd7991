import Cognate.Proofs.Expression.Trees
import Cognate.Proofs.Grammar.Reaches
import Cognate.Proofs.Spelling.Declarators
import Cognate.Proofs.Unit.Extents

/-!
# Reading the type of a cast

Keywords in parentheses that spell a type are read as a type that a number is converted to the way the words say. The
words are taken one by one; then the type is interned, with what makes it atomic or qualified.
-/

namespace Cognate

/-! ## Types in units -/

namespace DeclUnit

variable {u v : DeclUnit} {s : Shape} {t c : Ty}

/-- A type of a shape that is no sugar. -/
theorem intern_canonicalShape? (hu : u.WellFormed) (hc : ∀ c ∈ s.children, u.contains c = true)
    (hsugar : s.isSugar = false) : ∃ f, (u.intern s).2.canonicalShape? (u.intern s).1 = some (s.map f) := by
  obtain ⟨hw, -, hs⟩ := intern_spec hu hc
  exact ⟨_, hw.canonicalShape?_flat hs hsugar⟩

/-- A qualified type has the shape of the type inside. -/
theorem intern_qualified_canonicalShape? (hu : u.WellFormed) {q : Qualifiers} (hs : u.canonicalShape? t = some s) :
    (u.intern (.qualified t q)).2.canonicalShape? (u.intern (.qualified t q)).1 = some s := by
  have hc : ∀ c ∈ (Shape.qualified t q).children, u.contains c = true := by
    simpa [Shape.children] using contains_of_canonicalShape? hs
  obtain ⟨hw, hext, hshape⟩ := intern_spec hu hc
  rw [hw.canonicalShape?_sugar hshape rfl (c := t) (by simp [Shape.children]), hext.canonicalShape? hs]

theorem qualify_canonicalShape? (hu : u.WellFormed) (hs : u.canonicalShape? t = some s) (q : Qualifiers) :
    (u.qualify t q).2.canonicalShape? (u.qualify t q).1 = some s := by
  unfold qualify
  split
  · exact hs
  · split
    · next inner p hshape =>
      rw [hu.canonicalShape?_sugar hshape rfl (c := inner) (by simp [Shape.children])] at hs
      exact intern_qualified_canonicalShape? hu hs
    · exact intern_qualified_canonicalShape? hu hs

theorem Enriches.qualify (hu : u.WellFormed) (ht : u.contains t = true) (q : Qualifiers) :
    u.Enriches (u.qualify t q).2 := by
  rcases qualify_cases hu ht q with h | ⟨inner, p, hinner, h⟩
  · rw [h]
    exact .refl u
  · rw [h]
    exact .intern hu (by simpa [Shape.children] using hinner)

end DeclUnit

namespace Grammar

variable {u v : DeclUnit} {t : Ty} {s s' s'' : State} {x : SpecifierState} {k : Keyword} {words : List Keyword}
  {rules : Rules} {b : Builtin} {shape : Shape} {f : Int → Int}

/-- The value of a number converted to a type of that shape. -/
def convertBy (target : Target) (shape : Shape) (n : Int) : Int :=
  match shape with
  | .builtin b => convert target b n
  | _ => n

/-- Numbers are converted to the type by this function. -/
def Converts (u : DeclUnit) (t : Ty) (f : Int → Int) : Prop :=
  ∃ shape, u.canonicalShape? t = some shape ∧ ∀ n, convertBy u.target shape n = f n

theorem Converts.enriches (h : Converts u t f) (hv : u.Enriches v) : Converts v t f := by
  obtain ⟨shape, hshape, hf⟩ := h
  exact ⟨shape, hv.nodes.canonicalShape? hshape, by rwa [hv.target]⟩

theorem Converts.convertTo_eq (h : Converts u t f) : convertTo u t = f := by
  obtain ⟨shape, hshape, hf⟩ := h
  funext n
  rw [← hf, convertTo, DeclUnit.builtinKind?, hshape]
  cases shape <;> rfl

theorem Converts.contains (h : Converts u t f) : u.contains t = true := by
  obtain ⟨shape, hshape, -⟩ := h
  exact DeclUnit.contains_of_canonicalShape? hshape

theorem converts_intern (hu : u.WellFormed) (hc : ∀ c ∈ shape.children, u.contains c = true)
    (hsugar : shape.isSugar = false) (hf : ∀ g n, convertBy u.target (shape.map g) n = f n) :
    Converts (u.intern shape).2 (u.intern shape).1 f := by
  obtain ⟨g, hg⟩ := DeclUnit.intern_canonicalShape? hu hc hsugar
  refine ⟨_, hg, ?_⟩
  rw [(DeclUnit.Enriches.intern hu hc).target]
  exact hf g

theorem Converts.qualify (hu : u.WellFormed) (h : Converts u t f) (q : Qualifiers) :
    Converts (u.qualify t q).2 (u.qualify t q).1 f := by
  obtain ⟨shape, hshape, hf⟩ := h
  refine ⟨shape, DeclUnit.qualify_canonicalShape? hu hshape q, ?_⟩
  rwa [(DeclUnit.Enriches.qualify hu (DeclUnit.contains_of_canonicalShape? hshape) q).target]

/-! ## Words -/

/-- The first word starts a declaration. -/
theorem SpellsType.front {target : Target} {words : List Keyword} (h : SpellsType target words) :
    ∃ k rest, words = k :: rest ∧ k.startsDeclaration = true := by
  have haccompanies : ∀ k, accompaniesType k = true → k.startsDeclaration = true := by
    intro k hk
    cases k <;> first | rfl | cases hk
  have hword : ∀ k : Keyword, k.isTypeWord = true → k.startsDeclaration = true := by
    intro k hk
    cases k <;> first | rfl | cases hk
  cases h with
  | builtin each kind complex =>
    cases words with
    | nil => cases kind
    | cons k rest => exact ⟨k, rest, rfl, (each k (by simp)).elim (hword k) (haccompanies k)⟩
  | @auto before after each =>
    cases before with
    | nil => exact ⟨.autoType, after, rfl, rfl⟩
    | cons k rest => exact ⟨k, _, rfl, haccompanies k (each k (by simp))⟩

/-- Specifiers with one word more. -/
def SpecifierState.addWord (x : SpecifierState) (k : Keyword) : SpecifierState :=
  { x with
    qualifiers := addQualifier x.qualifiers k
    isAtomic := k == .atomic || x.isAtomic
    words := if k.isTypeWord then k :: x.words else x.words }

theorem foldl_addWord (words : List Keyword) (x : SpecifierState) : ∃ q, words.foldl SpecifierState.addWord x =
    { x with
      qualifiers := q
      isAtomic := words.contains .atomic || x.isAtomic
      words := (words.filter Keyword.isTypeWord).reverse ++ x.words } := by
  induction words generalizing x with
  | nil => exact ⟨x.qualifiers, by simp⟩
  | cons k words ih =>
    obtain ⟨q, hq⟩ := ih (x.addWord k)
    refine ⟨q, ?_⟩
    rw [List.foldl_cons, hq]
    have hatomic : (k :: words).contains Keyword.atomic = (words.contains Keyword.atomic || k == .atomic) := by
      rw [List.contains_cons, BEq.comm, Bool.or_comm]
    cases hk : k.isTypeWord <;> simp only [SpecifierState.addWord, hk, hatomic] <;> simp [hk, Bool.or_assoc]

theorem keywordSpecifier_word (hk : k.isTypeWord = true) (span : Span) (hx : x.named = none) :
    keywordSpecifier rules x k span = do
      let _ ← advance
      return .again (x.addWord k) := by
  obtain ⟨isTypedef, q, isAtomic, words, named, attributes⟩ := x
  subst hx
  cases k <;> first | rfl | cases hk

theorem keywordSpecifier_accompanies (hk : accompaniesType k = true) (hne : k ≠ .atomic) (span : Span) :
    keywordSpecifier rules x k span = do
      let _ ← advance
      return .again (x.addWord k) := by
  cases k <;> first | rfl | exact absurd rfl hne | cases hk

/-- A word is taken in one round. -/
theorem answers_word (hk : k.isTypeWord = true ∧ x.named = none ∨ accompaniesType k = true)
    (hs : s.Passes [.keyword k] s') (hs' : s'.current.token ≠ .punct .lparen) :
    Answers u (specifier rules x) s s' (.again (x.addWord k)) := by
  refine answers_current.andThen ?_
  simp only [hs.token]
  rcases hk with ⟨hk, hx⟩ | hk
  · rw [keywordSpecifier_word hk _ hx]
    exact (answers_advance hs).andThen .pure
  · by_cases hatomic : k = .atomic
    · subst hatomic
      have hrest : Answers u (atomic rules x s.current.span) s' s' (x.addWord .atomic) :=
        (answers_accept_not hs').andThen .pure
      exact (answers_advance hs).andThen (hrest.andThen .pure)
    · rw [keywordSpecifier_accompanies hk hatomic]
      exact (answers_advance hs).andThen .pure

/-- Words are taken one by one. By induction on the words; behind each of them stands another one or what ends them. -/
theorem reaches_words {Q : SpecifierState → DeclUnit → Prop} {E : Cause → Prop} {n : Nat}
    (hk : ∀ k ∈ words, k.isTypeWord = true ∧ x.named = none ∨ accompaniesType k = true)
    (hs : s.Passes (words.map .keyword) s') (hs' : s'.current.token ≠ .punct .lparen)
    (h : Reaches u (loopFor (specifier rules) n (words.foldl SpecifierState.addWord x)) s' s'' Q E) :
    Reaches u (loopFor (specifier rules) (n + words.length) x) s s'' Q E := by
  induction words generalizing x s with
  | nil =>
    cases hs
    exact h
  | cons k words ih =>
    obtain ⟨s₁, hfirst, hrest⟩ := hs.split_cons
    have hnext : s₁.current.token ≠ .punct .lparen := by
      cases words with
      | nil =>
        cases hrest
        exact hs'
      | cons k' words =>
        rw [hrest.token]
        simp
    refine (answers_word (hk k (by simp)) hfirst hnext).bind ?_
    exact ih (fun k' hk' => hk k' (by simp [hk'])) hrest h

/-- Words end in front of a closing parenthesis. -/
theorem reaches_words_end {Q : SpecifierState → DeclUnit → Prop} {E : Cause → Prop} {n : Nat}
    (hs : s.current.token = .punct .rparen) (hn : 0 < n) (h : Q x u) :
    Reaches u (loopFor (specifier rules) n x) s s Q E := by
  obtain ⟨n, rfl⟩ : ∃ m, n = m + 1 := ⟨n - 1, by omega⟩
  refine reaches_done (answers_current.bind ?_)
  simp only [hs]
  exact .pure ⟨x, rfl, h⟩

/-! ## Types -/

/-- The kind that words name depends neither on their order nor on what was found behind them. -/
theorem kindOfWords_of_perm {target : Target} {words' : List Keyword} {found : Token} (hwords : words'.Perm words)
    (h : kindOfWords target words .finish = .ok b) : kindOfWords target words' found = .ok b := by
  have hcontains : ∀ k, words'.contains k = words.contains k := fun k => hwords.contains_eq
  have hsorted : sortedWords words' = sortedWords words := by
    unfold sortedWords
    simp only [hwords.count_eq]
  have hsign : signedness words' = signedness words := by
    unfold signedness
    simp only [hcontains]
  unfold kindOfWords at h ⊢
  rw [hcontains, hsorted, hsign]
  cases hs : signedness words with
  | error cause =>
    rw [hs] at h
    cases h
  | ok sign =>
    rw [hs] at h
    dsimp only [bind, Except.bind] at h ⊢
    split
    · next hempty =>
      rw [if_pos hempty] at h
      split at h
      · next hcomplex => rwa [if_pos hcomplex]
      · cases h
    · next hempty => rwa [if_neg hempty] at h

theorem gives_wordType {words' : List Keyword} {span : Span} (hu : u.WellFormed) (hwords : words'.Perm words)
    (hkind : kindOfWords u.target words .finish = .ok b) (hcomplex : .complex ∈ words → hasComplex b = true) :
    Gives u (wordType words' span) s s fun t v =>
      Converts v t fun n => if .complex ∈ words then n else convert u.target b n := by
  have hbuiltin : Converts (u.intern (.builtin b)).2 (u.intern (.builtin b)).1 (convert u.target b) :=
    converts_intern hu (by simp [Shape.children]) rfl fun _ _ => rfl
  have henriches : u.Enriches (u.intern (.builtin b)).2 := .intern hu (by simp [Shape.children])
  refine answers_unit.bind (answers_current.bind ?_)
  simp only [kindOfWords_of_perm hwords hkind]
  refine reaches_build henriches ?_
  by_cases h : .complex ∈ words
  · rw [if_neg (by simpa using hwords.mem_iff.2 h), if_pos (hcomplex h)]
    simp only [if_pos h]
    have hc : ∀ c ∈ (Shape.complex (u.intern (.builtin b)).1).children,
        (u.intern (.builtin b)).2.contains c = true := by
      simpa [Shape.children] using hbuiltin.contains
    exact ⟨_, rfl, .intern (henriches.wellFormed hu) hc,
      converts_intern (henriches.wellFormed hu) hc rfl fun _ _ => rfl⟩
  · rw [if_pos (by simpa using fun h' => h (hwords.mem_iff.1 h'))]
    simp only [if_neg h]
    exact .pure hbuiltin

/-- A type, once it is made atomic and qualified. -/
theorem gives_qualified {base : Ty} (hu : u.WellFormed) (hbase : Converts u base f) (isTypedef isAtomic : Bool)
    (q : Qualifiers) (attributes : Attributes) : Gives u (do
      let base ← if isAtomic then intern (.atomic base) else pure base
      let t ← build (·.qualify base q)
      return (⟨isTypedef, t, attributes⟩ : Specifiers)) s s fun r v =>
        r.isTypedef = isTypedef ∧ r.attributes = attributes ∧
          Converts v r.type fun n => if isAtomic then n else f n := by
  have hend : ∀ {v : DeclUnit} {t : Ty} {g : Int → Int}, v.WellFormed → Converts v t g → Gives v (do
      let t ← build (·.qualify t q)
      return (⟨isTypedef, t, attributes⟩ : Specifiers)) s s fun r w =>
        r.isTypedef = isTypedef ∧ r.attributes = attributes ∧ Converts w r.type g :=
    fun hv ht => reaches_build (.qualify hv ht.contains q) (.pure ⟨rfl, rfl, ht.qualify hv q⟩)
  cases isAtomic with
  | false => exact hend hu hbase
  | true =>
    have hc : ∀ c ∈ (Shape.atomic base).children, u.contains c = true := by
      simpa [Shape.children] using hbase.contains
    refine reaches_build (.intern hu hc) (hend ((DeclUnit.Enriches.intern hu hc).wellFormed hu) ?_)
    exact converts_intern hu hc rfl fun _ _ => rfl

/-- Specifiers without an attribute that make a type by which numbers are converted. -/
def Specifiers.Convert (r : Specifiers) (u : DeclUnit) (f : Int → Int) : Prop :=
  r.isTypedef = false ∧ r.attributes = {} ∧ Converts u r.type f

/-- The word for automatic types is taken in one round, as a type of its own. -/
theorem gives_auto (hu : u.WellFormed) (hx : x.lacksType = true) (hs : s.Passes [.keyword .autoType] s') :
    Gives u (specifier rules x) s s' fun r v =>
      ∃ y, r = .again y ∧ ∃ t, y = { x with named := some t } ∧ Converts v t fun n => n := by
  refine answers_current.bind ?_
  simp only [hs.token]
  have hc : ∀ c ∈ Shape.auto.children, u.contains c = true := by simp [Shape.children]
  refine (answers_advance hs).bind (reaches_build (.intern hu hc) ?_)
  rw [SpecifierState.name, if_pos hx]
  exact .pure ⟨_, rfl, _, rfl, converts_intern hu hc rfl fun _ _ => rfl⟩

theorem gives_specifiers_builtin (hu : u.WellFormed)
    (each : ∀ k ∈ words, k.isTypeWord = true ∨ accompaniesType k = true)
    (kind : kindOfWords u.target (words.filter Keyword.isTypeWord) .finish = .ok b)
    (complex : .complex ∈ words → hasComplex b = true) (hs : s.Passes (words.map .keyword) s')
    (hs' : s'.current.token = .punct .rparen) :
    Gives u (specifiers rules) s s' fun r v => r.Convert v (castValue u.target words) := by
  obtain ⟨q, hq⟩ := foldl_addWord words {}
  have hloop : Gives u (loop {} (specifier rules)) s s'
      fun y v => y = words.foldl SpecifierState.addWord {} ∧ v = u := by
    refine reaches_loop fun n hn => ?_
    have hlength := hs.length_le
    rw [List.length_map] at hlength
    unfold State.allowance at hn
    obtain ⟨m, rfl⟩ : ∃ m, n = m + words.length := ⟨n - words.length, by omega⟩
    refine reaches_words (fun k hk => (each k hk).imp_left fun h => ⟨h, rfl⟩) hs (by simp [hs']) ?_
    exact reaches_words_end hs' (by omega) ⟨rfl, rfl⟩
  have hmem : .complex ∈ words.filter Keyword.isTypeWord ↔ .complex ∈ words := by simp [Keyword.isTypeWord]
  have hauto : .autoType ∉ words := fun h => by rcases each _ h with h | h <;> cases h
  have hcast : castValue u.target words =
      fun n => if (words.contains .atomic || false) = true then n
        else if .complex ∈ words.filter Keyword.isTypeWord then n else convert u.target b n := by
    funext n
    rw [castValue, kind]
    by_cases hatomic : .atomic ∈ words <;> by_cases hcomplex : .complex ∈ words <;>
      simp [hatomic, hcomplex, hauto, Keyword.isTypeWord]
  rw [hcast]
  refine answers_here.bind (hloop.bind ?_)
  rintro _ _ - ⟨rfl, rfl⟩
  rw [hq]
  refine answers_here.bind ((gives_wordType hu ?_ kind fun h => complex (hmem.1 h)).bind ?_)
  · simp [List.reverse_perm]
  · exact fun base v hv hbase => gives_qualified (hv.wellFormed hu) hbase _ _ _ _

theorem gives_specifiers_auto {before after : List Keyword} (hu : u.WellFormed)
    (each : ∀ k ∈ before ++ after, accompaniesType k = true)
    (hs : s.Passes ((before ++ .autoType :: after).map .keyword) s') (hs' : s'.current.token = .punct .rparen) :
    Gives u (specifiers rules) s s' fun r v => r.Convert v fun n => n := by
  have hlength := hs.length_le
  rw [List.map_append] at hs
  obtain ⟨s₁, hbefore, hrest⟩ := hs.split
  obtain ⟨s₂, hauto, hafter⟩ := hrest.split_cons
  have hword : ∀ k ∈ before ++ after, k.isTypeWord = false := by
    intro k hk
    have hk' := each k hk
    cases k <;> first | rfl | cases hk'
  have hfilter : before.filter Keyword.isTypeWord = [] := by
    simpa [List.filter_eq_nil_iff] using fun k hk => hword k (List.mem_append_left _ hk)
  obtain ⟨q, hq⟩ := foldl_addWord before {}
  have hloop : Gives u (loop {} (specifier rules)) s s'
      fun y v => ∃ t, y.isTypedef = false ∧ y.attributes = {} ∧ y.named = some t ∧ Converts v t fun n => n := by
    refine reaches_loop fun n hn => ?_
    simp only [List.length_map, List.length_append, List.length_cons] at hlength
    unfold State.allowance at hn
    obtain ⟨m, rfl⟩ : ∃ m, n = m + 1 + after.length + 1 + before.length :=
      ⟨n - (after.length + before.length + 2), by omega⟩
    refine reaches_words (fun k hk => .inr (each k (by simp [hk]))) hbefore (by simp [hauto.token]) ?_
    rw [hq, hfilter]
    refine reaches_again (gives_auto hu rfl hauto |>.weaken (fun _ _ _ h => h) fun _ h => h.elim) ?_
    rintro _ v - ⟨t, rfl, ht⟩
    refine reaches_words (fun k hk => .inr (each k (by simp [hk]))) hafter (by simp [hs']) ?_
    refine reaches_words_end hs' (by omega) ?_
    obtain ⟨q', hq'⟩ := foldl_addWord after
      ({ qualifiers := q, isAtomic := before.contains .atomic || false, named := some t } : SpecifierState)
    exact ⟨t, congrArg SpecifierState.isTypedef hq', congrArg SpecifierState.attributes hq',
      congrArg SpecifierState.named hq', ht⟩
  refine answers_here.bind (hloop.bind ?_)
  rintro y v hv ⟨t, htypedef, hattributes, hnamed, ht⟩
  rw [hnamed]
  refine (gives_qualified (hv.wellFormed hu) ht _ _ _ _).weaken ?_ fun _ h => h
  rintro r w - ⟨htypedef', hattributes', hr⟩
  refine ⟨htypedef'.trans htypedef, hattributes'.trans hattributes, ?_⟩
  simpa using hr

theorem gives_specifiers (hu : u.WellFormed) (hwords : SpellsType u.target words)
    (hs : s.Passes (words.map .keyword) s') (hs' : s'.current.token = .punct .rparen) :
    Gives u (specifiers rules) s s' fun r v => r.Convert v (castValue u.target words) := by
  cases hwords with
  | builtin each kind complex => exact gives_specifiers_builtin hu each kind complex hs hs'
  | @auto before after each =>
    have hcast : castValue u.target (before ++ .autoType :: after) = fun n => n := by
      funext n
      rw [castValue, if_pos (by simp)]
    rw [hcast]
    exact gives_specifiers_auto hu each hs hs'

/-! ## Names of types -/

theorem answers_attributes (hs : s.current.token = .punct .rparen) : Answers u (attributes rules) s s {} :=
  answers_loop_done ((answers_accept_not (by simp [hs])).andThen .pure)

theorem answers_pointers (hs : s.current.token = .punct .rparen) : Answers u pointers s s [] := by
  have hmember : Answers u atMemberPointer s s false := by
    refine answers_current.andThen ?_
    simp only [hs]
    exact .pure
  have hpointer : Answers u pointer? s s none := by
    refine hmember.andThen (answers_current.andThen ?_)
    simp only [hs]
    exact .pure
  exact answers_loop_done (hpointer.andThen .pure)

theorem answers_core (hs : s.current.token = .punct .rparen) : Answers u (core rules .abstract) s s .absent := by
  have hnested : Answers u atNested s s false := by
    refine answers_check.andThen ?_
    simp only [hs]
    exact .pure
  exact hnested.andThen .pure

theorem answers_suffixes (hs : s.current.token = .punct .rparen) : Answers u (suffixes rules) s s [] := by
  have hsuffix : Answers u (suffix? rules) s s none := by
    refine answers_check.andThen ?_
    simp only [hs]
    exact (answers_accept_not (by simp [hs])).andThen .pure
  exact answers_loop_done (hsuffix.andThen .pure)

/-- Nothing stands between the specifiers and the closing parenthesis. -/
theorem answers_declarator (hs : s.current.token = .punct .rparen) : ∃ span,
    Answers u (declarator rules .abstract) s s ⟨none, [], span⟩ := by
  refine ⟨s.current.span.merge s.current.span, ?_⟩
  refine answers_here.andThen ((answers_pointers hs).andThen ((answers_core hs).andThen ?_))
  exact (answers_suffixes hs).andThen (answers_current.andThen .pure)

theorem gives_typeName {depth : Nat} (hu : u.WellFormed) (hwords : SpellsType u.target words)
    (hs : s.Passes (words.map .keyword) s') (hs' : s'.current.token = .punct .rparen) :
    Gives u (Rules.upTo (depth + 1)).typeName s s' fun t v => Converts v t (castValue u.target words) := by
  refine answers_here.bind (Gives.bind (gives_specifiers hu hwords hs hs') ?_)
  rintro r v - ⟨htypedef, hattributes, hr⟩
  rw [htypedef]
  obtain ⟨span, hdeclarator⟩ := answers_declarator hs'
  refine hdeclarator.bind ((answers_attributes hs').bind ?_)
  rw [hattributes]
  exact .pure hr

end Grammar
end Cognate
