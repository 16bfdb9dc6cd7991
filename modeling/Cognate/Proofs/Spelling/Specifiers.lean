import Cognate.Proofs.Spelling.Suffixes

/-!
# Reading specifiers back

Qualifiers and one first type: words, a tag, the name of a typedef, an automatic or an atomic type. What follows them
starts a declarator or ends the type.
-/

namespace Cognate.Grammar

variable {u : DeclUnit} {ts rest : List Token} {t : Token} {x y : Ty} {rules : Rules}

/-- Follows the specifiers of a type without a name. -/
def endsSpecifiers (t : Token) : Bool := startsPointer t || endsPointers t

theorem endsSpecifiers_cases (h : endsSpecifiers t = true) :
    (∃ p, t = .punct p ∧ p ≠ .lbrace ∧ p ≠ .colon) ∨ t = .finish := by
  cases t with
  | punct p => cases p <;> first | exact .inl ⟨_, rfl, by decide, by decide⟩ | cases h
  | finish => exact .inr rfl
  | _ => cases h

/-- Specifiers without a type, which hold these qualifiers alone. -/
def SpecifierState.start (q : Qualifiers) : SpecifierState := { qualifiers := q }

/-- Specifiers that make this type, apart from qualifiers. -/
structure SpecifierState.Gives (u : DeclUnit) (s : SpecifierState) (q : Qualifiers) (x : Ty) : Prop where
  isTypedef : s.isTypedef = false
  qualifiers : s.qualifiers = q
  isAtomic : s.isAtomic = false
  attributes : s.attributes = {}
  type : s.named = some x ∨ s.named = none ∧ ∀ span rest, Reads u (wordType s.words span) [] rest (· = x)

/-- The tokens of a first type, behind any qualifiers. -/
structure ReadsFirst (u : DeclUnit) (ts : List Token) (x : Ty) : Prop where
  start : startsPlainType u (front ts) = true
  void : ∀ ts', ts = .keyword .void :: ts' → ts' = [] ∧ u.shape? x = some (.builtin .void)
  reads : ∀ depth, ts.length ≤ depth → ∀ q rest, endsSpecifiers (front rest) = true → ∀ n, ts.length < n →
    Reads u (loopFor (specifier (Rules.upTo depth)) n (.start q)) ts rest (·.Gives u q x)

theorem reads_specifier_end {s : SpecifierState} (h : endsSpecifiers (front rest) = true) :
    Reads u (specifier rules s) [] rest (· = .done s) := by
  refine reads_current.bind_end ?_
  intro l hl
  rcases endsSpecifiers_cases h with ⟨p, hp, -⟩ | hp
  · simp only [hl, hp]
    exact .pure rfl
  · simp only [hl, hp]
    exact .pure rfl

/-! ## Specifiers as a whole -/

theorem reads_qualifier {s : SpecifierState} {k : Keyword} {q : Qualifiers} (hk : k ∈ qualifierWords q) :
    Reads u (specifier rules s) [.keyword k] rest
      (· = .again { s with qualifiers := addQualifier s.qualifiers k }) := by
  refine reads_current.look ?_
  intro l hl
  rw [List.singleton_append, front_cons] at hl
  rcases mem_qualifierWords hk with rfl | rfl | rfl
  · simp only [hl]
    exact reads_advance_bind fun _ _ => .pure rfl
  · simp only [hl]
    exact reads_advance_bind fun _ _ => .pure rfl
  · simp only [hl]
    exact reads_advance_bind fun _ _ => .pure rfl

theorem reads_specifiers (hts : ReadsFirst u ts x) {q : Qualifiers} (hq : u.qualify x q = (y, u)) (depth : Nat)
    (hdepth : ts.length ≤ depth) (h : endsSpecifiers (front rest) = true) :
    Reads u (specifiers (Rules.upTo depth)) (qualifierTokens q ++ ts) rest
      fun s => s.isTypedef = false ∧ s.type = y ∧ s.attributes = {} := by
  unfold specifiers
  refine reads_here.look fun start _ => ?_
  have hloop : Reads u (loop {} (specifier (Rules.upTo depth))) (qualifierTokens q ++ ts) rest (·.Gives u q x) := by
    refine reads_loop ?_
    intro n hn
    refine reads_items _ (fun s k => { s with qualifiers := addQualifier s.qualifiers k }) (by simp)
      (fun s k after hafter => ?_) (fun m hm => ?_) n hn
    · exact reads_qualifier (hafter.subset (List.mem_cons_self (a := k)))
    · have hstart : (qualifierWords q).foldl (fun s k => { s with qualifiers := addQualifier s.qualifiers k }) {} =
          SpecifierState.start q := by
        rcases q with ⟨_ | _, _ | _, _ | _⟩ <;> rfl
      rw [hstart]
      exact hts.reads depth hdepth q rest h m hm
  refine hloop.bind_end ?_
  intro s hs
  have hend : ∀ base, base = x → Reads u (do
      let base ← if s.isAtomic then intern (.atomic base) else pure base
      let t ← build (·.qualify base s.qualifiers)
      return (⟨s.isTypedef, t, s.attributes⟩ : Specifiers)) [] rest
        fun s => s.isTypedef = false ∧ s.type = y ∧ s.attributes = {} := by
    rintro base rfl
    rw [hs.isAtomic, hs.qualifiers]
    refine Reads.bind_end (Q := (· = base)) (.pure rfl) ?_
    intro base' hbase
    subst hbase
    refine (reads_build (g := fun u => u.qualify base' q) hq).bind_end fun r hr => ?_
    exact .pure ⟨hs.isTypedef, hr, hs.attributes⟩
  rcases hs.type with hnamed | ⟨hnamed, hwords⟩
  · rw [hnamed]
    exact hend x rfl
  · rw [hnamed]
    refine reads_here.look fun stop _ => (hwords _ _).bind_end fun base hbase => ?_
    exact hend base hbase

/-! ## First types -/

/-- A type of its own, read in one round. -/
theorem readsFirst_of_round (hstart : startsPlainType u (front ts) = true) (hvoid : front ts ≠ .keyword .void)
    (h : ∀ depth, ts.length ≤ depth → ∀ q rest, endsSpecifiers (front rest) = true →
      Reads u (specifier (Rules.upTo depth) (.start q)) ts rest
        (· = .again { SpecifierState.start q with named := some x })) :
    ReadsFirst u ts x := by
  refine ⟨hstart, fun ts' hts => ?_, fun depth hdepth q rest hrest n hn => ?_⟩
  · rw [hts, front_cons] at hvoid
    exact absurd rfl hvoid
  · have hpos : 0 < ts.length := by
      cases ts with
      | nil => cases hstart
      | cons t ts => exact Nat.succ_pos _
    -- A round for the type, and one that ends the specifiers.
    obtain ⟨n, rfl⟩ : ∃ m, n = m + 2 := ⟨n - 2, by omega⟩
    have hts : ts = ts ++ [] := (List.append_nil ts).symm
    rw [hts]
    refine reads_again (P := (· = { SpecifierState.start q with named := some x }))
      ((h depth hdepth q _ hrest).weaken fun r hr => ⟨_, hr, rfl⟩) fun s hs => ?_
    subst hs
    refine reads_done ((reads_specifier_end hrest).weaken fun r hr => ⟨_, hr, ?_⟩)
    exact ⟨rfl, rfl, rfl, rfl, .inl rfl⟩

theorem readsFirst_typedef {text : String} (h : u.typedef? text = some x) : ReadsFirst u [.name text] x := by
  refine readsFirst_of_round ?_ (by simp) fun depth _ q rest _ => ?_
  · simp [startsPlainType, startsType, h]
  · refine reads_current.look ?_
    intro l hl
    rw [List.singleton_append, front_cons] at hl
    simp only [hl]
    refine reads_unit.look ?_
    intro w hw
    subst hw
    have hlacks : (SpecifierState.start q).lacksType = true := rfl
    simp only [hlacks, if_true, h]
    exact reads_advance_bind fun _ _ => .pure rfl

/-- The first type of specifiers. -/
theorem reads_name_specifier {q : Qualifiers} (span : Span) :
    Reads u ((SpecifierState.start q).name x span) [] rest (· = { SpecifierState.start q with named := some x }) :=
  .pure rfl

/-- A keyword and what belongs to it. -/
theorem reads_specifier_keyword {k : Keyword} {s : SpecifierState} {Q : Round SpecifierState SpecifierState → Prop}
    (h : ∀ span, Reads u (keywordSpecifier rules s k span) (.keyword k :: ts) rest Q) :
    Reads u (specifier rules s) (.keyword k :: ts) rest Q := by
  refine reads_current.look ?_
  intro l hl
  rw [List.cons_append, front_cons] at hl
  simp only [hl]
  exact h _

theorem readsFirst_auto (hu : u.WellFormed) (h : u.shape? x = some .auto) : ReadsFirst u [.keyword .autoType] x := by
  refine readsFirst_of_round rfl (by simp) fun depth _ q rest _ => reads_specifier_keyword fun span => ?_
  refine reads_advance_bind fun _ _ => (reads_intern hu h).bind_end fun r hr => ?_
  subst hr
  exact (reads_name_specifier span).bind_pure fun s hs => by rw [hs]

theorem readsFirst_atomic (hu : u.WellFormed) (hts : ReadsType u ts y) (h : u.shape? x = some (.atomic y)) :
    ReadsFirst u (.keyword .atomic :: .punct .lparen :: (ts ++ [.punct .rparen])) x := by
  refine readsFirst_of_round rfl (by simp) fun depth hdepth q rest _ => reads_specifier_keyword fun span => ?_
  simp only [List.length_cons, List.length_append] at hdepth
  refine reads_advance_bind fun _ _ => ?_
  have hatomic : Reads u (atomic (Rules.upTo depth) (.start q) span) (.punct .lparen :: (ts ++ [.punct .rparen])) rest
      (· = { SpecifierState.start q with named := some x }) := by
    refine reads_accept_bind ?_
    refine Reads.bind (hts.typeName depth (by omega) _ rfl) ?_
    intro value hvalue
    subst hvalue
    refine reads_expect.bind_end fun _ _ => (reads_intern hu h).bind_end fun r hr => ?_
    subst hr
    exact reads_name_specifier span
  exact hatomic.bind_pure fun s hs => by rw [hs]

/-! ## Tagged types -/

theorem reads_attributes (h : front rest ≠ .keyword .attributes) : Reads u (attributes rules) [] rest (· = {}) := by
  unfold attributes
  refine reads_loop_done ((reads_accept_not h).bind_end fun b hb => ?_)
  subst hb
  exact .pure ⟨_, rfl, rfl⟩

theorem reads_withoutBody {tag : Tag} {name : String} {span : Span} (hname : u.tag? name = some x)
    (htag : tagOf u x = tag) :
    Reads u (withoutBody tag (some name) span) [] rest (· = x) := by
  unfold withoutBody
  refine reads_unit.bind_end ?_
  intro w hw
  subst hw
  simp only [hname, if_pos htag]
  exact .pure rfl

theorem reads_record {tag : Tag} {name : String} {span : Span} (hname : u.tag? name = some x) (htag : tagOf u x = tag)
    (h : endsSpecifiers (front rest) = true) : Reads u (record rules tag span) [.name name] rest (· = x) := by
  unfold record
  refine (reads_attributes (by simp)).look fun _ _ => ?_
  refine reads_name?.bind_end fun found hfound => (reads_check _).bind_end fun b hb => ?_
  subst hb
  have hbrace : front rest ≠ .punct .lbrace := by
    rcases endsSpecifiers_cases h with ⟨p, hp, hne, -⟩ | hp <;> simp_all
  rw [if_neg (by simpa using hbrace), hfound]
  exact reads_withoutBody hname htag

theorem reads_enumeration {name : String} {span : Span} (hname : u.tag? name = some x) (htag : tagOf u x = .enum)
    (h : endsSpecifiers (front rest) = true) : Reads u (enumeration rules span) [.name name] rest (· = x) := by
  unfold enumeration
  refine (reads_attributes (by simp)).look fun _ _ => ?_
  have hmarks : front rest ≠ .punct .lbrace ∧ front rest ≠ .punct .colon := by
    rcases endsSpecifiers_cases h with ⟨p, hp, hne, hne'⟩ | hp <;> simp_all
  refine reads_name?.bind_end fun found hfound => (reads_accept_not hmarks.2).bind_end fun b hb => ?_
  subst hb
  refine Reads.bind_end (Q := (· = none)) (.pure rfl) fun given _ => (reads_check _).bind_end fun b hb => ?_
  subst hb
  rw [if_neg (by simpa using hmarks.1), hfound]
  exact reads_withoutBody hname htag

/-- The keyword of a tag. -/
def tagKeyword : Tag → Keyword
  | .union => .union
  | .enum => .enum
  | _ => .struct

theorem readsFirst_tagged {tag : Tag} {name : String} (hclass : tag ≠ .classTag) (hname : u.tag? name = some x)
    (htag : tagOf u x = tag) : ReadsFirst u [.keyword (tagKeyword tag), .name name] x := by
  cases tag with
  | struct =>
    refine readsFirst_of_round rfl (by simp [tagKeyword]) fun depth _ q rest hrest => ?_
    refine reads_specifier_keyword ?_
    intro span
    refine reads_advance_bind fun _ _ => (reads_record hname htag hrest).bind_end fun r hr => ?_
    subst hr
    exact (reads_name_specifier span).bind_pure fun s hs => by rw [hs]
  | union =>
    refine readsFirst_of_round rfl (by simp [tagKeyword]) fun depth _ q rest hrest => ?_
    refine reads_specifier_keyword ?_
    intro span
    refine reads_advance_bind fun _ _ => (reads_record hname htag hrest).bind_end fun r hr => ?_
    subst hr
    exact (reads_name_specifier span).bind_pure fun s hs => by rw [hs]
  | classTag => exact absurd rfl hclass
  | enum =>
    refine readsFirst_of_round rfl (by simp [tagKeyword]) fun depth _ q rest hrest => ?_
    refine reads_specifier_keyword ?_
    intro span
    refine reads_advance_bind fun _ _ => (reads_enumeration hname htag hrest).bind_end fun r hr => ?_
    subst hr
    exact (reads_name_specifier span).bind_pure fun s hs => by rw [hs]

/-! ## Words -/

/-- The words that a builtin type is spelled with. -/
def builtinTexts : Builtin → List String
  | .void => ["void"] | .bool => ["_Bool"] | .charU | .charS => ["char"] | .uchar => ["unsigned", "char"]
  | .wcharU | .wcharS => ["wchar_t"] | .char16 => ["char16_t"] | .char32 => ["char32_t"]
  | .ushort => ["unsigned", "short"] | .uint => ["unsigned", "int"] | .ulong => ["unsigned", "long"]
  | .ulongLong => ["unsigned", "long", "long"] | .uint128 => ["unsigned", "__int128"] | .schar => ["signed", "char"]
  | .short => ["short"] | .int => ["int"] | .long => ["long"] | .longLong => ["long", "long"] | .int128 => ["__int128"]
  | .half => ["__fp16"] | .float => ["float"] | .double => ["double"] | .longDouble => ["long", "double"]
  | .nullPtr => ["nullptr_t"]

theorem builtin_spelling (b : Builtin) : b.spelling = " ".intercalate (builtinTexts b) := by
  cases b <;> decide

/-- The keywords that words spell. -/
def keywordsOf (texts : List String) : List Keyword := texts.filterMap Keyword.ofSpelling?

theorem keywordsOf_builtin {target : Target} {b : Builtin} (h : target.names b = true) :
    (∀ text ∈ builtinTexts b, (Keyword.ofSpelling? text).isSome = true) ∧
      ∀ k ∈ keywordsOf (builtinTexts b), k.isTypeWord = true := by
  cases b <;> first | decide | cases h

theorem kindOfWords_builtin {target : Target} {b : Builtin} (h : target.names b = true) (found : Token) :
    kindOfWords target (keywordsOf (builtinTexts b)).reverse found = .ok b := by
  cases b with
  -- Of the two kinds that share their words, the target has the one that it names.
  | charS | charU | wcharS | wcharU => exact congrArg Except.ok (beq_iff_eq.1 h).symm
  | nullPtr => cases h
  | _ => rfl

/-- The words of a complex type. -/
theorem kindOfWords_complex {b : Builtin} (h : hasComplex b = true) (target : Target) (found : Token) :
    kindOfWords target (keywordsOf ("_Complex" :: builtinTexts b)).reverse found = .ok b := by
  cases b with
  | float | double | longDouble => rfl
  | _ => cases h

theorem reads_wordType (hu : u.WellFormed) {b : Builtin} (h : u.shape? x = some (.builtin b))
    (hnames : u.target.names b = true) (span : Span) :
    Reads u (wordType (keywordsOf (builtinTexts b)).reverse span) [] rest (· = x) := by
  have hcomplex : (keywordsOf (builtinTexts b)).reverse.contains .complex = false := by cases b <;> decide
  refine reads_unit.bind_end fun w hw => reads_current.bind_end fun l _ => ?_
  subst hw
  simp only [kindOfWords_builtin hnames, hcomplex]
  exact (reads_intern hu h).bind_end fun r hr => .pure hr

theorem reads_wordType_complex (hu : u.WellFormed) {b : Builtin} (h : u.shape? x = some (.complex y))
    (hy : u.shape? y = some (.builtin b)) (hb : hasComplex b = true) (span : Span) :
    Reads u (wordType (keywordsOf ("_Complex" :: builtinTexts b)).reverse span) [] rest (· = x) := by
  have hcomplex : (keywordsOf ("_Complex" :: builtinTexts b)).reverse.contains .complex = true := by
    cases b <;> decide
  refine reads_unit.bind_end fun w hw => reads_current.bind_end fun l _ => ?_
  subst hw
  simp only [kindOfWords_complex hb, hcomplex, hb]
  refine (reads_intern hu hy).bind_end ?_
  intro r hr
  subst hr
  exact reads_intern hu h

theorem reads_word {s : SpecifierState} {k : Keyword} (hk : k.isTypeWord = true) (hs : s.named = none) :
    Reads u (specifier rules s) [.keyword k] rest (· = .again { s with words := k :: s.words }) := by
  refine reads_specifier_keyword ?_
  intro span
  cases k <;> cases hk
  all_goals
    simp only [keywordSpecifier, Keyword.isStorage, Keyword.isTypeWord, hs]
    exact reads_advance_bind fun _ _ => .pure rfl

/-- By induction on the words: those before them are kept, the last one first. -/
theorem reads_wordsFor {ks : List Keyword} (hks : ∀ k ∈ ks, k.isTypeWord = true)
    (h : endsSpecifiers (front rest) = true) (s : SpecifierState) (hs : s.named = none) (n : Nat) (hn : ks.length < n) :
    Reads u (loopFor (specifier rules) n s) (ks.flatMap fun k => [.keyword k]) rest
      (· = { s with words := ks.reverse ++ s.words }) := by
  induction ks generalizing s n with
  | nil =>
    obtain ⟨n, rfl⟩ : ∃ m, n = m + 1 := ⟨n - 1, by omega⟩
    exact reads_done ((reads_specifier_end h).weaken fun r hr => ⟨_, hr, rfl⟩)
  | cons k ks ih =>
    obtain ⟨n, rfl⟩ : ∃ m, n = m + 1 := ⟨n - 1, by omega⟩
    rw [List.flatMap_cons]
    refine reads_again (P := (· = { s with words := k :: s.words })) ?_ fun y hy => ?_
    · exact (reads_word (hks k (by simp)) hs).weaken fun r hr => ⟨_, hr, rfl⟩
    subst hy
    rw [List.length_cons] at hn
    have hrest := ih (fun k' hk' => hks k' (by simp [hk'])) { s with words := k :: s.words } hs n (by omega)
    refine hrest.weaken ?_
    intro r hr
    rw [hr, List.reverse_cons, List.append_assoc, List.singleton_append]

theorem readsFirst_words {ks : List Keyword} (hks : ∀ k ∈ ks, k.isTypeWord = true) (hne : ks ≠ [])
    (hvoid : ∀ ks', ks = .void :: ks' → ks' = [] ∧ u.shape? x = some (.builtin .void))
    (h : ∀ span rest, Reads u (wordType ks.reverse span) [] rest (· = x)) :
    ReadsFirst u (ks.flatMap fun k => [.keyword k]) x := by
  refine ⟨?_, fun ts' hts => ?_, fun depth _ q rest hrest n hn => ?_⟩
  · cases ks with
    | nil => exact absurd rfl hne
    | cons k ks =>
      have hk := hks k (by simp)
      cases k <;> first | rfl | cases hk
  · cases ks with
    | nil => cases hts
    | cons k ks =>
      simp only [List.flatMap_cons, List.singleton_append, List.cons.injEq, Token.keyword.injEq] at hts
      obtain ⟨rfl, hts⟩ := hts
      obtain ⟨rfl, hx⟩ := hvoid ks rfl
      exact ⟨hts.symm, hx⟩
  · have hlength : (ks.flatMap fun k => [Token.keyword k]).length = ks.length := by simp
    refine (reads_wordsFor hks hrest (.start q) rfl n (by omega)).weaken ?_
    intro s hs
    subst hs
    refine ⟨rfl, rfl, rfl, rfl, .inr ⟨rfl, fun span rest => ?_⟩⟩
    rw [show ks.reverse ++ (SpecifierState.start q).words = ks.reverse from List.append_nil _]
    exact h span rest

def wordTokens (texts : List String) : List Token := (keywordsOf texts).flatMap fun k => [.keyword k]

theorem readsFirst_builtin (hu : u.WellFormed) {b : Builtin} (h : u.shape? x = some (.builtin b))
    (hnames : u.target.names b = true) : ReadsFirst u (wordTokens (builtinTexts b)) x := by
  refine readsFirst_words (keywordsOf_builtin hnames).2 ?_ (fun ks' hks => ?_)
    fun span rest => reads_wordType hu h hnames span
  · cases b <;> first | decide | cases hnames
  · cases b with
    | void => exact ⟨(List.cons.inj hks).2.symm, h⟩
    | nullPtr => cases hnames
    | _ => cases hks

theorem readsFirst_complex (hu : u.WellFormed) {b : Builtin} (h : u.shape? x = some (.complex y))
    (hy : u.shape? y = some (.builtin b)) (hb : hasComplex b = true) :
    ReadsFirst u (wordTokens ("_Complex" :: builtinTexts b)) x := by
  refine readsFirst_words (fun k hk => ?_) (by cases b <;> decide) (fun ks' hks => ?_)
    fun span rest => reads_wordType_complex hu h hy hb span
  · cases b <;> cases hb
    all_goals
      revert k
      decide
  · cases b <;> cases hks

end Cognate.Grammar
