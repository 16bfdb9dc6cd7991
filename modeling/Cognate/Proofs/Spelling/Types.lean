import Cognate.Proofs.Spelling.Specifiers

/-!
# Reading types back

Steps that lead from one type of a unit to another without adding to it, and types without names that consist of
specifiers and a declarator.
-/

namespace Cognate.Grammar

variable {u : DeclUnit} {ts rest : List Token} {t : Token} {x y z : Ty} {rules : Rules} {ds : List Derivation}

/-! ## Steps -/

/-- The steps lead from `x` to `y`. -/
def Derives (u : DeclUnit) (x : Ty) (ds : List Derivation) (y : Ty) : Prop :=
  ∀ span rest, Reads u (deriveAll span {} x ds) [] rest (· = y)

theorem Derives.nil : Derives u x [] x := fun _ _ => .pure rfl

theorem Derives.eq_of_nil (h : Derives u x [] y) : y = x := by
  obtain ⟨z, hz, rfl⟩ := h ⟨0, 0⟩ [] 0 [] [] rfl rfl
  cases hz
  rfl

theorem Derives.cons {d : Derivation} (h : ∀ span rest, Reads u (derive span {} x d) [] rest (· = y))
    (hds : Derives u y ds z) : Derives u x (d :: ds) z := by
  intro span rest
  refine Reads.bind_end (Q := (· = y)) ?_ fun r hr => ?_
  · simpa using h span rest
  · subst hr
    exact hds span rest

theorem reads_qualified (hu : u.WellFormed) {shape : Shape} {q : Qualifiers} (hx : u.shape? x = some shape)
    (hq : u.qualify x q = (y, u)) : Reads u (qualified shape q) [] rest (· = y) := by
  unfold qualified
  refine (reads_intern hu hx).bind_end ?_
  intro r hr
  subst hr
  exact reads_build hq

theorem qualify_empty (u : DeclUnit) (x : Ty) : u.qualify x {} = (x, u) := rfl

theorem qualify_qualified (hu : u.WellFormed) {q : Qualifiers} {s : Shape} (hq : q.isEmpty = false)
    (hx : u.shape? x = some s) (hs : s.takesQualifiers = true) (hy : u.shape? y = some (.qualified x q)) :
    u.qualify x q = (y, u) := by
  have hne : ∀ inner p, s ≠ .qualified inner p := fun inner p he => by simp [he, Shape.takesQualifiers] at hs
  rw [DeclUnit.qualify_of_unqualified hx hne hq]
  exact DeclUnit.intern_of_find? (hu.find?_iff.2 hy)

theorem reads_checkResult (hx : u.IsObject x) (span : Span) : Reads u (checkResult x span) [] rest fun _ => True := by
  unfold checkResult
  refine reads_unit.bind_end ?_
  intro w hw
  subst hw
  rw [hx.1, hx.2]
  exact .pure trivial

/-- The shape of an array with a bound. -/
def ArrayBound.shape (x : Ty) : ArrayBound → Shape
  | .constant size => .constantArray x size
  | .incomplete => .incompleteArray x
  | .variable => .variableArray x

theorem derives_array (hu : u.WellFormed) {bound : ArrayBound} (hx : u.isFunction x = false)
    (hy : u.shape? y = some (bound.shape x)) (hds : Derives u y ds z) : Derives u x (.array bound :: ds) z := by
  refine .cons (fun span rest => reads_unit.bind_end fun w hw => ?_) hds
  subst hw
  rw [hx]
  cases bound <;> exact reads_intern hu hy

theorem derives_function (hu : u.WellFormed) {params : List Ty} {variadic : Bool} (hx : u.IsObject x)
    (hy : u.shape? y = some (.prototype x params variadic {})) (hds : Derives u y ds z) :
    Derives u x (.function params variadic :: ds) z :=
  .cons (fun span _ => (reads_checkResult hx span).bind_end fun _ _ => reads_intern hu hy) hds

theorem derives_noPrototype (hu : u.WellFormed) (hx : u.IsObject x) (hy : u.shape? y = some (.noPrototype x {}))
    (hds : Derives u y ds z) : Derives u x (.noPrototype :: ds) z :=
  .cons (fun span _ => (reads_checkResult hx span).bind_end fun _ _ => reads_intern hu hy) hds

/-! ## Whole types -/

/-- A declarator takes no token and no step, or starts with a mark. -/
theorem Outline.Readable.tokens_cases {o : Outline} (ho : o.Readable u) :
    (o.tokens = [] ∧ o.steps = []) ∨
      ∃ t ts, o.tokens = t :: ts ∧ endsSpecifiers t = true ∧ t ≠ .punct .rparen := by
  obtain ⟨pointers, inner, suffixes⟩ := o
  cases pointers with
  | cons d ds =>
    obtain ⟨t, ts, hts, ht⟩ := pointerTokens_cons (ho.pointers d (by simp))
    refine .inr ⟨t, _, by simp [tokens, hts]; rfl, by simp [endsSpecifiers, ht], ?_⟩
    rintro rfl
    cases ht
  | nil =>
    cases inner with
    | some inner => exact .inr ⟨.punct .lparen, _, rfl, rfl, by simp⟩
    | none =>
      cases suffixes with
      | nil => exact .inl ⟨rfl, rfl⟩
      | cons x xs =>
        rcases (ho.suffixes x (by simp)).start with ⟨ts, hts⟩ | ⟨t, ts, hts, -⟩
        · exact .inr ⟨.punct .lbracket, _, by simp [tokens, innerTokens, hts]; rfl, rfl, by simp⟩
        · exact .inr ⟨.punct .lparen, _, by simp [tokens, innerTokens, hts]; rfl, rfl, by simp⟩

theorem Outline.Readable.front_tokens {o : Outline} (ho : o.Readable u) (h : endsType (front rest) = true) :
    endsSpecifiers (front (o.tokens ++ rest)) = true := by
  rcases ho.tokens_cases with ⟨hts, -⟩ | ⟨t, ts, hts, ht, -⟩
  · simp [hts, endsSpecifiers, endsPointers_of_endsType h]
  · simpa [hts] using ht

/-- A declarator around the type of specifiers, without attributes. -/
theorem reads_declaredType (hds : Derives u y ds z) {s : Specifiers} (hs : s.type = y) (hattributes : s.attributes = {})
    {d : Declarator} (hd : d.derivations = ds) :
    Reads u (declaredType s.type d (s.attributes.merge {})) [] rest (· = z) := by
  rw [hs, hattributes]
  refine Reads.bind_end (Q := (· = y)) (.pure rfl) ?_
  intro base hbase
  subst hbase hd
  exact hds d.span rest

theorem reads_adjustParameter (h : u.IsObject x) : Reads u (adjustParameter x) [] rest (· = x) := by
  unfold adjustParameter
  refine reads_unit.bind_end ?_
  intro w hw
  subst hw
  have harray : (w.canonicalShape? x).any Shape.isArray = false := h.1
  have hfunction : (w.canonicalShape? x).any Shape.isFunction = false := h.2
  split
  · next hs => rw [hs] at harray; cases harray
  · next hs => rw [hs] at harray; cases harray
  · next hs => rw [hs] at harray; cases harray
  · next hs => rw [hs] at hfunction; cases hfunction
  · next hs => rw [hs] at hfunction; cases hfunction
  · exact .pure rfl

theorem mem_qualifierTokens {q : Qualifiers} (h : t ∈ qualifierTokens q) :
    startsPlainType u t = true ∧ t ≠ .keyword .void := by
  obtain ⟨k, hk, ht⟩ := List.mem_flatMap.1 h
  obtain rfl := List.mem_singleton.1 ht
  rcases mem_qualifierWords hk with rfl | rfl | rfl <;> exact ⟨rfl, by simp⟩

theorem front_ne_attributes (h : endsType (front rest) = true) : front rest ≠ .keyword .attributes := by
  intro he
  rw [he] at h
  cases h

/-- Behind `void` there is the rest of a declarator, as no qualifier stands in front of the word. -/
theorem ReadsFirst.eq_void (hts : ReadsFirst u ts x) {q : Qualifiers} {ts' : List Token}
    (h : qualifierTokens q ++ (ts ++ rest) = .keyword .void :: ts') :
    q = {} ∧ ts' = rest ∧ u.shape? x = some (.builtin .void) := by
  cases hwords : qualifierTokens q with
  | cons w ws =>
    rw [hwords] at h
    exact absurd (List.cons.inj h).1 (mem_qualifierTokens (q := q) (u := u) (by simp [hwords])).2
  | nil =>
    have hnone : q = {} := by
      rcases q with ⟨_ | _, _ | _, _ | _⟩ <;> first | rfl | cases hwords
    rw [hwords, List.nil_append] at h
    cases ts with
    | nil => cases hts.start
    | cons t ts₀ =>
      obtain ⟨rfl, rfl⟩ := List.cons.inj h
      obtain ⟨rfl, hx⟩ := hts.void ts₀ rfl
      exact ⟨hnone, rfl, hx⟩

/-- Qualifiers, a first type and a declarator. -/
theorem ReadsFirst.readsType (hts : ReadsFirst u ts x) {q : Qualifiers} (hq : u.qualify x q = (y, u)) {o : Outline}
    (ho : o.Readable u) (hds : Derives u y o.steps z) : ReadsType u (qualifierTokens q ++ (ts ++ o.tokens)) z := by
  refine ⟨?_, fun ts' hvoid => ?_, fun depth hdepth rest hrest => ?_, fun hobject depth hdepth rest hrest => ?_⟩
  -- What it starts with.
  · cases hwords : qualifierTokens q with
    | cons w ws => exact (mem_qualifierTokens (q := q) (by simp [hwords])).1
    | nil =>
      cases ts with
      | nil => cases hts.start
      | cons t ts₀ => exact hts.start
  -- Starting with `void`: the type is that word, with a declarator or without.
  · obtain ⟨rfl, rfl, hx⟩ := hts.eq_void hvoid
    obtain rfl : x = y := (Prod.mk.inj hq).1
    rcases ho.tokens_cases with ⟨htokens, hsteps⟩ | ⟨t', ts₀, htokens, -, hne⟩
    · rw [hsteps] at hds
      rw [htokens, hds.eq_of_nil]
      exact ⟨by simp, fun _ => hx⟩
    · rw [htokens]
      exact ⟨hne, by simp⟩
  -- Read as the name of a type.
  · obtain ⟨depth, rfl⟩ : ∃ m, depth = m + 1 := ⟨depth - 1, by omega⟩
    simp only [List.length_append] at hdepth
    rw [← List.append_assoc]
    refine reads_here.look fun start _ => ?_
    have hspecifiers := reads_specifiers hts hq depth (by omega) (ho.front_tokens hrest)
    refine hspecifiers.bind fun s ⟨hs, htype, hattributes⟩ => ?_
    rw [hs]
    refine (ho.reads depth (by omega) .abstract (by simp) rest hrest).bind_end ?_
    intro d hd
    refine (reads_attributes (front_ne_attributes hrest)).bind_end ?_
    intro late hlate
    subst hlate
    exact reads_declaredType hds htype hattributes hd.2
  -- Read as a parameter.
  · obtain ⟨depth, rfl⟩ : ∃ m, depth = m + 1 := ⟨depth - 1, by omega⟩
    simp only [List.length_append] at hdepth
    rw [← List.append_assoc]
    have hspecifiers := reads_specifiers hts hq depth (by omega) (ho.front_tokens hrest)
    refine hspecifiers.bind fun s ⟨hs, htype, hattributes⟩ => ?_
    refine (ho.reads depth (by omega) .either (by simp) rest hrest).bind_end ?_
    intro d hd
    refine (reads_attributes (front_ne_attributes hrest)).bind_end ?_
    intro late hlate
    subst hlate
    refine (reads_declaredType hds htype hattributes hd.2).bind_end ?_
    intro r hr
    subst hr
    exact reads_adjustParameter hobject

end Cognate.Grammar
