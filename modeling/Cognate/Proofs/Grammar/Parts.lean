import Cognate.Grammar.Constant
import Cognate.Grammar.Specifier
import Cognate.Proofs.Grammar.Keeps

/-!
# What the parts of a declaration keep

One lemma for each reader of a part, for any rules that keep what they are to keep. Types that are answered can be used
further on; declarators hold steps that may be made.
-/

namespace Cognate.Grammar

variable {u v : DeclUnit} {rules : Rules} {t : Ty} {shape : Shape}

/-! ## What rules are to keep -/

/-- A step that may be made in the unit. -/
def Derivation.Sound (u : DeclUnit) : Derivation → Prop
  | memberPointer owner _ => u.Usable owner
  | array (.constant size) => size < wordLimit
  | function params _ => ∀ p ∈ params, u.Usable p ∧ u.IsObject p
  | _ => True

/-- A declarator with a proper name, if any, and steps that may be made. -/
structure Declarator.Sound (u : DeclUnit) (d : Declarator) : Prop where
  name : ∀ found, d.name = some found → IsName found.1
  derivations : ∀ x ∈ d.derivations, x.Sound u

/-- Rules that keep units written. -/
structure Rules.Sound (rules : Rules) : Prop where
  typeName : ∀ u, Keeps u rules.typeName fun t v => v.Usable t
  specifiers : ∀ u, Keeps u rules.specifiers fun s v => v.Usable s.type
  declarator : ∀ u naming, Keeps u (rules.declarator naming) fun d v =>
    d.Sound v ∧ (naming = .named → d.name.isSome = true)
  constant : ∀ u, Keeps u rules.constant fun _ _ => True
  binary : ∀ u level, Keeps u (rules.binary level) fun _ _ => True
  unary : ∀ u, Keeps u rules.unary fun _ _ => True

theorem Derivation.Sound.grows {d : Derivation} (hu : u.WellFormed) (h : u.Grows v) (hd : d.Sound u) : d.Sound v := by
  unfold Derivation.Sound at hd ⊢
  split
  · exact h.usable hd
  · exact hd
  · exact fun p hp => ⟨h.usable (hd p hp).1, hu.isObject_extends h.nodes (hd p hp).1.1 (hd p hp).2⟩
  · trivial

theorem Declarator.Sound.grows {d : Declarator} (hu : u.WellFormed) (h : u.Grows v) (hd : d.Sound u) : d.Sound v :=
  ⟨hd.name, fun x hx => (hd.derivations x hx).grows hu h⟩

theorem Rules.none_sound : Rules.none.Sound := by
  constructor <;> intros <;> exact looks_here.bind fun _ _ => keeps_fail _ _

/-! ## Types in parentheses -/

theorem looks_atType : Looks u atType fun _ => True := by
  unfold atType
  refine looks_unit.bind fun _ _ => looks_current.bind fun _ _ => .pure ⟨rfl, trivial⟩

theorem looks_atParenthesizedType : Looks u atParenthesizedType fun _ => True := by
  unfold atParenthesizedType
  refine (looks_check _).bind fun _ _ => ?_
  split
  · exact looks_unit.bind fun _ _ => looks_peek.bind fun _ _ => .pure ⟨rfl, trivial⟩
  · exact .pure ⟨rfl, trivial⟩

theorem keeps_parenthesizedType (hr : rules.Sound) : Keeps u (parenthesizedType rules) fun t v => v.Usable t := by
  unfold parenthesizedType
  refine looks_advance.bind fun _ _ => (hr.typeName u).bind fun t v _ _ ht => ?_
  exact (looks_expect _).bind fun _ _ => .pure ht

/-! ## Attributes -/

theorem looks_attributeName : Looks u attributeName fun _ => True := by
  unfold attributeName
  refine looks_current.bind fun _ _ => ?_
  split
  · exact .pure ⟨rfl, trivial⟩
  · exact .pure ⟨rfl, trivial⟩
  · exact keeps_fail _ _

theorem keeps_oneAttribute (hr : rules.Sound) (before : Attributes) :
    Keeps u (oneAttribute rules before) fun _ _ => True := by
  unfold oneAttribute
  refine looks_here.bind fun span _ => looks_attributeName.bind fun name _ => looks_advance.bind fun _ _ => ?_
  refine .ite (fun _ => ?_) fun _ => .ite (fun _ => .pure trivial) fun _ => ?_
  · refine (looks_expect _).bind fun _ _ => (hr.constant u).bind fun value v _ _ _ => ?_
    split
    · exact keeps_fail _ _
    · exact (looks_expect _).bind fun _ _ => .pure trivial
  · split
    · exact .pure trivial
    · refine (looks_check _).bind fun _ _ => ?_
      split
      · exact looks_skipGroup.bind fun _ _ => .pure trivial
      · exact .pure trivial

theorem keeps_attributeList (hr : rules.Sound) (before : Attributes) :
    Keeps u (attributeList rules before) fun _ _ => True := by
  unfold attributeList
  refine keeps_loop (fun _ _ => True) trivial fun before v _ _ _ => ?_
  refine (looks_check _).bind fun _ _ => .ite (fun _ => .pure (by simp)) fun _ => ?_
  refine (looks_accept _).bind fun _ _ => .ite (fun _ => .pure (by simp)) fun _ => ?_
  exact (keeps_oneAttribute hr before).bind fun _ _ _ _ _ => .pure (by simp)

theorem keeps_attributes (hr : rules.Sound) : Keeps u (attributes rules) fun _ _ => True := by
  unfold attributes
  refine keeps_loop (fun _ _ => True) trivial fun before v _ _ _ => ?_
  refine (looks_accept _).bind fun _ _ => .ite (fun _ => ?_) fun _ => .pure (by simp)
  refine (looks_expect _).bind fun _ _ => (looks_expect _).bind fun _ _ => ?_
  refine (keeps_attributeList hr before).bind fun after w _ _ _ => ?_
  exact (looks_expect _).bind fun _ _ => (looks_expect _).bind fun _ _ => .pure (by simp)

/-! ## Derived types -/

theorem looks_checkResult (t : Ty) (span : Span) : Looks u (checkResult t span) fun _ => u.IsObject t := by
  unfold checkResult
  refine looks_unit.bind fun w hw => ?_
  subst hw
  refine .ite (fun _ => keeps_fail _ _) fun h => .pure ⟨rfl, ?_⟩
  simpa [DeclUnit.IsObject] using h

/-- The elements that are counted are a power of two. -/
theorem vectorCount_eq_ok {bytes : Int} {elementBytes count : Nat} (h : vectorCount bytes elementBytes = .ok count) :
    count < Nat.pow 2 32 ∧ ∃ n, count = Nat.pow 2 n := by
  unfold vectorCount at h
  split at h
  · cases h
  · dsimp only at h
    split at h
    · next hcount =>
      cases h
      simp only [isPowerOfTwo, Bool.and_eq_true, decide_eq_true_eq, beq_iff_eq] at hcount
      exact ⟨hcount.1, _, hcount.2.2.symm⟩
    · cases h

theorem keeps_vectorOf (ht : u.Usable t) (bytes : Int) (span : Span) :
    Keeps u (vectorOf t bytes span) fun t v => v.Usable t := by
  unfold vectorOf
  refine looks_unit.bind fun w hw => ?_
  subst hw
  refine (looks_measured _ _).bind fun o _ => ?_
  split
  · exact keeps_fail _ _
  · next e he =>
    obtain ⟨-, hkind⟩ := Option.filter_eq_some_iff.1 he
    obtain ⟨b, hb, hscalar⟩ := (Option.any_eq_true _ _).1 hkind
    split
    · exact keeps_fail _ _
    · next count hcount =>
      have hwrites : ∀ t', w.Writes t' (.vector t count .generic) :=
        fun _ => ⟨⟨b, hb, Bool.or_eq_true_iff.1 hscalar⟩, (vectorCount_eq_ok hcount).2⟩
      refine (keeps_intern (by simpa [Shape.children] using ht) rfl hwrites).weaken fun t v _ _ hs => ?_
      exact .of_shape hs (by simp)

theorem keeps_qualified (hc : ∀ c ∈ shape.children, u.Usable c) (htakes : shape.takesQualifiers = true)
    (htypedef : ∀ name aliased, shape ≠ .typedef name aliased) (htagged : shape.isTagged = false)
    (hs : ∀ t, u.Writes t shape) (q : Qualifiers) : Keeps u (qualified shape q) fun t v => v.Usable t := by
  unfold qualified
  refine (keeps_intern hc htagged hs).bind fun t v _ hv ht => ?_
  obtain ⟨hw, hgrows, husable⟩ := hv.qualify (.of_shape ht htypedef) ht htakes q
  exact keeps_build hw hgrows husable

theorem keeps_derive (span : Span) (traits : FunctionTraits) (ht : u.Usable t) {d : Derivation} (hd : d.Sound u) :
    Keeps u (derive span traits t d) fun t v => v.Usable t := by
  -- Every shape but an array's or a function's is written over any type.
  have hintern : ∀ {s : Shape}, (∀ c ∈ s.children, u.Usable c) → (∀ t, u.Writes t s) → s.isTagged = false →
      (∀ name aliased, s ≠ .typedef name aliased) → Keeps u (intern s) fun t v => v.Usable t := by
    intro s hc hs htagged htypedef
    exact (keeps_intern hc htagged hs).weaken fun _ _ _ _ h => .of_shape h htypedef
  cases d with
  | pointer q =>
    exact keeps_qualified (by simpa [Shape.children] using ht) rfl (by simp) rfl (by intro _; trivial) q
  | blockPointer q =>
    exact keeps_qualified (by simpa [Shape.children] using ht) rfl (by simp) rfl (by intro _; trivial) q
  | memberPointer owner q =>
    exact keeps_qualified (by simpa [Shape.children] using ⟨ht, hd⟩) rfl (by simp) rfl (by intro _; trivial) q
  | lvalueRef => exact hintern (by simpa [Shape.children] using ht) (fun _ => trivial) rfl (by simp)
  | rvalueRef => exact hintern (by simpa [Shape.children] using ht) (fun _ => trivial) rfl (by simp)
  | array bound =>
    refine looks_unit.bind fun w hw => ?_
    subst hw
    refine .ite (fun _ => ?_) fun hf => ?_
    · exact (keeps_fail _ _).bind fun x _ _ _ (h : False) => h.elim
    · simp only [Bool.not_eq_true] at hf
      cases bound with
      | constant size => exact hintern (by simpa [Shape.children] using ht) (fun _ => ⟨hf, hd⟩) rfl (by simp)
      | incomplete => exact hintern (by simpa [Shape.children] using ht) (fun _ => hf) rfl (by simp)
      | «variable» => exact hintern (by simpa [Shape.children] using ht) (fun _ => hf) rfl (by simp)
  | function params variadic =>
    refine (looks_checkResult t span).bind fun _ hobject => ?_
    refine hintern (fun c hc => ?_) (fun _ => ⟨hobject, fun p hp => (hd p hp).2⟩) rfl (by simp)
    rcases List.mem_cons.1 hc with rfl | hp
    · exact ht
    · exact (hd c hp).1
  | noPrototype =>
    refine (looks_checkResult t span).bind fun _ hobject => ?_
    exact hintern (by simpa [Shape.children] using ht) (fun _ => hobject) rfl (by simp)

theorem keeps_deriveAll (span : Span) (traits : FunctionTraits) {ds : List Derivation} (ht : u.Usable t)
    (hds : ∀ d ∈ ds, d.Sound u) : Keeps u (deriveAll span traits t ds) fun t v => v.Usable t := by
  induction ds generalizing u t with
  | nil => exact .pure ht
  | cons d ds ih =>
    refine .of_written fun hu => (keeps_derive span _ ht (hds d (by simp))).bind fun t' v hgrows _ ht' => ?_
    exact ih ht' fun x hx => (hds x (by simp [hx])).grows hu.wellFormed hgrows

theorem keeps_declaredType {d : Declarator} (attributes : Attributes) (ht : u.Usable t) (hd : d.Sound u) :
    Keeps u (declaredType t d attributes) fun t v => v.Usable t := by
  have hsteps : ∀ {v t'}, u.WellFormed → u.Grows v → v.Usable t' →
      Keeps v (deriveAll d.span attributes.traits t' d.derivations) fun t v => v.Usable t :=
    fun hu hgrows ht' => keeps_deriveAll _ _ ht' (hd.grows hu hgrows).derivations
  refine .of_written fun hu => ?_
  unfold declaredType
  split
  · exact (keeps_vectorOf ht _ _).bind fun t' v hgrows _ ht' => hsteps hu.wellFormed hgrows ht'
  · exact (Looks.pure ht).bind fun t' ht' => hsteps hu.wellFormed (.refl u) ht'

/-- An element of a canonical array is canonical, and a pointer is no array. -/
theorem keeps_adjustParameter (ht : u.Usable t) :
    Keeps u (adjustParameter t) fun t v => v.Usable t ∧ v.IsObject t := by
  unfold adjustParameter
  refine .of_written fun hu => looks_unit.bind fun w hw => ?_
  subst hw
  have hpointer : ∀ c, w.Usable c → Keeps w (intern (.pointer c)) fun t v => v.Usable t ∧ v.IsObject t := by
    intro c hc
    refine Keeps.weaken (keeps_intern (by simpa [Shape.children] using hc) rfl fun _ => trivial) fun t v _ hv hs => ?_
    refine ⟨.of_shape hs (by simp), ?_⟩
    have hflat := hv.wellFormed.canonicalShape?_flat hs rfl
    simp [DeclUnit.IsObject, DeclUnit.isArray, DeclUnit.isFunction, hflat, Shape.map, Shape.isArray, Shape.isFunction]
  have helement : ∀ {s : Shape} {c : Ty}, w.canonicalShape? t = some s → c ∈ s.children → w.Usable c := by
    intro s c hs hc
    rw [DeclUnit.canonicalShape?_eq ht.1] at hs
    exact hu.usable hs c hc
  split
  · next hs => exact hpointer _ (helement hs (by simp [Shape.children]))
  · next hs => exact hpointer _ (helement hs (by simp [Shape.children]))
  · next hs => exact hpointer _ (helement hs (by simp [Shape.children]))
  · exact hpointer _ ht
  · exact hpointer _ ht
  · next h1 h2 h3 h4 h5 =>
    have hshape : ∀ s, w.canonicalShape? t = some s → s.isArray = false ∧ s.isFunction = false := by
      intro s hs
      cases s with
      | constantArray element size => exact absurd hs (h1 element size)
      | incompleteArray element => exact absurd hs (h2 element)
      | variableArray element => exact absurd hs (h3 element)
      | prototype result params variadic traits => exact absurd hs (h4 result params variadic traits)
      | noPrototype result traits => exact absurd hs (h5 result traits)
      | _ => exact ⟨rfl, rfl⟩
    refine .pure ⟨ht, ?_⟩
    cases hs : w.canonicalShape? t with
    | none => simp [DeclUnit.IsObject, DeclUnit.isArray, DeclUnit.isFunction, hs]
    | some s => simpa [DeclUnit.IsObject, DeclUnit.isArray, DeclUnit.isFunction, hs] using hshape s hs

end Cognate.Grammar
