import Cognate.Proofs.Readings.Derived

/-!
# Types of parameters

A parameter that is written as an array or a function is read as a pointer (`parameter_points`). In place of a function
stands the pointer to it as written. The pointer in place of an array points to the element behind all sugar, so that
the bound does not count, but the qualifiers and the typedefs of the element get lost (`parameters_eq_iff`).
-/

namespace Cognate.Grammar

variable {u v : DeclUnit} {s s' s₀ s₀' : State} {t e : Ty} {ds rest : List Derivation} {span : Span}
  {traits : FunctionTraits} {depth depth₀ : Nat}

/-! ## Steps after other steps -/

/-- The traits are those of a function. -/
theorem deriveAll_of_object (h : ds.any Derivation.isFunction = false) (t : Ty) :
    deriveAll span traits t ds = deriveAll span {} t ds := by
  induction ds generalizing t with
  | nil => rfl
  | cons d ds ih =>
    obtain ⟨hd, hds⟩ := Bool.or_eq_false_iff.1 ((List.any_cons ..).symm.trans h)
    rw [deriveAll, deriveAll, hd]
    simp only [ih hds]
    rfl

/-- Behind some steps, those of no function go on from the type that is made. -/
theorem deriveAll_append (h : rest.any Derivation.isFunction = false) (t : Ty) :
    deriveAll span traits t (ds ++ rest) = deriveAll span traits t ds >>= fun m => deriveAll span {} m rest := by
  induction ds generalizing t with
  | nil => exact (deriveAll_of_object h t).trans (pure_bind _ _).symm
  | cons d ds ih =>
    rw [List.cons_append, deriveAll, deriveAll, List.any_append, h, Bool.or_false, bind_assoc]
    simp only [ih]

theorem declaredType_append {base : Ty} {name : Option (String × Span)} {attributes : Attributes}
    (h : rest.any Derivation.isFunction = false) :
    declaredType base ⟨name, ds ++ rest, span⟩ attributes =
      declaredType base ⟨name, ds, span⟩ attributes >>= fun m => deriveAll span {} m rest := by
  unfold declaredType
  simp only [deriveAll_append h]
  split <;> rw [bind_assoc]

/-! ## Arrays and functions -/

/-- What the pointer in place of an array or a function points to. -/
def decayed? (u : DeclUnit) (t : Ty) : Option Ty :=
  match u.canonicalShape? t with
  | some (.constantArray element _) | some (.incompleteArray element) | some (.variableArray element) => some element
  | some (.prototype _ _ _ _) | some (.noPrototype _ _) => some t
  | _ => none

theorem adjustParameter_eq (t : Ty) (s : State) : adjustParameter t s =
    match decayed? s.unit t with
    | some pointee => intern (.pointer pointee) s
    | none => .ok t s := by
  refine (unit_bind_run _ s).trans ?_
  unfold decayed?
  cases s.unit.canonicalShape? t with
  | none => rfl
  | some shape => cases shape <;> rfl

theorem decayed?_of_isFunction (h : u.isFunction t = true) : decayed? u t = some t := by
  unfold decayed?
  unfold DeclUnit.isFunction at h
  cases hshape : u.canonicalShape? t with
  | none => simp [hshape] at h
  | some shape =>
    rw [hshape] at h
    cases shape <;> first | rfl | cases h

/-! ## Parameters -/

/-- How a parameter is written over a type: as an array of it, as a pointer to it, or just so. -/
inductive ParameterForm where
  | array (bound : ArrayBound)
  | pointer
  | plain
deriving DecidableEq, Repr

namespace ParameterForm

/-- The steps from the type on. -/
def steps : ParameterForm → List Derivation
  | array bound => [.array bound]
  | pointer => [.pointer .none]
  | plain => []

/-- There are no arrays of functions, and of types that stand alone only functions become pointers. -/
def fits (u : DeclUnit) (e : Ty) : ParameterForm → Bool
  | array _ => !u.isFunction e
  | pointer => true
  | plain => u.isFunction e

/-- What the parameter points to: the element of an array without its sugar, anything else as written. -/
def pointee (u : DeclUnit) (e : Ty) : ParameterForm → Ty
  | array _ => u.canonical e
  | pointer | plain => e

theorem any_steps (form : ParameterForm) : form.steps.any Derivation.isFunction = false := by
  cases form <;> rfl

theorem pointee_extends (h : u.Extends v) (he : u.contains e = true) (form : ParameterForm) :
    form.pointee v e = form.pointee u e := by
  cases form with
  | array _ => exact h.canonical he
  | pointer | plain => rfl

theorem canonical_pointee (hu : u.WellFormed) (e : Ty) (form : ParameterForm) :
    u.canonical (form.pointee u e) = u.canonical e := by
  cases form with
  | array _ => exact hu.canonical_canonical e
  | pointer | plain => rfl

end ParameterForm

/-- From one place to another, a parameter with a name is written: a type, a declarator and attributes. The steps of the
declarator up to some point make the type `e`; those of `rest` come after them. -/
inductive Parameter (depth : Nat) (e : Ty) (rest : List Derivation) (s s' : State) : Prop
  | intro {s₁ s₂ s₃ : State} {specifiers : Specifiers} {tree : DeclaratorTree} {late : Attributes}
      {ds : List Derivation} (front : (Rules.upTo (depth + 1)).specifiers s = .ok specifiers s₁)
      (stands : Stands depth tree s₁ s₂) (steps : tree.steps = ds ++ rest)
      (behind : attributes (Rules.upTo (depth + 1)) s₂ = .ok late s₃)
      (made : declaredType specifiers.type ⟨some tree.declared, ds, s₁.current.span.merge s₂.current.span⟩
        (specifiers.attributes.merge late) s₃ = .ok e s') : Parameter depth e rest s s'

/-- A parameter over the type in front, with nothing behind the declarator. -/
theorem Parameter.of_stands (specifiers : Specifiers) {tree : DeclaratorTree} {s₁ : State}
    (front : (Rules.upTo (depth + 1)).specifiers s = .ok specifiers s₁) (stands : Stands depth tree s₁ s')
    (hplain : specifiers.attributes.vectorSize = none) (hend : s'.current.token ≠ .keyword .attributes) :
    Parameter depth specifiers.type tree.steps s s' := by
  have hnone : attributes (Rules.upTo (depth + 1)) s' = .ok {} s' :=
    Rounds.loop (.done (bind_of_ok (accept_of_ne hend)))
  refine .intro front stands (show tree.steps = [] ++ tree.steps from rfl) hnone ?_
  rw [declaredType, show (specifiers.attributes.merge {}).vectorSize = none from hplain]
  rfl

/-- A name with an array behind it, and nothing else. -/
theorem Stands.array {text : String} {bound : ArrayBound} {s₁ : State} (named : s.Passes [.name text] s₁)
    (behind : Suffixed (Rules.upTo depth) s₁ (.array bound) s') (hbracket : s₁.current.token = .punct .lbracket)
    (hend : s'.current.token ≠ .punct .lbracket ∧ s'.current.token ≠ .punct .lparen) :
    Stands depth (.name [] (text, s.current.span) [.array bound]) s s' := by
  have hfront : ∀ x ∈ ([] : List (List Token × Derivation)), Prefixed s.unit x.1 x.2 := by simp
  exact .name hfront (.nil s) named (by simp [hbracket]) (.cons behind (.nil hend.1 hend.2))

/-- A star and a name, and nothing behind it. -/
theorem Stands.pointer {text : String} {s₁ : State} (star : s.Passes [.punct .star] s₁)
    (named : s₁.Passes [.name text] s') (whole : s'.current.token ≠ .punct .colonColon)
    (hend : s'.current.token ≠ .punct .lbracket ∧ s'.current.token ≠ .punct .lparen) :
    Stands depth (.name [.pointer .none] (text, s₁.current.span) []) s s' := by
  have hstar : ∀ x ∈ [([.punct .star], .pointer .none)], Prefixed s.unit x.1 x.2 := by
    intro x hx
    cases List.mem_singleton.1 hx
    exact @Prefixed.pointer s.unit [] (by simp)
  exact .name hstar star named whole (.nil hend.1 hend.2)

/-- What is left of a parameter goes on from the type `e`. -/
theorem Parameter.read (hs : s.Sound) (hrest : rest.any Derivation.isFunction = false)
    (h : Parameter depth e rest s s') : s'.Sound ∧ s'.unit.Usable e ∧
      ∃ span, parameter (Rules.upTo (depth + 1)) s = (deriveAll span {} e rest >>= adjustParameter) s' := by
  cases h with
  | @intro s₁ s₂ s₃ specifiers tree late ds front stands steps behind made =>
    have hread : (Rules.upTo (depth + 1)).declarator .either s₁ = .ok _ s₂ :=
      declarator_of_stands (by decide : Naming.either ≠ .abstract) stands
    have hrules := Rules.upTo_sound (depth + 1)
    obtain ⟨hs₁, -, hbase⟩ := (hrules.specifiers _).of_ok hs front
    obtain ⟨hs₂, hgrows₂, hd, -⟩ := (hrules.declarator _ .either).of_ok hs₁ hread
    obtain ⟨hs₃, hgrows₃, -⟩ := (keeps_attributes hrules).of_ok hs₂ behind
    have hds : Declarator.Sound s₃.unit ⟨some tree.declared, ds, s₁.current.span.merge s₂.current.span⟩ := by
      refine Declarator.Sound.grows hs₂.unit.wellFormed hgrows₃ ⟨hd.name, fun x hx => hd.derivations x ?_⟩
      rw [steps]
      exact List.mem_append_left rest hx
    obtain ⟨hs', -, he⟩ := (keeps_declaredType _ ((hgrows₂.trans hgrows₃).usable hbase) hds).of_ok hs₃ made
    refine ⟨hs', he, s₁.current.span.merge s₂.current.span, ?_⟩
    refine (bind_of_ok front).trans ((bind_of_ok hread).trans ((bind_of_ok behind).trans ?_))
    rw [steps, declaredType_append hrest, bind_assoc]
    exact bind_of_ok made

/-- A pointer in place of what is left. -/
theorem adjustParameter_pointer {c : Ty} (hu : s.unit.WellFormed) (hc : s.unit.contains c = true)
    (h : decayed? s.unit t = some c) : ∃ t' v, adjustParameter t s = .ok t' (s.withUnit v) ∧ s.unit.Enriches v ∧
      v.shape? t' = some (.pointer c) := by
  have hchildren : ∀ x ∈ (Shape.pointer c).children, s.unit.contains x = true := by simpa [Shape.children] using hc
  refine ⟨_, _, ?_, .intern hu hchildren, (DeclUnit.intern_spec hu hchildren).2.2⟩
  rw [adjustParameter_eq, h]
  rfl

/-- A step without qualifiers makes the type of its shape. -/
theorem deriveAll_single (span : Span) {d : Derivation} (hu : s.unit.WellFormed) (ht : s.unit.contains t = true)
    (hd : ∀ c ∈ d.named, s.unit.contains c = true) (hq : d.qualifiers.isEmpty = true)
    (h : d.refuses (kindOf s.unit t) = false) : ∃ m w, deriveAll span {} t [d] s = .ok m (s.withUnit w) ∧
      s.unit.Enriches w ∧ w.shape? m = some (d.shape t) := by
  obtain ⟨m, w, hrun, hw, ⟨plain, hplain, hm⟩, -⟩ := deriveAll_step hu ht hd h
  rw [if_pos hq] at hm
  exact ⟨m, w, hrun [], hw, hm ▸ hplain⟩

/-- Read as it is written, a parameter is a pointer: to the element of an array without its sugar, to anything else as
written. -/
theorem parameter_points {form : ParameterForm} (hs : s.Sound) (h : Parameter depth e form.steps s s')
    (hfits : form.fits s'.unit e = true) :
    ∃ t v, parameter (Rules.upTo (depth + 1)) s = .ok t (s'.withUnit v) ∧ s'.unit.Enriches v ∧
      v.contains e = true ∧ v.shape? t = some (.pointer (form.pointee v e)) := by
  obtain ⟨hs', he, span, hread⟩ := h.read hs form.any_steps
  have hu := hs'.unit.wellFormed
  suffices hpoints : ∃ t v, parameter (Rules.upTo (depth + 1)) s = .ok t (s'.withUnit v) ∧ s'.unit.Enriches v ∧
      v.shape? t = some (.pointer (form.pointee s'.unit e)) by
    obtain ⟨t, v, hrun, hv, ht⟩ := hpoints
    exact ⟨t, v, hrun, hv, hv.nodes.contains he.1, (form.pointee_extends hv.nodes he.1).symm ▸ ht⟩
  cases form with
  | plain =>
    obtain ⟨t, v, hrun, hv, ht⟩ := adjustParameter_pointer hu he.1 (decayed?_of_isFunction hfits)
    exact ⟨t, v, hread.trans hrun, hv, ht⟩
  | pointer =>
    obtain ⟨m, w, hrun, hw, hm⟩ := deriveAll_single span (d := .pointer .none) hu he.1
      (by simp [Derivation.named]) rfl rfl
    refine ⟨m, w, hread.trans ((bind_of_ok hrun).trans ?_), hw, hm⟩
    have hflat := (hw.wellFormed hu).canonicalShape?_flat hm rfl
    rw [adjustParameter_eq, show (s'.withUnit w).unit = w from rfl, decayed?, hflat]
    rfl
  | array bound =>
    have hrefuses : (Derivation.array bound).refuses (kindOf s'.unit e) = false := by
      rw [Derivation.refuses, ← isFunction_eq]
      simpa [ParameterForm.fits] using hfits
    obtain ⟨m, w, hrun, hw, hm⟩ := deriveAll_single span (d := .array bound) hu he.1
      (by simp [Derivation.named]) rfl hrefuses
    have hwf := hw.wellFormed hu
    have helement : decayed? w m = some (s'.unit.canonical e) := by
      rw [decayed?, hwf.canonicalShape?_flat hm (Derivation.isSugar_shape _ _), ← hw.nodes.canonical he.1]
      cases bound <;> rfl
    obtain ⟨t, v, hlast, hv, ht⟩ := adjustParameter_pointer (s := s'.withUnit w) hwf
      (hw.nodes.contains (hu.contains_canonical he.1)) helement
    exact ⟨t, v, hread.trans ((bind_of_ok hrun).trans hlast), hw.trans hv, ht⟩

/-! ## The text `const int p[3], const int *q)` -/

/-- A text whose tokens all have one place. -/
def textAt (u : DeclUnit) (ts : List Token) : State := .at 28 u (ts.map (⟨·, ⟨0, 28⟩⟩))

/-- The unit behind the first `const int`. -/
def unitOfConst : DeclUnit :=
  (((DeclUnit.empty "unit" .lp64).intern (.builtin .int)).2.qualify ⟨0⟩ { isConst := true }).2

theorem textAt_passes (u : DeclUnit) (ts ts' : List Token) (hts : ∀ t ∈ ts, t ≠ .finish) :
    (textAt u (ts ++ ts')).Passes ts (textAt u ts') := State.passes_map ts ts' hts

theorem textAt_sound {ts : List Token} (h : ∀ text, .name text ∈ ts → text = "p" ∨ text = "q") :
    (textAt (.empty "unit" .lp64) ts).Sound := by
  refine .at (DeclUnit.empty_written "unit" .lp64) fun l hl text htext => ?_
  obtain ⟨t, ht, rfl⟩ := List.mem_map.1 hl
  obtain rfl | rfl := h text (by simpa [← htext] using ht)
  · exact ⟨⟨_, _, rfl, rfl, rfl⟩, by decide⟩
  · exact ⟨⟨_, _, rfl, rfl, rfl⟩, by decide⟩

/-- What stands behind the first parameter of `const int p[3], const int *q)`. -/
def behindSized : List Token :=
  [.punct .comma, .keyword .const, .keyword .int, .punct .star, .name "q", .punct .rparen]

/-- From its first token on. -/
def sizedText : State := textAt (.empty "unit" .lp64) ([.keyword .const, .keyword .int, .name "p", .punct .lbracket,
  .literal .decimal "3", .punct .rbracket] ++ behindSized)

theorem parameter_sized :
    Parameter 12 ⟨1⟩ (ParameterForm.array (.constant 3)).steps sizedText (textAt unitOfConst behindSized) := by
  let bound : List Token := [.punct .lbracket, .literal .decimal "3", .punct .rbracket] ++ behindSized
  have hbound : Suffixed (Rules.upTo 12) (textAt unitOfConst bound) (.array (.constant 3)) _ :=
    .size (n := 3) (textAt_passes _ [.punct .lbracket] bound.tail (by decide)) rfl (by decide)
      (textAt_passes _ [.punct .rbracket] behindSized (by decide))
  exact .of_stands ⟨false, ⟨1⟩, {}⟩ (by with_unfolding_all rfl)
    (.array (textAt_passes _ [.name "p"] bound (by decide)) hbound rfl (by decide)) rfl (by decide)

theorem sizedText_sound : sizedText.Sound := textAt_sound (by simp [behindSized])

/-! ## Parameters over one type -/

/-- Two parameters over one type point to the same type behind all sugar. They are the same type exactly if they point
to the same type: all arrays of a type are one parameter, and a pointer to the type is that one as well exactly if the
type has no sugar. -/
theorem parameters_eq_iff {form form₀ : ParameterForm} (hs : s.Sound) (h : Parameter depth e form.steps s s')
    (hfits : form.fits s'.unit e = true) (hs₀ : s₀.Sound) (h₀ : Parameter depth₀ e form₀.steps s₀ s₀')
    (hfits₀ : form₀.fits s₀'.unit e = true) :
    ∃ t v t₀ v₀, parameter (Rules.upTo (depth + 1)) s = .ok t (s'.withUnit v) ∧ s'.unit.Enriches v ∧
      parameter (Rules.upTo (depth₀ + 1)) s₀ = .ok t₀ (s₀'.withUnit v₀) ∧ s₀'.unit.Enriches v₀ ∧
      v.shape? t = some (.pointer (form.pointee v e)) ∧ v₀.shape? t₀ = some (.pointer (form₀.pointee v₀ e)) ∧
      ∀ w : DeclUnit, w.WellFormed → v.Extends w → v₀.Extends w →
        w.canonical t = w.canonical t₀ ∧ (t = t₀ ↔ form.pointee w e = form₀.pointee w e) := by
  obtain ⟨t, v, hrun, hv, he, ht⟩ := parameter_points hs h hfits
  obtain ⟨t₀, v₀, hrun₀, hv₀, he₀, ht₀⟩ := parameter_points hs₀ h₀ hfits₀
  refine ⟨t, v, t₀, v₀, hrun, hv, hrun₀, hv₀, ht, ht₀, fun w hw hext hext₀ => ?_⟩
  have hshape : w.shape? t = some (.pointer (form.pointee w e)) := by
    rw [form.pointee_extends hext he]
    exact hext.shape? ht
  have hshape₀ : w.shape? t₀ = some (.pointer (form₀.pointee w e)) := by
    rw [form₀.pointee_extends hext₀ he₀]
    exact hext₀.shape? ht₀
  refine ⟨?_, fun hsame => ?_, fun hsame => ?_⟩
  · have hflat := hw.flat hshape rfl
    have hflat₀ := hw.flat hshape₀ rfl
    rw [Shape.map, form.canonical_pointee hw e] at hflat
    rw [Shape.map, form₀.canonical_pointee hw e] at hflat₀
    exact hw.unique hflat hflat₀
  · rw [hsame, hshape₀] at hshape
    exact (Shape.pointer.inj (Option.some.inj hshape)).symm
  · rw [hsame] at hshape
    exact hw.unique hshape hshape₀

/-- The first parameter of `const int p[3], const int *q)`, and that of `const int p[])`. -/
theorem parameters_eq_iff_arrays :
    let unsized := textAt (.empty "unit" .lp64)
      [.keyword .const, .keyword .int, .name "p", .punct .lbracket, .punct .rbracket, .punct .rparen]
    ∃ (t t₀ : Ty) (s s₀ : State), parameter (Rules.upTo 13) sizedText = .ok t s ∧
      parameter (Rules.upTo 13) unsized = .ok t₀ s₀ ∧
      ∀ w : DeclUnit, w.WellFormed → s.unit.Extends w → s₀.unit.Extends w → t = t₀ := by
  intro unsized
  let bound : List Token := [.punct .lbracket, .punct .rbracket, .punct .rparen]
  have hbound : Suffixed (Rules.upTo 12) (textAt unitOfConst bound) (.array .incomplete) _ :=
    .incomplete (textAt_passes _ [.punct .lbracket, .punct .rbracket] [.punct .rparen] (by decide))
  have hunsized : Parameter 12 ⟨1⟩ (ParameterForm.array .incomplete).steps unsized
      (textAt unitOfConst [.punct .rparen]) :=
    .of_stands ⟨false, ⟨1⟩, {}⟩ (by with_unfolding_all rfl)
      (.array (textAt_passes _ [.name "p"] bound (by decide)) hbound rfl (by decide)) rfl (by decide)
  obtain ⟨t, v, t₀, v₀, hrun, -, hrun₀, -, -, -, hsame⟩ := parameters_eq_iff sizedText_sound parameter_sized
    (by decide +kernel) (textAt_sound (by simp)) hunsized (by decide +kernel)
  exact ⟨t, t₀, _, _, hrun, hrun₀, fun w hw hv hv₀ => (hsame w hw hv hv₀).2.2 rfl⟩

/-- The parameters of `const int p[3], const int *q)`: a pointer to `int` and a pointer to `const int`. -/
theorem exists_parameters_ne : ∃ (s s' s₁ s₀ s₀' s₂ : State) (e t t₀ : Ty), s.Sound ∧
    Parameter 12 e (ParameterForm.array (.constant 3)).steps s s' ∧ s'.unit.isFunction e = false ∧
    parameter (Rules.upTo 13) s = .ok t s₁ ∧ s₁.Passes [.punct .comma] s₀ ∧
    Parameter 12 e ParameterForm.pointer.steps s₀ s₀' ∧ parameter (Rules.upTo 13) s₀ = .ok t₀ s₂ ∧ t ≠ t₀ := by
  -- The units that the parameters leave.
  let u := ((unitOfConst.intern (.constantArray ⟨1⟩ 3)).2.intern (.pointer ⟨0⟩)).2
  let v := (u.intern (.pointer ⟨1⟩)).2
  obtain ⟨-, -, _, hread⟩ := parameter_sized.read sizedText_sound rfl
  have hrun : parameter (Rules.upTo 13) sizedText = .ok ⟨4⟩ (textAt u behindSized) :=
    hread.trans (by with_unfolding_all rfl)
  have hcomma : (textAt u behindSized).Passes [.punct .comma] (textAt u behindSized.tail) :=
    textAt_passes u [.punct .comma] _ (by decide)
  have hstands : Stands 12 _ (textAt u [.punct .star, .name "q", .punct .rparen]) (textAt u [.punct .rparen]) :=
    .pointer (textAt_passes u [.punct .star] [.name "q", .punct .rparen] (by decide))
      (textAt_passes u [.name "q"] [.punct .rparen] (by decide)) (by decide) (by decide)
  have hpointer : Parameter 12 ⟨1⟩ ParameterForm.pointer.steps (textAt u behindSized.tail)
      (textAt u [.punct .rparen]) := .of_stands ⟨false, ⟨1⟩, {}⟩ (by with_unfolding_all rfl) hstands rfl (by decide)
  have hsound := ((keeps_parameter (Rules.upTo_sound 13)).of_ok sizedText_sound hrun).1
  have hsound₀ := ((looks_accept _).of_ok hsound hcomma.accept).1
  obtain ⟨-, -, _, hread₀⟩ := hpointer.read hsound₀ rfl
  have hrun₀ : parameter (Rules.upTo 13) (textAt u behindSized.tail) = .ok ⟨5⟩ (textAt v [.punct .rparen]) :=
    hread₀.trans (by with_unfolding_all rfl)
  exact ⟨_, _, _, _, _, _, ⟨1⟩, ⟨4⟩, ⟨5⟩, sizedText_sound, parameter_sized, by decide +kernel, hrun, hcomma, hpointer,
    hrun₀, by decide⟩

end Cognate.Grammar
