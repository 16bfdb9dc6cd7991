import Cognate.Proofs.Endings.Steps
import Cognate.Proofs.Grammar.Texts

/-!
# How readers of parts end

The rules for nested parts are asked to end where fewer tokens are left than a bound (`Rules.EndBelow`). Readers of
attributes, of types in parentheses and of constant expressions then end with as many tokens as the bound, since they
read a nested part only behind a token of their own. The steps that build a type read nothing.
-/

namespace Cognate.Grammar

/-! ## What rules are to do -/

/-- A known value fits 128 bits. -/
def Setting.Known (W : Setting) (value : Option Int) : Prop := W.bounded → ∀ n ∈ value, Fits n

/-- A vector size is asked for at a place of the text. -/
def Attributes.Placed (W : Setting) (a : Attributes) : Prop := ∀ size ∈ a.vectorSize, W.Place size.2

structure Declarator.Placed (W : Setting) (naming : Naming) (d : Declarator) : Prop where
  span : W.Place d.span
  name : ∀ found ∈ d.name, W.Place found.2
  named : naming = .named → d.name.isSome = true

variable {α : Type} {W : Setting} {rules : Rules} {s t : State} {n : Nat} {span : Span}

/-- The reader ends, from wherever fewer than `n` tokens are left. -/
def EndsBelow (W : Setting) (n : Nat) (p : Parse α) (Q : State → α → State → Prop) : Prop :=
  ∀ s : State, s.Placed W → s.left < n → Ends W p s (Q s)

/-- Each rule ends below the bound, and all but a declarator move on. -/
structure Rules.EndBelow (W : Setting) (n : Nat) (rules : Rules) : Prop where
  typeName : EndsBelow W n rules.typeName fun s _ t => t.left < s.left
  specifiers : EndsBelow W n rules.specifiers fun s a t => t.left < s.left ∧ a.attributes.Placed W
  declarator : ∀ naming, EndsBelow W n (rules.declarator naming) fun _ d _ => d.Placed W naming
  constant : EndsBelow W n rules.constant fun s value t => t.left < s.left ∧ W.Known value
  binary : ∀ level, EndsBelow W n (rules.binary level) fun s value t => t.left < s.left ∧ W.Known value
  unary : EndsBelow W n rules.unary fun s value t => t.left < s.left ∧ W.Known value

theorem Setting.known_none (W : Setting) : W.Known none := by
  rintro - _ ⟨⟩

theorem Setting.known_some {m : Int} (h : W.bounded → Fits m) : W.Known (some m) := by
  rintro hW _ ⟨⟩
  exact h hW

theorem Setting.Known.map {value : Option Int} (h : W.Known value) {g : Int → Int} (hg : ∀ m, Fits m → Fits (g m)) :
    W.Known (value.map g) := by
  rintro hW m hm
  obtain ⟨k, hk, rfl⟩ := Option.map_eq_some_iff.1 hm
  exact hg k (h hW k hk)

/-! ## Types in parentheses -/

theorem Ends.atType {f : Bool → Parse α} {R : α → State → Prop}
    (h : Ends W (f (startsType s.unit s.current.token)) s R) : Ends W (Grammar.atType >>= f) s R := h

/-- A type stands in parentheses here, as far as one can see; or another reader has to go on. -/
theorem Ends.atParenthesizedType {p q : Parse α} {R : α → State → Prop} (hs : s.Placed W)
    (hp : s.current.token = .punct .lparen → Ends W p s R) (hq : Ends W q s R) :
    Ends W (do if ← Grammar.atParenthesizedType then p else q) s R := by
  have hat : Ends W Grammar.atParenthesizedType s fun b t =>
      t = s ∧ (b = true → s.current.token = .punct .lparen) := by
    refine .check (fun h => .unit (.peek hs fun next => .pure hs ⟨rfl, fun _ => h⟩)) fun _ => .pure hs ⟨rfl, by simp⟩
  refine hat.bind fun b t _ _ hb => ?_
  obtain ⟨rfl, hlparen⟩ := hb
  exact .ite (fun h => hp (hlparen h)) fun _ => hq

theorem parenthesizedType_ends (hr : rules.EndBelow W n) (hs : s.Placed W) (hn : s.left ≤ n)
    (hlparen : s.current.token = .punct .lparen) :
    Ends W (parenthesizedType rules) s fun _ t => t.left < s.left := by
  refine .advance hs (by simp [hlparen]) fun t ht hlt => ?_
  refine (hr.typeName t ht (hlt.trans_le hn)).bind fun a t' ht' hle _ => ?_
  exact .expect ht' fun _ t'' ht'' hlt' => .pure ht'' (by omega)

/-! ## Constant expressions -/

theorem checked_cause {m : Int} {cause : Cause} (h : checked m = .error cause) : cause.IsRefusal := by
  unfold checked at h
  split at h <;> cases h
  simp

theorem shiftAmount_cause {m : Int} {cause : Cause} (h : shiftAmount m = .error cause) : cause.IsRefusal := by
  unfold shiftAmount at h
  split at h <;> cases h
  simp

theorem fold_cause {op : BinaryOp} {a b : Int} {cause : Cause} (h : fold op a b = .error cause) :
    cause.IsRefusal := by
  have hmap : ∀ {γ δ : Type} {r : Except Cause γ} {g : γ → δ}, r.map g = .error cause → r = .error cause := by
    intro γ δ r g h
    cases r with
    | error _ => exact congrArg _ (Except.error.inj h)
    | ok _ => cases h
  cases op with
  | add | subtract | multiply => exact checked_cause h
  | divide =>
    simp only [fold] at h
    split_ifs at h
    · cases h
      simp
    · exact checked_cause h
  | remainder =>
    simp only [fold] at h
    split_ifs at h
    · cases h
      simp
    · exact checked_cause (hmap h)
  | shiftLeft | shiftRight => exact shiftAmount_cause (hmap h)
  | _ => cases h

theorem evaluated_ends {r : Except Cause Int} (hs : s.Placed W) (hspan : W.Place span)
    (hok : ∀ m, r = .ok m → W.bounded → Fits m) (herror : ∀ cause, r = .error cause → cause.IsRefusal) :
    Ends W (evaluated span r) s fun value _ => W.Known value := by
  cases r with
  | ok m => exact .pure hs (Setting.known_some (hok m rfl))
  | error cause => exact .fail hs hspan (herror cause rfl)

theorem literalValue_ends {value : Option Int} {refusal : Cause} (hs : s.Placed W) (hspan : W.Place span)
    (hvalue : ∀ m, value = some m → Fits m) (hrefusal : refusal.IsRefusal) :
    Ends W (literalValue value refusal span) s fun value _ => W.Known value := by
  cases value with
  | some m => exact .pure hs (Setting.known_some fun _ => hvalue m rfl)
  | none => exact .fail hs hspan hrefusal

/-- Whatever is no fault is a token of its own, and the end is a fault. -/
theorem primary_ends (hr : rules.EndBelow W n) (hs : s.Placed W) (hn : s.left ≤ n) :
    Ends W (primary rules) s fun value t => t.left < s.left ∧ W.Known value := by
  refine (advance_ends hs).bind fun l t ht _ hl => ?_
  obtain ⟨rfl, hlt⟩ := hl
  have hliteral : s.current.token ≠ .finish → ∀ {value refusal}, (∀ m, value = some m → Fits m) →
      refusal.IsRefusal → Ends W (literalValue value refusal s.current.span) t fun value t =>
        t.left < s.left ∧ W.Known value := fun htok _ _ hvalue hrefusal =>
    (literalValue_ends ht hs.current hvalue hrefusal).weaken fun _ _ hle hknown => ⟨hle.trans_lt (hlt htok), hknown⟩
  split
  · next htok => exact .unit (hliteral (by simp [htok]) (fun _ => characterValue?_fits) (by simp))
  · exact .fail ht hs.current (by simp)
  · exact .fail ht hs.current (by simp)
  · next htok => exact hliteral (by simp [htok]) (fun _ => integerValue?_fits) (by simp)
  · next text htok =>
    refine .unit (.pure ht ⟨hlt (by simp [htok]), fun hW m hm => ?_⟩)
    obtain ⟨⟨value, type⟩, hc, rfl⟩ := Option.map_eq_some_iff.1 hm
    exact (ht.unit hW).constants hc
  · next htok =>
    replace hlt := hlt (by simp [htok])
    refine (hr.constant t ht (hlt.trans_le hn)).bind fun value t' ht' _ hvalue => ?_
    exact .expect ht' fun _ t'' ht'' hlt' => .pure ht'' ⟨by omega, hvalue.2⟩
  · exact .fail ht hs.current (by simp)

theorem valueType_ends (hs : s.Placed W) (text : String) (hspan : W.Place span) :
    Ends W (valueType text span) s fun _ _ => True := by
  refine .unit ?_
  cases s.unit.value? text with
  | some decl => exact .pure hs trivial
  | none => exact .fail hs hspan (by simp)

theorem measuredType_ends (hr : rules.EndBelow W n) (hs : s.Placed W) (hn : s.left ≤ n) :
    Ends W (measuredType rules) s fun _ _ => True := by
  refine .atParenthesizedType hs (fun h => ?_) ?_
  · exact (parenthesizedType_ends hr hs hn h).plain
  · refine (accept_ends hs (by simp)).bind fun parenthesized t ht _ _ => ?_
    refine (name_ends ht).bind fun found t' ht' _ hspan => ?_
    refine .ite (fun _ => ?_) fun _ => valueType_ends ht' _ hspan
    exact .expect ht' fun _ t'' ht'' _ => valueType_ends ht'' _ hspan

/-- Layouts are made of words of 64 bits. -/
theorem measured_fits {e : Extent} (he : e.InWords) (isAlign : Bool) :
    Fits (if isAlign then (e.align / 8 : Nat) else e.bytes : Int) := by
  obtain ⟨hwidth, halign⟩ := he
  have hlimit : wordLimit = 2 ^ 64 := rfl
  refine fits_of_bounds ?_ ?_ <;> unfold Extent.bytes <;> split <;> omega

theorem measure_ends (hr : rules.EndBelow W n) (hs : s.Placed W) (hn : s.left ≤ n)
    (htok : s.current.token ≠ .finish) :
    Ends W (measure rules) s fun value t => t.left < s.left ∧ W.Known value := by
  refine .advance hs htok fun t ht hlt => ?_
  refine (measuredType_ends hr ht (by omega)).bind fun type t' ht' hle _ => ?_
  refine .measured ht' hs.current fun e he => ?_
  split
  · next e =>
    refine .pure ht' ⟨by omega, Setting.known_some fun hW => ?_⟩
    exact measured_fits ((ht'.unit hW).extent_inWords (DeclUnit.extent_eq_some.2 he)) _
  · exact .unit (.fail ht' hs.current (by simp))

theorem convertTo_fits {u : DeclUnit} {type : Ty} {m : Int} (h : Fits m) : Fits (convertTo u type m) := by
  unfold convertTo
  split
  · exact convert_fits h
  · exact h

theorem unary_ends (hr : rules.EndBelow W n) (hs : s.Placed W) (hn : s.left ≤ n) :
    Ends W (unary rules) s fun value t => t.left < s.left ∧ W.Known value := by
  -- An operator in front of an operand.
  have hoperand : s.current.token ≠ .finish → ∀ {f : Option Int → Parse (Option Int)},
      (∀ value t, t.Placed W → W.Known value → Ends W (f value) t fun value _ => W.Known value) →
      Ends W (do let _ ← advance; f (← rules.unary)) s fun value t => t.left < s.left ∧ W.Known value := by
    intro htok f hf
    refine .advance hs htok fun t ht hlt => (hr.unary t ht (by omega)).bind fun value t' ht' _ hvalue => ?_
    exact (hf value t' ht' hvalue.2).weaken fun _ _ hle hknown => ⟨by omega, hknown⟩
  refine .here (.atParenthesizedType hs (fun h => ?_) (.current ?_))
  · refine (parenthesizedType_ends hr hs hn h).bind fun type t ht _ hlt => ?_
    refine (hr.unary t ht (by omega)).bind fun value t' ht' _ hvalue => .unit (.pure ht' ⟨by omega, ?_⟩)
    exact hvalue.2.map fun _ => convertTo_fits
  · split
    · next htok =>
      refine hoperand (by simp [htok]) fun value t ht hvalue => ?_
      split
      · exact evaluated_ends ht hs.current (fun _ hm _ => checked_fits hm) fun _ => checked_cause
      · exact .pure ht W.known_none
    · next htok =>
      refine .advance hs (by simp [htok]) fun t ht hlt => ?_
      exact (hr.unary t ht (by omega)).weaken fun _ _ hle hvalue => ⟨by omega, hvalue.2⟩
    · next htok =>
      exact hoperand (by simp [htok]) fun value t ht hvalue => .pure ht (hvalue.map fun _ => complement_fits)
    · next htok =>
      exact hoperand (by simp [htok]) fun value t ht hvalue => .pure ht (hvalue.map fun _ _ => truth_fits _)
    · next htok => exact measure_ends hr hs hn (by simp [htok])
    · next htok => exact measure_ends hr hs hn (by simp [htok])
    · exact primary_ends hr hs hn

theorem binary_ends (hr : rules.EndBelow W n) (hs : s.Placed W) (hn : s.left ≤ n) (least : Nat) :
    Ends W (binary rules least) s fun value t => t.left < s.left ∧ W.Known value := by
  refine (unary_ends hr hs hn).bind fun first t ht _ hfirst => ?_
  refine (loop_ends (Q := fun value _ => W.Known value) (fun value _ => W.Known value) ht hfirst.2
    fun left t' ht' hle hleft => .current ?_).weaken fun _ _ hle hknown => ⟨by omega, hknown⟩
  split
  · exact .pure ht' hleft
  · next op hop =>
    refine .ite (fun _ => .pure ht' hleft) fun _ => ?_
    have htok : t'.current.token ≠ .finish := fun h => by simp [h, Token.binaryOp?] at hop
    refine .advance ht' htok fun t₂ ht₂ hlt => (hr.binary _ t₂ ht₂ (by omega)).bind fun right t₃ ht₃ hle hright => ?_
    split
    · next a b =>
      have hfits : ∀ m, fold op a b = .ok m → W.bounded → Fits m :=
        fun m hm hW => fold_fits (hleft hW a rfl) (hright.2 hW b rfl) hm
      refine (evaluated_ends ht₃ ht'.current hfits fun _ => fold_cause).bind fun value t₄ ht₄ hle hvalue => ?_
      exact .pure ht₄ ⟨by omega, hvalue⟩
    · exact .pure ht₃ ⟨by omega, W.known_none⟩

theorem constant_ends (hr : rules.EndBelow W n) (hs : s.Placed W) (hn : s.left ≤ n) :
    Ends W (constant rules) s fun value t => t.left < s.left ∧ W.Known value := by
  refine (binary_ends hr hs hn 0).bind fun condition t ht _ hcondition => ?_
  refine .accept ht (by simp) (fun _ t₁ ht₁ hlt => ?_) fun _ => .pure ht hcondition
  refine (hr.constant t₁ ht₁ (by omega)).bind fun yes t₂ ht₂ hle hyes => .expect ht₂ fun _ t₃ ht₃ hlt₃ => ?_
  refine (hr.constant t₃ ht₃ (by omega)).bind fun no t₄ ht₄ hle₄ hno => .pure ht₄ ⟨by omega, fun hW m hm => ?_⟩
  obtain ⟨k, -, hk⟩ := Option.bind_eq_some_iff.1 hm
  split at hk
  · exact hyes.2 hW m hk
  · exact hno.2 hW m hk

/-! ## Attributes -/

theorem attributeName_ends (hs : s.Placed W) :
    Ends W attributeName s fun _ t => t = s ∧ s.current.token ≠ .finish := by
  refine .current ?_
  split
  · next htok => exact .pure hs ⟨rfl, by simp [htok]⟩
  · next htok => exact .pure hs ⟨rfl, by simp [htok]⟩
  · exact .fail hs hs.current (by simp)

theorem oneAttribute_ends (hc : EndsBelow W n rules.constant fun s value t => t.left < s.left ∧ W.Known value)
    (hs : s.Placed W) (hn : s.left ≤ n) {before : Attributes} (hbefore : before.Placed W) :
    Ends W (oneAttribute rules before) s fun a t => t.left < s.left ∧ a.Placed W := by
  refine .here ((attributeName_ends hs).bind fun name t _ _ ht => ?_)
  obtain ⟨rfl, htok⟩ := ht
  refine .advance hs htok fun t₁ ht₁ hlt => .ite (fun _ => ?_) fun _ => ?_
  · refine .expect ht₁ fun _ t₂ ht₂ hlt₂ => (hc t₂ ht₂ (by omega)).bind fun value t₃ ht₃ hle _ => ?_
    split
    · exact .fail ht₃ hs.current (by simp)
    · refine .expect ht₃ fun _ t₄ ht₄ hlt₄ => .pure ht₄ ⟨by omega, ?_⟩
      rintro _ ⟨⟩
      exact hs.current
  · refine .ite (fun _ => .pure ht₁ ⟨hlt, hbefore⟩) fun _ => ?_
    split
    · exact .pure ht₁ ⟨hlt, hbefore⟩
    · refine .check (fun _ => ?_) fun _ => .pure ht₁ ⟨hlt, hbefore⟩
      exact (skipGroup_ends ht₁).bind fun _ t₂ ht₂ hle _ => .pure ht₂ ⟨by omega, hbefore⟩

theorem attributeList_ends (hc : EndsBelow W n rules.constant fun s value t => t.left < s.left ∧ W.Known value)
    (hs : s.Placed W) (hn : s.left ≤ n) {before : Attributes} (hbefore : before.Placed W) :
    Ends W (attributeList rules before) s fun a _ => a.Placed W := by
  refine loop_ends (fun before _ => before.Placed W) hs hbefore fun before t ht hle hbefore => ?_
  refine .check (fun _ => .pure ht hbefore) fun _ => .accept ht (by simp) (fun _ t₁ ht₁ hlt => ?_) fun _ => ?_
  · exact .pure ht₁ ⟨hlt, hbefore⟩
  · exact (oneAttribute_ends hc ht (by omega) hbefore).bind fun a t₁ ht₁ _ ha => .pure ht₁ ha

/-- Where a list of attributes stands, it is read. -/
theorem attributes_ends (hc : EndsBelow W n rules.constant fun s value t => t.left < s.left ∧ W.Known value)
    (hs : s.Placed W) (hn : s.left ≤ n) : Ends W (attributes rules) s fun a t =>
      a.Placed W ∧ (s.current.token = .keyword .attributes → t.left < s.left) := by
  refine loop_ends (fun before t => before.Placed W ∧ (t = s ∨ t.left < s.left)) hs ⟨by rintro _ ⟨⟩, .inl rfl⟩
    fun before t ht hle ⟨hbefore, hmoved⟩ => ?_
  refine .accept ht (by simp) (fun _ t₁ ht₁ hlt => ?_) fun htok => .pure ht ⟨hbefore, fun h => ?_⟩
  · refine .expect ht₁ fun _ t₂ ht₂ hlt₂ => .expect ht₂ fun _ t₃ ht₃ hlt₃ => ?_
    refine (attributeList_ends hc ht₃ (by omega) hbefore).bind fun after t₄ ht₄ hle₄ hafter => ?_
    exact .expect ht₄ fun _ t₅ ht₅ hlt₅ => .expect ht₅ fun _ t₆ ht₆ hlt₆ =>
      .pure ht₆ ⟨by omega, hafter, .inr (by omega)⟩
  · rcases hmoved with rfl | hlt
    · exact absurd h htok
    · exact hlt

/-! ## Derived types -/

theorem checkResult_ends (hs : s.Placed W) (t : Ty) (hspan : W.Place span) :
    Ends W (checkResult t span) s fun _ _ => True :=
  .unit (.ite (fun _ => .fail hs hspan (by simp)) fun _ => .pure hs trivial)

theorem vectorCount_cause {bytes : Int} {elementBytes : Nat} (h : vectorCount bytes elementBytes = .error cause) :
    cause.IsRefusal := by
  unfold vectorCount at h
  split at h
  · cases h
    simp
  · dsimp only at h
    split at h <;> cases h
    simp

/-- The elements of a vector are of a builtin type. -/
theorem vectorOf_ends (hs : s.Placed W) (element : Ty) (bytes : Int) (hspan : W.Place span) :
    Ends W (vectorOf element bytes span) s fun _ _ => True := by
  refine .unit (.measured hs hspan fun o _ => ?_)
  split
  · exact .fail hs hspan (by simp)
  · next e he =>
    obtain ⟨-, hscalar⟩ := Option.filter_eq_some_iff.1 he
    obtain ⟨b, hb, -⟩ := (Option.any_eq_true _ _).1 hscalar
    cases h : vectorCount bytes e.bytes with
    | error cause => exact .fail hs hspan (vectorCount_cause h)
    | ok count =>
      exact (intern_ends hs (.vector element count .generic) trivial ⟨(vectorCount_eq_ok h).1, b, hb⟩).plain

theorem qualified_ends (hs : s.Placed W) (shape : Shape) (hdeclared : s.unit.Declared shape)
    (hpacked : s.unit.Packed shape) (q : Qualifiers) : Ends W (qualified shape q) s fun _ _ => True :=
  (intern_ends hs shape hdeclared hpacked).bind fun t _ ht _ _ =>
    (build_ends ht fun hu => hu.qualify t q).plain

theorem derive_ends (hs : s.Placed W) (hspan : W.Place span) (traits : FunctionTraits) (t : Ty) (d : Derivation) :
    Ends W (derive span traits t d) s fun _ _ => True := by
  have hintern : ∀ {s' : State} {shape : Shape}, s'.Placed W → s'.unit.Declared shape → s'.unit.Packed shape →
      Ends W (intern shape) s' fun _ _ => True :=
    fun hs' hdeclared hpacked => (intern_ends hs' _ hdeclared hpacked).plain
  cases d with
  | pointer q => exact qualified_ends hs (.pointer t) trivial trivial q
  | blockPointer q => exact qualified_ends hs (.blockPointer t) trivial trivial q
  | memberPointer owner q => exact qualified_ends hs (.memberPointer t owner) trivial trivial q
  | lvalueRef => exact hintern hs trivial trivial
  | rvalueRef => exact hintern hs trivial trivial
  | array bound =>
    refine .unit (.ite (fun _ => .fail_bind hs hspan (by simp)) fun _ => ?_)
    cases bound <;> exact hintern hs trivial trivial
  | function params variadic =>
    exact (checkResult_ends hs t hspan).bind fun _ s' hs' _ _ => hintern hs' trivial trivial
  | noPrototype => exact (checkResult_ends hs t hspan).bind fun _ s' hs' _ _ => hintern hs' trivial trivial

theorem deriveAll_ends (hs : s.Placed W) (hspan : W.Place span) (traits : FunctionTraits) (t : Ty)
    (ds : List Derivation) : Ends W (deriveAll span traits t ds) s fun _ _ => True := by
  induction ds generalizing s t with
  | nil => exact .pure hs trivial
  | cons d ds ih => exact (derive_ends hs hspan _ t d).bind fun t' s' hs' _ _ => ih hs' t'

theorem declaredType_ends (hs : s.Placed W) (base : Ty) {d : Declarator} {attributes : Attributes}
    (hspan : W.Place d.span) (hattributes : attributes.Placed W) :
    Ends W (declaredType base d attributes) s fun _ _ => True := by
  unfold declaredType
  split
  · next bytes span hsize =>
    refine (vectorOf_ends hs base bytes (hattributes _ hsize)).bind fun t s' hs' _ _ => ?_
    exact deriveAll_ends hs' hspan _ t _
  · exact deriveAll_ends hs hspan _ base _

theorem Attributes.Placed.merge {early late : Attributes} (hearly : early.Placed W) (hlate : late.Placed W) :
    (early.merge late).Placed W := by
  intro size hsize
  rcases hl : late.vectorSize with _ | found
  · exact hearly size (by simpa [Attributes.merge, hl] using hsize)
  · exact hlate size (by simpa [Attributes.merge, hl] using hsize)

theorem adjustParameter_ends (hs : s.Placed W) (t : Ty) : Ends W (adjustParameter t) s fun _ _ => True := by
  have hintern : ∀ c, Ends W (intern (.pointer c)) s fun _ _ => True :=
    fun c => (intern_ends hs (.pointer c) trivial trivial).plain
  refine .unit ?_
  split
  all_goals first | exact hintern _ | exact .pure hs trivial

end Cognate.Grammar
