import Cognate.Proofs.Endings.Declarators

/-!
# How readers of specifiers end

Records and enums read their members and constants behind an opening brace, and each specifier moves on. Specifiers
without any token name no type, so that whatever specifiers are read is more than nothing. Constants of an enum are
numbers of 128 bits, the one that a next constant would have included.
-/

namespace Cognate.Grammar

variable {W : Setting} {rules : Rules} {s t : State} {n : Nat} {tag : Tag} {span : Span} {name : Option String}

/-! ## Tagged types -/

theorem addTagged_bounded {u : DeclUnit} (hu : u.Bounded) (tag : Tag) (name : Option String) :
    (addTagged tag name u).2.Bounded := by
  cases tag with
  | enum => exact hu.declareEnum name
  | struct | union | classTag => exact hu.declareRecord _ name

/-! A new type of a tag changes the unit, and the reader stays where it is. -/

theorem declareTagged_ends (hs : s.Placed W) (tag : Tag) (name : Option String) :
    Ends W (declareTagged tag name) s fun _ t => t.current = s.current := by
  rw [declareTagged_eq]
  exact build_ends hs fun hu => addTagged_bounded hu tag name

theorem taggedType_ends (hs : s.Placed W) (tag : Tag) (name : String) (hspan : W.Place span) :
    Ends W (taggedType tag name span) s fun _ t => t.current = s.current := by
  refine .unit ?_
  split
  · exact .ite (fun _ => .pure hs rfl) fun _ => .fail hs hspan (by simp)
  · refine (declareTagged_ends hs tag (some name)).bind fun t s₁ hs₁ _ h₁ => ?_
    refine (define_ends hs₁ hspan fun _ hu => hu.defineTag_leaves name t).bind fun _ s₂ hs₂ _ h₂ => ?_
    exact .pure hs₂ (h₂.trans h₁)

theorem bodyOwner_ends (hs : s.Placed W) (tag : Tag) (name : Option String) (hspan : W.Place span) :
    Ends W (bodyOwner tag name span) s fun _ t => t.current = s.current := by
  cases name with
  | none => exact declareTagged_ends hs tag none
  | some text => exact taggedType_ends hs tag text hspan

theorem withoutBody_ends (hs : s.Placed W) (tag : Tag) (name : Option String) (hspan : W.Place span) :
    Ends W (withoutBody tag name span) s fun _ _ => True := by
  cases name with
  | none => exact .here (.fail hs hs.current (by simp))
  | some text => exact (taggedType_ends hs tag text hspan).plain

/-! ## Records -/

theorem member_ends (hr : rules.EndBelow W n) (hs : s.Placed W) (hn : s.left < n) {specifiers : Specifiers}
    (hearly : specifiers.attributes.Placed W) (before : List (String × Ty)) :
    Ends W (member rules specifiers before) s fun _ _ => True := by
  refine (hr.declarator .named s hs hn).bind fun d t₁ ht₁ hle₁ hd => ?_
  refine .check (fun _ => .here (.fail_bind ht₁ ht₁.current (by simp))) fun _ => ?_
  refine (attributes_ends hr.constant ht₁ (by omega)).bind fun late t₂ ht₂ _ hlate => ?_
  refine (declaredType_ends ht₂ _ hd.span (hearly.merge hlate.1)).bind fun t t₃ ht₃ _ _ => ?_
  obtain ⟨found, hfound⟩ := Option.isSome_iff_exists.1 (hd.named rfl)
  have hspan : W.Place (d.name.getD ("", ⟨0, 0⟩)).2 := by
    rw [hfound]
    exact hd.name found hfound
  exact .ite (fun _ => .fail ht₃ hspan (by simp)) fun _ => .pure ht₃ trivial

theorem memberList_ends (hr : rules.EndBelow W n) (hs : s.Placed W) (hn : s.left < n) {specifiers : Specifiers}
    (hearly : specifiers.attributes.Placed W) (before : List (String × Ty)) :
    Ends W (memberList rules specifiers before) s fun _ _ => True := by
  refine Ends.bind (Q := fun _ _ => True) (loop_ends (fun _ _ => True) hs trivial fun before t ht hle _ => ?_)
    fun after t ht _ _ => .expect ht fun _ t₁ ht₁ _ => .pure ht₁ trivial
  refine (member_ends hr ht (by omega) hearly before).bind fun after t₁ ht₁ hle₁ _ => ?_
  exact .accept ht₁ (by simp) (fun _ t₂ ht₂ hlt => .pure ht₂ ⟨by omega, trivial⟩) fun _ => .pure ht₁ trivial

theorem members_ends (hr : rules.EndBelow W n) (hs : s.Placed W) (hn : s.left < n) (tag : Tag) (hspan : W.Place span) :
    Ends W (members rules tag span) s fun _ _ => True := by
  refine loop_ends (fun _ _ => True) hs trivial fun before t ht hle _ => ?_
  refine .check (fun _ => .pure ht trivial) fun _ => .atEnd (.fail ht hspan (by simp)) fun _ => ?_
  refine (hr.specifiers t ht (by omega)).bind fun specifiers t₁ ht₁ _ ⟨hlt, hearly⟩ => ?_
  refine .accept ht₁ (by simp) (fun _ t₂ ht₂ hlt₂ => .unit ?_) fun _ => ?_
  · exact .ite (fun _ => .pure ht₂ ⟨by omega, trivial⟩) fun _ => .pure ht₂ ⟨by omega, trivial⟩
  · refine (memberList_ends hr ht₁ (by omega) hearly before).bind fun after t₂ ht₂ hle₂ _ => ?_
    exact .pure ht₂ ⟨by omega, trivial⟩

theorem record_ends (hr : rules.EndBelow W n) (hs : s.Placed W) (hn : s.left ≤ n) (tag : Tag) (hspan : W.Place span) :
    Ends W (record rules tag span) s fun _ _ => True := by
  refine (attributes_ends hr.constant hs hn).bind fun _ t₁ ht₁ hle₁ _ => ?_
  refine (name?_ends ht₁).bind fun r t₂ ht₂ hle₂ _ => ?_
  refine .check (fun hbrace => ?_) fun _ => withoutBody_ends ht₂ tag _ hspan
  refine (bodyOwner_ends ht₂ tag _ hspan).bind fun t t₃ ht₃ hle₃ hstays => ?_
  refine .advance ht₃ (by simp [hstays, hbrace]) fun t₄ ht₄ hlt₄ => ?_
  refine (members_ends hr ht₄ (by omega) tag hspan).bind fun fields t₅ ht₅ _ _ => ?_
  refine (expect_ends ht₅ .rbrace).bind fun closing t₆ ht₆ _ hclosing => ?_
  refine (define_ends ht₆ (W.merge hspan hclosing.1) fun _ hu => hu.completeRecord_leaves t fields).bind
    fun _ t₇ ht₇ _ _ => ?_
  exact .pure ht₇ trivial

/-! ## Enums -/

theorem enumType_ends (hs : s.Placed W) (values : List Int) (hspan : W.Place span) :
    Ends W (enumType values span) s fun _ _ => True := by
  refine .unit ?_
  split
  · next b _ => exact (intern_ends hs (.builtin b) trivial trivial).plain
  · exact .fail hs hspan (by simp)

theorem checkValues_ends (hs : s.Placed W) (base : Ty) (values : List Int) (hspan : W.Place span) :
    Ends W (checkValues base values span) s fun _ _ => True := by
  refine .unit ?_
  split
  · exact .pure hs trivial
  · split
    · exact .pure hs trivial
    · split
      · exact .fail hs hspan (by simp)
      · exact .pure hs trivial

/-- The value of a constant and the one behind it are known to fit. -/
theorem enumerator_ends (hr : rules.EndBelow W n) (hs : s.Placed W) (hn : s.left ≤ n) (t : Ty) {e : Enumeration}
    (he : W.Known e.next) : Ends W (enumerator rules t e) s fun e _ => W.Known e.next := by
  have hdefine : ∀ {s : State} {text : String} {span : Span} {value : Int}, s.Placed W → W.Place span →
      (W.bounded → Fits value) → Ends W (do
        define span (·.defineConstant text value t)
        return (⟨e.constants ++ [(text, value)], fits? (value + 1)⟩ : Enumeration)) s fun e _ => W.Known e.next := by
    intro s text span value hs hspan hvalue
    refine (define_ends hs hspan fun hW hu => hu.defineConstant_leaves (hvalue hW) text t).bind fun _ t₁ ht₁ _ _ => ?_
    refine .pure ht₁ fun _ m hm => ?_
    obtain ⟨hfits, rfl⟩ := fits?_eq_some.1 hm
    exact hfits
  refine (name_ends hs).bind fun found t₁ ht₁ hle₁ hspan => .accept ht₁ (by simp) (fun _ t₂ ht₂ hlt => ?_) fun _ => ?_
  · refine (hr.constant t₂ ht₂ (by omega)).bind fun value t₃ ht₃ _ hvalue => ?_
    split
    · next m => exact hdefine ht₃ hspan fun hW => hvalue.2 hW m rfl
    · exact .fail_bind ht₃ hspan (by simp)
  · split
    · next m hm => exact hdefine ht₁ hspan fun hW => he hW m hm
    · exact .fail_bind ht₁ hspan (by simp)

theorem enumerators_ends (hr : rules.EndBelow W n) (hs : s.Placed W) (hn : s.left ≤ n) (t : Ty) :
    Ends W (enumerators rules t) s fun _ _ => True := by
  have hzero : W.Known (some 0) := Setting.known_some fun _ => fits_of_bounds (by decide) (by decide)
  refine loop_ends (fun e _ => W.Known e.next) hs hzero fun e t₁ ht₁ hle₁ he => ?_
  refine .check (fun _ => .pure ht₁ trivial) fun _ => ?_
  refine (enumerator_ends hr ht₁ (by omega) t he).bind fun e' t₂ ht₂ hle₂ he' => ?_
  exact .accept ht₂ (by simp) (fun _ t₃ ht₃ hlt => .pure ht₃ ⟨by omega, he'⟩) fun _ => .pure ht₂ trivial

theorem enumerationEnd_ends (hr : rules.EndBelow W n) (hs : s.Placed W) (hn : s.left ≤ n) (name : Option String)
    (given : Option Ty) (hspan : W.Place span) : Ends W (enumerationEnd rules span name given) s fun _ _ => True := by
  refine .check (fun hbrace => ?_) fun _ => withoutBody_ends hs .enum name hspan
  refine (bodyOwner_ends hs .enum name hspan).bind fun t t₁ ht₁ hle₁ hstays => ?_
  refine .advance ht₁ (by simp [hstays, hbrace]) fun t₂ ht₂ hlt₂ => ?_
  refine (enumerators_ends hr ht₂ (by omega) t).bind fun constants t₃ ht₃ _ _ => ?_
  refine (expect_ends ht₃ .rbrace).bind fun closing t₄ ht₄ _ hclosing => ?_
  have hmerged := W.merge hspan hclosing.1
  have hend : ∀ {s : State} (base : Ty), s.Placed W → Ends W (do
      define (span.merge closing.span) (·.completeEnum t base constants)
      return t) s fun _ _ => True := by
    intro s base hs
    refine (define_ends hs hmerged fun _ hu => hu.completeEnum_leaves t base constants).bind fun _ t₅ ht₅ _ _ => ?_
    exact .pure ht₅ trivial
  cases given with
  | some base => exact (checkValues_ends ht₄ base _ hmerged).bind fun _ t₅ ht₅ _ _ => hend base ht₅
  | none => exact (enumType_ends ht₄ _ hmerged).bind fun base t₅ ht₅ _ _ => hend base ht₅

theorem enumeration_ends (hr : rules.EndBelow W n) (hs : s.Placed W) (hn : s.left ≤ n) (hspan : W.Place span) :
    Ends W (enumeration rules span) s fun _ _ => True := by
  rw [enumeration_eq]
  refine (attributes_ends hr.constant hs hn).bind fun _ t₁ ht₁ hle₁ _ => ?_
  refine (name?_ends ht₁).bind fun r t₂ ht₂ hle₂ _ => .accept ht₂ (by simp) (fun _ t₃ ht₃ hlt => ?_) fun _ => ?_
  · refine Ends.bind (Q := fun _ _ => True) ((hr.typeName t₃ ht₃ (by omega)).map fun _ _ _ _ => trivial)
      fun given t₄ ht₄ hle₄ _ => ?_
    exact enumerationEnd_ends hr ht₄ (by omega) _ given hspan
  · exact enumerationEnd_ends hr ht₂ (by omega) _ none hspan

/-! ## Specifiers -/

theorem kindOfWords_cause {target : Target} {words : List Keyword} {found : Token} {cause : Cause}
    (h : kindOfWords target words found = .error cause) : cause.IsRefusal := by
  unfold kindOfWords at h
  cases hsign : signedness words with
  | error cause' =>
    rw [hsign] at h
    cases h
    unfold signedness at hsign
    split at hsign <;> cases hsign
    simp
  | ok sign =>
    rw [hsign] at h
    dsimp only [bind, Except.bind] at h
    split_ifs at h
    · cases h
      simp
    · split at h <;> cases h
      simp

/-- Without any word there is no type. -/
theorem wordType_ends (hs : s.Placed W) (words : List Keyword) (hspan : W.Place span) :
    Ends W (wordType words span) s fun _ _ => words ≠ [] := by
  refine .unit (.current ?_)
  split
  · next cause hcause => exact .fail hs hspan (kindOfWords_cause hcause)
  · next b hb =>
    have hwords : words ≠ [] := by
      rintro rfl
      cases hb
    refine (intern_ends hs (.builtin b) trivial trivial).bind fun t t₁ ht₁ _ _ => ?_
    refine .ite (fun _ => .pure ht₁ hwords) fun _ => .ite (fun _ => ?_) fun _ => .fail ht₁ hspan (by simp)
    exact (intern_ends ht₁ (.complex t) trivial trivial).weaken fun _ _ _ _ => hwords

/-- A round that goes on has moved on; the one that ends the loop changes nothing. -/
def Specified (W : Setting) (before : SpecifierState) (s : State) :
    Round SpecifierState SpecifierState → State → Prop
  | .again after, t => t.left < s.left ∧ after.attributes.Placed W
  | .done after, _ => after = before

theorem SpecifierState.name_ends (hs : s.Placed W) (before : SpecifierState) (type : Ty) (hspan : W.Place span) :
    Ends W (before.name type span) s fun after _ => after.attributes = before.attributes :=
  .ite (fun _ => .pure hs rfl) fun _ => .fail hs hspan (by simp)

theorem atomic_ends (hr : rules.EndBelow W n) (hs : s.Placed W) (hn : s.left < n) (before : SpecifierState)
    (hspan : W.Place span) :
    Ends W (atomic rules before span) s fun after _ => after.attributes = before.attributes := by
  refine .accept hs (by simp) (fun _ t₁ ht₁ hlt => ?_) fun _ => .pure hs rfl
  refine (hr.typeName t₁ ht₁ (by omega)).bind fun value t₂ ht₂ _ _ => .expect ht₂ fun _ t₃ ht₃ _ => ?_
  refine (intern_ends ht₃ (.atomic value) trivial trivial).bind fun t t₄ ht₄ _ _ => ?_
  exact SpecifierState.name_ends ht₄ before t hspan

theorem keywordSpecifier_ends (hr : rules.EndBelow W n) (hs : s.Placed W) (hn : s.left ≤ n) {before : SpecifierState}
    (hbefore : before.attributes.Placed W) {k : Keyword} (htok : s.current.token = .keyword k) (hspan : W.Place span) :
    Ends W (keywordSpecifier rules before k span) s (Specified W before s) := by
  have hinside : s.current.token ≠ .finish := by simp [htok]
  -- A word that is noted, and leaves the attributes as they are.
  have hword : ∀ after : SpecifierState, after.attributes = before.attributes → Ends W (do
      let _ ← advance
      return Round.again after) s (Specified W before s) := fun after hafter =>
    .advance hs hinside fun t₁ ht₁ hlt => .pure ht₁ ⟨hlt, hafter ▸ hbefore⟩
  -- A type of its own, read by any reader of such types.
  have hnamed : ∀ {p : Parse Ty}, (∀ t : State, t.Placed W → t.left ≤ n → Ends W p t fun _ _ => True) → Ends W (do
      let _ ← advance
      return Round.again (← before.name (← p) span)) s (Specified W before s) := by
    intro p hp
    refine .advance hs hinside fun t₁ ht₁ hlt => (hp t₁ ht₁ (by omega)).bind fun type t₂ ht₂ hle₂ _ => ?_
    refine (SpecifierState.name_ends ht₂ before type hspan).bind fun after t₃ ht₃ hle₃ hafter => ?_
    exact .pure ht₃ ⟨by omega, hafter ▸ hbefore⟩
  unfold keywordSpecifier
  split
  · exact hword _ rfl
  · exact hword _ rfl
  · exact hword _ rfl
  · exact hword _ rfl
  · refine .advance hs hinside fun t₁ ht₁ hlt => ?_
    refine (atomic_ends hr ht₁ (by omega) before hspan).bind fun after t₂ ht₂ hle₂ hafter => ?_
    exact .pure ht₂ ⟨by omega, hafter ▸ hbefore⟩
  · refine (attributes_ends hr.constant hs hn).bind fun late t₁ ht₁ _ ⟨hlate, hlt⟩ => ?_
    exact .pure ht₁ ⟨hlt htok, hbefore.merge hlate⟩
  · exact hnamed fun t ht hle => record_ends hr ht hle .struct hspan
  · exact hnamed fun t ht hle => record_ends hr ht hle .union hspan
  · exact hnamed fun t ht hle => enumeration_ends hr ht hle hspan
  · exact hnamed fun t ht _ => (intern_ends ht .auto trivial trivial).plain
  · refine .ite (fun _ => hword before rfl) fun _ => .ite (fun _ => ?_) fun _ => .pure hs rfl
    exact .ite (fun _ => .fail hs hspan (by simp)) fun _ => hword _ rfl

theorem specifier_ends (hr : rules.EndBelow W n) (hs : s.Placed W) (hn : s.left ≤ n) {before : SpecifierState}
    (hbefore : before.attributes.Placed W) :
    Ends W (specifier rules before) s (Specified W before s) := by
  refine .current ?_
  split
  · next k htok => exact keywordSpecifier_ends hr hs hn hbefore htok hs.current
  · next text htok =>
    refine .unit ?_
    split
    · exact .advance hs (by simp [htok]) fun t₁ ht₁ hlt => .pure ht₁ ⟨hlt, hbefore⟩
    · exact .pure hs rfl
  · exact .pure hs rfl

/-- As long as no token was read, nothing was specified. -/
theorem specifiers_ends (hr : rules.EndBelow W n) (hs : s.Placed W) (hn : s.left ≤ n) :
    Ends W (specifiers rules) s fun a t => t.left < s.left ∧ a.attributes.Placed W := by
  refine .here (Ends.bind (Q := fun after t => after.attributes.Placed W ∧ (after = {} ∨ t.left < s.left)) ?_
    fun after t₁ ht₁ _ ⟨hafter, hmoved⟩ => ?_)
  · refine loop_ends (fun before t => before.attributes.Placed W ∧ (before = {} ∨ t.left < s.left)) hs
      ⟨by rintro _ ⟨⟩, .inl rfl⟩ fun before t ht hle ⟨hbefore, hmoved⟩ => ?_
    refine (specifier_ends hr ht (by omega) hbefore).weaken fun r t₁ hle₁ hr => ?_
    cases r with
    | again after => exact ⟨hr.1, hr.2, .inr (by have := hr.1; omega)⟩
    | done after =>
      cases hr
      exact ⟨hbefore, hmoved.imp_right hle₁.trans_lt⟩
  · have hend : ∀ {t : State} (base : Ty), t.Placed W → t.left < s.left → Ends W (do
        let base ← if after.isAtomic then intern (.atomic base) else Pure.pure base
        let t ← build (·.qualify base after.qualifiers)
        return (⟨after.isTypedef, t, after.attributes⟩ : Specifiers)) t fun a t =>
          t.left < s.left ∧ a.attributes.Placed W := by
      intro t base ht hlt
      have hqualify : ∀ {t : State} (base : Ty), t.Placed W → t.left < s.left → Ends W (do
          let t ← build (·.qualify base after.qualifiers)
          return (⟨after.isTypedef, t, after.attributes⟩ : Specifiers)) t fun a t =>
            t.left < s.left ∧ a.attributes.Placed W := fun base ht hlt =>
        (build_ends ht fun hu => hu.qualify base _).bind fun _ t₂ ht₂ hle₂ _ => .pure ht₂ ⟨by omega, hafter⟩
      refine .ite (fun _ => ?_) fun _ => hqualify base ht hlt
      refine (intern_ends ht (.atomic base) trivial trivial).bind fun t' t₂ ht₂ hle₂ _ => ?_
      exact hqualify t' ht₂ (by omega)
    cases hnamed : after.named with
    | some type => exact hend type ht₁ (hmoved.resolve_left (by rintro rfl; cases hnamed))
    | none =>
      have hwordType := wordType_ends ht₁ after.words (W.merge hs.current ht₁.current)
      refine .here (hwordType.bind fun type t₂ ht₂ hle₂ hwords => ?_)
      exact hend type ht₂ (hle₂.trans_lt (hmoved.resolve_left (by rintro rfl; exact hwords rfl)))

end Cognate.Grammar
