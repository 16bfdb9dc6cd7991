import Cognate.Grammar.Constant
import Cognate.Proofs.Grammar.Declarators
import Cognate.Grammar.Specifier

/-!
# What specifiers and constants keep

Tagged types are declared with their tags in one step. The type that specifiers answer can be used, and is one that
takes qualifiers. Constant expressions build no types but those they measure.
-/

namespace Cognate.Grammar

variable {u v : DeclUnit} {rules : Rules} {t : Ty} {tag : Tag}

/-! ## Tagged types -/

/-- A type of one of the shapes that tags are for. -/
def IsTagged (t : Ty) (u : DeclUnit) : Prop := ∃ s, u.shape? t = some s ∧ s.isTagged = true

theorem IsTagged.usable (h : IsTagged t u) : u.Usable t := by
  obtain ⟨s, hs, htagged⟩ := h
  exact .of_shape hs fun _ _ he => by simp [he, Shape.isTagged] at htagged

theorem IsTagged.grows (h : IsTagged t u) (hv : u.Grows v) : IsTagged t v := by
  obtain ⟨s, hs, htagged⟩ := h
  exact ⟨s, hv.nodes.shape? hs, htagged⟩

/-- A new type of a tag, as an operation on units. -/
def addTagged (tag : Tag) (name : Option String) (u : DeclUnit) : Ty × DeclUnit :=
  match tag with
  | .enum => u.declareEnum name
  | _ => u.declareRecord tag name

theorem declareTagged_eq (tag : Tag) (name : Option String) : declareTagged tag name = build (addTagged tag name) := by
  cases tag <;> rfl

theorem addTagged_tag? (tag : Tag) (name : Option String) (u : DeclUnit) (other : String) :
    (addTagged tag name u).2.tag? other = u.tag? other := by
  cases tag <;> simp only [addTagged, DeclUnit.declareRecord, DeclUnit.declareEnum] <;>
    rw [DeclUnit.tag?, DeclUnit.intern_frame, DeclUnit.tag?]

/-- A new type of a tag keeps a unit written once its name is a tag. -/
theorem addTagged_written (hu : u.Written) (htag : tag ≠ .classTag) (name : Option String)
    (hname : ∀ n, name = some n → IsName n ∧ u.tag? n = none) :
    ((addTagged tag name u).2.withTag name (addTagged tag name u).1).Written ∧
      u.Grows ((addTagged tag name u).2.withTag name (addTagged tag name u).1) ∧
      IsTagged (addTagged tag name u).1 ((addTagged tag name u).2.withTag name (addTagged tag name u).1) := by
  cases tag with
  | struct =>
    obtain ⟨hw, hgrows, hs⟩ := hu.declareRecord (.inl (rfl : Tag.struct = .struct)) hname
    exact ⟨hw, hgrows, _, hs, rfl⟩
  | union =>
    obtain ⟨hw, hgrows, hs⟩ := hu.declareRecord (.inr (rfl : Tag.union = .union)) hname
    exact ⟨hw, hgrows, _, hs, rfl⟩
  | classTag => exact absurd rfl htag
  | enum =>
    obtain ⟨hw, hgrows, hs⟩ := hu.declareEnum hname
    exact ⟨hw, hgrows, _, hs, rfl⟩

theorem keeps_declareTagged (htag : tag ≠ .classTag) : Keeps u (declareTagged tag none) IsTagged := by
  refine .of_written fun hu => ?_
  rw [declareTagged_eq]
  obtain ⟨hw, hgrows, hs⟩ := addTagged_written hu htag none (by simp)
  exact keeps_build hw hgrows hs

/-- The tag of a type whose name is new is declared with it. -/
theorem taggedType_run {name : String} (span : Span) {s : State} (h : s.unit.tag? name = none) :
    taggedType tag name span s =
      .ok (addTagged tag (some name) s.unit).1 { s with
        unit := (addTagged tag (some name) s.unit).2.withTag (some name) (addTagged tag (some name) s.unit).1 } := by
  have hdefine : ∀ t : Ty, (addTagged tag (some name) s.unit).2.defineTag name t =
      (.ok (), (addTagged tag (some name) s.unit).2.withTag (some name) t) := by
    intro t
    simp [DeclUnit.defineTag, addTagged_tag?, h, DeclUnit.withTag]
  rw [taggedType, unit_bind_run, h]
  dsimp only
  rw [declareTagged_eq, build_bind_run]
  simp only [bind, EStateM.bind, define_run, hdefine]
  rfl

theorem keeps_taggedType {name : String} (span : Span) (htag : tag ≠ .classTag) (hname : IsName name) :
    Keeps u (taggedType tag name span) IsTagged := by
  refine .of_written fun hu => ?_
  cases ht : u.tag? name with
  | none =>
    rintro s hs rfl
    rw [taggedType_run span ht]
    obtain ⟨hw, hgrows, htagged⟩ := addTagged_written hu htag (some name) (by rintro _ ⟨⟩; exact ⟨hname, ht⟩)
    exact ⟨⟨hw, hs.current, hs.ahead⟩, hgrows, htagged⟩
  | some t =>
    refine looks_unit.bind fun w hw => ?_
    subst hw
    rw [ht]
    exact .ite (fun _ => .pure (hu.tags ht)) fun _ => keeps_fail _ _

theorem keeps_bodyOwner {name : Option String} (span : Span) (htag : tag ≠ .classTag)
    (hname : ∀ n, name = some n → IsName n) : Keeps u (bodyOwner tag name span) IsTagged := by
  cases name with
  | none => exact keeps_declareTagged htag
  | some n => exact keeps_taggedType span htag (hname n rfl)

theorem keeps_withoutBody {name : Option String} (span : Span) (htag : tag ≠ .classTag)
    (hname : ∀ n, name = some n → IsName n) : Keeps u (withoutBody tag name span) IsTagged := by
  cases name with
  | none => exact looks_here.bind fun _ _ => keeps_fail _ _
  | some n => exact keeps_taggedType span htag (hname n rfl)

/-! ## Records -/

theorem keeps_member (hr : rules.Sound) {s : Specifiers} (before : List (String × Ty)) (hs : u.Usable s.type) :
    Keeps u (member rules s before) fun _ _ => True := by
  unfold member
  refine (hr.declarator u .named).bind fun d v hv hvw ⟨hd, _⟩ => ?_
  refine (looks_check _).bind fun _ _ => .ite (fun _ => ?_) fun _ => ?_
  · exact looks_here.bind fun _ _ => (keeps_fail _ _).bind fun _ _ _ _ (h : False) => h.elim
  · refine (keeps_attributes hr).bind fun late w hw _ _ => ?_
    refine (keeps_declaredType _ (hw.usable (hv.usable hs)) (hd.grows hvw.wellFormed hw)).bind fun t x _ _ _ => ?_
    exact .ite (fun _ => keeps_fail _ _) fun _ => .pure trivial

theorem keeps_memberList (hr : rules.Sound) {s : Specifiers} (before : List (String × Ty)) (hs : u.Usable s.type) :
    Keeps u (memberList rules s before) fun _ _ => True := by
  unfold memberList
  refine Keeps.bind (Q := fun _ _ => True) (keeps_loop (fun _ _ => True) trivial fun before v hv _ _ => ?_)
    fun after v _ _ _ => (looks_expect _).bind fun _ _ => .pure trivial
  refine (keeps_member hr before (hv.usable hs)).bind fun after w _ _ _ => (looks_accept _).bind fun _ _ => ?_
  exact .ite (fun _ => .pure (by simp)) fun _ => .pure (by simp)

theorem keeps_members (hr : rules.Sound) (tag : Tag) (span : Span) :
    Keeps u (members rules tag span) fun _ _ => True := by
  unfold members
  refine keeps_loop (fun _ _ => True) trivial fun before v _ _ _ => ?_
  refine (looks_check _).bind fun _ _ => .ite (fun _ => .pure (by simp)) fun _ => ?_
  refine looks_atEnd.bind fun _ _ => .ite (fun _ => keeps_fail _ _) fun _ => ?_
  refine (hr.specifiers v).bind fun s w _ _ hs => (looks_accept _).bind fun _ _ => .ite (fun _ => ?_) fun _ => ?_
  · exact looks_unit.bind fun _ _ => .ite (fun _ => .pure (by simp)) fun _ => .pure (by simp)
  · exact (keeps_memberList hr before hs).bind fun _ _ _ _ _ => .pure (by simp)

/-- The name of a tag, if one was read. -/
theorem isName_of_map {r : Option (String × Span)} (h : ∀ found, r = some found → IsName found.1) :
    ∀ n, r.map (·.1) = some n → IsName n := by
  intro n hn
  obtain ⟨found, hfound, rfl⟩ := Option.map_eq_some_iff.1 hn
  exact h found hfound

theorem keeps_record (hr : rules.Sound) (htag : tag ≠ .classTag) (span : Span) :
    Keeps u (record rules tag span) IsTagged := by
  unfold record
  refine (keeps_attributes hr).bind fun _ v _ _ _ => looks_name?.bind fun r hname => ?_
  refine (looks_check _).bind fun _ _ => .ite (fun _ => ?_) fun _ => keeps_withoutBody span htag (isName_of_map hname)
  refine (keeps_bodyOwner span htag (isName_of_map hname)).bind fun t w _ _ ht => looks_advance.bind fun _ _ => ?_
  refine (keeps_members hr tag span).bind fun fields x hx _ _ => (looks_expect _).bind fun closing _ => ?_
  refine (keeps_allOrNothing (u := x) (x.completeRecord_allOrNothing t fields) fun hu y hy =>
    hu.completeRecord hy).bind fun _ y hy _ _ => .pure ?_
  exact (ht.grows hx).grows hy

/-! ## Enums -/

theorem keeps_enumType (values : List Int) (span : Span) : Keeps u (enumType values span) fun _ _ => True := by
  unfold enumType
  refine looks_unit.bind fun w hw => ?_
  split
  · next b hb =>
    have hmem := List.mem_of_find?_eq_some hb
    have hnames : w.target.names b = true := by
      simp only [enumKinds, List.mem_cons, List.not_mem_nil, or_false] at hmem
      rcases hmem with rfl | rfl | rfl | rfl | rfl | rfl <;> rfl
    subst hw
    exact Keeps.weaken (keeps_intern (by simp [Shape.children]) rfl fun _ => hnames) fun _ _ _ _ _ => trivial
  · exact keeps_fail _ _

theorem looks_checkValues (base : Ty) (values : List Int) (span : Span) :
    Looks u (checkValues base values span) fun _ => True := by
  unfold checkValues
  refine looks_unit.bind fun w _ => ?_
  split
  · exact .pure ⟨rfl, trivial⟩
  · split
    · exact .pure ⟨rfl, trivial⟩
    · split
      · exact keeps_fail _ _
      · exact .pure ⟨rfl, trivial⟩

theorem keeps_enumerator (hr : rules.Sound) (t : Ty) (e : Enumeration) :
    Keeps u (enumerator rules t e) fun _ _ => True := by
  have hdefine : ∀ {v : DeclUnit} (text : String) (span : Span) (value : Int), Keeps v (do
      define span (·.defineConstant text value t)
      return (⟨e.constants ++ [(text, value)], fits? (value + 1)⟩ : Enumeration)) fun _ _ => True :=
    fun {w} text span value => (keeps_allOrNothing (w.defineConstant_allOrNothing text value t)
      fun hu v hv => hu.defineConstant hv).bind fun _ _ _ _ _ => .pure trivial
  refine looks_name.bind fun found _ => (looks_accept _).bind fun _ _ => .ite (fun _ => ?_) fun _ => ?_
  · refine (hr.constant u).bind fun value v _ _ _ => ?_
    split
    · exact hdefine _ _ _
    · exact (keeps_fail _ _).bind fun _ _ _ _ (h : False) => h.elim
  · split
    · exact hdefine _ _ _
    · exact (keeps_fail _ _).bind fun _ _ _ _ (h : False) => h.elim

theorem keeps_enumerators (hr : rules.Sound) (t : Ty) : Keeps u (enumerators rules t) fun _ _ => True := by
  unfold enumerators
  refine keeps_loop (fun _ _ => True) trivial fun e v _ _ _ => ?_
  refine (looks_check _).bind fun _ _ => .ite (fun _ => .pure (by simp)) fun _ => ?_
  refine (keeps_enumerator hr t e).bind fun e' w _ _ _ => (looks_accept _).bind fun _ _ => ?_
  exact .ite (fun _ => .pure (by simp)) fun _ => .pure (by simp)

/-- What follows the name of an enumeration and the type that may be given for it. -/
def enumerationEnd (rules : Rules) (keyword : Span) (name : Option String) (given : Option Ty) : Parse Ty := do
  if ← check (.punct .lbrace) then
    let t ← bodyOwner .enum name keyword
    let _ ← advance
    let constants ← enumerators rules t
    let closing ← expect .rbrace
    let span := keyword.merge closing.span
    let values := constants.map (·.2)
    let base ←
      match given with
      | some base => do
        checkValues base values span
        pure base
      | none => enumType values span
    define span (·.completeEnum t base constants)
    return t
  else withoutBody .enum name keyword

theorem enumeration_eq (keyword : Span) : enumeration rules keyword = (do
    let _ ← attributes rules
    let name := (← name?).map (·.1)
    let given ← if ← accept (.punct .colon) then some <$> rules.typeName else pure none
    enumerationEnd rules keyword name given) := rfl

theorem keeps_enumerationEnd (hr : rules.Sound) (span : Span) {name : Option String}
    (hname : ∀ text, name = some text → IsName text) (given : Option Ty) :
    Keeps u (enumerationEnd rules span name given) IsTagged := by
  unfold enumerationEnd
  refine (looks_check _).bind fun _ _ => .ite (fun _ => ?_) fun _ => keeps_withoutBody span (by simp) hname
  refine (keeps_bodyOwner span (by simp) hname).bind fun t v _ _ ht => looks_advance.bind fun _ _ => ?_
  refine (keeps_enumerators hr t).bind fun constants w hw _ _ => (looks_expect _).bind fun closing _ => ?_
  have hend : ∀ {x : DeclUnit} (base : Ty), w.Grows x → Keeps x (do
      define (span.merge closing.span) (·.completeEnum t base constants)
      return t) IsTagged := by
    intro x base hx
    refine (keeps_allOrNothing (x.completeEnum_allOrNothing t base constants) fun hu y hy => hu.completeEnum hy).bind
      fun _ y hy _ _ => .pure ?_
    exact ((ht.grows hw).grows hx).grows hy
  cases given with
  | some base => exact (looks_checkValues _ _ _).bind fun _ _ => hend base (.refl w)
  | none => exact (keeps_enumType _ _).bind fun base x hx _ _ => hend base hx

theorem keeps_enumeration (hr : rules.Sound) (span : Span) : Keeps u (enumeration rules span) IsTagged := by
  rw [enumeration_eq]
  refine (keeps_attributes hr).bind fun _ v _ _ _ => looks_name?.bind fun r hname => ?_
  refine (looks_accept _).bind fun _ _ => ?_
  split
  · exact (hr.typeName v).map.bind fun given w _ _ _ => keeps_enumerationEnd hr span (isName_of_map hname) given
  · exact keeps_enumerationEnd hr span (isName_of_map hname) none

/-! ## Specifiers -/

/-- A type that specifiers may name. -/
def TakesQualifiers (t : Ty) (u : DeclUnit) : Prop :=
  u.Usable t ∧ ∃ s, u.shape? t = some s ∧ s.takesQualifiers = true

theorem TakesQualifiers.grows (h : TakesQualifiers t u) (hv : u.Grows v) : TakesQualifiers t v := by
  obtain ⟨husable, s, hs, htakes⟩ := h
  exact ⟨hv.usable husable, s, hv.nodes.shape? hs, htakes⟩

theorem TakesQualifiers.of_shape {s : Shape} (hs : u.shape? t = some s) (htakes : s.takesQualifiers = true)
    (h : ∀ name aliased, s ≠ .typedef name aliased) : TakesQualifiers t u := ⟨.of_shape hs h, s, hs, htakes⟩

theorem IsTagged.takesQualifiers (h : IsTagged t u) : TakesQualifiers t u := by
  refine ⟨h.usable, ?_⟩
  obtain ⟨s, hs, htagged⟩ := h
  refine ⟨s, hs, ?_⟩
  cases s <;> simp_all [Shape.isTagged, Shape.takesQualifiers]

theorem takesQualifiers_typedef (hu : u.Written) {name : String} (h : u.typedef? name = some t) :
    TakesQualifiers t u := by
  obtain ⟨aliased, hs⟩ := hu.typedefs h
  exact ⟨hu.usable_typedef h, _, hs, rfl⟩

/-- Specifiers whose type, if it is one of its own, may be qualified. -/
def SpecifierState.Sound (s : SpecifierState) (u : DeclUnit) : Prop := ∀ t, s.named = some t → TakesQualifiers t u

theorem SpecifierState.Sound.grows {s : SpecifierState} (h : s.Sound u) (hv : u.Grows v) : s.Sound v :=
  fun t ht => (h t ht).grows hv

theorem looks_name_specifier {s : SpecifierState} (span : Span) (ht : TakesQualifiers t u) :
    Looks u (s.name t span) fun s => s.Sound u := by
  refine .ite (fun _ => .pure ⟨rfl, ?_⟩) fun _ => keeps_fail _ _
  rintro _ ⟨⟩
  exact ht

theorem kindOf?_names {target : Target} {sign : Option Bool} {words : List Keyword} {b : Builtin}
    (h : kindOf? target sign words = some b) : target.names b = true := by
  have hchar : target.names target.plainChar = true := by
    unfold Target.plainChar
    split <;> simp_all [Target.names, Target.plainChar]
  have hwchar : target.names target.wcharKind = true := by
    unfold Target.wcharKind
    split <;> simp_all [Target.names, Target.wcharKind]
  unfold kindOf? at h
  repeat' split at h
  all_goals cases h
  all_goals first | exact hchar | exact hwchar | rfl

theorem kindOfWords_names {target : Target} {words : List Keyword} {found : Token} {b : Builtin}
    (h : kindOfWords target words found = .ok b) : target.names b = true := by
  unfold kindOfWords at h
  cases hsign : signedness words with
  | error cause => rw [hsign] at h; cases h
  | ok sign =>
    rw [hsign] at h
    dsimp only [bind, Except.bind] at h
    split at h
    · split at h <;> cases h
      rfl
    · split at h
      · next b' hb =>
        cases h
        exact kindOf?_names hb
      · cases h

theorem keeps_wordType (words : List Keyword) (span : Span) : Keeps u (wordType words span) TakesQualifiers := by
  unfold wordType
  refine looks_unit.bind fun w hw => looks_current.bind fun l _ => ?_
  subst hw
  split
  · exact keeps_fail _ _
  · next b hb =>
    have hnames : w.target.names b = true := kindOfWords_names hb
    refine Keeps.bind (keeps_intern (by simp [Shape.children]) rfl fun _ => hnames) fun t v _ _ ht => ?_
    refine .ite (fun _ => .pure (.of_shape ht rfl (by simp))) fun _ => .ite (fun hcomplex => ?_) fun _ => keeps_fail _ _
    have hc : ∀ c ∈ (Shape.complex t).children, v.Usable c := by
      simpa [Shape.children] using DeclUnit.Usable.of_shape ht (by simp)
    exact Keeps.weaken (keeps_intern hc rfl fun _ => ⟨b, ht, hcomplex⟩) fun _ _ _ _ h => .of_shape h rfl (by simp)

/-- An atomic type over a usable one. -/
theorem keeps_atomicOf (ht : u.Usable t) : Keeps u (intern (.atomic t)) TakesQualifiers :=
  Keeps.weaken (keeps_intern (by simpa [Shape.children] using ht) rfl (by intro _; trivial))
    fun _ _ _ _ h => .of_shape h rfl (by simp)

theorem keeps_atomic (hr : rules.Sound) {s : SpecifierState} (span : Span) (hs : s.Sound u) :
    Keeps u (atomic rules s span) SpecifierState.Sound := by
  unfold atomic
  refine (looks_accept _).bind fun _ _ => .ite (fun _ => ?_) fun _ => .pure hs
  refine (hr.typeName u).bind fun value v _ _ hvalue => (looks_expect _).bind fun _ _ => ?_
  refine (keeps_atomicOf hvalue).bind fun t w _ _ ht => ?_
  exact Keeps.weaken (looks_name_specifier span ht) fun _ _ _ _ ⟨hw, h⟩ => hw ▸ h

/-- What a round of the specifiers may come to. -/
def RoundSound (r : Round SpecifierState SpecifierState) (u : DeclUnit) : Prop :=
  (∀ s, r = .again s → s.Sound u) ∧ ∀ s, r = .done s → s.Sound u

theorem roundSound_again {s : SpecifierState} (h : s.Sound u) : RoundSound (.again s) u :=
  ⟨by rintro _ ⟨⟩; exact h, by simp⟩

theorem roundSound_done {s : SpecifierState} (h : s.Sound u) : RoundSound (.done s) u :=
  ⟨by simp, by rintro _ ⟨⟩; exact h⟩

theorem keeps_keywordSpecifier (hr : rules.Sound) {s : SpecifierState} (k : Keyword) (span : Span) (hs : s.Sound u) :
    Keeps u (keywordSpecifier rules s k span) RoundSound := by
  -- A type of its own, read by any reader of such types.
  have hnamed : ∀ {p : Parse Ty}, Keeps u p TakesQualifiers → Keeps u (do
      let _ ← advance
      return Round.again (← s.name (← p) span)) RoundSound := by
    intro p hp
    refine looks_advance.bind fun _ _ => hp.bind fun t v _ _ ht => ?_
    exact (looks_name_specifier span ht).bind fun s hs => .pure (roundSound_again hs)
  have htagged : ∀ {p : Parse Ty}, Keeps u p IsTagged → Keeps u p TakesQualifiers :=
    fun hp => hp.weaken fun _ _ _ _ h => h.takesQualifiers
  unfold keywordSpecifier
  split
  · exact looks_advance.bind fun _ _ => .pure (roundSound_again hs)
  · exact looks_advance.bind fun _ _ => .pure (roundSound_again hs)
  · exact looks_advance.bind fun _ _ => .pure (roundSound_again hs)
  · exact looks_advance.bind fun _ _ => .pure (roundSound_again hs)
  · exact looks_advance.bind fun _ _ => (keeps_atomic hr span hs).bind fun _ _ _ _ h => .pure (roundSound_again h)
  · exact (keeps_attributes hr).bind fun late v hv _ _ => .pure (roundSound_again (hs.grows hv))
  · exact hnamed (htagged (keeps_record hr (by simp) span))
  · exact hnamed (htagged (keeps_record hr (by simp) span))
  · exact hnamed (htagged (keeps_enumeration hr span))
  · exact hnamed (Keeps.weaken (keeps_intern (by simp [Shape.children]) rfl (by intro _; trivial))
      fun _ _ _ _ h => .of_shape h rfl (by simp))
  · refine .ite (fun _ => looks_advance.bind fun _ _ => .pure (roundSound_again hs)) fun _ => ?_
    refine .ite (fun _ => .ite (fun _ => keeps_fail _ _) fun _ => ?_) fun _ => .pure (roundSound_done hs)
    exact looks_advance.bind fun _ _ => .pure (roundSound_again hs)

theorem keeps_specifier (hr : rules.Sound) {s : SpecifierState} (hs : s.Sound u) :
    Keeps u (specifier rules s) RoundSound := by
  unfold specifier
  refine .of_written fun hu => looks_current.bind fun l _ => ?_
  split
  · exact keeps_keywordSpecifier hr _ _ hs
  · next text _ =>
    refine looks_unit.bind fun w hw => ?_
    subst hw
    split
    · next found hfound =>
      refine looks_advance.bind fun _ _ => .pure (roundSound_again ?_)
      rintro _ ⟨⟩
      split at hfound
      · exact takesQualifiers_typedef hu hfound
      · cases hfound
    · exact .pure (roundSound_done hs)
  · exact .pure (roundSound_done hs)

theorem keeps_specifiers (hr : rules.Sound) : Keeps u (specifiers rules) fun s v => v.Usable s.type := by
  have hstart : ({} : SpecifierState).Sound u := by rintro _ ⟨⟩
  refine looks_here.bind fun start _ => Keeps.bind (Q := SpecifierState.Sound) ?_ fun s v _ _ hs => ?_
  · exact keeps_loop SpecifierState.Sound hstart fun s v _ _ hs => keeps_specifier hr hs
  · have hend : ∀ {v : DeclUnit} {t : Ty}, TakesQualifiers t v → Keeps v (do
        let t ← build (·.qualify t s.qualifiers)
        return (⟨s.isTypedef, t, s.attributes⟩ : Specifiers)) fun s v => v.Usable s.type := by
      intro v t ht
      refine .of_written fun hv => ?_
      obtain ⟨husable, shape, hshape, htakes⟩ := ht
      obtain ⟨hw, hgrows, hq⟩ := hv.qualify husable hshape htakes s.qualifiers
      exact (keeps_build (Q := fun t v => v.Usable t) hw hgrows hq).bind fun _ _ _ _ h => .pure h
    have hatomic : ∀ {v : DeclUnit} {t : Ty}, TakesQualifiers t v → Keeps v (do
        let base ← if s.isAtomic then intern (.atomic t) else pure t
        let t ← build (·.qualify base s.qualifiers)
        return (⟨s.isTypedef, t, s.attributes⟩ : Specifiers)) fun s v => v.Usable s.type := by
      intro v t ht
      refine .ite (fun _ => ?_) fun _ => hend ht
      exact (keeps_atomicOf ht.1).bind fun t w _ _ ht => hend ht
    cases hnamed : s.named with
    | some t => exact hatomic (hs t hnamed)
    | none => exact looks_here.bind fun _ _ => (keeps_wordType _ _).bind fun t w _ _ ht => hatomic ht

end Cognate.Grammar
