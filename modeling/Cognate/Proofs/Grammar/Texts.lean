import Cognate.Grammar.Declaration
import Cognate.Proofs.Grammar.Specifiers
import Cognate.Proofs.Token.Names

/-!
# What texts keep

Reading a text of declarations or the name of a type keeps a unit written, and the unit grows, whether the text is
accepted or not. So every unit that texts lead to is written: `FromTexts.written`.
-/

namespace Cognate

namespace Grammar

variable {u v : DeclUnit} {rules : Rules} {t : Ty}

/-! ## Constant expressions -/

theorem looks_evaluated (span : Span) (r : Except Cause Int) : Looks u (evaluated span r) fun _ => True := by
  cases r with
  | ok n => exact .pure trivial
  | error cause => exact keeps_fail _ _

theorem looks_literalValue (value : Option Int) (refusal : Cause) (span : Span) :
    Looks u (literalValue value refusal span) fun _ => True := by
  cases value with
  | some n => exact .pure trivial
  | none => exact keeps_fail _ _

theorem keeps_primary (hr : rules.Sound) : Keeps u (primary rules) fun _ _ => True := by
  unfold primary
  refine looks_advance.bind fun l _ => ?_
  split
  · exact looks_unit.bind fun _ _ => (looks_literalValue _ _ _).keeps
  · exact keeps_fail _ _
  · exact keeps_fail _ _
  · exact (looks_literalValue _ _ _).keeps
  · exact looks_unit.bind fun _ _ => .pure trivial
  · exact (hr.constant u).bind fun _ v _ _ _ => (looks_expect _).bind fun _ _ => .pure trivial
  · exact keeps_fail _ _

/-- The type of a value that is measured. -/
def valueType (text : String) (span : Span) : Parse Ty := do
  match (← unit).value? text with
  | some decl => return decl.type
  | none => fail (.notAVariable text) span

theorem keeps_valueType (text : String) (span : Span) : Keeps u (valueType text span) fun _ _ => True := by
  refine looks_unit.bind fun w _ => ?_
  cases w.value? text with
  | some decl => exact .pure trivial
  | none => exact keeps_fail _ _

theorem keeps_measuredType (hr : rules.Sound) : Keeps u (measuredType rules) fun _ _ => True := by
  unfold measuredType
  refine looks_atParenthesizedType.bind fun _ _ => .ite (fun _ => ?_) fun _ => ?_
  · exact (keeps_parenthesizedType hr).weaken fun _ _ _ _ _ => trivial
  · refine (looks_accept _).bind fun _ _ => looks_name.bind fun found _ => .ite (fun _ => ?_) fun _ =>
      keeps_valueType _ _
    exact (looks_expect _).bind fun _ _ => keeps_valueType _ _

theorem keeps_measure (hr : rules.Sound) : Keeps u (measure rules) fun _ _ => True := by
  unfold measure
  refine looks_advance.bind fun _ _ => (keeps_measuredType hr).bind fun t v _ _ _ => ?_
  refine (looks_measured _ _).bind fun e _ => ?_
  split
  · exact .pure trivial
  · exact looks_unit.bind fun _ _ => keeps_fail _ _

theorem keeps_unary (hr : rules.Sound) : Keeps u (unary rules) fun _ _ => True := by
  unfold unary
  refine looks_here.bind fun start _ => looks_atParenthesizedType.bind fun _ _ => .ite (fun _ => ?_) fun _ => ?_
  · refine (keeps_parenthesizedType hr).bind fun t v _ _ _ => (hr.unary v).bind fun value w _ _ _ => ?_
    exact looks_unit.bind fun _ _ => .pure trivial
  · refine looks_current.bind fun l _ => ?_
    split
    · refine looks_advance.bind fun _ _ => (hr.unary u).bind fun value v _ _ _ => ?_
      split
      · exact (looks_evaluated _ _).keeps
      · exact .pure trivial
    · exact looks_advance.bind fun _ _ => hr.unary u
    · exact looks_advance.bind fun _ _ => (hr.unary u).bind fun _ _ _ _ _ => .pure trivial
    · exact looks_advance.bind fun _ _ => (hr.unary u).bind fun _ _ _ _ _ => .pure trivial
    · exact keeps_measure hr
    · exact keeps_measure hr
    · exact keeps_primary hr

theorem keeps_binary (hr : rules.Sound) (least : Nat) : Keeps u (binary rules least) fun _ _ => True := by
  unfold binary
  refine (keeps_unary hr).bind fun first v _ _ _ => keeps_loop (fun _ _ => True) trivial fun left w _ _ _ => ?_
  refine looks_current.bind fun l _ => ?_
  split
  · exact .pure (by simp)
  · refine .ite (fun _ => .pure (by simp)) fun _ => looks_advance.bind fun operator _ => ?_
    refine (hr.binary w _).bind fun right x _ _ _ => ?_
    split
    · exact (looks_evaluated _ _).bind fun _ _ => .pure (by simp)
    · exact .pure (by simp)

theorem keeps_constant (hr : rules.Sound) : Keeps u (constant rules) fun _ _ => True := by
  unfold constant
  refine (keeps_binary hr 0).bind fun condition v _ _ _ => (looks_accept _).bind fun _ _ => .ite (fun _ => ?_)
    fun _ => .pure trivial
  refine (hr.constant v).bind fun yes w _ _ _ => (looks_expect _).bind fun _ _ => ?_
  exact (hr.constant w).bind fun no x _ _ _ => .pure trivial

/-! ## Rules -/

theorem keeps_typeName (hr : rules.Sound) : Keeps u (typeName rules) fun t v => v.Usable t := by
  unfold typeName
  refine looks_here.bind fun start _ => (hr.specifiers u).bind fun s v _ _ hs => .ite (fun _ => ?_) fun _ => ?_
  · exact (keeps_fail _ _).bind fun _ _ _ _ (h : False) => h.elim
  · refine (hr.declarator v .abstract).bind fun d w hw hww ⟨hd, _⟩ => (keeps_attributes hr).bind fun late x hx _ _ => ?_
    exact keeps_declaredType _ (hx.usable (hw.usable hs)) (hd.grows hww.wellFormed hx)

/-- By induction on the depth: the rules of each part are the ones below. -/
theorem Rules.upTo_sound (depth : Nat) : (Rules.upTo depth).Sound := by
  induction depth with
  | zero => exact Rules.none_sound
  | succ depth ih =>
    refine ⟨fun u => ?_, fun u => keeps_specifiers ih, fun u naming => keeps_declarator ih naming,
      fun u => keeps_constant ih, fun u level => keeps_binary ih level, fun u => keeps_unary ih⟩
    exact keeps_typeName ⟨ih.typeName, fun _ => keeps_specifiers ih, fun _ naming => keeps_declarator ih naming,
      ih.constant, ih.binary, ih.unary⟩

theorem looks_rulesHere : Looks u rulesHere Rules.Sound := looks_get fun _ _ _ => Rules.upTo_sound _

/-! ## Declarations -/

theorem keeps_declareOne (isTypedef : Bool) {name : String × Span} (hname : IsName name.1) (ht : u.Usable t) :
    Keeps u (declareOne isTypedef name t) fun _ _ => True := by
  cases isTypedef with
  | true =>
    have htypedef : Keeps u (define name.2 (·.defineTypedef name.1 t)) fun _ _ => True :=
      (keeps_define fun hu => hu.defineTypedef hname ht).weaken fun _ _ _ _ _ => trivial
    exact htypedef.bind fun _ _ _ _ _ => .pure trivial
  | false =>
    have hvalue : Keeps u (define name.2 (·.declareValue name.1 t)) fun _ _ => True :=
      (keeps_allOrNothing (u.declareValue_allOrNothing name.1 t) fun hu v hv => hu.declareValue ht hv).weaken
        fun _ _ _ _ _ => trivial
    exact hvalue

theorem looks_functionBody : Looks u functionBody fun _ => True := by
  have hrest : Looks u (do
      if ← check (.punct .lbrace) then
        skipGroup
        return true
      return false) fun _ => True := by
    refine (looks_check _).bind fun _ _ => .ite (fun _ => ?_) fun _ => .pure ⟨rfl, trivial⟩
    exact looks_skipGroup.bind fun _ _ => .pure ⟨rfl, trivial⟩
  refine (looks_check _).bind fun _ _ => looks_atType.bind fun _ _ => .ite (fun _ => ?_) fun _ => hrest
  exact looks_skipToBody.bind fun _ _ => hrest

/-- A declarator that must have a name answers one. -/
theorem keeps_initDeclarator (hr : rules.Sound) {s : Specifiers} (hs : u.Usable s.type) :
    Keeps u (initDeclarator rules s) fun _ _ => True := by
  unfold initDeclarator
  refine (hr.declarator u .named).bind fun d v hv hvw ⟨hd, hname⟩ => (keeps_attributes hr).bind fun late w hw _ _ => ?_
  refine (keeps_declaredType _ (hw.usable (hv.usable hs)) (hd.grows hvw.wellFormed hw)).bind fun t x hx _ ht => ?_
  obtain ⟨found, hfound⟩ := Option.isSome_iff_exists.1 (hname rfl)
  rw [hfound]
  refine (keeps_declareOne s.isTypedef (hd.name found hfound) ht).bind fun _ y _ _ _ => ?_
  have hend : ∀ ended : Bool, Keeps y (do
      if ended then return true
      if ← accept (.punct .eq) then skipInitializer
      return false : Parse Bool) fun _ _ => True := by
    intro ended
    refine .ite (fun _ => .pure trivial) fun _ => (looks_accept _).bind fun _ _ => ?_
    refine .ite (fun _ => ?_) fun _ => .pure trivial
    exact looks_skipInitializer.bind fun _ _ => .pure trivial
  refine .ite (fun _ => ?_) fun _ => hend false
  exact looks_functionBody.bind fun ended _ => hend ended

theorem keeps_declaration : Keeps u declaration fun _ _ => True := by
  unfold declaration
  refine (looks_accept _).bind fun _ _ => .ite (fun _ => .pure trivial) fun _ => looks_rulesHere.bind fun rules hr => ?_
  refine (hr.specifiers u).bind fun s v _ _ hs => (looks_accept _).bind fun _ _ => ?_
  refine .ite (fun _ => .pure trivial) fun _ => ?_
  refine Keeps.bind (Q := fun _ _ => True) (keeps_loop (fun _ _ => True) trivial fun _ w hw _ _ => ?_)
    fun ended w _ _ _ => ?_
  · refine (keeps_initDeclarator hr (hw.usable hs)).bind fun _ x _ _ _ => .ite (fun _ => .pure (by simp)) fun _ => ?_
    exact (looks_accept _).bind fun _ _ => .ite (fun _ => .pure (by simp)) fun _ => .pure (by simp)
  · exact .ite (fun _ => (looks_expect _).bind fun _ _ => .pure trivial) fun _ => .pure trivial

theorem keeps_declarations : Keeps u declarations fun _ _ => True := by
  unfold declarations
  refine keeps_loop (fun _ _ => True) trivial fun _ v _ _ _ => looks_atEnd.bind fun _ _ => ?_
  exact .ite (fun _ => .pure (by simp)) fun _ => keeps_declaration.bind fun _ _ _ _ _ => .pure (by simp)

theorem keeps_wholeTypeName : Keeps u wholeTypeName fun t v => v.Usable t := by
  unfold wholeTypeName
  refine looks_rulesHere.bind fun rules hr => (hr.typeName u).bind fun t v _ _ ht => looks_current.bind fun _ _ => ?_
  exact .ite (fun _ => .pure ht) fun _ => keeps_fail _ _

/-! ## Texts -/

/-- A text is read from a written unit to a written one, for which an answer is good. -/
theorem read_written {α : Type} {p : Parse α} {Q : α → DeclUnit → Prop} (hu : u.Written) (hp : Keeps u p Q)
    (source : String) : (read p source u).2.Written ∧ u.Grows (read p source u).2 ∧
      ∀ a, (read p source u).1 = .ok a → Q a (read p source u).2 := by
  unfold read
  cases hs : State.ofSource source u with
  | error fault => exact ⟨hu, .refl u, by simp⟩
  | ok s =>
    have hsound : s.Sound ∧ s.unit = u := by
      unfold State.ofSource at hs
      cases ht : takeItem source.utf8ByteSize (scan source) with
      | error fault =>
        rw [ht] at hs
        cases hs
      | ok r =>
        rw [ht] at hs
        cases hs
        obtain ⟨hl, hall⟩ := takeItem_named ht fun l hl text => scanAt_names hl
        exact ⟨⟨hu, hl, hall⟩, rfl⟩
    have hr := hp s hsound.1 hsound.2
    dsimp only [EStateM.run]
    cases hrun : p s with
    | ok a s' =>
      rw [hrun] at hr
      exact ⟨hr.1.unit, hr.2.1, by rintro _ ⟨⟩; exact hr.2.2⟩
    | error fault s' =>
      rw [hrun] at hr
      exact ⟨hr.1.unit, hr.2, by simp⟩

end Grammar

namespace DeclUnit

/-- The units that texts of declarations and names of types lead to, accepted or not, from an empty one. -/
inductive FromTexts : DeclUnit → Prop
  | empty (name : String) (target : Target) : FromTexts (empty name target)
  | declare {u : DeclUnit} (source : String) : FromTexts u → FromTexts (u.declare source).2
  | typeName {u : DeclUnit} (source : String) : FromTexts u → FromTexts (u.typeName source).2

theorem FromTexts.written {u : DeclUnit} (h : u.FromTexts) : u.Written := by
  induction h with
  | empty name target => exact empty_written name target
  | declare source _ ih => exact (Grammar.read_written ih Grammar.keeps_declarations source).1
  | typeName source _ ih => exact (Grammar.read_written ih Grammar.keeps_wholeTypeName source).1

end DeclUnit
end Cognate
