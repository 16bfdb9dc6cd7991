import Cognate.Grammar.Declarator
import Cognate.Proofs.Grammar.Parts

/-!
# What declarators and specifiers keep

The steps of a declarator may be made in the unit that it leaves, and the type that specifiers answer can be used.
Constant expressions only build the types that they measure.
-/

namespace Cognate.Grammar

variable {u v : DeclUnit} {rules : Rules} {t : Ty}

/-! ## Pointers -/

theorem looks_qualifiers : Looks u qualifiers fun _ => True := by
  unfold qualifiers
  refine looks_loop fun q => looks_current.bind fun l _ => ?_
  split
  · exact looks_advance.bind fun _ _ => .pure ⟨rfl, trivial⟩
  · exact looks_advance.bind fun _ _ => .pure ⟨rfl, trivial⟩
  · exact looks_advance.bind fun _ _ => .pure ⟨rfl, trivial⟩
  · exact .pure ⟨rfl, trivial⟩

theorem looks_atMemberPointer : Looks u atMemberPointer fun _ => True := by
  unfold atMemberPointer
  refine looks_current.bind fun l _ => ?_
  split
  · exact looks_peek.bind fun _ _ => .pure ⟨rfl, trivial⟩
  · exact .pure ⟨rfl, trivial⟩

theorem looks_memberPointer : Looks u memberPointer (Derivation.Sound u) := by
  unfold memberPointer
  refine .of_written fun hu => looks_name.bind fun owner _ => (looks_expect _).bind fun _ _ => ?_
  refine (looks_expect _).bind fun _ _ => looks_unit.bind fun w hw => ?_
  subst hw
  split
  · next found hfound =>
    refine looks_qualifiers.bind fun q _ => .pure ⟨rfl, ?_⟩
    cases htag : w.tag? owner.1 with
    | none => exact hu.usable_typedef (by simpa [htag] using hfound)
    | some t =>
      obtain rfl : t = found := by simpa [htag] using hfound
      exact hu.usable_tag htag
  · exact keeps_fail _ _

theorem looks_pointer? : Looks u pointer? fun r => ∀ d, r = some d → d.Sound u := by
  unfold pointer?
  refine looks_atMemberPointer.bind fun b _ => .ite (fun _ => ?_) fun _ => looks_current.bind fun l _ => ?_
  · refine looks_memberPointer.bind fun d hd => .pure ⟨rfl, ?_⟩
    rintro _ ⟨⟩
    exact hd
  · split
    · exact looks_advance.bind fun _ _ => looks_qualifiers.bind fun q _ => .pure ⟨rfl, by rintro _ ⟨⟩; trivial⟩
    · exact looks_advance.bind fun _ _ => looks_qualifiers.bind fun q _ => .pure ⟨rfl, by rintro _ ⟨⟩; trivial⟩
    · exact looks_advance.bind fun _ _ => .pure ⟨rfl, by rintro _ ⟨⟩; trivial⟩
    · exact looks_advance.bind fun _ _ => .pure ⟨rfl, by rintro _ ⟨⟩; trivial⟩
    · exact .pure ⟨rfl, by simp⟩

theorem looks_pointers : Looks u pointers fun ds => ∀ d ∈ ds, d.Sound u := by
  unfold pointers
  refine keeps_loop (fun ds v => v = u ∧ ∀ d ∈ ds, d.Sound u) ⟨rfl, by simp⟩ fun before v _ _ hv => ?_
  obtain ⟨rfl, hbefore⟩ := hv
  refine looks_pointer?.bind fun r hr => ?_
  split
  · next d =>
    refine .pure ⟨?_, by simp⟩
    rintro _ ⟨⟩
    refine ⟨rfl, fun x hx => ?_⟩
    rcases List.mem_append.1 hx with hx | hx
    · exact hbefore x hx
    · exact hr x (by rw [List.mem_singleton.1 hx])
  · exact .pure ⟨by simp, by rintro _ ⟨⟩; exact ⟨rfl, hbefore⟩⟩

theorem looks_atNested : Looks u atNested fun _ => True := by
  unfold atNested
  refine (looks_check _).bind fun _ _ => .ite (fun _ => looks_peek.bind fun next _ => ?_) fun _ => .pure ⟨rfl, trivial⟩
  split
  · exact .pure ⟨rfl, trivial⟩
  · exact .pure ⟨rfl, trivial⟩
  · exact .pure ⟨rfl, trivial⟩
  · exact .pure ⟨rfl, trivial⟩
  · exact .pure ⟨rfl, trivial⟩
  · exact looks_unit.bind fun _ _ => .pure ⟨rfl, trivial⟩
  · exact .pure ⟨rfl, trivial⟩

/-! ## Suffixes -/

theorem keeps_boundExpression (hr : rules.Sound) :
    Keeps u (arrayBound.boundExpression rules) fun bound v => (Derivation.array bound).Sound v := by
  refine looks_here.bind fun span _ => (hr.constant u).bind fun value v _ _ _ => ?_
  split
  · exact (looks_expect _).bind fun _ _ => .pure trivial
  · next size =>
    refine .ite (fun h => (looks_expect _).bind fun _ _ => .pure ?_) fun _ => ?_
    · change size.toNat < wordLimit
      omega
    · exact (keeps_fail _ _).bind fun _ _ _ _ (h : False) => h.elim

theorem keeps_arrayBound (hr : rules.Sound) :
    Keeps u (arrayBound rules) fun bound v => (Derivation.array bound).Sound v := by
  have hwords : Looks u (loop () fun () => do
      if isBoundWord (← current).token then
        let _ ← advance
        return Round.again ()
      else return Round.done ()) fun _ => True := by
    refine looks_loop fun _ => looks_current.bind fun l _ => .ite (fun _ => ?_) fun _ => .pure ⟨rfl, trivial⟩
    exact looks_advance.bind fun _ _ => .pure ⟨rfl, trivial⟩
  refine (looks_expect _).bind fun _ _ => hwords.bind fun _ _ => (looks_accept _).bind fun _ _ => ?_
  refine .ite (fun _ => .pure trivial) fun _ => (looks_check _).bind fun _ _ => ?_
  refine .ite (fun _ => looks_peek.bind fun next _ => ?_) fun _ => keeps_boundExpression hr
  refine .ite (fun _ => ?_) fun _ => keeps_boundExpression hr
  exact looks_advance.bind fun _ _ => looks_advance.bind fun _ _ => .pure trivial

theorem looks_nameList : Looks u nameList fun _ => True := by
  unfold nameList
  refine looks_loop fun _ => looks_name.bind fun _ _ => (looks_accept _).bind fun _ _ => ?_
  exact .ite (fun _ => .pure ⟨rfl, trivial⟩) fun _ => .pure ⟨rfl, trivial⟩

theorem keeps_parameter (hr : rules.Sound) :
    Keeps u (parameter rules) fun t v => v.Usable t ∧ v.IsObject t := by
  unfold parameter
  refine (hr.specifiers u).bind fun s v _ _ hs => (hr.declarator v .either).bind fun d w hw _ ⟨hd, _⟩ => ?_
  refine .of_written fun hwritten => (keeps_attributes hr).bind fun late w' hw' _ _ => ?_
  refine (keeps_declaredType _ (hw'.usable (hw.usable hs)) (hd.grows hwritten.wellFormed hw')).bind fun t x _ _ ht => ?_
  exact keeps_adjustParameter ht

theorem keeps_prototype (hr : rules.Sound) : Keeps u (prototype rules) fun d v => d.Sound v := by
  unfold prototype
  refine keeps_loop (fun before v => ∀ p ∈ before, v.Usable p ∧ v.IsObject p) (by simp) fun before v _ hv hbefore => ?_
  refine (looks_accept _).bind fun _ _ => .ite (fun _ => .pure ⟨by simp, by rintro _ ⟨⟩; exact hbefore⟩) fun _ => ?_
  refine (keeps_parameter hr).bind fun p w hw _ hp => (looks_accept _).bind fun _ _ => ?_
  have hparams : ∀ q ∈ before ++ [p], w.Usable q ∧ w.IsObject q := by
    intro q hq
    rcases List.mem_append.1 hq with hq | hq
    · obtain ⟨husable, hobject⟩ := hbefore q hq
      exact ⟨hw.usable husable, hv.wellFormed.isObject_extends hw.nodes husable.1 hobject⟩
    · rw [List.mem_singleton.1 hq]
      exact hp
  refine .ite (fun _ => .pure ⟨?_, by simp⟩) fun _ => .pure ⟨by simp, ?_⟩
  · rintro _ ⟨⟩
    exact hparams
  · rintro _ ⟨⟩
    exact hparams

theorem keeps_parameters (hr : rules.Sound) : Keeps u (parameters rules) fun d v => d.Sound v := by
  unfold parameters
  refine looks_current.bind fun l _ => .ite (fun _ => .pure trivial) fun _ => .ite (fun _ => ?_) fun _ => ?_
  · refine looks_peek.bind fun _ _ => .ite (fun _ => ?_) fun _ => keeps_prototype hr
    exact looks_advance.bind fun _ _ => .pure (by simp [Derivation.Sound])
  · split
    · refine looks_atType.bind fun _ _ => .ite (fun _ => keeps_prototype hr) fun _ => ?_
      exact looks_nameList.bind fun _ _ => .pure trivial
    · exact keeps_prototype hr

theorem keeps_suffix? (hr : rules.Sound) : Keeps u (suffix? rules) fun r v => ∀ d, r = some d → d.Sound v := by
  unfold suffix?
  refine (looks_check _).bind fun _ _ => .ite (fun _ => ?_) fun _ => (looks_accept _).bind fun _ _ => .ite (fun _ => ?_)
    fun _ => .pure (by simp)
  · refine (keeps_arrayBound hr).bind fun bound v _ _ hbound => .pure ?_
    rintro _ ⟨⟩
    exact hbound
  · refine (keeps_parameters hr).bind fun d v _ _ hd => (looks_expect _).bind fun _ _ => .pure ?_
    rintro _ ⟨⟩
    exact hd

theorem keeps_suffixes (hr : rules.Sound) : Keeps u (suffixes rules) fun ds v => ∀ d ∈ ds, d.Sound v := by
  unfold suffixes
  refine keeps_loop (fun ds v => ∀ d ∈ ds, d.Sound v) (by simp) fun before v _ hv hbefore => ?_
  refine (keeps_suffix? hr).bind fun r w hw _ hr => ?_
  have hbefore' : ∀ d ∈ before, d.Sound w := fun d hd => (hbefore d hd).grows hv.wellFormed hw
  split
  · next d =>
    refine .pure ⟨?_, by simp⟩
    rintro _ ⟨⟩
    exact List.forall_mem_cons.2 ⟨hr d rfl, hbefore'⟩
  · exact .pure ⟨by simp, by rintro _ ⟨⟩; exact hbefore'⟩

/-! ## Whole declarators -/

/-- The middle of a declarator that may be used. -/
def Core.Sound (u : DeclUnit) : Core → Prop
  | nested inner => inner.Sound u
  | name text _ => IsName text
  | absent => True

theorem keeps_core (hr : rules.Sound) (naming : Naming) : Keeps u (core rules naming) fun c v => c.Sound v := by
  unfold core
  refine looks_atNested.bind fun _ _ => .ite (fun _ => ?_) fun _ => .ite (fun _ => .pure trivial) fun _ => ?_
  · refine looks_advance.bind fun _ _ => (hr.declarator u naming).bind fun inner v _ _ ⟨hd, _⟩ => ?_
    exact (looks_expect _).bind fun _ _ => .pure hd
  · refine looks_name?.bind fun r hr => ?_
    split
    · next text span => exact .pure (hr _ rfl)
    · exact .pure trivial

theorem keeps_declarator (hr : rules.Sound) (naming : Naming) :
    Keeps u (declarator rules naming) fun d v => d.Sound v ∧ (naming = .named → d.name.isSome = true) := by
  unfold declarator
  refine .of_written fun hu => looks_here.bind fun start _ => looks_pointers.bind fun before hbefore => ?_
  refine (keeps_core hr naming).bind fun middle v hv hvw hmiddle => ?_
  refine (keeps_suffixes hr).bind fun behind w hw _ hbehind => ?_
  have houter : ∀ d ∈ before ++ behind, d.Sound w := by
    intro d hd
    rcases List.mem_append.1 hd with hd | hd
    · exact (hbefore d hd).grows hu.wellFormed (hv.trans hw)
    · exact hbehind d hd
  refine looks_current.bind fun next _ => .ite (fun _ => keeps_fail _ _) fun hname => .pure ⟨?_, fun hnaming => ?_⟩
  · cases middle with
    | nested inner =>
      obtain ⟨hinner, hsteps⟩ := Declarator.Sound.grows hvw.wellFormed hw hmiddle
      refine ⟨hinner, fun d hd => ?_⟩
      rcases List.mem_append.1 hd with hd | hd
      · exact houter d hd
      · exact hsteps d hd
    | name text span => exact ⟨by rintro _ ⟨⟩; exact hmiddle, houter⟩
    | absent => exact ⟨by simp, houter⟩
  · subst hnaming
    simpa [Option.isNone_iff_eq_none, Option.isSome_iff_ne_none] using hname

end Cognate.Grammar
