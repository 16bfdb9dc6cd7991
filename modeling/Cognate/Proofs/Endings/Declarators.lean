import Cognate.Proofs.Endings.Parts

/-!
# How readers of declarators end

A declarator need not move on, but each pointer and each suffix of it does, and parentheses stand in front of what is
nested in it. The spans of a declarator and of its name are places of the text.
-/

namespace Cognate.Grammar

variable {W : Setting} {rules : Rules} {s t : State} {n : Nat}

/-! ## Pointers -/

theorem qualifiers_ends (hs : s.Placed W) : Ends W qualifiers s fun _ _ => True := by
  refine loop_ends (fun _ _ => True) hs trivial fun q t ht _ _ => .current ?_
  split
  · next htok => exact .advance ht (by simp [htok]) fun t₁ ht₁ hlt => .pure ht₁ ⟨hlt, trivial⟩
  · next htok => exact .advance ht (by simp [htok]) fun t₁ ht₁ hlt => .pure ht₁ ⟨hlt, trivial⟩
  · next htok => exact .advance ht (by simp [htok]) fun t₁ ht₁ hlt => .pure ht₁ ⟨hlt, trivial⟩
  · exact .pure ht trivial

theorem atMemberPointer_ends (hs : s.Placed W) : Ends W atMemberPointer s fun _ _ => True := by
  refine .current ?_
  split
  · exact .peek hs fun next => .pure hs trivial
  · exact .pure hs trivial

theorem memberPointer_ends (hs : s.Placed W) : Ends W memberPointer s fun _ t => t.left < s.left := by
  refine (name_ends hs).bind fun owner t ht _ hspan => ?_
  refine .expect ht fun _ t₁ ht₁ hlt => .expect ht₁ fun _ t₂ ht₂ hlt₂ => .unit ?_
  split
  · exact (qualifiers_ends ht₂).bind fun q t₃ ht₃ hle _ => .pure ht₃ (by omega)
  · exact .fail ht₂ hspan (by simp)

theorem pointer?_ends (hs : s.Placed W) :
    Ends W pointer? s fun r t => r.isSome = true → t.left < s.left := by
  refine (atMemberPointer_ends hs).bind fun b t ht _ _ => .ite (fun _ => ?_) fun _ => .current ?_
  · exact (memberPointer_ends ht).bind fun d t₁ ht₁ _ hlt => .pure ht₁ fun _ => by omega
  · split
    · next htok =>
      refine .advance ht (by simp [htok]) fun t₁ ht₁ hlt => (qualifiers_ends ht₁).bind fun q t₂ ht₂ hle _ => ?_
      exact .pure ht₂ fun _ => by omega
    · next htok =>
      refine .advance ht (by simp [htok]) fun t₁ ht₁ hlt => (qualifiers_ends ht₁).bind fun q t₂ ht₂ hle _ => ?_
      exact .pure ht₂ fun _ => by omega
    · next htok => exact .advance ht (by simp [htok]) fun t₁ ht₁ hlt => .pure ht₁ fun _ => by omega
    · next htok => exact .advance ht (by simp [htok]) fun t₁ ht₁ hlt => .pure ht₁ fun _ => by omega
    · exact .pure ht (by simp)

theorem pointers_ends (hs : s.Placed W) : Ends W pointers s fun _ _ => True := by
  refine loop_ends (fun _ _ => True) hs trivial fun before t ht _ _ => (pointer?_ends ht).bind fun r t₁ ht₁ _ hr => ?_
  split
  · exact .pure ht₁ ⟨hr rfl, trivial⟩
  · exact .pure ht₁ trivial

/-! ## Suffixes -/

theorem boundExpression_ends (hr : rules.EndBelow W n) (hs : s.Placed W) (hn : s.left < n) :
    Ends W (arrayBound.boundExpression rules) s fun _ _ => True := by
  refine .here ((hr.constant s hs hn).bind fun value t ht _ _ => ?_)
  split
  · exact .expect ht fun _ t₁ ht₁ _ => .pure ht₁ trivial
  · refine .ite (fun _ => .expect ht fun _ t₁ ht₁ _ => .pure ht₁ trivial) fun _ => ?_
    exact .fail_bind ht hs.current (by simp)

theorem arrayBound_ends (hr : rules.EndBelow W n) (hs : s.Placed W) (hn : s.left ≤ n) :
    Ends W (arrayBound rules) s fun _ t => t.left < s.left := by
  have hwords : ∀ {s : State}, s.Placed W → Ends W (loop () fun () => do
      if isBoundWord (← current).token then
        let _ ← advance
        return Round.again ()
      else return Round.done ()) s fun _ _ => True := by
    refine fun hs => loop_ends (fun _ _ => True) hs trivial fun _ t ht _ _ => .current ?_
    refine .ite (fun hword => ?_) fun _ => ?_
    · have htok : t.current.token ≠ .finish := fun h => by simp [h, isBoundWord, Token.isQualifier] at hword
      exact .advance ht htok fun t₁ ht₁ hlt => .pure ht₁ ⟨hlt, trivial⟩
    · exact .pure ht trivial
  refine .expect hs fun _ t₁ ht₁ hlt => (hwords ht₁).bind fun _ t₂ ht₂ hle _ => ?_
  have hbound : Ends W (arrayBound.boundExpression rules) t₂ fun _ t => t.left < s.left :=
    (boundExpression_ends hr ht₂ (by omega)).weaken fun _ _ _ _ => by omega
  refine .accept ht₂ (by simp) (fun _ t₃ ht₃ _ => .pure ht₃ (by omega)) fun _ => ?_
  refine .check (fun hstar => .peek ht₂ fun next => .ite (fun _ => ?_) fun _ => hbound) fun _ => hbound
  refine .advance ht₂ (by simp [hstar]) fun t₃ ht₃ _ => (advance_ends ht₃).bind fun _ t₄ ht₄ hle₄ _ => ?_
  exact .pure ht₄ (by omega)

theorem nameList_ends (hs : s.Placed W) : Ends W nameList s fun _ _ => True := by
  refine loop_ends (fun _ _ => True) hs trivial fun _ t ht _ _ => (name_ends ht).bind fun _ t₁ ht₁ hle _ => ?_
  exact .accept ht₁ (by simp) (fun _ t₂ ht₂ hlt => .pure ht₂ ⟨by omega, trivial⟩) fun _ => .pure ht₁ trivial

theorem parameter_ends (hr : rules.EndBelow W n) (hs : s.Placed W) (hn : s.left < n) :
    Ends W (parameter rules) s fun _ _ => True := by
  refine (hr.specifiers s hs hn).bind fun specifiers t₁ ht₁ _ ⟨hlt, hearly⟩ => ?_
  refine (hr.declarator .either t₁ ht₁ (by omega)).bind fun d t₂ ht₂ hle₂ hd => ?_
  refine (attributes_ends hr.constant ht₂ (by omega)).bind fun late t₃ ht₃ _ hlate => ?_
  refine (declaredType_ends ht₃ _ hd.span (hearly.merge hlate.1)).bind fun t t₄ ht₄ _ _ => ?_
  exact adjustParameter_ends ht₄ t

theorem prototype_ends (hr : rules.EndBelow W n) (hs : s.Placed W) (hn : s.left < n) :
    Ends W (prototype rules) s fun _ _ => True := by
  refine loop_ends (fun _ _ => True) hs trivial fun before t ht hle _ => ?_
  refine .accept ht (by simp) (fun _ t₁ ht₁ _ => .pure ht₁ trivial) fun _ => ?_
  refine (parameter_ends hr ht (by omega)).bind fun p t₁ ht₁ hle₁ _ => ?_
  exact .accept ht₁ (by simp) (fun _ t₂ ht₂ hlt => .pure ht₂ ⟨by omega, trivial⟩) fun _ => .pure ht₁ trivial

theorem parameters_ends (hr : rules.EndBelow W n) (hs : s.Placed W) (hn : s.left < n) :
    Ends W (parameters rules) s fun _ _ => True := by
  refine .current (.ite (fun _ => .pure hs trivial) fun _ => .ite (fun hvoid => ?_) fun _ => ?_)
  · refine .peek hs fun next => .ite (fun _ => ?_) fun _ => prototype_ends hr hs hn
    exact .advance hs (by simp [beq_iff_eq.1 hvoid]) fun t₁ ht₁ _ => .pure ht₁ trivial
  · split
    · refine .atType (.ite (fun _ => prototype_ends hr hs hn) fun _ => ?_)
      exact (nameList_ends hs).bind fun _ t₁ ht₁ _ _ => .pure ht₁ trivial
    · exact prototype_ends hr hs hn

theorem suffix?_ends (hr : rules.EndBelow W n) (hs : s.Placed W) (hn : s.left ≤ n) :
    Ends W (suffix? rules) s fun r t => r.isSome = true → t.left < s.left := by
  refine .check (fun _ => ?_) fun _ => .accept hs (by simp) (fun _ t₁ ht₁ hlt => ?_) fun _ => .pure hs (by simp)
  · exact (arrayBound_ends hr hs hn).bind fun bound t₁ ht₁ _ hlt => .pure ht₁ fun _ => hlt
  · refine (parameters_ends hr ht₁ (by omega)).bind fun d t₂ ht₂ hle _ => ?_
    exact .expect ht₂ fun _ t₃ ht₃ hlt₃ => .pure ht₃ fun _ => by omega

theorem suffixes_ends (hr : rules.EndBelow W n) (hs : s.Placed W) (hn : s.left ≤ n) :
    Ends W (suffixes rules) s fun _ _ => True := by
  refine loop_ends (fun _ _ => True) hs trivial fun before t ht hle _ => ?_
  refine (suffix?_ends hr ht (by omega)).bind fun r t₁ ht₁ _ hr => ?_
  split
  · exact .pure ht₁ ⟨hr rfl, trivial⟩
  · exact .pure ht₁ trivial

/-! ## Whole declarators -/

/-- An opening parenthesis stands in front of what is nested. -/
theorem atNested_ends (hs : s.Placed W) :
    Ends W atNested s fun b t => t = s ∧ (b = true → s.current.token = .punct .lparen) := by
  refine .check (fun h => .peek hs fun next => ?_) fun _ => .pure hs ⟨rfl, by simp⟩
  split
  all_goals first | exact .pure hs ⟨rfl, fun _ => h⟩ | exact .unit (.pure hs ⟨rfl, fun _ => h⟩)

def Core.Placed (W : Setting) (naming : Naming) : Core → Prop
  | nested inner => inner.Placed W naming
  | name _ span => W.Place span
  | absent => True

theorem core_ends (hr : rules.EndBelow W n) (hs : s.Placed W) (hn : s.left ≤ n) (naming : Naming) :
    Ends W (core rules naming) s fun c _ => c.Placed W naming := by
  refine (atNested_ends hs).bind fun b t _ _ hb => ?_
  obtain ⟨rfl, hlparen⟩ := hb
  refine .ite (fun h => ?_) fun _ => .ite (fun _ => .pure hs trivial) fun _ => ?_
  · refine .advance hs (by simp [hlparen h]) fun t₁ ht₁ hlt => ?_
    refine (hr.declarator naming t₁ ht₁ (by omega)).bind fun inner t₂ ht₂ _ hinner => ?_
    exact .expect ht₂ fun _ t₃ ht₃ _ => .pure ht₃ hinner
  · refine (name?_ends hs).bind fun r t₁ ht₁ _ hname => ?_
    split
    · next text span => exact .pure ht₁ (hname _ rfl)
    · exact .pure ht₁ trivial

/-- A declarator reaches from its first token to the one behind it. -/
theorem declarator_ends (hr : rules.EndBelow W n) (hs : s.Placed W) (hn : s.left ≤ n) (naming : Naming) :
    Ends W (declarator rules naming) s fun d _ => d.Placed W naming := by
  refine .here ((pointers_ends hs).bind fun before t₁ ht₁ hle₁ _ => ?_)
  refine (core_ends hr ht₁ (by omega) naming).bind fun middle t₂ ht₂ hle₂ hmiddle => ?_
  refine (suffixes_ends hr ht₂ (by omega)).bind fun behind t₃ ht₃ _ _ => .current ?_
  refine .ite (fun _ => .fail ht₃ ht₃.current (by simp)) fun hname => .pure ht₃ ?_
  refine ⟨W.merge hs.current ht₃.current, ?_, fun hnaming => ?_⟩
  · cases middle with
    | nested inner => exact hmiddle.name
    | name text span =>
      rintro _ ⟨⟩
      exact hmiddle
    | absent => rintro _ ⟨⟩
  · subst hnaming
    simpa [Option.isNone_iff_eq_none, Option.isSome_iff_ne_none] using hname

end Cognate.Grammar
