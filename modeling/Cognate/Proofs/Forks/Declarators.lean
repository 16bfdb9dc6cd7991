import Cognate.Proofs.Forks.Basic

/-!
# Declarators that end where texts part

One text goes on with a semicolon and the other one with a closing parenthesis. No part of a declarator starts with
either of them, so a declarator that is read up to the semicolon is read up to the parenthesis as well
(`declarator_there`). No token is looked at where the declarator is declared, so it declares the same thing wherever it
stands (`blind_declareAs`).
-/

namespace Cognate.Grammar

/-- A semicolon in the first text and a closing parenthesis in the second one. -/
structure Fork.Closes (F : Fork) : Prop where
  first : F.first.token = .punct .semi
  second : F.second.token = .punct .rparen

variable {F : Fork} {rules rules' : Rules} {s s' : State}

namespace Fork.Closes

theorem first_ne {token : Token} (hF : F.Closes) (h : token ≠ .punct .semi) : F.first.token ≠ token :=
  fun he => h (he.symm.trans hF.first)

theorem second_ne {token : Token} (hF : F.Closes) (h : token ≠ .punct .rparen) : F.second.token ≠ token :=
  fun he => h (he.symm.trans hF.second)

end Fork.Closes

/-! ## Pointers -/

theorem matches_qualifiers (hF : F.Closes) : Matches F (fun q => q) qualifiers qualifiers := by
  rw [qualifiers_eq]
  refine matches_loop (fun q => q) fun q => .current_bind (fun l => ?_) ?_
  · obtain ⟨token, span⟩ := l
    cases token with
    | keyword k =>
      cases k with
      | const | volatile | restrict => exact matches_advance.bind fun _ => .pure rfl
      | _ => exact .pure rfl
    | _ => exact .pure rfl
  · rw [hF.first, hF.second]
    exact .pure rfl

theorem matches_atMemberPointer (hF : F.Closes) : Matches F (fun b => b) atMemberPointer atMemberPointer := by
  refine .of_places (fun s => .current_bind ?_) fun u => .current_bind ?_
  · obtain ⟨⟨token, span⟩, ahead, stop, v⟩ := s
    cases token with
    | name text =>
      refine .peek_bind (fun token => .pure rfl) (.pure ?_)
      rw [hF.first, hF.second]
      rfl
    | _ => exact .pure rfl
  · dsimp only [Fork.here, Fork.there]
    rw [hF.first, hF.second]
    exact .pure rfl

theorem matches_memberPointer (hF : F.Closes) : Matches F (fun d => d) memberPointer memberPointer := by
  have hname : ∀ text, F.second.token ≠ .name text := fun text => hF.second_ne Token.noConfusion
  refine (matches_name hname).bind fun owner => (matches_expect _).bind fun _ => (matches_expect _).bind fun _ => ?_
  refine blind_unit.matches.bind fun u => ?_
  cases u.tag? owner.1 <|> u.typedef? owner.1 with
  | some t => exact (matches_qualifiers hF).bind fun q => .pure rfl
  | none => exact matches_fail _ _ _

theorem matches_pointer? (hF : F.Closes) : Matches F (fun d => d) pointer? pointer? := by
  refine (matches_atMemberPointer hF).bind fun b => .ite ?_ (.current_bind (fun l => ?_) ?_)
  · exact (matches_memberPointer hF).bind fun d => .pure rfl
  · obtain ⟨token, span⟩ := l
    cases token with
    | punct mark =>
      cases mark with
      | star | caret => exact matches_advance.bind fun _ => (matches_qualifiers hF).bind fun q => .pure rfl
      | amp | andAnd => exact matches_advance.bind fun _ => .pure rfl
      | _ => exact .pure rfl
    | _ => exact .pure rfl
  · rw [hF.first, hF.second]
    exact .pure rfl

theorem matches_pointers (hF : F.Closes) : Matches F (fun ds => ds) pointers pointers := by
  refine matches_loop (fun ds => ds) fun before => (matches_pointer? hF).bind fun r => ?_
  cases r with
  | some d => exact .pure rfl
  | none => exact .pure rfl

theorem matches_atNested (hF : F.Closes) : Matches F (fun b => b) atNested atNested := by
  refine .of_places (fun s => .check_bind _ (.ite (fun _ => .peek_bind (fun token => ?_) ?_) fun _ => .pure rfl))
    fun u => .check_bind _ ?_
  · cases token with
    | punct mark => cases mark <;> exact .pure rfl
    | keyword k => cases k <;> exact .pure rfl
    | name text => exact (blind_unit.matches _ _).bind fun u => .pure rfl
    | _ => exact .pure rfl
  · rw [hF.first, hF.second]
    exact .pure rfl
  · change MatchesAt F _ _ _ (if F.first.token == .punct .lparen then _ else _)
      (if F.second.token == .punct .lparen then _ else _)
    rw [hF.first, hF.second]
    exact .pure rfl

/-! ## Suffixes -/

theorem matches_boundExpression (hF : F.Closes) (hr : rules.Keep F rules') :
    Matches F (fun b => b) (arrayBound.boundExpression rules) (arrayBound.boundExpression rules') := by
  intro s s'
  have hfirst : F.first.token ≠ .punct .rbracket := hF.first_ne (by decide)
  have hsteps : Steps rules.constant := .of_follows fun _ _ _ => ⟨_, _, (hr.steps _).constant⟩
  refine .here_bind (Matches.closed hsteps hr.follow.constant rfl hfirst ?_ ?_ s s')
  · intro value b t t' hrun
    cases value with
    | none => exact token_of_expect hrun
    | some size =>
      dsimp only at hrun
      split at hrun
      · exact token_of_expect hrun
      · cases hrun
  · intro value
    cases value with
    | none => exact (matches_expect _).bind fun _ => .pure rfl
    | some size => exact .ite ((matches_expect _).bind fun _ => .pure rfl) (matches_fail_bind _ _ _)

theorem matches_arrayBound (hF : F.Closes) (hr : rules.Keep F rules') :
    Matches F (fun b => b) (arrayBound rules) (arrayBound rules') := by
  have hwords : Matches F (fun x => x) (loop () fun () => do
      if isBoundWord (← current).token then
        let _ ← advance
        return Round.again ()
      else return Round.done ()) (loop () fun () => do
      if isBoundWord (← current).token then
        let _ ← advance
        return Round.again ()
      else return Round.done ()) := by
    refine matches_loop (fun x => x) fun _ => .current_bind (fun l => .ite ?_ (.pure rfl)) ?_
    · exact matches_advance.bind fun _ => .pure rfl
    · rw [hF.first, hF.second]
      exact .pure rfl
  unfold arrayBound
  refine (matches_expect _).bind fun _ => hwords.bind fun _ => ?_
  refine (matches_accept (hF.second_ne (by decide))).bind fun _ => .ite (.pure rfl) ?_
  refine .of_places (fun s => .check_bind _ ?_) fun u => .check_bind _ ?_
  · refine .ite (fun _ => .peek_bind (fun token => .ite (fun _ => ?_) fun _ => ?_) ?_) fun _ => ?_
    · exact (matches_advance _ _).bind fun _ => matches_advance.bind fun _ => .pure rfl
    · exact matches_boundExpression hF hr _ _
    · rw [hF.first, hF.second]
      exact matches_boundExpression hF hr _ _
    · exact matches_boundExpression hF hr _ _
  · change MatchesAt F _ _ _ (if F.first.token == .punct .star then _ else _)
      (if F.second.token == .punct .star then _ else _)
    rw [hF.first, hF.second]
    exact matches_boundExpression hF hr _ _

theorem matches_suffix? (hF : F.Closes) (hr : rules.Keep F rules') :
    Matches F (fun d => d) (suffix? rules) (suffix? rules') := by
  have hcheck : Matches F (fun b => b) (check (.punct .lbracket)) (check (.punct .lbracket)) :=
    matches_check (hF.first_ne (by decide)) (hF.second_ne (by decide))
  have hsteps : Steps (parameters rules) := .of_follows fun _ _ _ => ⟨_, _, follows_parameters (hr.steps _)⟩
  unfold suffix?
  refine hcheck.bind fun _ => .ite ?_ ((matches_accept (hF.second_ne (by decide))).bind fun _ => .ite ?_ (.pure rfl))
  · exact (matches_arrayBound hF hr).bind fun bound => .pure rfl
  · refine .closed hsteps (follows_parameters hr.follow) rfl (hF.first_ne (by decide)) token_of_expect fun d => ?_
    exact (matches_expect _).bind fun _ => .pure rfl

theorem matches_suffixes (hF : F.Closes) (hr : rules.Keep F rules') :
    Matches F (fun ds => ds) (suffixes rules) (suffixes rules') := by
  unfold suffixes
  refine matches_loop (fun ds => ds) fun before => (matches_suffix? hF hr).bind fun r => ?_
  cases r with
  | some d => exact .pure rfl
  | none => exact .pure rfl

/-! ## Whole declarators -/

theorem matches_core (hF : F.Closes) (hr : rules.Keep F rules') (naming : Naming) :
    Matches F (Core.shift F.places) (core rules naming) (core rules' naming) := by
  have hname : ∀ text, F.second.token ≠ .name text := fun text => hF.second_ne Token.noConfusion
  have hsteps : Steps (rules.declarator naming) :=
    .of_follows fun _ _ _ => ⟨_, _, (hr.steps _).declarator naming⟩
  unfold core
  refine (matches_atNested hF).bind fun _ => .ite (matches_advance.bind fun _ => ?_) (.ite (.pure rfl) ?_)
  · refine .closed hsteps (hr.follow.declarator naming) rfl (hF.first_ne (by decide)) token_of_expect fun inner => ?_
    exact (matches_expect _).bind fun _ => .pure rfl
  · refine (matches_name? hname).bind fun r => ?_
    cases r with
    | some found => exact .pure rfl
    | none => exact .pure rfl

/-- The parts of a declarator in their order. -/
def declaratorParts (rules : Rules) (naming : Naming) : Parse (List Derivation × Core × List Derivation) := do
  let before ← pointers
  let middle ← core rules naming
  let behind ← suffixes rules
  return (before, middle, behind)

/-- The name and the steps that the parts come to. -/
def joinParts : List Derivation × Core × List Derivation → Option (String × Span) × List Derivation
  | (before, .nested inner, behind) => (inner.name, before ++ behind ++ inner.derivations)
  | (before, .name text span, behind) => (some (text, span), before ++ behind)
  | (before, .absent, behind) => (none, before ++ behind)

theorem declarator_run (naming : Naming) (s : State) : declarator rules naming s =
    match declaratorParts rules naming s with
    | .error fault t => .error fault t
    | .ok parts t =>
      if naming == .named && (joinParts parts).1.isNone then
        .error ⟨.expectedDeclaredName t.current.token, t.current.span⟩ t
      else .ok ⟨(joinParts parts).1, (joinParts parts).2, s.current.span.merge t.current.span⟩ t := by
  unfold declarator declaratorParts
  rw [here_bind]
  simp only [bind_run]
  cases pointers s with
  | error fault t => rfl
  | ok before s₁ =>
    dsimp only
    cases core rules naming s₁ with
    | error fault t => rfl
    | ok middle s₂ =>
      dsimp only
      cases suffixes rules s₂ with
      | error fault t => rfl
      | ok behind t =>
        have hend : ∀ (name : Option (String × Span)) (derivations : List Derivation),
            (do
              let next ← current
              if naming == .named && name.isNone then fail (.expectedDeclaredName next.token) next.span
              else return (⟨name, derivations, s.current.span.merge next.span⟩ : Declarator) : Parse Declarator) t =
              if naming == .named && name.isNone then .error ⟨.expectedDeclaredName t.current.token, t.current.span⟩ t
              else .ok ⟨name, derivations, s.current.span.merge t.current.span⟩ t := by
          intro name derivations
          rw [current_bind]
          split <;> rfl
        cases middle <;> exact hend _ _

theorem matches_declaratorParts (hF : F.Closes) (hr : rules.Keep F rules') (naming : Naming) :
    Matches F (fun (before, middle, behind) => (before, middle.shift F.places, behind)) (declaratorParts rules naming)
      (declaratorParts rules' naming) := by
  refine (matches_pointers hF).bind fun before => (matches_core hF hr naming).bind fun middle => ?_
  exact (matches_suffixes hF hr).bind fun behind => .pure rfl

theorem joinParts_shift (k : Nat) (before : List Derivation) (middle : Core) (behind : List Derivation) :
    joinParts (before, middle.shift k, behind) =
      ((joinParts (before, middle, behind)).1.map (shiftName k), (joinParts (before, middle, behind)).2) := by
  cases middle <;> rfl

/-- A declarator read up to the semicolon is read up to the parenthesis. -/
theorem declarator_there (hF : F.Closes) (hr : rules.Keep F rules') {naming : Naming} {d : Declarator} {u : DeclUnit}
    (hs : F.Meets s s') (hrun : declarator rules naming s = .ok d (F.here u)) :
    ∃ span, declarator rules' naming s' =
      .ok ⟨d.name.map (shiftName F.places), d.derivations, span⟩ (F.there u) := by
  rw [declarator_run] at hrun
  cases hparts : declaratorParts rules naming s with
  | error fault t =>
    rw [hparts] at hrun
    cases hrun
  | ok parts t =>
    obtain ⟨before, middle, behind⟩ := parts
    rw [hparts] at hrun
    dsimp only at hrun
    split at hrun
    · cases hrun
    next hname =>
    cases hrun
    -- The first reading has ended at the place, so it has not gone past it.
    rcases (matches_declaratorParts hF hr naming _ _).meets hs hparts with hpast | ⟨t', hparts', ht'⟩
    · exact absurd hpast (Fork.Meets.here u).not_past
    · rw [declarator_run, hparts', ht'.eq_there]
      dsimp only
      rw [joinParts_shift, Option.isNone_map, if_neg hname]
      exact ⟨_, rfl⟩

/-! ## Declared types -/

theorem blind_checkResult (t : Ty) (span span' : Span) : Blind (checkResult t span) (checkResult t span') :=
  .unit_bind fun _ => .ite (blind_fail _ _ _) (.pure _)

theorem blind_vectorOf (element : Ty) (bytes : Int) (span span' : Span) :
    Blind (vectorOf element bytes span) (vectorOf element bytes span') := by
  refine .unit_bind fun u => (blind_measured _ _ _).bind fun o => ?_
  cases Option.filter _ o with
  | none => exact blind_fail _ _ _
  | some e =>
    dsimp only
    cases vectorCount bytes e.bytes with
    | error cause => exact blind_fail _ _ _
    | ok count => exact blind_build _

theorem blind_derive (span span' : Span) (traits : FunctionTraits) (t : Ty) (d : Derivation) :
    Blind (derive span traits t d) (derive span' traits t d) := by
  unfold derive
  cases d with
  | pointer q | blockPointer q | memberPointer owner q => exact (blind_build _).bind fun _ => blind_build _
  | lvalueRef | rvalueRef => exact blind_build _
  | array bound =>
    refine .unit_bind fun u => .ite (blind_fail_bind _ _ _) ?_
    cases bound <;> exact blind_build _
  | function params variadic | noPrototype => exact (blind_checkResult t _ _).bind fun _ => blind_build _

theorem blind_deriveAll (span span' : Span) (traits : FunctionTraits) (t : Ty) (ds : List Derivation) :
    Blind (deriveAll span traits t ds) (deriveAll span' traits t ds) := by
  induction ds generalizing t with
  | nil => exact .pure t
  | cons d ds ih => exact (blind_derive _ _ _ t d).bind fun t' => ih t'

theorem blind_declaredType (t : Ty) (name name' : Option (String × Span)) (ds : List Derivation) (span span' : Span)
    (attributes : Attributes) (k : Nat) :
    Blind (declaredType t ⟨name, ds, span⟩ attributes) (declaredType t ⟨name', ds, span'⟩ (attributes.shift k)) := by
  obtain ⟨vectorSize, traits⟩ := attributes
  cases vectorSize with
  | none => exact blind_deriveAll _ _ _ _ _
  | some size => exact (blind_vectorOf _ _ _ _).bind fun t' => blind_deriveAll _ _ _ _ _

theorem blind_declareOne (isTypedef : Bool) (text : String) (span span' : Span) (t : Ty) :
    Blind (declareOne isTypedef (text, span) t) (declareOne isTypedef (text, span') t) := by
  cases isTypedef with
  | true =>
    have htypedef : Blind (define span (·.defineTypedef text t)) (define span' (·.defineTypedef text t)) :=
      blind_define _ _ _
    exact htypedef.bind fun _ => .pure ()
  | false =>
    have hvalue : Blind (define span (·.declareValue text t)) (define span' (·.declareValue text t)) :=
      blind_define _ _ _
    exact hvalue

/-- A declarator without attributes, body or initializer. -/
def declareAs (a : Specifiers) (d : Declarator) : Parse Unit := do
  let t ← declaredType a.type d (a.attributes.merge {})
  declareOne a.isTypedef (d.name.getD ("", ⟨0, 0⟩)) t

/-- It does not matter where the declarator stands. -/
theorem blind_declareAs (a : Specifiers) (name : Option (String × Span)) (ds : List Derivation) (span span' : Span)
    (j k : Nat) :
    Blind (declareAs a ⟨name, ds, span⟩) (declareAs (a.shift j) ⟨name.map (shiftName k), ds, span'⟩) := by
  have hmerge : (a.shift j).attributes.merge {} = (a.attributes.merge {}).shift j :=
    (Attributes.shift_merge j _ {}).symm
  unfold declareAs
  rw [hmerge]
  refine (blind_declaredType _ _ _ _ _ _ _ j).bind fun t => ?_
  cases name with
  | none => exact blind_declareOne _ _ _ _ t
  | some found => exact blind_declareOne _ _ _ _ t

end Cognate.Grammar
