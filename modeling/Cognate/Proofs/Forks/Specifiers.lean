import Cognate.Proofs.Forks.Basic

/-!
# Specifiers in front of a declarator

One text goes on with a declarator and the other one with an opening parenthesis. Both end the specifiers: no specifier
starts with either of them, behind the name of a tag neither is a body, and `_Atomic` may stand in front of neither. So
specifiers that are read up to the declarator are read up to the parenthesis as well (`specifiers_there`). The type that
an enumeration is given is a type name, which would go on with the declarator, so such a name must end before.
-/

namespace Cognate.Grammar

/-- A token other than an opening parenthesis that a declarator with a name starts with. -/
def opensDeclarator : Token → Bool
  | .name _ | .punct .star | .punct .caret | .punct .amp | .punct .andAnd => true
  | _ => false

/-- The first token of a declarator in the first text, and an opening parenthesis in the second one. In front of them
does not stand `_Atomic`. -/
structure Fork.Opens (F : Fork) : Prop where
  first : opensDeclarator F.first.token = true
  second : F.second.token = .punct .lparen
  atomic : ∀ {before l}, F.common = before ++ [.ok l] → l.token ≠ .keyword .atomic

variable {F : Fork} {rules rules' : Rules} {s s' t : State}

namespace Fork.Opens

theorem first_ne {token : Token} (hF : F.Opens) (h : opensDeclarator token = false) : F.first.token ≠ token := by
  intro he
  have hfirst := hF.first
  rw [he, h] at hfirst
  cases hfirst

theorem second_ne {token : Token} (hF : F.Opens) (h : token ≠ .punct .lparen) : F.second.token ≠ token :=
  fun he => h (he.symm.trans hF.second)

end Fork.Opens

/-! ## Attributes -/

theorem matches_attributes (hF : F.Opens) (hr : rules.Keep F rules') :
    Matches F (Attributes.shift F.places) (attributes rules) (attributes rules') := by
  unfold attributes
  change Matches F _ (loop ({} : Attributes) _) (loop (Attributes.shift F.places {}) _)
  refine matches_loop (Attributes.shift F.places) fun before => ?_
  refine (matches_accept (hF.second_ne (by decide))).bind fun _ => .ite ?_ (.pure rfl)
  refine (matches_expect _).bind fun _ => (matches_expect _).bind fun _ => ?_
  have hsteps : Steps (attributeList rules before) :=
    .of_follows fun _ _ _ => ⟨_, _, follows_attributeList (hr.steps _) before⟩
  refine .closed hsteps (follows_attributeList hr.follow before) rfl (hF.first_ne rfl) token_of_expect fun after => ?_
  exact (matches_expect _).bind fun _ => (matches_expect _).bind fun _ => .pure rfl

/-! ## Tagged types -/

theorem blind_declareTagged (tag : Tag) (name : Option String) :
    Blind (declareTagged tag name) (declareTagged tag name) := by
  unfold declareTagged
  cases tag <;> exact blind_build _

theorem blind_taggedType (tag : Tag) (name : String) (span span' : Span) :
    Blind (taggedType tag name span) (taggedType tag name span') := by
  refine .unit_bind fun u => ?_
  cases u.tag? name with
  | some t => exact .ite (.pure t) (blind_fail _ _ _)
  | none => exact (blind_declareTagged tag name).bind fun t => (blind_define _ _ _).bind fun _ => .pure t

theorem blind_bodyOwner (tag : Tag) (name : Option String) (span span' : Span) :
    Blind (bodyOwner tag name span) (bodyOwner tag name span') := by
  cases name with
  | some text => exact blind_taggedType tag text span span'
  | none => exact blind_declareTagged tag none

theorem blind_withoutBody (tag : Tag) (name : Option String) (span span' : Span) :
    Blind (withoutBody tag name span) (withoutBody tag name span') := by
  cases name with
  | some text => exact blind_taggedType tag text span span'
  | none =>
    intro s a t hrun
    cases hrun

theorem matches_record (hF : F.Opens) (hr : rules.Keep F rules') (tag : Tag) (keyword : Span) :
    Matches F (fun t => t) (record rules tag keyword) (record rules' tag (keyword.shift F.places)) := by
  have hname : ∀ text, F.second.token ≠ .name text := fun text => hF.second_ne Token.noConfusion
  unfold record
  refine (matches_attributes hF hr).bind fun _ => (matches_name? hname).bind fun found => ?_
  rw [map_shiftName]
  refine (matches_check (hF.first_ne rfl) (hF.second_ne (by decide))).bind fun _ => .ite ?_ ?_
  · refine (blind_bodyOwner _ _ _ _).matches.bind fun t => matches_advance.bind fun _ => ?_
    have hsteps : Steps (members rules tag keyword) :=
      .of_follows fun _ _ _ => ⟨_, _, follows_members (hr.steps _) tag keyword⟩
    refine .closed hsteps (follows_members hr.follow tag keyword) rfl (hF.first_ne rfl) token_of_expect fun fields => ?_
    exact (matches_expect _).bind fun closing => (blind_define _ _ _).matches.bind fun _ => .pure rfl
  · exact (blind_withoutBody _ _ _ _).matches

theorem blind_enumType (values : List Int) (span span' : Span) :
    Blind (enumType values span) (enumType values span') := by
  refine .unit_bind fun u => ?_
  cases enumKinds.find? (holdsAll u.target (0 :: values)) with
  | some b => exact blind_build _
  | none => exact blind_fail _ _ _

theorem blind_checkValues (base : Ty) (values : List Int) (span span' : Span) :
    Blind (checkValues base values span) (checkValues base values span') := by
  refine .unit_bind fun u => ?_
  cases u.builtinKind? base with
  | none => exact .pure _
  | some b =>
    dsimp only
    cases integerRange? u.target b with
    | none => exact .pure _
    | some range =>
      dsimp only
      cases values.find? fun v => v < range.1 || range.2 < v with
      | some v => exact blind_fail _ _ _
      | none => exact .pure _

theorem matches_enumerationEnd (hF : F.Opens) (hr : rules.Keep F rules') (keyword : Span) (name : Option String)
    (given : Option Ty) : Matches F (fun t => t) (enumerationEnd rules keyword name given)
      (enumerationEnd rules' (keyword.shift F.places) name given) := by
  unfold enumerationEnd
  refine (matches_check (hF.first_ne rfl) (hF.second_ne (by decide))).bind fun _ => .ite ?_ ?_
  · refine (blind_bodyOwner _ _ _ _).matches.bind fun t => matches_advance.bind fun _ => ?_
    have hsteps : Steps (enumerators rules t) := .of_follows fun _ _ _ => ⟨_, _, follows_enumerators (hr.steps _) t⟩
    refine .closed hsteps (follows_enumerators hr.follow t) rfl (hF.first_ne rfl) token_of_expect fun constants => ?_
    refine (matches_expect _).bind fun closing => ?_
    have hend : ∀ (base : Ty) (span span' : Span), Matches F (fun t => t) (do
        define span (·.completeEnum t base constants)
        return t) (do
        define span' (·.completeEnum t base constants)
        return t) := fun base span span' => (blind_define _ _ _).matches.bind fun _ => .pure rfl
    cases given with
    | some base => exact (blind_checkValues _ _ _ _).matches.bind fun _ => hend base _ _
    | none => exact (blind_enumType _ _ _).matches.bind fun base => hend base _ _
  · exact (blind_withoutBody _ _ _ _).matches

/-- A reading in front of a token behind which none of the readers goes on that still may follow. -/
def Fork.Stalls (F : Fork) (t : State) : Prop := F.Before t ∧ looksBehind t.current.token = true

/-- Where an enumeration is given a type, no type name goes on up to the declarator. -/
def Fork.Given (F : Fork) (rules : Rules) : Prop := ∀ {s s₁ l t u}, F.Before s → s.current.token = .punct .colon →
  advance s = .ok l s₁ → rules.typeName s₁ ≠ .ok t (F.here u)

/-- What follows the name of an enumeration. -/
def enumerationRest (rules : Rules) (keyword : Span) (name : Option String) : Parse Ty := do
  let given ← if ← accept (.punct .colon) then some <$> rules.typeName else pure none
  enumerationEnd rules keyword name given

theorem enumeration_eq_rest (keyword : Span) : enumeration rules keyword = (do
    let _ ← attributes rules
    let found ← name?
    enumerationRest rules keyword (found.map (·.1))) := rfl

theorem accept_eq_true {token : Token} (h : accept token s = .ok true t) :
    s.current.token = token ∧ ∃ l, advance s = .ok l t := by
  obtain ⟨b, s₁, hcheck, h⟩ := bind_eq_ok h
  cases hcheck
  split at h
  · next htoken =>
    obtain ⟨l, s₂, hadvance, h⟩ := bind_eq_ok h
    cases h
    exact ⟨beq_iff_eq.1 htoken, l, hadvance⟩
  · cases h

/-- Without a body nothing is read. -/
theorem enumerationEnd_stays {keyword : Span} {name : Option String} {given : Option Ty} {a : Ty}
    (hbrace : s.current.token ≠ .punct .lbrace) (hrun : enumerationEnd rules keyword name given s = .ok a t) :
    t = { s with unit := t.unit } := by
  have hrun : (if s.current.token == .punct .lbrace then _ else withoutBody .enum name keyword) s = _ := hrun
  rw [if_neg fun h => hbrace (beq_iff_eq.1 h)] at hrun
  exact (blind_withoutBody .enum name keyword keyword _ _ _ hrun).1

theorem enumerationRest_meets (hF : F.Opens) (hgiven : F.Given rules) (hr : rules.Keep F rules') {keyword : Span}
    {name : Option String} {a : Ty} (hs : F.Meets s s') (hrun : enumerationRest rules keyword name s = .ok a t) :
    F.Past t ∨ F.Stalls t ∨
      ∃ t', enumerationRest rules' (keyword.shift F.places) name s' = .ok a t' ∧ F.Meets t t' := by
  have hend := fun given => matches_enumerationEnd hF hr keyword name given
  have hsteps : Steps rules.typeName := .of_follows fun _ _ _ => ⟨_, _, (hr.steps _).typeName⟩
  obtain ⟨b, s₁, haccept, hrun⟩ := bind_eq_ok hrun
  have hfirst := (matches_accept (hF.second_ne (by decide)) _ _).meets hs haccept
  cases b with
  | false =>
    have hrun : enumerationEnd rules keyword name none s₁ = .ok a t := hrun
    rcases hfirst with hpast | ⟨s₁', haccept', hs₁⟩
    · exact .inl (((hend none s₁ s₁).left hrun).trans hpast)
    rcases (hend none _ _).meets hs₁ hrun with hpast | hsecond
    · exact .inl hpast
    · refine .inr (.inr ?_)
      unfold enumerationRest
      rw [bind_of_ok haccept']
      exact hsecond
  | true =>
    obtain ⟨given, s₂, htype, hrun⟩ := bind_eq_ok hrun
    obtain ⟨value, s₃, hvalue, htype⟩ := bind_eq_ok ((congrFun (map_eq_pure_bind _ _) s₁).symm.trans htype)
    cases htype
    have hleft := (hend (some value) s₂ s₂).left hrun
    rcases hfirst with hpast | ⟨s₁', haccept', hs₁⟩
    · exact .inl ((hleft.trans (hsteps.left hvalue)).trans hpast)
    -- The name of the given type ends in front of the place, at it or behind it.
    rcases hsteps.on hs₁.on hvalue with hs₂ | hs₂ | hs₂
    · obtain ⟨-, rfl⟩ := hsteps.before hs₁ hvalue hs₂
      rcases hr.follow.typeName.of_before hs₂ hvalue with hlooks | hsecond
      · -- What stands in front of the place goes on with a type, so it is no body.
        have ht : t = { s₂ with unit := t.unit } := by
          refine enumerationEnd_stays (fun hbrace => ?_) hrun
          rw [hbrace] at hlooks
          cases hlooks
        rw [ht]
        exact .inr (.inl ⟨hs₂, hlooks⟩)
      · rcases (hend (some value) _ _).meets (.before hs₂) hrun with hpast | ⟨t', hlast, ht'⟩
        · exact .inl hpast
        · have htype' : (some <$> rules'.typeName) (F.transport.state s₁) =
              .ok (some value) (F.transport.state s₂) := by
            rw [map_eq_pure_bind]
            exact bind_of_ok hsecond
          refine .inr (.inr ⟨t', ?_, ht'⟩)
          unfold enumerationRest
          rw [bind_of_ok haccept']
          exact (bind_of_ok htype').trans hlast
    · obtain ⟨hcolon, l, hadvance⟩ := accept_eq_true haccept
      rw [hs₂] at hvalue
      cases hs with
      | before hs => exact absurd hvalue (hgiven hs hcolon hadvance)
      | here u => exact absurd hcolon (hF.first_ne rfl)
    · exact .inl (hleft.trans hs₂)

theorem steps_enumerationRest (hr : rules.Keep F rules') (keyword : Span) (name : Option String) :
    Steps (enumerationRest rules keyword name) := by
  refine .of_follows fun _ _ _ => ⟨fun a => a, enumerationRest rules keyword name, (follows_accept _).bind fun b => ?_⟩
  cases b with
  | true =>
    refine ((hr.steps _).typeName.map (h := fun given => given) fun _ => rfl).bind fun given => ?_
    exact follows_enumerationEnd (hr.steps _) keyword name given
  | false => exact follows_enumerationEnd (hr.steps _) keyword name none

theorem enumeration_meets (hF : F.Opens) (hgiven : F.Given rules) (hr : rules.Keep F rules') {keyword : Span} {a : Ty}
    (hs : F.Meets s s') (hrun : enumeration rules keyword s = .ok a t) :
    F.Past t ∨ F.Stalls t ∨ ∃ t', enumeration rules' (keyword.shift F.places) s' = .ok a t' ∧ F.Meets t t' := by
  have hname : ∀ text, F.second.token ≠ .name text := fun text => hF.second_ne Token.noConfusion
  rw [enumeration_eq_rest] at hrun ⊢
  obtain ⟨late, s₁, hattributes, hrun⟩ := bind_eq_ok hrun
  obtain ⟨found, s₂, hfound, hrun⟩ := bind_eq_ok hrun
  rcases (matches_attributes hF hr _ _).meets hs hattributes with hpast | ⟨s₁', hattributes', hs₁⟩
  · have hleft := ((steps_enumerationRest hr _ _).left hrun).trans ((matches_name? hname s₁ s₁).left hfound)
    exact .inl (hleft.trans hpast)
  rcases (matches_name? hname _ _).meets hs₁ hfound with hpast | ⟨s₂', hfound', hs₂⟩
  · exact .inl (((steps_enumerationRest hr _ _).left hrun).trans hpast)
  rw [bind_of_ok hattributes', bind_of_ok hfound', map_shiftName]
  exact enumerationRest_meets hF hgiven hr hs₂ hrun

/-! ## Specifiers -/

theorem matches_specifierName (x : SpecifierState) (a : Ty) (span : Span) :
    Matches F (SpecifierState.shift F.places) (x.name a span) ((x.shift F.places).name a (span.shift F.places)) :=
  .ite (.pure rfl) (matches_fail _ _ _)

theorem specifierName_eq_ok {x y : SpecifierState} {a : Ty} {span : Span} (h : x.name a span s = .ok y t) :
    t = s ∧ y.named.isSome := by
  unfold SpecifierState.name at h
  split at h <;> cases h
  exact ⟨rfl, rfl⟩

/-- The token that stands behind words matters only where they name no type. -/
theorem kindOfWords_found {target : Target} {words : List Keyword} {found found' : Token} {b : Builtin}
    (h : kindOfWords target words found = .ok b) : kindOfWords target words found' = .ok b := by
  unfold kindOfWords at h ⊢
  generalize signedness words = r at h ⊢
  cases r with
  | error cause => cases h
  | ok sign =>
    dsimp only [bind, Except.bind] at h ⊢
    split at h
    · next hnone =>
      rw [if_pos hnone]
      split at h
      · next hcomplex => rwa [if_pos hcomplex]
      · cases h
    · next hsome => rwa [if_neg hsome]

theorem blind_wordType (words : List Keyword) (span span' : Span) :
    Blind (wordType words span) (wordType words span') := by
  refine .unit_bind fun u => .current_bind fun l l' => ?_
  cases hkind : kindOfWords u.target words l.token with
  | error cause => exact blind_fail _ _ _
  | ok b =>
    rw [kindOfWords_found hkind]
    refine (blind_build _).bind fun t => .ite (.pure t) (.ite (blind_build _) (blind_fail _ _ _))

/-- In front of the place the same token stands behind `_Atomic`. -/
theorem matchesAt_atomic (hF : F.Opens) (hr : rules.Keep F rules') (x : SpecifierState) (span : Span) (s : State) :
    MatchesAt F s (F.transport.state s) (SpecifierState.shift F.places) (atomic rules x span)
      (atomic rules' (x.shift F.places) (span.shift F.places)) := by
  have hsteps : Steps rules.typeName := .of_follows fun _ _ _ => ⟨_, _, (hr.steps _).typeName⟩
  unfold atomic
  refine (MatchesAt.accept s _).bind fun _ => .ite ?_ (.pure rfl)
  refine .closed hsteps hr.follow.typeName rfl (hF.first_ne rfl) token_of_expect fun value => ?_
  refine (matches_expect _).bind fun _ => (blind_build _).matches.bind fun a => ?_
  exact matches_specifierName x a span

theorem matches_keywordSpecifier (hF : F.Opens) (hr : rules.Keep F rules') (x : SpecifierState) {k : Keyword}
    (span : Span) (hatomic : k ≠ .atomic) (henum : k ≠ .enum) :
    Matches F (Round.map (SpecifierState.shift F.places) (SpecifierState.shift F.places))
      (keywordSpecifier rules x k span)
      (keywordSpecifier rules' (x.shift F.places) k (span.shift F.places)) := by
  -- A type of its own, read by any reader of such types.
  have hnamed : ∀ {p p' : Parse Ty}, Matches F (fun t => t) p p' →
      Matches F (Round.map (SpecifierState.shift F.places) (SpecifierState.shift F.places))
        (do
          let _ ← advance
          return Round.again (← x.name (← p) span))
        (do
          let _ ← advance
          return Round.again (← (x.shift F.places).name (← p') (span.shift F.places))) := by
    intro p p' hp
    refine matches_advance.bind fun _ => hp.bind fun t => ?_
    exact (matches_specifierName x t span).bind fun _ => .pure rfl
  unfold keywordSpecifier
  cases k with
  | typedef | const | volatile | restrict => exact matches_advance.bind fun _ => .pure rfl
  | atomic => exact absurd rfl hatomic
  | attributes =>
    refine (matches_attributes hF hr).bind fun late => .pure ?_
    rw [SpecifierState.shift, ← Attributes.shift_merge]
    rfl
  | struct => exact hnamed (matches_record hF hr .struct span)
  | union => exact hnamed (matches_record hF hr .union span)
  | enum => exact absurd rfl henum
  | autoType => exact hnamed (blind_build _).matches
  | _ =>
    refine .ite (matches_advance.bind fun _ => .pure rfl) (.ite (.ite (matches_fail _ _ _) ?_) (.pure rfl))
    exact matches_advance.bind fun _ => .pure rfl

/-- Behind `_Atomic` stands the same token in both texts. -/
theorem atomicSpecifier_meets (hF : F.Opens) (hr : rules.Keep F rules') {x : SpecifierState} {span : Span}
    {r : Round SpecifierState SpecifierState} (hs : F.Before s) (htoken : s.current.token = .keyword .atomic)
    (hrun : keywordSpecifier rules x .atomic span s = .ok r t) :
    F.Past t ∨ ∃ t', keywordSpecifier rules' (x.shift F.places) .atomic (span.shift F.places) (F.transport.state s) =
      .ok (r.map (SpecifierState.shift F.places) (SpecifierState.shift F.places)) t' ∧ F.Meets t t' := by
  obtain ⟨l, s₁, hadvance, hrun⟩ := bind_eq_ok hrun
  obtain ⟨y, s₂, hatomic, hrun⟩ := bind_eq_ok hrun
  cases hrun
  rcases (Fork.Meets.before hs).advance hadvance with hpast | ⟨s₁', hadvance', hs₁⟩
  · exact .inl (((matchesAt_atomic hF hr x span s₁).left hatomic).trans hpast)
  cases hs₁ with
  | before hs₁ =>
    rcases (matchesAt_atomic hF hr x span s₁).meets (.before hs₁) hatomic with hpast | ⟨t', hatomic', ht'⟩
    · exact .inl hpast
    · exact .inr ⟨t', (bind_of_ok hadvance').trans (bind_of_ok hatomic'), ht'⟩
  | here u =>
    obtain ⟨before, hlast⟩ := hs.last hadvance
    exact absurd htoken (hF.atomic hlast)

/-- An enumeration may be given a type whose name is read up to a place in front of which no more specifiers follow. -/
theorem enumSpecifier_meets (hF : F.Opens) (hgiven : F.Given rules) (hr : rules.Keep F rules') {x : SpecifierState}
    {span : Span} {r : Round SpecifierState SpecifierState} (hs : F.Before s)
    (hrun : keywordSpecifier rules x .enum span s = .ok r t) :
    F.Past t ∨ (∃ y, r = .again y ∧ y.named.isSome ∧ F.Stalls t) ∨
      ∃ t', keywordSpecifier rules' (x.shift F.places) .enum (span.shift F.places) (F.transport.state s) =
        .ok (r.map (SpecifierState.shift F.places) (SpecifierState.shift F.places)) t' ∧ F.Meets t t' := by
  have hsteps : Steps (enumeration rules span) := .of_follows fun _ _ _ => ⟨_, _, follows_enumeration (hr.steps _) span⟩
  obtain ⟨l, s₁, hadvance, hrun⟩ := bind_eq_ok hrun
  obtain ⟨a, s₂, henum, hrun⟩ := bind_eq_ok hrun
  obtain ⟨y, s₃, hname, hrun⟩ := bind_eq_ok hrun
  cases hrun
  have hnamed := matches_specifierName (F := F) x a span
  rcases (Fork.Meets.before hs).advance hadvance with hpast | ⟨s₁', hadvance', hs₁⟩
  · exact .inl ((((hnamed s₂ s₂).left hname).trans (hsteps.left henum)).trans hpast)
  rcases enumeration_meets hF hgiven hr hs₁ henum with hpast | hstalls | ⟨s₂', henum', hs₂⟩
  · exact .inl (((hnamed s₂ s₂).left hname).trans hpast)
  · obtain ⟨rfl, hsome⟩ := specifierName_eq_ok hname
    exact .inr (.inl ⟨y, rfl, hsome, hstalls⟩)
  rcases (hnamed _ _).meets hs₂ hname with hpast | ⟨t', hname', ht'⟩
  · exact .inl hpast
  · refine .inr (.inr ⟨t', ?_, ht'⟩)
    exact (bind_of_ok hadvance').trans ((bind_of_ok henum').trans (bind_of_ok hname'))

/-- Other specifiers in front of the place. -/
theorem matchesAt_specifier (hF : F.Opens) (hr : rules.Keep F rules') (x : SpecifierState) (s : State)
    (hatomic : s.current.token ≠ .keyword .atomic) (henum : s.current.token ≠ .keyword .enum) :
    MatchesAt F s (F.transport.state s) (Round.map (SpecifierState.shift F.places) (SpecifierState.shift F.places))
      (specifier rules x) (specifier rules' (x.shift F.places)) := by
  refine .current_bind ?_
  obtain ⟨⟨token, span⟩, ahead, stop, u⟩ := s
  cases token with
  | keyword k =>
    refine matches_keywordSpecifier hF hr x span ?_ ?_ _ _
    · exact fun hk => hatomic (congrArg Token.keyword hk)
    · exact fun hk => henum (congrArg Token.keyword hk)
  | name text =>
    refine MatchesAt.unit_bind ?_
    have hunit : (F.transport.state ⟨⟨.name text, span⟩, ahead, stop, u⟩).unit = u := rfl
    rw [hunit, SpecifierState.shift_lacksType]
    cases if x.lacksType then u.typedef? text else none with
    | some found => exact (matches_advance _ _).bind fun _ => .pure rfl
    | none => exact .pure rfl
  | _ => exact .pure rfl

/-- At the place the specifiers end, unless the first reading goes on with the name of a typedef. -/
theorem matchesAt_specifier_here (hF : F.Opens) (x : SpecifierState) (u : DeclUnit) :
    MatchesAt F (F.here u) (F.there u) (Round.map (SpecifierState.shift F.places) (SpecifierState.shift F.places))
      (specifier rules x) (specifier rules' (x.shift F.places)) := by
  have hfirst := hF.first
  refine .current_bind ?_
  dsimp only [Fork.here, Fork.there]
  rw [hF.second]
  cases htoken : F.first.token with
  | name text =>
    refine .unit_left ?_
    dsimp only
    cases if x.lacksType then u.typedef? text else none with
    | some found => exact .past
    | none => exact .pure rfl
  | keyword k =>
    rw [htoken] at hfirst
    cases hfirst
  | _ => exact .pure rfl

/-- One specifier. -/
theorem specifier_meets (hF : F.Opens) (hgiven : F.Given rules) (hr : rules.Keep F rules') {x : SpecifierState}
    {r : Round SpecifierState SpecifierState} (hs : F.Meets s s') (hrun : specifier rules x s = .ok r t) :
    F.Past t ∨ (∃ y, r = .again y ∧ y.named.isSome ∧ F.Stalls t) ∨
      ∃ t', specifier rules' (x.shift F.places) s' =
        .ok (r.map (SpecifierState.shift F.places) (SpecifierState.shift F.places)) t' ∧ F.Meets t t' := by
  have hkeyword : ∀ {k s}, s.current.token = .keyword k →
      specifier rules x s = keywordSpecifier rules x k s.current.span s ∧
        specifier rules' (x.shift F.places) (F.transport.state s) =
          keywordSpecifier rules' (x.shift F.places) k (s.current.span.shift F.places) (F.transport.state s) := by
    rintro k ⟨⟨token, span⟩, ahead, stop, u⟩ rfl
    exact ⟨rfl, rfl⟩
  cases hs with
  | here u => exact ((matchesAt_specifier_here hF x u).meets (.here u) hrun).imp id .inr
  | before hs =>
    by_cases hatomic : s.current.token = .keyword .atomic
    · rw [(hkeyword hatomic).1] at hrun
      rw [(hkeyword hatomic).2]
      exact (atomicSpecifier_meets hF hr hs hatomic hrun).imp id .inr
    by_cases henum : s.current.token = .keyword .enum
    · rw [(hkeyword henum).1] at hrun
      rw [(hkeyword henum).2]
      exact enumSpecifier_meets hF hgiven hr hs hrun
    exact ((matchesAt_specifier hF hr x s hatomic henum).meets (.before hs) hrun).imp id .inr

/-- Behind a type no specifier is read in front of such a token. -/
theorem specifier_stalls {x : SpecifierState} {r : Round SpecifierState SpecifierState} (hx : x.named.isSome)
    (hs : F.Stalls s) (hrun : specifier rules x s = .ok r t) : t = s ∧ r = .done x := by
  have hlooks := hs.2
  have hlacks : x.lacksType = false := by
    obtain ⟨a, ha⟩ := Option.isSome_iff_exists.1 hx
    rw [SpecifierState.lacksType, ha]
    rfl
  obtain ⟨⟨token, span⟩, ahead, stop, u⟩ := s
  cases token with
  | name text =>
    rw [specifier, current_bind] at hrun
    dsimp only at hrun
    rw [unit_bind_run, hlacks] at hrun
    cases hrun
    exact ⟨rfl, rfl⟩
  | keyword k =>
    cases k with
    | void =>
      change (if x.named.isSome then fail _ _ else _ : Parse _) _ = _ at hrun
      rw [if_pos hx] at hrun
      cases hrun
    | _ => cases hlooks
  | punct mark =>
    cases hrun
    exact ⟨rfl, rfl⟩
  | _ => cases hlooks

theorem specifierLoop_stalls {n : Nat} {x y : SpecifierState} (hx : x.named.isSome) (hs : F.Stalls s)
    (hrun : loopFor (specifier rules) n x s = .ok y t) : t = s := by
  cases n with
  | zero => cases hrun
  | succ n =>
    rw [loopFor_run] at hrun
    cases hround : specifier rules x s with
    | error fault t₁ =>
      rw [hround] at hrun
      cases hrun
    | ok r t₁ =>
      obtain ⟨rfl, rfl⟩ := specifier_stalls hx hs hround
      rw [hround] at hrun
      cases hrun
      rfl

/-- By induction on the rounds. -/
theorem specifierLoop_there (hF : F.Opens) (hgiven : F.Given rules) (hr : rules.Keep F rules') {n m : Nat} (hle : n ≤ m)
    {x y : SpecifierState} {u : DeclUnit} (hs : F.Meets s s')
    (hrun : loopFor (specifier rules) n x s = .ok y (F.here u)) :
    loopFor (specifier rules') m (x.shift F.places) s' = .ok (y.shift F.places) (F.there u) := by
  have hsteps : ∀ n x, Steps (loopFor (specifier rules) n x) := fun n x => .of_follows fun _ _ _ =>
    ⟨_, _, follows_loopFor (fun x => follows_specifier (hr.steps _) x) le_rfl (fun _ => rfl) x⟩
  induction n generalizing m x s s' with
  | zero => cases hrun
  | succ n ih =>
    obtain ⟨m, rfl⟩ := Nat.exists_eq_succ_of_ne_zero (show m ≠ 0 by omega)
    rw [loopFor_run] at hrun ⊢
    cases hround : specifier rules x s with
    | error fault t =>
      rw [hround] at hrun
      cases hrun
    | ok r t =>
      rw [hround] at hrun
      rcases specifier_meets hF hgiven hr hs hround with hpast | ⟨z, rfl, hz, hstalls⟩ | ⟨t', hround', ht'⟩
      · -- The rounds to come give no token back.
        have hleft : (F.here u).left ≤ t.left := by
          cases r with
          | again z => exact (hsteps n z).left hrun
          | done z =>
            cases hrun
            exact le_rfl
        exact absurd (hleft.trans hpast) (Fork.Meets.here u).not_past
      · -- The next round is the last one, and ends in front of the place.
        have hplace : F.here u = t := specifierLoop_stalls hz hstalls hrun
        rw [← hplace] at hstalls
        exact absurd hstalls.1 (Fork.not_before_here u)
      · rw [hround']
        cases r with
        | again z => exact ih (Nat.le_of_succ_le_succ hle) ht' hrun
        | done z =>
          cases hrun
          rw [ht'.eq_there]
          rfl

theorem blind_specifiedType (start start' : Span) (k : Nat) (x : SpecifierState) :
    Blind (specifiedType start x) (specifiedType start' (x.shift k)) := by
  have hend : ∀ a : Ty, Blind (do
      let base ← if x.isAtomic then intern (.atomic a) else pure a
      build (·.qualify base x.qualifiers)) (do
      let base ← if x.isAtomic then intern (.atomic a) else pure a
      build (·.qualify base x.qualifiers)) := by
    intro a
    exact .ite ((blind_build _).bind fun _ => blind_build _) ((Blind.pure a).bind fun _ => blind_build _)
  obtain ⟨isTypedef, quals, isAtomic, words, named, attributes⟩ := x
  cases named with
  | some a => exact hend a
  | none => exact .here_bind fun last last' => (blind_wordType words _ _).bind fun a => hend a

/-- Specifiers read up to the declarator are read up to the parenthesis. -/
theorem specifiers_there (hF : F.Opens) (hgiven : F.Given rules) (hr : rules.Keep F rules') {a : Specifiers}
    {u : DeclUnit} (hs : F.Meets s s') (hrun : specifiers rules s = .ok a (F.here u)) :
    specifiers rules' s' = .ok (a.shift F.places) (F.there u) := by
  rw [specifiers_eq, here_bind] at hrun ⊢
  obtain ⟨x, s₁, hloop, hrun⟩ := bind_eq_ok hrun
  obtain ⟨b, s₂, htype, hrun⟩ := bind_eq_ok hrun
  cases hrun
  obtain ⟨hplace, htype'⟩ := blind_specifiedType s.current.span s'.current.span F.places x _ _ _ htype
  have hs₁ : s₁ = F.here s₁.unit := by
    have hunit : s₁ = { F.here u with unit := s₁.unit } := by rw [hplace]
    exact hunit
  rw [hs₁] at hloop
  have hloop' := specifierLoop_there hF hgiven hr hs.allowance_le hs hloop
  exact (bind_of_ok hloop').trans (bind_of_ok (htype' (F.there s₁.unit) rfl))

end Cognate.Grammar
