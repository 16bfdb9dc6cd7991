import Cognate.Proofs.Grammar.Texts
import Cognate.Proofs.Readings.Declarators

/-!
# Specifiers and constants side by side

One lemma for each reader of a tagged type, of specifiers, or of a constant expression, for any rules that are carried
over.
-/

namespace Cognate.Grammar

variable {T : Transport} {rules rules' : Rules}

/-! ## Tagged types -/

theorem follows_declareTagged (tag : Tag) (name : Option String) :
    Follows T (fun t => t) (declareTagged tag name) (declareTagged tag name) := by
  have hrecord : Follows T (fun t => t) (build (·.declareRecord tag name)) (build (·.declareRecord tag name)) :=
    follows_build (fun u => DeclUnit.declareRecord_renamed _ u tag name)
      fun u => ⟨.declareRecord tag name, isPlain_of_ne (by simp), rfl⟩
  have henum : Follows T (fun t => t) (build (·.declareEnum name)) (build (·.declareEnum name)) :=
    follows_build (fun u => DeclUnit.declareEnum_renamed _ u name)
      fun u => ⟨.declareEnum name, isPlain_of_ne (by simp), rfl⟩
  cases tag with
  | enum => exact henum
  | _ => exact hrecord

theorem tagOf_renamed (f : String → String) (u : DeclUnit) (t : Ty) : tagOf (u.renamed f) t = tagOf u t := rfl

theorem follows_taggedType (tag : Tag) (name : String) (span : Span) :
    Follows T (fun t => t) (taggedType tag name span) (taggedType tag name (span.shift T.places)) := by
  unfold taggedType
  refine follows_unit.bind fun u => ?_
  simp only [DeclUnit.tag?_renamed, tagOf_renamed]
  cases u.tag? name with
  | some t => exact .ite (.pure rfl) (follows_fail _ _)
  | none =>
    refine (follows_declareTagged tag name).bind fun t => ?_
    refine (follows_define (fun u => DeclUnit.defineTag_renamed _ u) fun u => ?_).bind fun _ => .pure rfl
    exact ⟨.defineTag name t, isPlain_of_ne (by simp), rfl⟩

theorem follows_bodyOwner (tag : Tag) (name : Option String) (keyword : Span) :
    Follows T (fun t => t) (bodyOwner tag name keyword) (bodyOwner tag name (keyword.shift T.places)) := by
  cases name with
  | some text => exact follows_taggedType tag text keyword
  | none => exact follows_declareTagged tag none

theorem follows_withoutBody (tag : Tag) (name : Option String) (keyword : Span) :
    Follows T (fun t => t) (withoutBody tag name keyword) (withoutBody tag name (keyword.shift T.places)) := by
  cases name with
  | some text => exact follows_taggedType tag text keyword
  | none => exact follows_here.bind fun span => follows_fail _ _

/-! ## Records -/

theorem follows_member (hr : rules.Follow T rules') (s : Specifiers) (before : List (String × Ty)) :
    Follows T (fun fields => fields) (member rules s before) (member rules' (s.shift T.places) before) := by
  unfold member
  refine (hr.declarator .named).bind_of hr.named fun d hnamed => (follows_check _).bind fun _ => .ite ?_ ?_
  · exact follows_here.bind fun span => follows_fail_bind _ _
  · refine (follows_attributes hr).bind fun late => ?_
    rw [Specifiers.shift, ← Attributes.shift_merge]
    refine (follows_declaredType _ _ _).bind fun t => ?_
    obtain ⟨name, derivations, span⟩ := d
    obtain ⟨found, rfl⟩ := Option.isSome_iff_exists.1 hnamed
    exact .ite (follows_fail _ _) (.pure rfl)

theorem follows_memberList (hr : rules.Follow T rules') (s : Specifiers) (before : List (String × Ty)) :
    Follows T (fun fields => fields) (memberList rules s before) (memberList rules' (s.shift T.places) before) := by
  unfold memberList
  refine Follows.bind (g := fun fields => fields) (follows_loop (fun fields => fields) fun before => ?_) fun after => ?_
  · exact (follows_member hr s before).bind fun after => (follows_accept _).bind fun _ => .ite (.pure rfl) (.pure rfl)
  · exact (follows_expect _).bind fun _ => .pure rfl

theorem follows_members (hr : rules.Follow T rules') (tag : Tag) (keyword : Span) :
    Follows T (fun fields => fields) (members rules tag keyword) (members rules' tag (keyword.shift T.places)) := by
  unfold members
  refine follows_loop (fun fields => fields) fun before => (follows_check _).bind fun _ => .ite (.pure rfl) ?_
  refine follows_atEnd.bind fun _ => .ite (follows_fail _ _) (hr.specifiers.bind fun s => ?_)
  refine (follows_accept _).bind fun _ => .ite (follows_unit.bind fun u => ?_) ?_
  · exact .ite (.pure rfl) (.pure rfl)
  · exact (follows_memberList hr s before).bind fun _ => .pure rfl

/-- One more member with another name than those before it. -/
theorem givenNames_append {before : List (String × Ty)} {text : String} (t : Ty) (h : (givenNames before).Nodup)
    (hnew : text = "" ∨ (before.any fun field => field.1 == text) = false) :
    (givenNames (before ++ [(text, t)])).Nodup := by
  by_cases hempty : text = ""
  · have heq : givenNames (before ++ [(text, t)]) = givenNames before := by simp [givenNames, hempty]
    rwa [heq]
  · have heq : givenNames (before ++ [(text, t)]) = givenNames before ++ [text] := by simp [givenNames, hempty]
    have hnotin := hnew.resolve_left hempty
    simp only [List.any_eq_false, beq_iff_eq] at hnotin
    rw [heq]
    refine List.nodup_append.2 ⟨h, by simp, fun name hname other hother => ?_⟩
    obtain ⟨field, hfield, rfl⟩ := List.mem_map.1 (List.mem_filter.1 hname).1
    obtain rfl := List.mem_singleton.1 hother
    exact hnotin field hfield

theorem member_distinct {specifiers : Specifiers} {before fields : List (String × Ty)} {s t : State}
    (hbefore : (givenNames before).Nodup) (h : member rules specifiers before s = .ok fields t) :
    (givenNames fields).Nodup := by
  unfold member at h
  obtain ⟨d, s₁, -, h⟩ := bind_eq_ok h
  obtain ⟨isBitField, s₂, -, h⟩ := bind_eq_ok h
  cases isBitField with
  | true =>
    rw [if_pos rfl] at h
    obtain ⟨span, s₃, -, h⟩ := bind_eq_ok h
    obtain ⟨_, s₄, hfail, -⟩ := bind_eq_ok h
    cases hfail
  | false =>
    rw [if_neg Bool.false_ne_true] at h
    obtain ⟨late, s₄, -, h⟩ := bind_eq_ok h
    obtain ⟨type, s₅, -, h⟩ := bind_eq_ok h
    dsimp only at h
    split at h
    · cases h
    · next hnew =>
      cases h
      exact givenNames_append type hbefore (.inr (Bool.eq_false_iff.2 hnew))

theorem memberList_distinct {specifiers : Specifiers} {before fields : List (String × Ty)} {s t : State}
    (hbefore : (givenNames before).Nodup) (h : memberList rules specifiers before s = .ok fields t) :
    (givenNames fields).Nodup := by
  unfold memberList at h
  obtain ⟨after, s₁, hloop, h⟩ := bind_eq_ok h
  obtain ⟨_, s₂, -, h⟩ := bind_eq_ok h
  cases h
  refine loop_of_rounds (I := fun fields => (givenNames fields).Nodup) (P := fun fields => (givenNames fields).Nodup)
    (fun before hbefore s r t hr => ?_) hbefore hloop
  obtain ⟨after, s₃, hmember, hr⟩ := bind_eq_ok hr
  obtain ⟨more, s₄, -, hr⟩ := bind_eq_ok hr
  have hafter := member_distinct hbefore hmember
  cases more <;> cases hr <;> simp [hafter]

/-- No two members that are read have one name, whatever stands around them. -/
theorem members_distinct {tag : Tag} {keyword : Span} {fields : List (String × Ty)} {s t : State}
    (h : members rules tag keyword s = .ok fields t) : (givenNames fields).Nodup := by
  unfold members at h
  have hnone : (givenNames []).Nodup := List.nodup_nil
  refine loop_of_rounds (I := fun fields => (givenNames fields).Nodup) (P := fun fields => (givenNames fields).Nodup)
    (fun before hbefore s r t hr => ?_) hnone h
  obtain ⟨closed, s₁, -, hr⟩ := bind_eq_ok hr
  cases closed with
  | true =>
    cases hr
    simp [hbefore]
  | false =>
    obtain ⟨ended, s₂, -, hr⟩ := bind_eq_ok hr
    cases ended with
    | true => cases hr
    | false =>
      obtain ⟨specifiers, s₃, -, hr⟩ := bind_eq_ok hr
      obtain ⟨unnamed, s₄, -, hr⟩ := bind_eq_ok hr
      cases unnamed with
      | true =>
        obtain ⟨u, s₅, -, hr⟩ := bind_eq_ok hr
        have happend := givenNames_append specifiers.type hbefore (.inl rfl)
        cases hanonymous : isAnonymousRecord u specifiers.type <;> simp only [hanonymous] at hr <;> cases hr <;>
          simp [hbefore, happend]
      | false =>
        obtain ⟨after, s₅, hlist, hr⟩ := bind_eq_ok hr
        cases hr
        simp [memberList_distinct hbefore hlist]

/-- The place of a name does not matter for what it names. -/
theorem map_shiftName (k : Nat) (r : Option (String × Span)) :
    (r.map (shiftName k)).map (·.1) = r.map (·.1) := by
  cases r <;> rfl

theorem follows_record (hr : rules.Follow T rules') (tag : Tag) (keyword : Span) :
    Follows T (fun t => t) (record rules tag keyword) (record rules' tag (keyword.shift T.places)) := by
  unfold record
  refine (follows_attributes hr).bind fun _ => follows_name?.bind fun r => ?_
  rw [map_shiftName]
  refine (follows_check _).bind fun _ => .ite ?_ (follows_withoutBody tag _ keyword)
  refine (follows_bodyOwner tag _ keyword).bind fun t => follows_advance.bind fun _ => ?_
  refine (follows_members hr tag keyword).bind_of (fun _ _ _ => members_distinct) fun fields hdistinct => ?_
  refine (follows_expect _).bind fun closing => ?_
  rw [Lexed.shift, ← Span.shift_merge]
  refine (follows_define (fun u => DeclUnit.completeRecord_renamed _ u fields) fun u => ?_).bind fun _ => .pure rfl
  refine ⟨.completeRecord t fields, ⟨by simp, ?_⟩, rfl⟩
  rintro _ _ ⟨⟩
  exact hdistinct

/-! ## Enums -/

theorem follows_enumType (values : List Int) (span : Span) :
    Follows T (fun t => t) (enumType values span) (enumType values (span.shift T.places)) := by
  unfold enumType
  refine follows_unit.bind fun u => ?_
  rw [DeclUnit.target_renamed]
  cases enumKinds.find? (holdsAll u.target (0 :: values)) with
  | some b => exact follows_intern rfl
  | none => exact follows_fail _ _

theorem follows_checkValues (base : Ty) (values : List Int) (span : Span) :
    Follows T (fun x => x) (checkValues base values span) (checkValues base values (span.shift T.places)) := by
  unfold checkValues
  refine follows_unit.bind fun u => ?_
  rw [DeclUnit.builtinKind?_renamed, DeclUnit.target_renamed]
  cases u.builtinKind? base with
  | none => exact .pure rfl
  | some b =>
    dsimp only
    cases integerRange? u.target b with
    | none => exact .pure rfl
    | some range =>
      dsimp only
      cases values.find? fun v => v < range.1 || range.2 < v with
      | some v => exact follows_fail _ _
      | none => exact .pure rfl

theorem follows_enumerator (hr : rules.Follow T rules') (t : Ty) (e : Enumeration) :
    Follows T (fun e => e) (enumerator rules t e) (enumerator rules' t e) := by
  unfold enumerator
  refine follows_name.bind fun found => ?_
  obtain ⟨text, span⟩ := found
  have hdefine : ∀ value : Int, Follows T (fun e => e) (do
      define span (·.defineConstant text value t)
      return (⟨e.constants ++ [(text, value)], fits? (value + 1)⟩ : Enumeration)) (do
      define (span.shift T.places) (·.defineConstant text value t)
      return ⟨e.constants ++ [(text, value)], fits? (value + 1)⟩) := by
    intro value
    refine (follows_define (fun u => DeclUnit.defineConstant_renamed _ u value) fun u => ?_).bind fun _ => .pure rfl
    exact ⟨.defineConstant text value t, isPlain_of_ne (by simp), rfl⟩
  refine (follows_accept _).bind fun _ => .ite (hr.constant.bind fun value => ?_) ?_
  · cases value with
    | some n => exact hdefine n
    | none => exact follows_fail_bind _ _
  · cases e.next with
    | some n => exact hdefine n
    | none => exact follows_fail_bind _ _

theorem follows_enumerators (hr : rules.Follow T rules') (t : Ty) :
    Follows T (fun constants => constants) (enumerators rules t) (enumerators rules' t) := by
  unfold enumerators
  refine follows_loop (fun e => e) fun e => (follows_check _).bind fun _ => .ite (.pure rfl) ?_
  exact (follows_enumerator hr t e).bind fun e' => (follows_accept _).bind fun _ => .ite (.pure rfl) (.pure rfl)

theorem follows_enumerationEnd (hr : rules.Follow T rules') (keyword : Span) (name : Option String)
    (given : Option Ty) : Follows T (fun t => t) (enumerationEnd rules keyword name given)
      (enumerationEnd rules' (keyword.shift T.places) name given) := by
  unfold enumerationEnd
  refine (follows_check _).bind fun _ => .ite ?_ (follows_withoutBody _ _ _)
  refine (follows_bodyOwner _ _ _).bind fun t => follows_advance.bind fun _ => ?_
  refine (follows_enumerators hr t).bind fun constants => (follows_expect _).bind fun closing => ?_
  rw [Lexed.shift, ← Span.shift_merge]
  have hend : ∀ base : Ty, Follows T (fun t => t) (do
      define (keyword.merge closing.span) (·.completeEnum t base constants)
      return t) (do
      define ((keyword.merge closing.span).shift T.places) (·.completeEnum t base constants)
      return t) := by
    intro base
    refine (follows_define (fun u => DeclUnit.completeEnum_renamed _ u base constants) fun u => ?_).bind fun _ =>
      .pure rfl
    exact ⟨.completeEnum t base constants, isPlain_of_ne (by simp), rfl⟩
  cases given with
  | some base => exact (follows_checkValues _ _ _).bind fun _ => hend base
  | none => exact (follows_enumType _ _).bind fun base => hend base

theorem follows_enumeration (hr : rules.Follow T rules') (keyword : Span) :
    Follows T (fun t => t) (enumeration rules keyword) (enumeration rules' (keyword.shift T.places)) := by
  rw [enumeration_eq, enumeration_eq]
  refine (follows_attributes hr).bind fun _ => follows_name?.bind fun r => ?_
  rw [map_shiftName]
  refine (follows_accept _).bind fun b => ?_
  cases b with
  | true =>
    refine (hr.typeName.map (h := fun given => given) fun _ => rfl).bind fun given => ?_
    exact follows_enumerationEnd hr keyword _ given
  | false => exact follows_enumerationEnd hr keyword _ none

/-! ## Specifiers -/

def SpecifierState.shift (k : Nat) (s : SpecifierState) : SpecifierState :=
  { s with attributes := s.attributes.shift k }

theorem SpecifierState.shift_lacksType (k : Nat) (s : SpecifierState) : (s.shift k).lacksType = s.lacksType := rfl

theorem follows_specifierName (s : SpecifierState) (t : Ty) (span : Span) :
    Follows T (SpecifierState.shift T.places) (s.name t span)
      ((s.shift T.places).name t (span.shift T.places)) :=
  .ite (.pure rfl) (follows_fail _ _)

theorem follows_wordType (words : List Keyword) (span : Span) :
    Follows T (fun t => t) (wordType words span) (wordType words (span.shift T.places)) := by
  unfold wordType
  refine follows_unit.bind fun u => follows_current.bind fun l => ?_
  rw [DeclUnit.target_renamed, Lexed.shift_token]
  cases kindOfWords u.target words l.token with
  | error cause => exact follows_fail _ _
  | ok b =>
    refine (follows_intern rfl).bind fun t => .ite (.pure rfl) (.ite ?_ (follows_fail _ _))
    exact follows_intern rfl

theorem follows_atomic (hr : rules.Follow T rules') (s : SpecifierState) (span : Span) :
    Follows T (SpecifierState.shift T.places) (atomic rules s span)
      (atomic rules' (s.shift T.places) (span.shift T.places)) := by
  unfold atomic
  refine (follows_accept _).bind fun _ => .ite (hr.typeName.bind fun value => ?_) (.pure rfl)
  refine (follows_expect _).bind fun _ => (follows_intern rfl).bind fun t => ?_
  exact follows_specifierName s t span

theorem follows_keywordSpecifier (hr : rules.Follow T rules') (s : SpecifierState) (k : Keyword) (span : Span) :
    Follows T (Round.map (SpecifierState.shift T.places) (SpecifierState.shift T.places))
      (keywordSpecifier rules s k span)
      (keywordSpecifier rules' (s.shift T.places) k (span.shift T.places)) := by
  -- A type of its own, read by any reader of such types.
  have hnamed : ∀ {p p' : Parse Ty}, Follows T (fun t => t) p p' →
      Follows T (Round.map (SpecifierState.shift T.places) (SpecifierState.shift T.places))
        (do
          let _ ← advance
          return Round.again (← s.name (← p) span))
        (do
          let _ ← advance
          return Round.again (← (s.shift T.places).name (← p') (span.shift T.places))) := by
    intro p p' hp
    refine follows_advance.bind fun _ => hp.bind fun t => ?_
    exact (follows_specifierName s t span).bind fun _ => .pure rfl
  unfold keywordSpecifier
  cases k with
  | typedef | const | volatile | restrict => exact follows_advance.bind fun _ => .pure rfl
  | atomic => exact follows_advance.bind fun _ => (follows_atomic hr s span).bind fun _ => .pure rfl
  | attributes =>
    refine (follows_attributes hr).bind fun late => .pure ?_
    rw [SpecifierState.shift, ← Attributes.shift_merge]
    rfl
  | struct => exact hnamed (follows_record hr .struct span)
  | union => exact hnamed (follows_record hr .union span)
  | enum => exact hnamed (follows_enumeration hr span)
  | autoType => exact hnamed (follows_intern rfl)
  | _ =>
    refine .ite (follows_advance.bind fun _ => .pure rfl) (.ite (.ite (follows_fail _ _) ?_) (.pure rfl))
    exact follows_advance.bind fun _ => .pure rfl

theorem follows_specifier (hr : rules.Follow T rules') (s : SpecifierState) :
    Follows T (Round.map (SpecifierState.shift T.places) (SpecifierState.shift T.places)) (specifier rules s)
      (specifier rules' (s.shift T.places)) := by
  unfold specifier
  refine follows_current.bind fun l => ?_
  obtain ⟨token, span⟩ := l
  cases token with
  | keyword k => exact follows_keywordSpecifier hr s k span
  | name text =>
    refine follows_unit.bind fun u => ?_
    rw [DeclUnit.typedef?_renamed, SpecifierState.shift_lacksType]
    cases if s.lacksType then u.typedef? text else none with
    | some found => exact follows_advance.bind fun _ => .pure rfl
    | none => exact .pure rfl
  | _ => exact .pure rfl

/-- The type that specifiers come to. -/
def specifiedType (start : Span) (x : SpecifierState) : Parse Ty := do
  let base ←
    match x.named with
    | some t => pure t
    | none => wordType x.words (start.merge (← here))
  let base ← if x.isAtomic then intern (.atomic base) else pure base
  build (·.qualify base x.qualifiers)

theorem specifiers_eq : specifiers rules = (do
    let start ← here
    let x ← loop {} (specifier rules)
    let t ← specifiedType start x
    return ⟨x.isTypedef, t, x.attributes⟩) := by
  unfold specifiers specifiedType
  refine bind_congr fun start => bind_congr fun x => ?_
  cases x.named with
  | some t => cases x.isAtomic <;> rfl
  | none => cases x.isAtomic <;> simp only [bind_assoc, pure_bind] <;> rfl

theorem follows_specifiedType (start : Span) (x : SpecifierState) :
    Follows T (fun t => t) (specifiedType start x) (specifiedType (start.shift T.places) (x.shift T.places)) := by
  have hend : ∀ t : Ty, Follows T (fun t => t) (do
      let base ← if x.isAtomic then intern (.atomic t) else pure t
      build (·.qualify base x.qualifiers)) (do
      let base ← if x.isAtomic then intern (.atomic t) else pure t
      build (·.qualify base x.qualifiers)) := by
    intro t
    refine .ite ((follows_intern rfl).bind fun base => ?_) ((Follows.pure (g := fun t => t) rfl).bind fun base => ?_)
    · exact follows_qualify _ _
    · exact follows_qualify _ _
  obtain ⟨isTypedef, quals, isAtomic, words, named, attributes⟩ := x
  cases named with
  | some t => exact hend t
  | none =>
    refine follows_here.bind fun last => ?_
    rw [← Span.shift_merge]
    exact (follows_wordType words _).bind fun t => hend t

theorem follows_specifiers (hr : rules.Follow T rules') :
    Follows T (Specifiers.shift T.places) (specifiers rules) (specifiers rules') := by
  rw [specifiers_eq, specifiers_eq]
  refine follows_here.bind fun start => ?_
  refine Follows.bind (g := SpecifierState.shift T.places) ?_ fun x => ?_
  · change Follows T _ (loop ({} : SpecifierState) _) (loop (SpecifierState.shift T.places {}) _)
    exact follows_loop (SpecifierState.shift T.places) fun s => follows_specifier hr s
  · exact (follows_specifiedType start x).bind fun t => .pure rfl

/-! ## Constant expressions -/

theorem follows_evaluated (span : Span) (r : Except Cause Int) :
    Follows T (fun n => n) (evaluated span r) (evaluated (span.shift T.places) r) := by
  cases r with
  | ok n => exact .pure rfl
  | error cause => exact follows_fail _ _

theorem follows_literalValue (value : Option Int) (refusal : Cause) (span : Span) :
    Follows T (fun n => n) (literalValue value refusal span) (literalValue value refusal (span.shift T.places)) := by
  cases value with
  | some n => exact .pure rfl
  | none => exact follows_fail _ _

theorem follows_primary (hr : rules.Follow T rules') :
    Follows T (fun n => n) (primary rules) (primary rules') := by
  unfold primary
  refine follows_advance.bind fun l => ?_
  obtain ⟨token, span⟩ := l
  cases token with
  | literal c text =>
    cases c with
    | char => exact follows_unit.bind fun u => follows_literalValue _ _ _
    | float | string => exact follows_fail _ _
    | _ => exact follows_literalValue _ _ _
  | name text => exact follows_unit.bind fun u => .pure rfl
  | punct mark =>
    cases mark with
    | lparen => exact hr.constant.bind fun _ => (follows_expect _).bind fun _ => .pure rfl
    | _ => exact follows_fail _ _
  | _ => exact follows_fail _ _

theorem follows_valueType (text : String) (span : Span) :
    Follows T (fun t => t) (valueType text span) (valueType text (span.shift T.places)) := by
  unfold valueType
  refine follows_unit.bind fun u => ?_
  rw [DeclUnit.value?_renamed]
  cases u.value? text with
  | some decl => exact .pure rfl
  | none => exact follows_fail _ _

theorem follows_measuredType (hr : rules.Follow T rules') :
    Follows T (fun t => t) (measuredType rules) (measuredType rules') := by
  unfold measuredType
  refine follows_atParenthesizedType.bind fun _ => .ite (follows_parenthesizedType hr) ?_
  refine (follows_accept _).bind fun _ => follows_name.bind fun found => ?_
  obtain ⟨text, span⟩ := found
  exact .ite ((follows_expect _).bind fun _ => follows_valueType _ _) (follows_valueType _ _)

theorem follows_measure (hr : rules.Follow T rules') :
    Follows T (fun n => n) (measure rules) (measure rules') := by
  unfold measure
  refine follows_advance.bind fun operator => (follows_measuredType hr).bind fun t => ?_
  refine (follows_measured t operator.span).bind fun o => ?_
  simp only [Lexed.shift_token]
  cases o with
  | some e => exact .pure rfl
  | none =>
    refine follows_unit.bind fun u => ?_
    rw [DeclUnit.describe_renamed]
    exact follows_fail _ _

theorem follows_unary (hr : rules.Follow T rules') : Follows T (fun n => n) (unary rules) (unary rules') := by
  unfold unary
  refine follows_here.bind fun start => follows_atParenthesizedType.bind fun _ => .ite ?_ ?_
  · refine (follows_parenthesizedType hr).bind fun t => hr.unary.bind fun value => ?_
    exact follows_unit.bind fun u => .pure rfl
  · refine follows_current.bind fun l => ?_
    obtain ⟨token, span⟩ := l
    cases token with
    | punct mark =>
      cases mark with
      | minus =>
        refine follows_advance.bind fun _ => hr.unary.bind fun value => ?_
        cases value with
        | some n => exact follows_evaluated _ _
        | none => exact .pure rfl
      | plus => exact follows_advance.bind fun _ => hr.unary
      | tilde | bang => exact follows_advance.bind fun _ => hr.unary.bind fun _ => .pure rfl
      | _ => exact follows_primary hr
    | keyword k =>
      cases k with
      | sizeof | alignof => exact follows_measure hr
      | _ => exact follows_primary hr
    | _ => exact follows_primary hr

theorem follows_binary (hr : rules.Follow T rules') (least : Nat) :
    Follows T (fun n => n) (binary rules least) (binary rules' least) := by
  unfold binary
  refine (follows_unary hr).bind fun first => follows_loop (fun left => left) fun left => ?_
  refine follows_current.bind fun l => ?_
  rw [Lexed.shift_token]
  cases l.token.binaryOp? with
  | none => exact .pure rfl
  | some op =>
    refine .ite (.pure rfl) (follows_advance.bind fun operator => (hr.binary _).bind fun right => ?_)
    cases left with
    | none => exact .pure rfl
    | some a =>
      cases right with
      | none => exact .pure rfl
      | some b => exact (follows_evaluated _ _).bind fun _ => .pure rfl

theorem follows_constant (hr : rules.Follow T rules') :
    Follows T (fun n => n) (constant rules) (constant rules') := by
  unfold constant
  refine (follows_binary hr 0).bind fun condition => (follows_accept _).bind fun _ => .ite ?_ (.pure rfl)
  refine hr.constant.bind fun yes => (follows_expect _).bind fun _ => ?_
  exact hr.constant.bind fun no => .pure rfl

end Cognate.Grammar
