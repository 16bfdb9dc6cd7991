import Cognate.Grammar.Declarator
import Cognate.Proofs.Readings.Follows

/-!
# Declarators side by side

One lemma for each reader of a declarator or a part of one, for any rules that are carried over.
-/

namespace Cognate.Grammar

/-! ## What is carried over -/

def Declarator.shift (k : Nat) (d : Declarator) : Declarator :=
  ⟨d.name.map (shiftName k), d.derivations, d.span.shift k⟩

def Attributes.shift (k : Nat) (a : Attributes) : Attributes :=
  ⟨a.vectorSize.map fun (bytes, span) => (bytes, span.shift k), a.traits⟩

def Specifiers.shift (k : Nat) (s : Specifiers) : Specifiers := ⟨s.isTypedef, s.type, s.attributes.shift k⟩

def Core.shift (k : Nat) : Core → Core
  | nested inner => nested (inner.shift k)
  | name text span => name text (span.shift k)
  | absent => absent

theorem Attributes.shift_merge (k : Nat) (early late : Attributes) :
    (early.merge late).shift k = (early.shift k).merge (late.shift k) := by
  simp only [merge, shift]
  cases late.vectorSize <;> rfl

/-- Rules that are carried over. A declarator that must have a name has one. -/
structure Rules.Follow (T : Transport) (rules rules' : Rules) : Prop where
  typeName : Follows T (fun t => t) rules.typeName rules'.typeName
  specifiers : Follows T (Specifiers.shift T.places) rules.specifiers rules'.specifiers
  declarator : ∀ naming,
    Follows T (Declarator.shift T.places) (rules.declarator naming) (rules'.declarator naming)
  constant : Follows T (fun n => n) rules.constant rules'.constant
  binary : ∀ level, Follows T (fun n => n) (rules.binary level) (rules'.binary level)
  unary : Follows T (fun n => n) rules.unary rules'.unary
  named : ∀ s d t, rules.declarator .named s = .ok d t → d.name.isSome = true

variable {T : Transport} {rules rules' : Rules} {t : Ty} {shape : Shape}

/-! ## Where types start -/

theorem startsType_renamed (f : String → String) (u : DeclUnit) (t : Token) :
    startsType (u.renamed f) t = startsType u t := by
  cases t <;> rfl

theorem follows_atType : Follows T (fun b => b) atType atType := by
  unfold atType
  exact follows_unit.bind fun u => follows_current.bind fun l => .pure (startsType_renamed _ u l.token)

/-- Behind an opening parenthesis the text goes on. -/
theorem follows_atParenthesizedType : Follows T (fun b => b) atParenthesizedType atParenthesizedType := by
  intro s
  refine .check_bind _ (.ite (fun hparen => .unit_bind ?_) fun _ => .pure rfl)
  have hlooks : looksBehind s.current.token = true := by
    rw [beq_iff_eq.1 hparen]
    rfl
  exact (FollowsAt.peek hlooks).bind fun t => .pure (startsType_renamed _ s.unit t)

theorem follows_parenthesizedType (hr : rules.Follow T rules') :
    Follows T (fun t => t) (parenthesizedType rules) (parenthesizedType rules') := by
  unfold parenthesizedType
  refine follows_advance.bind fun _ => hr.typeName.bind fun t => ?_
  exact (follows_expect _).bind fun _ => .pure rfl

/-! ## Attributes -/

theorem follows_attributeName : Follows T (fun name => name) attributeName attributeName := by
  unfold attributeName
  refine follows_current.bind fun l => ?_
  obtain ⟨token, span⟩ := l
  cases token with
  | name text => exact .pure rfl
  | keyword k =>
    cases k with
    | const => exact .pure rfl
    | _ => exact follows_fail _ _
  | _ => exact follows_fail _ _

theorem follows_oneAttribute (hr : rules.Follow T rules') (before : Attributes) :
    Follows T (Attributes.shift T.places) (oneAttribute rules before)
      (oneAttribute rules' (before.shift T.places)) := by
  unfold oneAttribute
  refine follows_here.bind fun span => follows_attributeName.bind fun name => follows_advance.bind fun _ => ?_
  refine .ite ?_ (.ite (.pure rfl) ?_)
  · refine (follows_expect _).bind fun _ => hr.constant.bind fun value => ?_
    cases value with
    | none => exact follows_fail _ _
    | some bytes => exact (follows_expect _).bind fun _ => .pure rfl
  · cases CallConv.ofSpelling? name with
    | some callConv => exact .pure rfl
    | none =>
      refine (follows_check _).bind fun _ => .ite ?_ (.pure rfl)
      exact follows_skipGroup.bind fun _ => .pure rfl

theorem follows_attributeList (hr : rules.Follow T rules') (before : Attributes) :
    Follows T (Attributes.shift T.places) (attributeList rules before)
      (attributeList rules' (before.shift T.places)) := by
  unfold attributeList
  refine follows_loop (Attributes.shift T.places) fun before => ?_
  refine (follows_check _).bind fun _ => .ite (.pure rfl) ?_
  refine (follows_accept _).bind fun _ => .ite (.pure rfl) ?_
  exact (follows_oneAttribute hr before).bind fun _ => .pure rfl

theorem follows_attributes (hr : rules.Follow T rules') :
    Follows T (Attributes.shift T.places) (attributes rules) (attributes rules') := by
  unfold attributes
  change Follows T _ (loop ({} : Attributes) _) (loop (Attributes.shift T.places {}) _)
  refine follows_loop (Attributes.shift T.places) fun before => ?_
  refine (follows_accept _).bind fun _ => .ite ?_ (.pure rfl)
  refine (follows_expect _).bind fun _ => (follows_expect _).bind fun _ => ?_
  refine (follows_attributeList hr before).bind fun after => ?_
  exact (follows_expect _).bind fun _ => (follows_expect _).bind fun _ => .pure rfl

/-! ## Derived types -/

theorem follows_checkResult (t : Ty) (span : Span) :
    Follows T (fun x => x) (checkResult t span) (checkResult t (span.shift T.places)) := by
  unfold checkResult
  refine follows_unit.bind fun u => ?_
  rw [DeclUnit.describe_renamed]
  exact .ite (follows_fail _ _) (.pure rfl)

theorem follows_vectorOf (element : Ty) (bytes : Int) (span : Span) :
    Follows T (fun t => t) (vectorOf element bytes span) (vectorOf element bytes (span.shift T.places)) := by
  unfold vectorOf
  refine follows_unit.bind fun u => ?_
  simp only [DeclUnit.describe_renamed, DeclUnit.builtinKind?_renamed]
  refine (follows_measured element span).bind fun o => ?_
  cases Option.filter _ o with
  | none => exact follows_fail _ _
  | some e =>
    dsimp only
    cases vectorCount bytes e.bytes with
    | error cause => exact follows_fail _ _
    | ok count => exact follows_intern rfl

theorem follows_qualified (htagged : shape.isTagged = false) (q : Qualifiers) :
    Follows T (fun t => t) (qualified shape q) (qualified shape q) := by
  unfold qualified
  exact (follows_intern htagged).bind fun t => follows_qualify t q

theorem follows_derive (span : Span) (traits : FunctionTraits) (t : Ty) (d : Derivation) :
    Follows T (fun t => t) (derive span traits t d) (derive (span.shift T.places) traits t d) := by
  cases d with
  | pointer q | blockPointer q | memberPointer owner q => exact follows_qualified rfl q
  | lvalueRef | rvalueRef => exact follows_intern rfl
  | array bound =>
    refine follows_unit.bind fun u => .ite (follows_fail_bind _ _) ?_
    cases bound <;> exact follows_intern rfl
  | function params variadic | noPrototype =>
    exact (follows_checkResult t span).bind fun _ => follows_intern rfl

theorem follows_deriveAll (span : Span) (traits : FunctionTraits) (t : Ty) (ds : List Derivation) :
    Follows T (fun t => t) (deriveAll span traits t ds) (deriveAll (span.shift T.places) traits t ds) := by
  induction ds generalizing t with
  | nil => exact .pure rfl
  | cons d ds ih => exact (follows_derive span _ t d).bind fun t' => ih t'

theorem follows_declaredType (t : Ty) (d : Declarator) (attributes : Attributes) :
    Follows T (fun t => t) (declaredType t d attributes)
      (declaredType t (d.shift T.places) (attributes.shift T.places)) := by
  obtain ⟨vectorSize, traits⟩ := attributes
  cases vectorSize with
  | none => exact follows_deriveAll _ _ _ _
  | some size => exact (follows_vectorOf _ _ _).bind fun t' => follows_deriveAll _ _ _ _

theorem follows_adjustParameter (t : Ty) :
    Follows T (fun t => t) (adjustParameter t) (adjustParameter t) := by
  unfold adjustParameter
  refine follows_unit.bind fun u => ?_
  rw [DeclUnit.canonicalShape?_renamed]
  cases u.canonicalShape? t with
  | none => exact .pure rfl
  | some shape =>
    cases shape with
    | constantArray | incompleteArray | variableArray | prototype | noPrototype => exact follows_intern rfl
    | _ => exact .pure rfl

/-! ## Pointers -/

theorem follows_qualifiers : Follows T (fun q => q) qualifiers qualifiers := by
  unfold qualifiers
  refine follows_loop (fun q => q) fun q => follows_current.bind fun l => ?_
  obtain ⟨token, span⟩ := l
  cases token with
  | keyword k =>
    cases k with
    | const | volatile | restrict => exact follows_advance.bind fun _ => .pure rfl
    | _ => exact .pure rfl
  | _ => exact .pure rfl

/-- Behind a name the text goes on. -/
theorem follows_atMemberPointer : Follows T (fun b => b) atMemberPointer atMemberPointer := by
  intro s
  refine .current_bind ?_
  obtain ⟨⟨token, span⟩, ahead, stop, u⟩ := s
  cases token with
  | name text => exact (FollowsAt.peek rfl).bind fun t => .pure rfl
  | _ => exact .pure rfl

theorem follows_memberPointer : Follows T (fun d => d) memberPointer memberPointer := by
  unfold memberPointer
  refine follows_name.bind fun owner => (follows_expect _).bind fun _ => (follows_expect _).bind fun _ => ?_
  refine follows_unit.bind fun u => ?_
  rw [DeclUnit.tag?_renamed, DeclUnit.typedef?_renamed]
  cases u.tag? owner.1 <|> u.typedef? owner.1 with
  | some t => exact follows_qualifiers.bind fun q => .pure rfl
  | none => exact follows_fail _ _

theorem follows_pointer? : Follows T (fun d => d) pointer? pointer? := by
  unfold pointer?
  refine follows_atMemberPointer.bind fun b => .ite ?_ (follows_current.bind fun l => ?_)
  · exact follows_memberPointer.bind fun d => .pure rfl
  · obtain ⟨token, span⟩ := l
    cases token with
    | punct mark =>
      cases mark with
      | star | caret => exact follows_advance.bind fun _ => follows_qualifiers.bind fun q => .pure rfl
      | amp | andAnd => exact follows_advance.bind fun _ => .pure rfl
      | _ => exact .pure rfl
    | _ => exact .pure rfl

theorem follows_pointers : Follows T (fun ds => ds) pointers pointers := by
  unfold pointers
  refine follows_loop (fun ds => ds) fun before => follows_pointer?.bind fun r => ?_
  cases r with
  | some d => exact .pure rfl
  | none => exact .pure rfl

/-- Behind an opening parenthesis the text goes on. -/
theorem follows_atNested : Follows T (fun b => b) atNested atNested := by
  intro s
  refine .check_bind _ (.ite (fun hparen => ?_) fun _ => .pure rfl)
  have hlooks : looksBehind s.current.token = true := by
    rw [beq_iff_eq.1 hparen]
    rfl
  refine (FollowsAt.peek hlooks).bind fun t => ?_
  cases t with
  | punct mark => cases mark <;> exact .pure rfl
  | keyword k => cases k <;> exact .pure rfl
  | name text => exact follows_unit.bind fun u => .pure rfl
  | _ => exact .pure rfl

/-! ## Suffixes -/

theorem follows_boundExpression (hr : rules.Follow T rules') :
    Follows T (fun b => b) (arrayBound.boundExpression rules) (arrayBound.boundExpression rules') := by
  unfold arrayBound.boundExpression
  refine follows_here.bind fun span => hr.constant.bind fun value => ?_
  cases value with
  | none => exact (follows_expect _).bind fun _ => .pure rfl
  | some size => exact .ite ((follows_expect _).bind fun _ => .pure rfl) (follows_fail_bind _ _)

/-- Behind a star the text goes on. -/
theorem follows_arrayBound (hr : rules.Follow T rules') :
    Follows T (fun b => b) (arrayBound rules) (arrayBound rules') := by
  have hwords : Follows T (fun x => x) (loop () fun () => do
      if isBoundWord (← current).token then
        let _ ← advance
        return Round.again ()
      else return Round.done ()) (loop () fun () => do
      if isBoundWord (← current).token then
        let _ ← advance
        return Round.again ()
      else return Round.done ()) := by
    refine follows_loop (fun x => x) fun _ => follows_current.bind fun l => .ite ?_ (.pure rfl)
    exact follows_advance.bind fun _ => .pure rfl
  unfold arrayBound
  refine (follows_expect _).bind fun _ => hwords.bind fun _ => (follows_accept _).bind fun _ => .ite (.pure rfl) ?_
  intro s
  refine .check_bind _ (.ite (fun hstar => ?_) fun _ => follows_boundExpression hr s)
  have hlooks : looksBehind s.current.token = true := by
    rw [beq_iff_eq.1 hstar]
    rfl
  refine (FollowsAt.peek hlooks).bind fun t => .ite ?_ (follows_boundExpression hr)
  exact follows_advance.bind fun _ => follows_advance.bind fun _ => .pure rfl

theorem follows_nameList : Follows T (fun x => x) nameList nameList := by
  unfold nameList
  refine follows_loop (fun x => x) fun _ => follows_name.bind fun _ => (follows_accept _).bind fun _ => ?_
  exact .ite (.pure rfl) (.pure rfl)

theorem follows_parameter (hr : rules.Follow T rules') :
    Follows T (fun t => t) (parameter rules) (parameter rules') := by
  unfold parameter
  refine hr.specifiers.bind fun s => (hr.declarator .either).bind fun d => (follows_attributes hr).bind fun late => ?_
  rw [Specifiers.shift, ← Attributes.shift_merge]
  exact (follows_declaredType _ _ _).bind fun t => follows_adjustParameter t

theorem follows_prototype (hr : rules.Follow T rules') :
    Follows T (fun d => d) (prototype rules) (prototype rules') := by
  unfold prototype
  refine follows_loop (fun params => params) fun before => (follows_accept _).bind fun _ => .ite (.pure rfl) ?_
  refine (follows_parameter hr).bind fun p => (follows_accept _).bind fun _ => ?_
  exact .ite (.pure rfl) (.pure rfl)

/-- Behind `void` the text goes on. -/
theorem follows_parameters (hr : rules.Follow T rules') :
    Follows T (fun d => d) (parameters rules) (parameters rules') := by
  intro s
  refine .current_bind (.ite (fun _ => .pure rfl) fun _ => .ite (fun hvoid => ?_) fun _ => ?_)
  · have hlooks : looksBehind s.current.token = true := by
      rw [beq_iff_eq.1 hvoid]
      rfl
    refine (FollowsAt.peek hlooks).bind fun t => .ite ?_ (follows_prototype hr)
    exact follows_advance.bind fun _ => .pure rfl
  · obtain ⟨⟨token, span⟩, ahead, stop, u⟩ := s
    cases token with
    | name text =>
      refine follows_atType.bind (fun _ => .ite (follows_prototype hr) ?_) _
      exact follows_nameList.bind fun _ => .pure rfl
    | _ => exact follows_prototype hr _

theorem follows_suffix? (hr : rules.Follow T rules') :
    Follows T (fun d => d) (suffix? rules) (suffix? rules') := by
  unfold suffix?
  refine (follows_check _).bind fun _ => .ite ?_ ((follows_accept _).bind fun _ => .ite ?_ (.pure rfl))
  · exact (follows_arrayBound hr).bind fun bound => .pure rfl
  · exact (follows_parameters hr).bind fun d => (follows_expect _).bind fun _ => .pure rfl

theorem follows_suffixes (hr : rules.Follow T rules') :
    Follows T (fun ds => ds) (suffixes rules) (suffixes rules') := by
  unfold suffixes
  refine follows_loop (fun ds => ds) fun before => (follows_suffix? hr).bind fun r => ?_
  cases r with
  | some d => exact .pure rfl
  | none => exact .pure rfl

/-! ## Whole declarators -/

theorem follows_core (hr : rules.Follow T rules') (naming : Naming) :
    Follows T (Core.shift T.places) (core rules naming) (core rules' naming) := by
  unfold core
  refine follows_atNested.bind fun _ => .ite ?_ (.ite (.pure rfl) ?_)
  · refine follows_advance.bind fun _ => (hr.declarator naming).bind fun inner => ?_
    exact (follows_expect _).bind fun _ => .pure rfl
  · refine follows_name?.bind fun r => ?_
    cases r with
    | some found => exact .pure rfl
    | none => exact .pure rfl

theorem follows_declarator (hr : rules.Follow T rules') (naming : Naming) :
    Follows T (Declarator.shift T.places) (declarator rules naming) (declarator rules' naming) := by
  unfold declarator
  refine follows_here.bind fun start => follows_pointers.bind fun before => ?_
  refine (follows_core hr naming).bind fun middle => ?_
  refine (follows_suffixes hr).bind fun behind => ?_
  have hend : ∀ (name : Option (String × Span)) (derivations : List Derivation),
      Follows T (Declarator.shift T.places)
        (do
          let next ← current
          if naming == .named && name.isNone then fail (.expectedDeclaredName next.token) next.span
          else return (⟨name, derivations, start.merge next.span⟩ : Declarator))
        (do
          let next ← current
          if naming == .named && (name.map (shiftName T.places)).isNone then
            fail (.expectedDeclaredName next.token) next.span
          else
            return ⟨name.map (shiftName T.places), derivations, (start.shift T.places).merge next.span⟩) := by
    intro name derivations
    rw [Option.isNone_map]
    refine follows_current.bind fun next => .ite (follows_fail _ _) (.pure ?_)
    rw [Declarator.shift, Span.shift_merge]
    rfl
  cases middle with
  | nested inner => exact hend inner.name _
  | name text span => exact hend (some (text, span)) _
  | absent => exact hend none _

/-- A declarator that must have a name has one. -/
theorem declarator_named {s t : State} {d : Declarator} (h : declarator rules .named s = .ok d t) :
    d.name.isSome = true := by
  unfold declarator at h
  obtain ⟨start, s₁, -, h⟩ := bind_eq_ok h
  obtain ⟨before, s₂, -, h⟩ := bind_eq_ok h
  obtain ⟨middle, s₃, -, h⟩ := bind_eq_ok h
  obtain ⟨behind, s₄, -, h⟩ := bind_eq_ok h
  have hend : ∀ (name : Option (String × Span)) (derivations : List Derivation),
      (do
        let next ← current
        if Naming.named == .named && name.isNone then fail (.expectedDeclaredName next.token) next.span
        else return (⟨name, derivations, start.merge next.span⟩ : Declarator) : Parse Declarator) s₄ = .ok d t →
      d.name.isSome = true := by
    intro name derivations h
    obtain ⟨next, s₅, -, h⟩ := bind_eq_ok h
    cases name with
    | none => cases h
    | some found =>
      cases h
      rfl
  cases middle with
  | nested inner => exact hend inner.name _ h
  | name text span => exact hend (some (text, span)) _ h
  | absent => exact hend none _ h

end Cognate.Grammar
