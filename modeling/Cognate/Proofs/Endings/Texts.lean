import Cognate.Proofs.Endings.Specifiers
import Cognate.Proofs.Token.Tiling

/-!
# How the reading of texts ends

The rules of a depth end where fewer tokens are left than the depth (`Rules.upTo_ends`), and a text is read with rules
for more than all of its tokens. So no text is nested too deep: it is accepted, or refused with a fault at a place of
its own (`read_ends`). A bounded unit stays bounded, and so all units that texts lead to are (`FromTexts.bounded`).
-/

namespace Cognate

namespace Grammar

variable {α : Type} {W : Setting} {rules : Rules} {s t : State} {m n : Nat} {span : Span}

/-! ## Rules -/

theorem typeName_ends
    (hspecifiers : EndsBelow W n rules.specifiers fun s a t => t.left < s.left ∧ a.attributes.Placed W)
    (hdeclarator : EndsBelow W n (rules.declarator .abstract) fun _ d _ => d.Placed W .abstract)
    (hconstant : EndsBelow W m rules.constant fun s value t => t.left < s.left ∧ W.Known value) (hm : n ≤ m + 1)
    (hs : s.Placed W) (hn : s.left < n) : Ends W (typeName rules) s fun _ t => t.left < s.left := by
  refine .here ((hspecifiers s hs hn).bind fun specifiers t₁ ht₁ _ ⟨hlt, hearly⟩ => ?_)
  refine .ite (fun _ => .fail_bind ht₁ hs.current (by simp)) fun _ => ?_
  refine (hdeclarator t₁ ht₁ (by omega)).bind fun d t₂ ht₂ hle₂ hd => ?_
  refine (attributes_ends hconstant ht₂ (by omega)).bind fun late t₃ ht₃ hle₃ hlate => ?_
  exact (declaredType_ends ht₃ _ hd.span (hearly.merge hlate.1)).weaken fun _ _ _ _ => by omega

/-- Rules whose parts read with the given ones what is nested in them. -/
def Rules.around (inner : Rules) : Rules where
  specifiers := Grammar.specifiers inner
  declarator := Grammar.declarator inner
  constant := Grammar.constant inner
  binary := Grammar.binary inner
  unary := Grammar.unary inner
  typeName :=
    Grammar.typeName { inner with specifiers := Grammar.specifiers inner, declarator := Grammar.declarator inner }

theorem Rules.upTo_succ (depth : Nat) : Rules.upTo (depth + 1) = (Rules.upTo depth).around := rfl

/-- What is nested is read behind a token at least, so one token more may be left than the inner rules allow for. -/
theorem Rules.EndBelow.around (hr : rules.EndBelow W n) : rules.around.EndBelow W (n + 1) where
  specifiers _ hs hn := specifiers_ends hr hs (Nat.le_of_lt_succ hn)
  declarator naming _ hs hn := declarator_ends hr hs (Nat.le_of_lt_succ hn) naming
  constant _ hs hn := constant_ends hr hs (Nat.le_of_lt_succ hn)
  binary level _ hs hn := binary_ends hr hs (Nat.le_of_lt_succ hn) level
  unary _ hs hn := unary_ends hr hs (Nat.le_of_lt_succ hn)
  typeName _ hs hn := typeName_ends (fun _ hs hn => specifiers_ends hr hs (Nat.le_of_lt_succ hn))
    (fun _ hs hn => declarator_ends hr hs (Nat.le_of_lt_succ hn) .abstract) hr.constant le_rfl hs hn

theorem Rules.upTo_ends (depth : Nat) : (Rules.upTo depth).EndBelow W depth := by
  induction depth with
  | zero => constructor <;> intros <;> rintro s - ⟨⟩
  | succ depth ih =>
    rw [Rules.upTo_succ]
    exact ih.around

/-- The rules for what is ahead suffice for all of it. -/
theorem Ends.rulesHere {f : Rules → Parse α} {R : α → State → Prop}
    (h : ∀ rules : Rules, rules.EndBelow W s.allowance → Ends W (f rules) s R) :
    Ends W (Grammar.rulesHere >>= f) s R := .get (h _ (Rules.upTo_ends _))

/-! ## Declarations -/

theorem declareOne_ends (hs : s.Placed W) (isTypedef : Bool) {name : String × Span} (hspan : W.Place name.2) (t : Ty) :
    Ends W (declareOne isTypedef name t) s fun _ _ => True := by
  cases isTypedef with
  | true =>
    have htypedef : Ends W (define name.2 (·.defineTypedef name.1 t)) s fun _ _ => True :=
      (define_ends hs hspan fun _ hu => hu.defineTypedef_leaves name.1 t).plain
    exact htypedef.bind fun _ t₁ ht₁ _ _ => .pure ht₁ trivial
  | false =>
    have hvalue : Ends W (define name.2 (·.declareValue name.1 t)) s fun _ _ => True :=
      (define_ends hs hspan fun _ hu => hu.declareValue_leaves name.1 t).plain
    exact hvalue

theorem functionBody_ends (hs : s.Placed W) : Ends W functionBody s fun _ _ => True := by
  have hrest : ∀ {s : State}, s.Placed W → Ends W (do
      if ← check (.punct .lbrace) then
        skipGroup
        return true
      return false) s fun _ _ => True := fun hs =>
    .check (fun _ => (skipGroup_ends hs).bind fun _ t₁ ht₁ _ _ => .pure ht₁ trivial) fun _ => .pure hs trivial
  refine .checked (.atType (.ite (fun _ => ?_) fun _ => hrest hs))
  exact (skipToBody_ends hs).bind fun _ t₁ ht₁ _ _ => hrest ht₁

/-- A declarator that must have a name answers one. -/
theorem initDeclarator_ends (hr : rules.EndBelow W n) (hs : s.Placed W) (hn : s.left < n) {specifiers : Specifiers}
    (hearly : specifiers.attributes.Placed W) : Ends W (initDeclarator rules specifiers) s fun _ _ => True := by
  refine (hr.declarator .named s hs hn).bind fun d t₁ ht₁ hle₁ hd => ?_
  refine (attributes_ends hr.constant ht₁ (by omega)).bind fun late t₂ ht₂ _ hlate => ?_
  refine (declaredType_ends ht₂ _ hd.span (hearly.merge hlate.1)).bind fun t t₃ ht₃ _ _ => ?_
  obtain ⟨found, hfound⟩ := Option.isSome_iff_exists.1 (hd.named rfl)
  have hspan : W.Place (d.name.getD ("", ⟨0, 0⟩)).2 := by
    rw [hfound]
    exact hd.name found hfound
  refine (declareOne_ends ht₃ specifiers.isTypedef hspan t).bind fun _ t₄ ht₄ _ _ => ?_
  have hend : ∀ {s : State} (ended : Bool), s.Placed W → Ends W (do
      if ended then return true
      if ← accept (.punct .eq) then skipInitializer
      return false : Parse Bool) s fun _ _ => True := by
    intro s ended hs
    refine .ite (fun _ => .pure hs trivial) fun _ => ?_
    refine .accept hs (by simp) (fun _ t₅ ht₅ _ => ?_) fun _ => .pure hs trivial
    exact (skipInitializer_ends ht₅).bind fun _ t₆ ht₆ _ _ => .pure ht₆ trivial
  refine .ite (fun _ => ?_) fun _ => hend false ht₄
  exact (functionBody_ends ht₄).bind fun ended t₅ ht₅ _ _ => hend ended ht₅

theorem declaration_ends (hs : s.Placed W) : Ends W declaration s fun _ t => t.left < s.left := by
  refine .accept hs (by simp) (fun _ t₁ ht₁ hlt => .pure ht₁ hlt) fun _ => .rulesHere fun rules hr => ?_
  have hallowance := s.left_lt_allowance
  refine (hr.specifiers s hs hallowance).bind fun specifiers t₁ ht₁ _ ⟨hlt, hearly⟩ => ?_
  refine .accept ht₁ (by simp) (fun _ t₂ ht₂ hlt₂ => .pure ht₂ (by omega)) fun _ => ?_
  refine Ends.bind (Q := fun _ _ => True) (loop_ends (fun _ _ => True) ht₁ trivial fun _ t ht hle _ => ?_)
    fun ended t₂ ht₂ hle₂ _ => ?_
  · refine (initDeclarator_ends hr ht (by omega) hearly).bind fun ended t₂ ht₂ hle₂ _ => ?_
    refine .ite (fun _ => .pure ht₂ trivial) fun _ => ?_
    exact .accept ht₂ (by simp) (fun _ t₃ ht₃ hlt₃ => .pure ht₃ ⟨by omega, trivial⟩) fun _ => .pure ht₂ trivial
  · refine .ite (fun _ => .expect ht₂ fun _ t₃ ht₃ hlt₃ => .pure ht₃ (by omega)) fun _ => .pure ht₂ (by omega)

theorem declarations_ends (hs : s.Placed W) : Ends W declarations s fun _ _ => True := by
  refine loop_ends (fun _ _ => True) hs trivial fun _ t ht _ _ => .atEnd (.pure ht trivial) fun _ => ?_
  exact (declaration_ends ht).bind fun _ t₁ ht₁ _ hlt => .pure ht₁ ⟨hlt, trivial⟩

theorem wholeTypeName_ends (hs : s.Placed W) : Ends W wholeTypeName s fun _ _ => True := by
  refine .rulesHere fun rules hr => (hr.typeName s hs s.left_lt_allowance).bind fun t t₁ ht₁ _ _ => .current ?_
  exact .ite (fun _ => .pure ht₁ trivial) fun _ => .fail ht₁ ht₁.current (by simp)

/-! ## Texts -/

/-- Places are those of the text, and the unit is to stay bounded if it is. -/
def Setting.ofText (source : String) (u : DeclUnit) : Setting := ⟨Span.Within source, .merge, u.Bounded⟩

theorem Setting.ofText_item {source : String} {item : Except Fault Lexed} (u : DeclUnit) (h : item ∈ scan source) :
    (Setting.ofText source u).Item item := by
  obtain ⟨-, text, hcarries, hcovers⟩ := (scan_covered source).1 item h
  cases item with
  | ok l => exact hcovers.within
  | error fault =>
    exact ⟨hcovers.within, (by rintro h; cases h.symm.trans hcarries), (by rintro _ h; cases h.symm.trans hcarries)⟩

/-- A reader starts with everything in its place, or the first item of the text is a fault. -/
theorem State.ofSource_placed (source : String) (u : DeclUnit) :
    match State.ofSource source u with
    | .ok s => s.Placed (.ofText source u)
    | .error fault => (Setting.ofText source u).Blames fault := by
  -- The end stands in front of the items, so that the first one is the next of this state.
  have hbefore : (⟨finishAt source.utf8ByteSize, scan source, source.utf8ByteSize, u⟩ : State).Placed
      (.ofText source u) :=
    ⟨Span.within_end source, fun _ => Setting.ofText_item u, Span.within_end source, id⟩
  unfold State.ofSource
  cases htake : takeItem source.utf8ByteSize (scan source) with
  | error fault => exact hbefore.next_blames htake
  | ok r => exact (hbefore.next htake).1

theorem read_ends {p : Parse α} (hp : ∀ {W s}, s.Placed W → Ends W p s fun _ _ => True) (u : DeclUnit)
    (source : String) :
    (∀ fault, (read p source u).1 = .error fault → (Setting.ofText source u).Blames fault) ∧
      (u.Bounded → (read p source u).2.Bounded) := by
  have hplaced := State.ofSource_placed source u
  unfold read
  cases hs : State.ofSource source u with
  | error fault =>
    rw [hs] at hplaced
    refine ⟨?_, id⟩
    rintro _ ⟨⟩
    exact hplaced
  | ok s =>
    rw [hs] at hplaced
    have hends := hp hplaced
    unfold Ends at hends
    dsimp only [EStateM.run]
    cases hr : p s with
    | error fault t =>
      rw [hr] at hends
      refine ⟨?_, hends.2⟩
      rintro _ ⟨⟩
      exact hends.1
    | ok a t =>
      rw [hr] at hends
      exact ⟨by simp, hends.1.unit⟩

end Grammar

namespace DeclUnit

variable {u : DeclUnit}

/-- Whatever the unit, a text is refused at a place of its own: a fault's bytes go from one character boundary to the
same or a later one, and not beyond the end. -/
theorem faults_within (u : DeclUnit) (source : String) :
    (∀ fault, (u.declare source).1 = .error fault → fault.span.Within source) ∧
      ∀ fault, (u.typeName source).1 = .error fault → fault.span.Within source :=
  ⟨fun fault h => ((Grammar.read_ends Grammar.declarations_ends u source).1 fault h).place,
    fun fault h => ((Grammar.read_ends Grammar.wholeTypeName_ends u source).1 fault h).place⟩

/-- A stray character of two bytes, an end where a tag should be, a value out of range in the span from the keyword to
the closing brace, and a second body of a record. -/
theorem faults_within_kinds :
    let u := DeclUnit.empty "unit" .lp64
    let stray := "int x; int é;"
    let wide := "int x; enum : char \x7b A = 300 \x7d y;"
    let twice := "struct s \x7b int a; \x7d; struct s \x7b int b; \x7d z;"
    ((u.declare stray).1 = .error ⟨.strayText "é", ⟨11, 13⟩⟩ ∧ (⟨11, 13⟩ : Span).Within stray) ∧
      ((u.typeName "struct").1 = .error ⟨.expectedTag .struct, ⟨6, 6⟩⟩ ∧ (⟨6, 6⟩ : Span).Within "struct") ∧
      ((u.declare wide).1 = .error ⟨.enumeratorOutOfRange 300 .charS, ⟨7, 30⟩⟩ ∧ (⟨7, 30⟩ : Span).Within wide) ∧
      (u.declare twice).1 = .error ⟨.type (.redefinition "struct s"), ⟨21, 40⟩⟩ ∧ (⟨21, 40⟩ : Span).Within twice := by
  intro u stray wide twice
  have hstray : (u.declare stray).1 = .error ⟨.strayText "é", ⟨11, 13⟩⟩ := by decide +kernel
  have htag : (u.typeName "struct").1 = .error ⟨.expectedTag .struct, ⟨6, 6⟩⟩ := by decide +kernel
  have hwide : (u.declare wide).1 = .error ⟨.enumeratorOutOfRange 300 .charS, ⟨7, 30⟩⟩ := by decide +kernel
  have htwice : (u.declare twice).1 = .error ⟨.type (.redefinition "struct s"), ⟨21, 40⟩⟩ := by decide +kernel
  exact ⟨⟨hstray, (faults_within u stray).1 _ hstray⟩, ⟨htag, (faults_within u "struct").2 _ htag⟩,
    ⟨hwide, (faults_within u wide).1 _ hwide⟩, htwice, (faults_within u twice).1 _ htwice⟩

/-! ## Units that texts lead to -/

theorem FromTexts.bounded (hu : u.FromTexts) (ht : u.target ∈ Target.presets) : u.Bounded := by
  induction hu with
  | empty name target => exact empty_bounded ht
  | @declare u source hu ih =>
    have hgrows := (Grammar.read_written hu.written Grammar.keeps_declarations source).2.1
    exact (Grammar.read_ends Grammar.declarations_ends u source).2 (ih (hgrows.target ▸ ht))
  | @typeName u source hu ih =>
    have hgrows := (Grammar.read_written hu.written Grammar.keeps_wholeTypeName source).2.1
    exact (Grammar.read_ends Grammar.wholeTypeName_ends u source).2 (ih (hgrows.target ▸ ht))

/-- No handle, position or number of the unit leads astray: nodes, records, enums and values are there, numbers fit
their words, and layouts, casts and ranges are computed without an overflow, a wide shift or a lookup in vain. -/
structure Safe (u : DeclUnit) : Prop where
  written : u.Written
  bounded : u.Bounded
  measure : ∀ t, u.measure t = .ok (u.extent t)
  steps : ∀ t, Machine.measure u t = some (u.extent t)
  convert : ∀ b n, Grammar.Machine.convert u.target b n = some (Grammar.convert u.target b n)
  integerRange : ∀ b, Grammar.Machine.integerRange u.target b = some (Grammar.integerRange? u.target b)

theorem Written.safe (hw : u.Written) (hu : u.Bounded) : u.Safe :=
  ⟨hw, hu, hu.measure_eq, hu.machine_measure hw.wellFormed, Grammar.Machine.convert_eq hu.target,
    Grammar.Machine.integerRange_eq hu.target⟩

theorem FromTexts.safe (hu : u.FromTexts) (ht : u.target ∈ Target.presets) : u.Safe := hu.written.safe (hu.bounded ht)

/-- What a reader leaves of a safe unit is safe again, whether the text is accepted or not, and it is not refused for
want of rounds or depth, nor does measuring a type stop it. -/
theorem Safe.read {α : Type} {p : Grammar.Parse α} {Q : α → DeclUnit → Prop} (hu : u.Safe)
    (hkeeps : Grammar.Keeps u p Q) (hends : ∀ {W s}, s.Placed W → Grammar.Ends W p s fun _ _ => True)
    (source : String) :
    (Grammar.read p source u).2.Safe ∧
      ∀ fault, (Grammar.read p source u).1 = .error fault → fault.cause.IsRefusal := by
  obtain ⟨hfaults, hbounded⟩ := Grammar.read_ends hends u source
  have hwritten := (Grammar.read_written hu.written hkeeps source).1
  exact ⟨hwritten.safe (hbounded hu.bounded), fun fault h =>
    ⟨(hfaults fault h).notDeep, (hfaults fault h).notStopped hu.bounded⟩⟩

/-- From a unit that texts lead to, every text is read to an answer or to a fault of its own, and leaves a safe unit; a
type that is answered is one of it. The rounds of a loop and the depth of nested readers never run out: rules that end
where fewer than `n` tokens are left make readers that end where at most `n` are, because whatever they read with the
rules stands behind a token. -/
theorem FromTexts.reading_ends (hu : u.FromTexts) (ht : u.target ∈ Target.presets) (source : String) :
    u.Safe ∧
      ((u.declare source).2.Safe ∧ ∀ fault, (u.declare source).1 = .error fault → fault.cause.IsRefusal) ∧
      ((u.typeName source).2.Safe ∧ ∀ fault, (u.typeName source).1 = .error fault → fault.cause.IsRefusal) ∧
      (∀ t, (u.typeName source).1 = .ok t → (u.typeName source).2.contains t = true) ∧
      (∀ depth, (Grammar.Rules.upTo depth).Sound ∧ (Grammar.Rules.upTo depth).EndBelow (.ofText source u) depth) ∧
      ∀ (rules : Grammar.Rules) (n : Nat), rules.EndBelow (.ofText source u) n →
        rules.around.EndBelow (.ofText source u) (n + 1) := by
  have hsafe := hu.safe ht
  refine ⟨hsafe, hsafe.read Grammar.keeps_declarations Grammar.declarations_ends source,
    hsafe.read Grammar.keeps_wholeTypeName Grammar.wholeTypeName_ends source, fun t h => ?_,
    fun depth => ⟨Grammar.Rules.upTo_sound depth, Grammar.Rules.upTo_ends depth⟩, fun _ _ hr => hr.around⟩
  exact ((Grammar.read_written hsafe.written Grammar.keeps_wholeTypeName source).2.2 t h).1

/-- A unit with an enum constant and a vector, a text that breaks off in the bound of a member, and a type name. -/
theorem reading_ends_truncated :
    let u := ((empty "unit" .lp64).declare
      "enum size \x7b LARGE = 1 << 5 \x7d; typedef int v4 __attribute__((vector_size(LARGE / 2)));").2
    let broken := "struct pair \x7b v4 lanes[(LARGE"
    let name := "v4 (*)[sizeof(v4) + LARGE]"
    u.Safe ∧
      ((u.declare broken).1 = .error ⟨.expected .rparen .finish, ⟨29, 29⟩⟩ ∧ (u.declare broken).2.Safe) ∧
      (u.typeName name).1 = .ok ⟨7⟩ ∧ (u.typeName name).2.contains ⟨7⟩ = true := by
  intro u broken name
  have hu : u.FromTexts := .declare _ (.empty "unit" .lp64)
  have ht : u.target ∈ Target.presets := by decide +kernel
  have hbroken : (u.declare broken).1 = .error ⟨.expected .rparen .finish, ⟨29, 29⟩⟩ := by decide +kernel
  have hname : (u.typeName name).1 = .ok ⟨7⟩ := by decide +kernel
  obtain ⟨hsafe, ⟨hdeclared, -⟩, -⟩ := FromTexts.reading_ends hu ht broken
  obtain ⟨-, -, -, hanswer, -⟩ := FromTexts.reading_ends hu ht name
  exact ⟨hsafe, ⟨hbroken, hdeclared⟩, hname, hanswer ⟨7⟩ hname⟩

end DeclUnit
end Cognate
