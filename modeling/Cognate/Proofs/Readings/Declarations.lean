import Cognate.Grammar.Declaration
import Cognate.Proofs.Readings.Specifiers

/-!
# Declarations side by side

The rules for what is still ahead are carried over (`Rules.upTo_follow`), and with them declarations and names of types.
Since what is known of the first reading alone is carried along, this also says that declarations keep what single steps
keep.
-/

namespace Cognate.Grammar

variable {α : Type} {T : Transport} {rules rules' : Rules}

/-! ## Rules -/

theorem follows_typeName (hr : rules.Follow T rules') :
    Follows T (fun t => t) (typeName rules) (typeName rules') := by
  unfold typeName
  refine follows_here.bind fun start => hr.specifiers.bind fun s => .ite (follows_fail_bind _ _) ?_
  refine (hr.declarator .abstract).bind fun d => (follows_attributes hr).bind fun late => ?_
  rw [Specifiers.shift, ← Attributes.shift_merge]
  exact follows_declaredType _ _ _

/-- Where the text goes on, a reading that fails does not matter. -/
theorem follows_of_open {g : α → α} {p p' : Parse α} (hopen : T.isOpen)
    (hp : ∀ s, ∃ f, p s = .error f s) : Follows T g p p' := by
  intro s
  obtain ⟨f, hf⟩ := hp s
  constructor
  · rw [hf]
    exact fun hs => hs
  · rw [hf]
    exact .inl hopen

theorem Rules.none_follow (hopen : T.isOpen) (rules : Rules) : Rules.none.Follow T rules := by
  constructor
  case named =>
    intro s d t h
    cases h
  all_goals intros; exact follows_of_open hopen fun s => ⟨_, rfl⟩

theorem Rules.none_follow_none : Rules.none.Follow T Rules.none := by
  constructor
  case named =>
    intro s d t h
    cases h
  all_goals intros; exact follows_here.bind fun _ => follows_fail _ _

/-- By induction on the depth: the rules of each part are the ones below. A text that goes on allows for more depth. -/
theorem Rules.upTo_follow {n m : Nat} (hle : n ≤ m) (hclosed : ¬T.isOpen → n = m) :
    (Rules.upTo n).Follow T (Rules.upTo m) := by
  induction n generalizing m with
  | zero =>
    by_cases hopen : T.isOpen
    · exact Rules.none_follow hopen _
    · rw [← hclosed hopen]
      exact Rules.none_follow_none
  | succ n ih =>
    obtain ⟨m, rfl⟩ := Nat.exists_eq_succ_of_ne_zero (show m ≠ 0 by omega)
    have hr := ih (m := m) (by omega) fun hopen => Nat.succ_injective (hclosed hopen)
    have htype : (Rules.mk (Rules.upTo n).typeName (Grammar.specifiers (Rules.upTo n))
        (Grammar.declarator (Rules.upTo n)) (Rules.upTo n).constant (Rules.upTo n).binary (Rules.upTo n).unary).Follow T
        (Rules.mk (Rules.upTo m).typeName (Grammar.specifiers (Rules.upTo m))
        (Grammar.declarator (Rules.upTo m)) (Rules.upTo m).constant (Rules.upTo m).binary (Rules.upTo m).unary) :=
      ⟨hr.typeName, follows_specifiers hr, follows_declarator hr, hr.constant, hr.binary, hr.unary,
        fun _ _ _ => declarator_named⟩
    exact ⟨follows_typeName htype, follows_specifiers hr, follows_declarator hr, follows_constant hr,
      follows_binary hr, follows_unary hr, fun _ _ _ => declarator_named⟩

theorem Rules.upTo_follow_self (n : Nat) (T : Transport) : (Rules.upTo n).Follow T (Rules.upTo n) :=
  Rules.upTo_follow le_rfl fun _ => rfl

/-- Where less is ahead in the first reading, its rules allow for less depth. -/
theorem rulesHere_follow (T : Transport) (s : State) :
    (Rules.upTo s.allowance).Follow T (Rules.upTo (T.state s).allowance) := by
  obtain ⟨hle, hclosed⟩ := allowance_le T s
  exact Rules.upTo_follow hle hclosed

theorem follows_rulesHere_bind {g : α → α} {f f' : Rules → Parse α}
    (hf : ∀ rules rules', rules.Follow T rules' → Follows T g (f rules) (f' rules')) :
    Follows T g (rulesHere >>= f) (rulesHere >>= f') := by
  intro s
  obtain ⟨hlost, hcarries⟩ := hf _ _ (rulesHere_follow T s) s
  exact ⟨hlost, hcarries⟩

/-! ## Declarations -/

theorem follows_declareOne (isTypedef : Bool) (name : String × Span) (t : Ty) :
    Follows T (fun x => x) (declareOne isTypedef name t) (declareOne isTypedef (shiftName T.places name) t) := by
  cases isTypedef with
  | true =>
    have htypedef : Follows T (fun x => x) (define name.2 (·.defineTypedef name.1 t))
        (define (name.2.shift T.places) (·.defineTypedef name.1 t)) :=
      follows_define (fun u => DeclUnit.defineTypedef_renamed _ u)
        fun u => ⟨.nameType name.1 t, isPlain_of_ne (by simp), rfl⟩
    exact htypedef.bind fun _ => .pure rfl
  | false =>
    have hvalue : Follows T (fun x => x) (define name.2 (·.declareValue name.1 t))
        (define (name.2.shift T.places) (·.declareValue name.1 t)) :=
      follows_define (fun u => DeclUnit.declareValue_renamed _ u)
        fun u => ⟨.declareValue name.1 t, isPlain_of_ne (by simp), rfl⟩
    exact hvalue

theorem follows_functionBody : Follows T (fun b => b) functionBody functionBody := by
  have hrest : Follows T (fun b => b) (do
      if ← check (.punct .lbrace) then
        skipGroup
        return true
      return false) (do
      if ← check (.punct .lbrace) then
        skipGroup
        return true
      return false) :=
    (follows_check _).bind fun _ => .ite (follows_skipGroup.bind fun _ => .pure rfl) (.pure rfl)
  refine (follows_check _).bind fun _ => follows_atType.bind fun _ => .ite ?_ hrest
  exact follows_skipToBody.bind fun _ => hrest

theorem follows_initDeclarator (hr : rules.Follow T rules') (s : Specifiers) :
    Follows T (fun b => b) (initDeclarator rules s) (initDeclarator rules' (s.shift T.places)) := by
  unfold initDeclarator
  refine (hr.declarator .named).bind_of hr.named fun d hnamed => (follows_attributes hr).bind fun late => ?_
  rw [Specifiers.shift, ← Attributes.shift_merge]
  refine (follows_declaredType _ _ _).bind fun t => ?_
  obtain ⟨name, derivations, span⟩ := d
  obtain ⟨found, rfl⟩ := Option.isSome_iff_exists.1 hnamed
  refine (follows_declareOne s.isTypedef found t).bind fun _ => ?_
  have hend : ∀ ended : Bool, Follows T (fun b => b) (do
      if ended then return true
      if ← accept (.punct .eq) then skipInitializer
      return false : Parse Bool) (do
      if ended then return true
      if ← accept (.punct .eq) then skipInitializer
      return false) := by
    intro ended
    refine .ite (.pure rfl) ((follows_accept _).bind fun _ => .ite ?_ (.pure rfl))
    exact follows_skipInitializer.bind fun _ => .pure rfl
  exact .ite (follows_functionBody.bind fun ended => hend ended) (hend false)

theorem follows_declaration : Follows T (fun x => x) declaration declaration := by
  unfold declaration
  refine (follows_accept _).bind fun _ => .ite (.pure rfl) (follows_rulesHere_bind fun rules rules' hr => ?_)
  refine hr.specifiers.bind fun s => (follows_accept _).bind fun _ => .ite (.pure rfl) ?_
  refine Follows.bind (g := fun b => b) (follows_loop (fun x => x) fun _ => ?_) fun ended => ?_
  · refine (follows_initDeclarator hr s).bind fun _ => .ite (.pure rfl) ((follows_accept _).bind fun _ => ?_)
    exact .ite (.pure rfl) (.pure rfl)
  · exact .ite ((follows_expect _).bind fun _ => .pure rfl) (.pure rfl)

theorem follows_declarations : Follows T (fun x => x) declarations declarations := by
  unfold declarations
  refine follows_loop (fun x => x) fun _ => follows_atEnd.bind fun _ => .ite (.pure rfl) ?_
  exact follows_declaration.bind fun _ => .pure rfl

theorem follows_wholeTypeName : Follows T (fun t => t) wholeTypeName wholeTypeName := by
  unfold wholeTypeName
  refine follows_rulesHere_bind fun rules rules' hr => hr.typeName.bind fun t => follows_current.bind fun next => ?_
  exact .ite (.pure rfl) (follows_fail _ _)

end Cognate.Grammar
