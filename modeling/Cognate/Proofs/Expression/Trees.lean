import Cognate.Grammar.Arithmetic
import Cognate.Grammar.Literal
import Cognate.Grammar.TypeWords
import Cognate.Unit.Scope
import Mathlib.Data.List.Basic

/-!
# Trees of constant expressions

What a constant expression denotes, by recursion on its tree. All parts of an expression are evaluated, so that a fault
in any of them is a fault of the whole (`value_error_iff`).
-/

namespace Cognate.Grammar

/-- The prefix operators. -/
inductive UnaryOp where
  | plus | negate | complement | not
deriving DecidableEq, Repr

namespace UnaryOp

def mark : UnaryOp → Punct
  | plus => .plus
  | negate => .minus
  | complement => .tilde
  | not => .bang

/-- The value of an operator. -/
def apply : UnaryOp → Int → Except Cause Int
  | plus, n => .ok n
  | negate, n => checked (-n)
  | complement, n => .ok (Grammar.complement n)
  | not, n => .ok (truth (n = 0))

end UnaryOp

/-- Constant expressions; a cast holds the keywords of its type. -/
inductive Expression where
  | literal (c : LiteralClass) (text : String)
  | name (text : String)
  | unary (op : UnaryOp) (operand : Expression)
  | cast (words : List Keyword) (operand : Expression)
  | binary (op : BinaryOp) (left right : Expression)
  | conditional (condition yes no : Expression)
deriving DecidableEq, Repr

/-! ## Values -/

/-- The value of a literal. -/
def literalOutcome (target : Target) (c : LiteralClass) (text : String) : Except Cause Int :=
  match c with
  | .char => (characterValue? target.charIsSigned text).elim (.error (.badCharacter text)) .ok
  | .float | .string => .error (.expectedConstant (.literal c text))
  | _ => (integerValue? c text).elim (.error (.badInteger text)) .ok

/-- May stand among the words of a type and names none: qualifiers, and storage classes but `typedef`. -/
def accompaniesType : Keyword → Bool
  | .typedef => false
  | k => k.isQualifier || k.isStorage

/-- Keywords that spell a type: words of a builtin or complex type, or the one word for automatic types. -/
inductive SpellsType (target : Target) : List Keyword → Prop
  | builtin {words : List Keyword} {b : Builtin} (each : ∀ k ∈ words, k.isTypeWord = true ∨ accompaniesType k = true)
      (kind : kindOfWords target (words.filter Keyword.isTypeWord) .finish = .ok b)
      (complex : .complex ∈ words → hasComplex b = true) : SpellsType target words
  | auto {before after : List Keyword} (each : ∀ k ∈ before ++ after, accompaniesType k = true) :
      SpellsType target (before ++ .autoType :: after)

/-- The value of a number converted to the type that words spell. Complex, atomic and automatic types change nothing. -/
def castValue (target : Target) (words : List Keyword) (n : Int) : Int :=
  if .complex ∈ words ∨ .atomic ∈ words ∨ .autoType ∈ words then n
  else
    match kindOfWords target (words.filter Keyword.isTypeWord) .finish with
    | .ok b => convert target b n
    | .error _ => n

/-- An operation on a number, if it is known. -/
def onKnown (f : Int → Except Cause Int) : Option Int → Except Cause (Option Int)
  | some n => some <$> f n
  | none => .ok none

/-- An operation on two numbers, if both are known. -/
def onBoth (f : Int → Int → Except Cause Int) : Option Int → Option Int → Except Cause (Option Int)
  | some m, some n => some <$> f m n
  | _, _ => .ok none

namespace Expression

/-- The value of an expression in a unit; `none` where it is not known. -/
def value (u : DeclUnit) : Expression → Except Cause (Option Int)
  | literal c text => some <$> literalOutcome u.target c text
  | name text => .ok ((u.constant? text).map (·.1))
  | unary op operand => do onKnown op.apply (← operand.value u)
  | cast words operand => do return (← operand.value u).map (castValue u.target words)
  | binary op left right => do onBoth (fold op) (← left.value u) (← right.value u)
  | conditional condition yes no => do
    let known ← condition.value u
    let yes ← yes.value u
    let no ← no.value u
    return known.bind fun n => if n ≠ 0 then yes else no

/-! ## Faults -/

/-- An expression and all those within it. -/
def parts : Expression → List Expression
  | literal c text => [literal c text]
  | name text => [name text]
  | unary op operand => unary op operand :: operand.parts
  | cast words operand => cast words operand :: operand.parts
  | binary op left right => binary op left right :: (left.parts ++ right.parts)
  | conditional condition yes no => conditional condition yes no :: (condition.parts ++ yes.parts ++ no.parts)

/-- The operation of an expression is refused, for a literal or for the known values of its operands. -/
def Refused (u : DeclUnit) : Expression → Prop
  | literal c text => ∃ cause, literalOutcome u.target c text = .error cause
  | unary op operand => ∃ n cause, operand.value u = .ok (some n) ∧ op.apply n = .error cause
  | binary op left right =>
    ∃ m n cause, left.value u = .ok (some m) ∧ right.value u = .ok (some n) ∧ fold op m n = .error cause
  | name _ | cast _ _ | conditional _ _ _ => False

/-- A sequence of steps is an error if one of the steps that are taken is. -/
theorem bind_error_iff {α β : Type} {r : Except Cause α} {f : α → Except Cause β} :
    (∃ cause, r >>= f = .error cause) ↔ (∃ cause, r = .error cause) ∨ ∃ a, r = .ok a ∧ ∃ cause, f a = .error cause := by
  cases r with
  | error cause => simp [bind, Except.bind]
  | ok a => simp [bind, Except.bind]

theorem map_error_iff {α β : Type} {f : α → β} {r : Except Cause α} :
    (∃ cause, f <$> r = .error cause) ↔ ∃ cause, r = .error cause := by
  cases r with
  | error cause => simp
  | ok a => simp

theorem onKnown_error_iff {f : Int → Except Cause Int} {x : Option Int} :
    (∃ cause, onKnown f x = .error cause) ↔ ∃ n cause, x = some n ∧ f n = .error cause := by
  cases x with
  | none => simp [onKnown]
  | some n => simp [onKnown, map_error_iff]

theorem onBoth_error_iff {f : Int → Int → Except Cause Int} {x y : Option Int} :
    (∃ cause, onBoth f x y = .error cause) ↔ ∃ m n cause, x = some m ∧ y = some n ∧ f m n = .error cause := by
  cases x with
  | none => simp [onBoth]
  | some m =>
    cases y with
    | none => simp [onBoth]
    | some n => simp [onBoth, map_error_iff]

/-- A whole is an error exactly if the operation of some part is refused. By induction on the tree. -/
theorem value_error_iff (u : DeclUnit) (e : Expression) :
    (∃ cause, e.value u = .error cause) ↔ ∃ p ∈ e.parts, p.Refused u := by
  induction e with
  | literal c text => simp [value, parts, Refused, map_error_iff]
  | name text => simp [value, parts, Refused]
  | unary op operand ih =>
    rw [value, bind_error_iff, parts, List.exists_mem_cons_iff, ← ih, or_comm]
    refine or_congr_left ?_
    simp only [onKnown_error_iff, Refused]
    exact ⟨fun ⟨_, hx, n, cause, hn, h⟩ => ⟨n, cause, hn ▸ hx, h⟩, fun ⟨n, cause, hx, h⟩ => ⟨_, hx, n, cause, rfl, h⟩⟩
  | cast words operand ih =>
    rw [value, bind_error_iff, parts, List.exists_mem_cons_iff, ← ih, or_comm]
    exact or_congr_left (by simp [Refused, pure, Except.pure])
  | binary op left right ihl ihr =>
    simp only [value, bind_error_iff, parts, List.exists_mem_cons_iff, List.mem_append, or_and_right, exists_or, ← ihl,
      ← ihr]
    cases hl : left.value u with
    | error cause => simp
    | ok x =>
      cases hr : right.value u with
      | error cause => simp
      | ok y => simp [onBoth_error_iff, Refused, hl, hr]
  | conditional condition yes no ihc ihy ihn =>
    simp only [value, bind_error_iff, parts, List.exists_mem_cons_iff, List.mem_append, or_and_right, exists_or, ← ihc,
      ← ihy, ← ihn]
    cases hc : condition.value u with
    | error cause => simp
    | ok x =>
      cases hy : yes.value u with
      | error cause => simp
      | ok y =>
        cases hn : no.value u with
        | error cause => simp
        | ok n => simp [Refused, pure, Except.pure]

end Expression
end Cognate.Grammar
