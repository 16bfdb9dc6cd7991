import Cognate.Grammar.Arithmetic
import Cognate.Grammar.Literal
import Cognate.Grammar.Rules
import Cognate.Unit.Spelling

/-! # Constant expressions

Integer expressions, evaluated as they are read. A name that is no enum constant has no known value, and neither has an
expression that needs one; such an expression is still read to its end. -/

namespace Cognate.Grammar

/-- The value of a computation on known operands, or a fault at `span`. -/
def evaluated (span : Span) : Except Cause Int → Parse (Option Int)
  | .ok n => return some n
  | .error cause => fail cause span

/-- A literal whose value must be known. -/
def literalValue (value : Option Int) (refusal : Cause) (span : Span) : Parse (Option Int) :=
  match value with
  | some n => return some n
  | none => fail refusal span

/-- A literal, a name, or an expression in parentheses. -/
def primary (rules : Rules) : Parse (Option Int) := do
  let t ← advance
  match t.token with
  | .literal .char text =>
    literalValue (characterValue? (← unit).target.charIsSigned text) (.badCharacter text) t.span
  | .literal .float _ | .literal .string _ => fail (.expectedConstant t.token) t.span
  | .literal c text => literalValue (integerValue? c text) (.badInteger text) t.span
  | .name text => return ((← unit).constant? text).map (·.1)
  | .punct .lparen =>
    let value ← rules.constant
    let _ ← expect .rparen
    return value
  | other => fail (.expectedConstant other) t.span

/-- The operand of `sizeof` or `_Alignof`: a type in parentheses, or a declared name. -/
def measuredType (rules : Rules) : Parse Ty := do
  if ← atParenthesizedType then parenthesizedType rules
  else
    let parenthesized ← accept (.punct .lparen)
    let (text, span) ← name
    if parenthesized then
      let _ ← expect .rparen
    match (← unit).value? text with
    | some decl => return decl.type
    | none => fail (.notAVariable text) span

/-- Size or alignment of a type, in bytes. -/
def measure (rules : Rules) : Parse (Option Int) := do
  let operator ← advance
  let isAlign := operator.token == .keyword .alignof
  let t ← measuredType rules
  match ← measured t operator.span with
  | some e => return some (if isAlign then (e.align / 8 : Nat) else e.bytes : Int)
  | none =>
    let u ← unit
    fail (.incompleteOperand (if isAlign then "_Alignof" else "sizeof") (u.describe t)) operator.span

/-- The value of a number converted to a type. -/
def convertTo (u : DeclUnit) (t : Ty) (n : Int) : Int :=
  match u.builtinKind? t with
  | some b => convert u.target b n
  | none => n

/-- An operand with its prefix operators and casts. -/
def unary (rules : Rules) : Parse (Option Int) := do
  let start ← here
  if ← atParenthesizedType then
    let t ← parenthesizedType rules
    let value ← rules.unary
    let u ← unit
    return value.map (convertTo u t)
  else
    match (← current).token with
    | .punct .minus =>
      let _ ← advance
      match ← rules.unary with
      | some n => evaluated start (checked (-n))
      | none => return none
    | .punct .plus =>
      let _ ← advance
      rules.unary
    | .punct .tilde =>
      let _ ← advance
      return (← rules.unary).map complement
    | .punct .bang =>
      let _ ← advance
      return (← rules.unary).map fun n => truth (n = 0)
    | .keyword .sizeof | .keyword .alignof => measure rules
    | _ => primary rules

/-- Operands joined by operators that bind at least as tightly as `least`, grouped to the left. -/
def binary (rules : Rules) (least : Nat) : Parse (Option Int) := do
  let first ← unary rules
  loop first fun left => do
    match (← current).token.binaryOp? with
    | none => return .done left
    | some op =>
      if op.precedence < least then return .done left
      else
        let operator ← advance
        let right ← rules.binary (op.precedence + 1)
        match left, right with
        | some a, some b => return .again (← evaluated operator.span (fold op a b))
        | _, _ => return .again none

/-- A whole expression, with the conditional operator. Both branches are evaluated. -/
def constant (rules : Rules) : Parse (Option Int) := do
  let condition ← binary rules 0
  if ← accept (.punct .question) then
    let yes ← rules.constant
    let _ ← expect .colon
    let no ← rules.constant
    return condition.bind fun n => if n ≠ 0 then yes else no
  else return condition

end Cognate.Grammar
