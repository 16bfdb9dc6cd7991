import Cognate.Grammar.Rules
import Cognate.Unit.Spelling

/-! # Declared types

The type that a declarator makes of the type in front of it, step by step. Attributes change the first type into a
vector and the last function. -/

namespace Cognate.Grammar

/-- A function must not return an array or a function. -/
def checkResult (t : Ty) (span : Span) : Parse Unit := do
  let u ← unit
  if u.isArray t || u.isFunction t then fail (.badResult (u.describe t)) span

/-- Power of two, zero excluded. -/
def isPowerOfTwo (n : Nat) : Bool := n != 0 && Nat.pow 2 (Nat.log2 n) == n

/-- Number of elements in so many bytes, as 32 bits hold it: whole elements, and a power of two. -/
def vectorCount (bytes : Int) (elementBytes : Nat) : Except Cause Nat :=
  if bytes ≤ 0 ∨ elementBytes = 0 ∨ bytes.toNat % elementBytes ≠ 0 then .error .vectorSize
  else
    let count := bytes.toNat / elementBytes
    if count < Nat.pow 2 32 && isPowerOfTwo count then .ok count else .error .vectorCount

/-- Vector of so many bytes; its elements are integers or floats. -/
def vectorOf (element : Ty) (bytes : Int) (span : Span) : Parse Ty := do
  let u ← unit
  let isScalar := (u.builtinKind? element).any fun b => b.isInteger || b.isFloating
  match (← measured element span).filter fun _ => isScalar with
  | none => fail (.vectorElement (u.describe element)) span
  | some e =>
    match vectorCount bytes e.bytes with
    | .error cause => fail cause span
    | .ok count => intern (.vector element count .generic)

/-- The type with the qualifiers written behind a pointer operator. -/
def qualified (shape : Shape) (q : Qualifiers) : Parse Ty := do
  let t ← intern shape
  build (·.qualify t q)

/-- One step; `traits` are those of a function. -/
def derive (span : Span) (traits : FunctionTraits) (t : Ty) : Derivation → Parse Ty
  | .pointer q => qualified (.pointer t) q
  | .blockPointer q => qualified (.blockPointer t) q
  | .lvalueRef => intern (.lvalueRef t)
  | .rvalueRef => intern (.rvalueRef t)
  | .memberPointer owner q => qualified (.memberPointer t owner) q
  | .array bound => do
    if (← unit).isFunction t then fail .arrayOfFunctions span
    match bound with
    | .constant size => intern (.constantArray t size)
    | .incomplete => intern (.incompleteArray t)
    | .variable => intern (.variableArray t)
  | .function params variadic => do
    checkResult t span
    intern (.prototype t params variadic traits)
  | .noPrototype => do
    checkResult t span
    intern (.noPrototype t traits)

/-- All steps; only the last function among them has the given traits. -/
def deriveAll (span : Span) (traits : FunctionTraits) : Ty → List Derivation → Parse Ty
  | t, [] => return t
  | t, d :: rest => do
    let own := if d.isFunction && !rest.any Derivation.isFunction then traits else {}
    deriveAll span traits (← derive span own t d) rest

/-- The type of a declarator behind a type. -/
def declaredType (base : Ty) (d : Declarator) (attributes : Attributes) : Parse Ty := do
  let t ←
    match attributes.vectorSize with
    | some (bytes, span) => vectorOf base bytes span
    | none => pure base
  deriveAll d.span attributes.traits t d.derivations

/-- The type of a parameter: arrays and functions become pointers. -/
def adjustParameter (t : Ty) : Parse Ty := do
  match (← unit).canonicalShape? t with
  | some (.constantArray element _) | some (.incompleteArray element) | some (.variableArray element) =>
    intern (.pointer element)
  | some (.prototype _ _ _ _) | some (.noPrototype _ _) => intern (.pointer t)
  | _ => return t

end Cognate.Grammar
