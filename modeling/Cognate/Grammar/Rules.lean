import Cognate.Grammar.Cursor

/-! # What declarations are made of

The results of reading parts of a declaration, and the readers of the parts that contain one another. -/

namespace Cognate.Grammar

/-- The bound of an array. -/
inductive ArrayBound where
  | constant (size : Nat)
  | incomplete
  | variable
deriving DecidableEq, Repr

/-- One step from the type that a declaration starts with towards the declared type. -/
inductive Derivation where
  | pointer (qualifiers : Qualifiers)
  | blockPointer (qualifiers : Qualifiers)
  | lvalueRef
  | rvalueRef
  | memberPointer (owner : Ty) (qualifiers : Qualifiers)
  | array (bound : ArrayBound)
  | function (params : List Ty) (variadic : Bool)
  | noPrototype
deriving DecidableEq, Repr

def Derivation.isFunction : Derivation → Bool
  | function _ _ | noPrototype => true
  | _ => false

/-- A declared name, if any, and the steps to its type, the first one first. -/
structure Declarator where
  name : Option (String × Span)
  derivations : List Derivation
  span : Span
deriving Repr

/-- It declares a function: the last step is one. -/
def Declarator.isFunction (d : Declarator) : Bool := d.derivations.getLast?.any Derivation.isFunction

/-- Whether a declarator has a name. -/
inductive Naming where
  | named
  | abstract
  | either
deriving DecidableEq, Repr

/-- What attributes say about a type. -/
structure Attributes where
  /-- Bytes of a vector, and where they are asked for. -/
  vectorSize : Option (Int × Span) := none
  traits : FunctionTraits := {}
deriving DecidableEq, Repr

/-- Both together; where they disagree, the later ones count, but no convention is asked for by naming the usual
one. -/
def Attributes.merge (early late : Attributes) : Attributes where
  vectorSize := late.vectorSize <|> early.vectorSize
  traits :=
    { callConv := if late.traits.callConv = .cdecl then early.traits.callConv else late.traits.callConv
      isConst := early.traits.isConst || late.traits.isConst }

/-- What a declaration starts with. -/
structure Specifiers where
  isTypedef : Bool
  type : Ty
  attributes : Attributes
deriving Repr

/-- Readers of the parts that contain one another. A part that is read within another begins behind at least one token
of it. A constant expression is `none` where its value is not known. -/
structure Rules where
  typeName : Parse Ty
  specifiers : Parse Specifiers
  declarator : Naming → Parse Declarator
  constant : Parse (Option Int)
  /-- Operators that bind at least so tightly. -/
  binary : Nat → Parse (Option Int)
  unary : Parse (Option Int)

/-- Rules that allow for no part at all. -/
def Rules.none : Rules :=
  let refuse {α : Type} : Parse α := do fail .nestedTooDeep (← here)
  ⟨refuse, refuse, fun _ => refuse, refuse, fun _ => refuse, refuse⟩

/-! ## Layouts -/

/-- Layout of a type, if it has one. Where measuring stops, the reading ends. -/
def measured (t : Ty) (span : Span) : Parse (Option Extent) := do
  match (← unit).measure t with
  | .ok e => return e
  | .error _ => fail (.type .stopped) span

/-! ## Where types start -/

/-- A token that a type can start with: a word for types, or the name of a typedef. -/
def startsType (u : DeclUnit) : Token → Bool
  | .name text => (u.typedef? text).isSome
  | t => t.startsDeclaration

/-- The token that is looked at starts a type. -/
def atType : Parse Bool := return startsType (← unit) (← current).token

/-- An opening parenthesis stands here, and a type behind it. -/
def atParenthesizedType : Parse Bool := do
  if ← check (.punct .lparen) then return startsType (← unit) (← peek)
  return false

/-- A type name in parentheses, the opening one still ahead. -/
def parenthesizedType (rules : Rules) : Parse Ty := do
  let _ ← advance
  let t ← rules.typeName
  let _ ← expect .rparen
  return t

end Cognate.Grammar
