import Cognate.Source.Span
import Cognate.Shape
import Cognate.Token.Basic
import Cognate.TypeFault

/-! # Faults of a declaration text

Why a text is refused, and where. `Cause.kind` sorts the causes by the stage that finds them. -/

namespace Cognate

/-- The stage that refuses a text. -/
inductive FaultKind where
  | lexical | syntactic | semantic | typing
deriving DecidableEq, Repr

/-- Why a text is refused. `found` is the token that stands where another one should. -/
inductive Cause where
  -- characters
  | strayText (text : String)
  | badInteger (text : String)
  | badCharacter (text : String)
  -- order of tokens
  | expected (mark : Punct) (found : Token)
  | expectedName (found : Token)
  | expectedDeclaredName (found : Token)
  | expectedType (found : Token)
  | expectedTag (tag : Tag)
  | expectedAttribute (found : Token)
  | expectedConstant (found : Token)
  | expectedBody
  | trailing (found : Token)
  | wordAfterType (found : Token)
  | severalTypes
  | bothSigns
  | badCombination (words : List String)
  | unterminatedRecord (tag : Tag)
  | unterminatedGroup (opening : Token)
  | unterminatedInitializer
  -- meaning
  | typedefInTypeName
  | complexUnsupported (element : Builtin)
  | bitField
  | duplicateMember (name : String)
  | enumeratorNotConstant (name : String)
  | enumeratorOverflow (name : String)
  | enumeratorsTooWide
  | enumeratorOutOfRange (value : Int) (base : Builtin)
  | wrongTag (name : String) (found used : Tag)
  | unknownOwner (name : String)
  | arraySize (size : Int)
  | arrayOfFunctions
  | badResult (spelled : String)
  | vectorElement (spelled : String)
  | vectorSize
  | vectorCount
  | vectorNotConstant
  | notAVariable (name : String)
  | incompleteOperand (operator spelled : String)
  | overflow
  | divisionByZero
  | shiftAmount (amount : Int)
  -- definitions the unit refuses
  | type (fault : TypeFault)
  /-- The nesting allowance of a reader is used up; no text uses up the allowance that its length gives. -/
  | nestedTooDeep
deriving DecidableEq, Repr

namespace Cause

def kind : Cause → FaultKind
  | strayText _ | badInteger _ | badCharacter _ => .lexical
  | expected _ _ | expectedName _ | expectedDeclaredName _ | expectedType _ | expectedTag _ | expectedAttribute _
  | expectedConstant _ | expectedBody | trailing _ | wordAfterType _ | severalTypes | bothSigns | badCombination _
  | unterminatedRecord _ | unterminatedGroup _ | unterminatedInitializer | nestedTooDeep => .syntactic
  | type _ => .typing
  | _ => .semantic

/-- The cause in words. -/
def message : Cause → String
  | strayText text => s!"unexpected character '{text}'"
  | badInteger text => s!"invalid integer literal '{text}'"
  | badCharacter text => s!"invalid character constant {text}"
  | expected mark found => s!"expected {(Token.punct mark).describe}, found {found.describe}"
  | expectedName found => s!"expected identifier, found {found.describe}"
  | expectedDeclaredName found => s!"expected identifier in declarator, found {found.describe}"
  | expectedType found => s!"expected a type, found {found.describe}"
  | expectedTag tag => s!"expected {tag.spelling} name or body"
  | expectedAttribute found => s!"expected attribute name, found {found.describe}"
  | expectedConstant found => s!"expected constant expression, found {found.describe}"
  | expectedBody => "expected function body"
  | trailing found => s!"unexpected {found.describe} after type name"
  | wordAfterType found => s!"unexpected {found.describe} after a complete type"
  | severalTypes => "two or more data types in declaration specifiers"
  | bothSigns => "both 'signed' and 'unsigned' in declaration specifiers"
  | badCombination [] => "invalid type specifier combination: nothing"
  | badCombination words => "invalid type specifier combination: " ++ " ".intercalate words
  | unterminatedRecord tag => s!"unterminated {tag.spelling} body"
  | unterminatedGroup opening => s!"unterminated {opening.describe}"
  | unterminatedInitializer => "unterminated initializer"
  | typedefInTypeName => "'typedef' is not allowed in a type name"
  | complexUnsupported element => s!"'_Complex {element.spelling}' is not supported"
  | bitField => "bit-fields are not supported"
  | duplicateMember name => s!"duplicate member '{name}'"
  | enumeratorNotConstant name => s!"value of enumerator '{name}' is not an integer constant"
  | enumeratorOverflow name => s!"overflow in value of enumerator '{name}'"
  | enumeratorsTooWide => "enumerator values do not fit any integer type"
  | enumeratorOutOfRange value base => s!"enumerator value {value} is outside the range of '{base.spelling}'"
  | wrongTag name found used => s!"'{name}' declared as {found.spelling} but used as {used.spelling}"
  | unknownOwner name => s!"unknown class '{name}'"
  | arraySize size => s!"array size {size} is negative"
  | arrayOfFunctions => "array of functions"
  | badResult spelled => s!"function cannot return '{spelled}'"
  | vectorElement spelled => s!"invalid vector element type '{spelled}'"
  | vectorSize => "vector size is not a multiple of the element size"
  | vectorCount => "number of vector elements must be a power of two"
  | vectorNotConstant => "vector_size needs an integer constant"
  | notAVariable name => s!"'{name}' is not a declared variable"
  | incompleteOperand operator spelled => s!"invalid application of '{operator}' to incomplete type '{spelled}'"
  | overflow => "integer overflow in constant expression"
  | divisionByZero => "division by zero in constant expression"
  | shiftAmount amount => s!"invalid shift amount {amount}"
  | type fault => fault.message
  | nestedTooDeep => "nested too deep"

end Cause

/-- A refused text: why, and which bytes of it are at fault. -/
structure Fault where
  cause : Cause
  span : Span
deriving DecidableEq, Repr

/-- The cause in words, and the place behind it. -/
def Fault.text (f : Fault) : String := s!"{f.cause.message} (bytes {f.span.text})"

end Cognate
