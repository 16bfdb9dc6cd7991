/-! # Faults of types

Why a unit of declarations refuses a definition. -/

namespace Cognate

/-- A refused definition; texts are spelled types and names. A definition that asks for a layout may also stop where
measuring stops, which is no refusal: nothing is answered then. -/
inductive TypeFault where
  | redefinition (name : String)
  | incompleteField (record field : String)
  | notARecord (type : String)
  | notAnEnum (type : String)
  | invalidEnumBase (type : String)
  | conflictingTypes (name : String)
  | layoutOverflow (type : String)
  | stopped
deriving DecidableEq, Repr

namespace TypeFault

/-- The fault in words. -/
def message : TypeFault → String
  | redefinition name => s!"redefinition of '{name}'"
  | incompleteField record field => s!"field '{field}' of '{record}' has incomplete type"
  | notARecord type => s!"'{type}' is not a struct or union"
  | notAnEnum type => s!"'{type}' is not an enum"
  | invalidEnumBase type => s!"'{type}' cannot be the underlying type of an enum"
  | conflictingTypes name => s!"conflicting types for '{name}'"
  | layoutOverflow type => s!"'{type}' is too large to lay out"
  | stopped => "attempt to add with overflow"

end TypeFault
end Cognate
