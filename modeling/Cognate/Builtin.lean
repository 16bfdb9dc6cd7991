/-! # Builtin types

The scalar types every unit can name. Plain `char` and `wchar_t` are two kinds each, one per signedness. -/

namespace Cognate

/-- The builtin kinds, in the order of `Builtin.all`. -/
inductive Builtin where
  | void | bool | charU | uchar | wcharU | char16 | char32 | ushort | uint | ulong | ulongLong | uint128
  | charS | schar | wcharS | short | int | long | longLong | int128
  | half | float | double | longDouble | nullPtr
deriving DecidableEq, Repr

namespace Builtin

def all : List Builtin :=
  [void, bool, charU, uchar, wcharU, char16, char32, ushort, uint, ulong, ulongLong, uint128,
   charS, schar, wcharS, short, int, long, longLong, int128, half, float, double, longDouble, nullPtr]

/-- Position in `all`. -/
def index (b : Builtin) : Nat := all.idxOf b

/-- Spelling in C. -/
def spelling : Builtin → String
  | void => "void" | bool => "_Bool" | charU | charS => "char" | uchar => "unsigned char"
  | wcharU | wcharS => "wchar_t" | char16 => "char16_t" | char32 => "char32_t"
  | ushort => "unsigned short" | uint => "unsigned int" | ulong => "unsigned long"
  | ulongLong => "unsigned long long" | uint128 => "unsigned __int128" | schar => "signed char"
  | short => "short" | int => "int" | long => "long" | longLong => "long long" | int128 => "__int128"
  | half => "__fp16" | float => "float" | double => "double" | longDouble => "long double"
  | nullPtr => "nullptr_t"

/-- Name in listings, one for each kind. -/
def label : Builtin → String
  | void => "Void" | bool => "Bool" | charU => "CharU" | uchar => "UChar" | wcharU => "WCharU"
  | char16 => "Char16" | char32 => "Char32" | ushort => "UShort" | uint => "UInt" | ulong => "ULong"
  | ulongLong => "ULongLong" | uint128 => "UInt128" | charS => "CharS" | schar => "SChar" | wcharS => "WCharS"
  | short => "Short" | int => "Int" | long => "Long" | longLong => "LongLong" | int128 => "Int128"
  | half => "Half" | float => "Float" | double => "Double" | longDouble => "LongDouble" | nullPtr => "NullPtr"

def isSigned : Builtin → Bool
  | charS | schar | wcharS | short | int | long | longLong | int128 => true
  | _ => false

def isUnsigned : Builtin → Bool
  | bool | charU | uchar | wcharU | char16 | char32 | ushort | uint | ulong | ulongLong | uint128 => true
  | _ => false

def isInteger (b : Builtin) : Bool := b.isSigned || b.isUnsigned

def isFloating : Builtin → Bool
  | half | float | double | longDouble => true
  | _ => false

theorem mem_all (b : Builtin) : b ∈ all := by
  cases b <;> decide

end Builtin
end Cognate
