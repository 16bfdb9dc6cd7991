import Cognate.Builtin

/-! # Targets

The widths and alignments that one compiler gives the builtin types and pointers. All are in bits. -/

namespace Cognate

/-- Width and alignment of a type, in bits. -/
structure Extent where
  width : Nat
  align : Nat
deriving DecidableEq, Repr, Inhabited

/-- Width in whole bytes, rounded up. -/
def Extent.bytes (e : Extent) : Nat := (e.width + 7) / 8

/-- The least number no word of 64 bits can hold. -/
def wordLimit : Nat := Nat.pow 2 64

/-- A number, if a word of 64 bits can hold it. -/
def word? (n : Nat) : Option Nat := if n < wordLimit then some n else none

theorem word?_eq_some {n m : Nat} : word? n = some m ↔ n = m ∧ n < wordLimit := by
  unfold word?; split <;> simp_all; omega

/-- Layout of the builtin types and of pointers on one machine. -/
structure Target where
  name : String
  charIsSigned : Bool
  wcharIsSigned : Bool
  pointer : Extent
  bool : Extent
  char : Extent
  short : Extent
  int : Extent
  long : Extent
  longLong : Extent
  /-- Absent where the machine has no such type. -/
  int128 : Option Extent
  half : Extent
  float : Extent
  double : Extent
  longDouble : Extent
  wchar : Extent
  char16 : Extent
  char32 : Extent
deriving DecidableEq, Repr, Inhabited

namespace Target

/-- Wide longs and pointers. -/
def lp64 : Target where
  name := "lp64"
  charIsSigned := true
  wcharIsSigned := true
  pointer := ⟨64, 64⟩
  bool := ⟨8, 8⟩
  char := ⟨8, 8⟩
  short := ⟨16, 16⟩
  int := ⟨32, 32⟩
  long := ⟨64, 64⟩
  longLong := ⟨64, 64⟩
  int128 := some ⟨128, 128⟩
  half := ⟨16, 16⟩
  float := ⟨32, 32⟩
  double := ⟨64, 64⟩
  longDouble := ⟨128, 128⟩
  wchar := ⟨32, 32⟩
  char16 := ⟨16, 16⟩
  char32 := ⟨32, 32⟩

/-- Everything but `long long` and the floating types in words of 32 bits; nothing aligned beyond them. -/
def ilp32 : Target :=
  { lp64 with
    name := "ilp32"
    pointer := ⟨32, 32⟩
    long := ⟨32, 32⟩
    longLong := ⟨64, 32⟩
    int128 := none
    double := ⟨64, 32⟩
    longDouble := ⟨96, 32⟩ }

/-- Wide pointers, narrow longs. -/
def llp64 : Target :=
  { lp64 with
    name := "llp64"
    wcharIsSigned := false
    long := ⟨32, 32⟩
    longDouble := ⟨64, 64⟩
    wchar := ⟨16, 16⟩ }

/-- Everything wider than a byte is aligned to 16 bits. -/
def m68k : Target where
  name := "m68k"
  charIsSigned := true
  wcharIsSigned := true
  pointer := ⟨32, 16⟩
  bool := ⟨8, 8⟩
  char := ⟨8, 8⟩
  short := ⟨16, 16⟩
  int := ⟨32, 16⟩
  long := ⟨32, 16⟩
  longLong := ⟨64, 16⟩
  int128 := none
  half := ⟨16, 16⟩
  float := ⟨32, 16⟩
  double := ⟨64, 16⟩
  longDouble := ⟨96, 16⟩
  wchar := ⟨32, 16⟩
  char16 := ⟨16, 16⟩
  char32 := ⟨32, 16⟩

/-- The machine whose bytes are read: wide longs and pointers, signed characters. -/
def host : Target := { lp64 with name := "host" }

def presets : List Target := [lp64, ilp32, llp64, m68k, host]

/-- The preset of that name. -/
def named? (name : String) : Option Target := presets.find? (·.name == name)

/-- The kind that plain `char` has. -/
def plainChar (t : Target) : Builtin := if t.charIsSigned then .charS else .charU

/-- The kind that `wchar_t` has. -/
def wcharKind (t : Target) : Builtin := if t.wcharIsSigned then .wcharS else .wcharU

/-- Layout of a builtin; `void` has none. -/
def extent (t : Target) : Builtin → Option Extent
  | .void => none
  | .bool => some t.bool
  | .charU | .uchar | .charS | .schar => some t.char
  | .wcharU | .wcharS => some t.wchar
  | .char16 => some t.char16
  | .char32 => some t.char32
  | .ushort | .short => some t.short
  | .uint | .int => some t.int
  | .ulong | .long => some t.long
  | .ulongLong | .longLong => some t.longLong
  | .uint128 | .int128 => t.int128
  | .half => some t.half
  | .float => some t.float
  | .double => some t.double
  | .longDouble => some t.longDouble
  | .nullPtr => some t.pointer

end Target
end Cognate
