/-! # Binary floating point

A floating-point number as its bits: a sign, a biased exponent, and a fraction. `FloatFormat.value` says which number
they stand for. -/

namespace Cognate

/-- What the bits of a float stand for: a sign and `significand * 2 ^ exponent`, or a special value. -/
inductive FloatValue (σ : Type) where
  | finite (negative : Bool) (significand : σ) (exponent : Int)
  | infinite (negative : Bool)
  | nan (negative : Bool)
deriving DecidableEq, Repr

namespace FloatValue

def map {σ τ : Type} (f : σ → τ) : FloatValue σ → FloatValue τ
  | finite negative significand exponent => finite negative (f significand) exponent
  | infinite negative => infinite negative
  | nan negative => nan negative

end FloatValue

/-- A binary interchange format: a sign bit above the exponent above the fraction. -/
structure FloatFormat where
  fractionBits : Nat
  exponentBits : Nat
deriving DecidableEq, Repr

namespace FloatFormat

def binary32 : FloatFormat := ⟨23, 8⟩

def binary64 : FloatFormat := ⟨52, 11⟩

def binary128 : FloatFormat := ⟨112, 15⟩

/-- Number of bits. -/
def width (f : FloatFormat) : Nat := 1 + f.exponentBits + f.fractionBits

/-- The stored exponent of the numbers between 1 and 2. -/
def bias (f : FloatFormat) : Nat := Nat.pow 2 (f.exponentBits - 1) - 1

/-- The stored exponent of infinities and of values that are no numbers. -/
def specialExponent (f : FloatFormat) : Nat := Nat.pow 2 f.exponentBits - 1

def fraction (f : FloatFormat) (bits : Nat) : Nat := bits % Nat.pow 2 f.fractionBits

/-- The stored exponent. -/
def exponent (f : FloatFormat) (bits : Nat) : Nat := bits / Nat.pow 2 f.fractionBits % Nat.pow 2 f.exponentBits

def sign (f : FloatFormat) (bits : Nat) : Bool := bits.testBit (f.fractionBits + f.exponentBits)

/-- The value of a bit pattern. The least exponent has no hidden bit. -/
def value (f : FloatFormat) (bits : Nat) : FloatValue Nat :=
  let negative := f.sign bits
  let fraction := f.fraction bits
  let stored := f.exponent bits
  if stored == f.specialExponent then if fraction == 0 then .infinite negative else .nan negative
  else if stored == 0 then .finite negative fraction (1 - f.bias - f.fractionBits)
  else .finite negative (Nat.pow 2 f.fractionBits + fraction) (stored - f.bias - f.fractionBits)

/-- Neither a number nor an infinity. -/
def isNan (f : FloatFormat) (bits : Nat) : Bool :=
  f.exponent bits == f.specialExponent && f.fraction bits != 0

/-- Either of the two zeros. -/
def isZero (f : FloatFormat) (bits : Nat) : Bool := f.exponent bits == 0 && f.fraction bits == 0

/-- Equality as numbers: the zeros are equal, and what is no number equals nothing. -/
def equal (f : FloatFormat) (a b : Nat) : Bool :=
  !f.isNan a && !f.isNan b && (a == b || (f.isZero a && f.isZero b))

/-! ## Widening -/

/-- The bits with these fields. -/
def assemble (f : FloatFormat) (negative : Bool) (exponent fraction : Nat) : Nat :=
  ((if negative then 1 else 0) * Nat.pow 2 f.exponentBits + exponent) * Nat.pow 2 f.fractionBits + fraction

/-- The bits in the wider format `g` of what bits of the format `f` stand for. A small number without a hidden bit has
one in the wider format. What is no number keeps its fraction and is quiet, which is the highest bit of a fraction. -/
def widen (f g : FloatFormat) (bits : Nat) : Nat :=
  let negative := f.sign bits
  let fraction := f.fraction bits
  let stored := f.exponent bits
  let shifted := fraction * Nat.pow 2 (g.fractionBits - f.fractionBits)
  if stored == f.specialExponent then
    g.assemble negative g.specialExponent
      (if fraction == 0 then 0 else shifted ||| Nat.pow 2 (g.fractionBits - 1))
  else if stored != 0 then g.assemble negative (stored + (g.bias - f.bias)) shifted
  else if fraction == 0 then g.assemble negative 0 0
  else
    let top := Nat.log2 fraction
    g.assemble negative (top + 1 + (g.bias - f.bias) - f.fractionBits)
      ((fraction - Nat.pow 2 top) * Nat.pow 2 (g.fractionBits - top))

/-- The bits in the format of sixty-four bits, in which all floats are written. -/
def toBinary64 (f : FloatFormat) (bits : Nat) : Nat := if f = binary64 then bits else f.widen binary64 bits

end FloatFormat
end Cognate
