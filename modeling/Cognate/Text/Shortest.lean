import Cognate.Number.FloatFormat
import Cognate.Number.Limbs

/-! # Shortest decimal text

The fewest decimal digits that read back as the same float. A float stands for every real number that rounds to it;
of the decimal numbers of the fewest digits among them, the nearest is chosen, and of two equally near ones the
greater. -/

namespace Cognate.Text

/-- Digits of a decimal fraction `0.d₁d₂…` times a power of ten. -/
structure DecimalDigits where
  digits : List Char
  /-- Position of the point, counted from the first digit to the right. -/
  point : Int
deriving Repr

/-- A positive number, and the reals that round to it: `value`, `low` and `high` over one denominator. -/
structure RoundingInterval where
  low : Nat
  value : Nat
  high : Nat
  denominator : Nat
  /-- Both ends round to the value. -/
  closed : Bool

namespace RoundingInterval

/-- The reals that round to `significand * 2 ^ exponent`. Below a power of two the floats stand twice as close. -/
def ofFloat (f : FloatFormat) (significand : Nat) (exponent : Int) : RoundingInterval :=
  let step := if significand == Nat.pow 2 f.fractionBits && exponent != 1 - f.bias - f.fractionBits then 1 else 2
  let up := (exponent - 2).toNat
  let down := (2 - exponent).toNat
  { low := (4 * significand - step) * Nat.pow 2 up
    value := 4 * significand * Nat.pow 2 up
    high := (4 * significand + 2) * Nat.pow 2 up
    denominator := Nat.pow 2 down
    closed := significand % 2 == 0 }

/-- `n * 10 ^ scale` times the denominator, over `10 ^ -scale` for a negative scale. -/
def scaled (scale : Int) (n : Nat) : Nat := n * Nat.pow 10 scale.toNat

/-- `n * 10 ^ scale` rounds to the value. -/
def holds (i : RoundingInterval) (n : Nat) (scale : Int) : Bool :=
  let point := scaled scale (n * i.denominator)
  let low := scaled (-scale) i.low
  let high := scaled (-scale) i.high
  if i.closed then low ≤ point && point ≤ high else low < point && point < high

/-- The multiples of `10 ^ scale` that round to the value: the better of the two around it, if one of them does. -/
def onGrid (i : RoundingInterval) (scale : Int) : Option Nat :=
  let unit := scaled scale i.denominator
  let value := scaled (-scale) i.value
  let below := value / unit
  let nearerBelow := 2 * (value % unit) < unit
  match i.holds below scale, i.holds (below + 1) scale with
  | true, true => some (if nearerBelow then below else below + 1)
  | true, false => some below
  | false, true => some (below + 1)
  | false, false => none

/-- The least `k` with the value below `10 ^ k`, if it is among the `fuel` numbers from `k` on. -/
def magnitudeFrom (i : RoundingInterval) (k : Int) : Nat → Int
  | 0 => k
  | fuel + 1 =>
    if scaled (-k) i.value < scaled k i.denominator then k else magnitudeFrom i (k + 1) fuel

/-- The first grid, from `digits` digits on, with a point that rounds to the value. -/
def shortestFrom (i : RoundingInterval) (magnitude : Int) (digits : Nat) : Nat → Nat × Int
  | 0 => (0, 0)
  | fuel + 1 =>
    let scale := magnitude - digits
    match i.onGrid scale with
    | some n => (n, scale)
    | none => shortestFrom i magnitude (digits + 1) fuel

end RoundingInterval

/-- The digits of a number without the zeros at its end. -/
def dropZeros (digits : List Char) : List Char := (digits.reverse.dropWhile (· == '0')).reverse

/-- The shortest digits of a positive float. An estimate from the length of the significand starts the search for the
magnitude. -/
def shortestDigits (f : FloatFormat) (significand : Nat) (exponent : Int) : DecimalDigits :=
  let interval := RoundingInterval.ofFloat f significand exponent
  let estimate := (exponent + Nat.log2 significand) * 1233 / 4096 - 1
  let magnitude := interval.magnitudeFrom estimate 8
  let (n, scale) := interval.shortestFrom magnitude 1 40
  let all := Nat.toDigits 10 n
  ⟨dropZeros all, scale + all.length⟩

namespace DecimalDigits

/-- Positional text: zeros fill up to the point; no point in a whole number. -/
def positional (d : DecimalDigits) : List Char :=
  if d.point ≤ 0 then '0' :: '.' :: List.replicate (-d.point).toNat '0' ++ d.digits
  else
    let whole := d.point.toNat
    if d.digits.length ≤ whole then d.digits ++ List.replicate (whole - d.digits.length) '0'
    else d.digits.take whole ++ '.' :: d.digits.drop whole

/-- Scientific text: one digit in front of the point, and no point behind a single digit. -/
def scientific (d : DecimalDigits) : List Char :=
  let mantissa :=
    match d.digits with
    | [] => ['0']
    | [c] => [c]
    | c :: cs => c :: '.' :: cs
  mantissa ++ 'e' :: (toString (d.point - 1)).toList

end DecimalDigits

/-- How a float is written: when in scientific notation, and what a whole number ends in. -/
structure FloatStyle where
  scientific : DecimalDigits → Bool
  wholeEnd : String

/-- Every number is written positionally. -/
def FloatStyle.plain : FloatStyle := ⟨fun _ => false, ""⟩

/-- From 10 ^ 16 on and below 10 ^ -4 scientific, otherwise with at least one digit behind the point. -/
def FloatStyle.listing : FloatStyle := ⟨fun d => d.point > 16 || d.point < -3, ".0"⟩

/-- The shortest text of a float in a style. -/
def shortest (style : FloatStyle) (f : FloatFormat) (bits : Nat) : String :=
  match f.value bits with
  | .nan _ => "NaN"
  | .infinite negative => (if negative then "-" else "") ++ "inf"
  | .finite negative significand exponent =>
    let sign := if negative then "-" else ""
    if significand == 0 then sign ++ "0" ++ style.wholeEnd
    else
      let d := shortestDigits f significand exponent
      if style.scientific d then sign ++ String.ofList d.scientific
      else
        let wholeEnd := if (d.digits.length : Int) ≤ d.point then style.wholeEnd else ""
        sign ++ String.ofList d.positional ++ wholeEnd

end Cognate.Text
