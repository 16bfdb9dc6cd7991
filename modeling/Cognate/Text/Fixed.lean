import Cognate.Number.FloatFormat
import Cognate.Number.Limbs
import Cognate.Number.Rounding

/-! # Fixed-point text

A number with a fixed count of decimal places, correctly rounded from its exact value, ties to the even neighbour. The
sign of a zero shows. -/

namespace Cognate.Text

/-- The number of decimal places that values are shown with. -/
def places : Nat := 6

/-- The digits of a whole number in front of the last six, and these; zeros fill up on the left. -/
def splitPlaces (digits : List Char) : List Char × List Char :=
  let padded := Limbs.padZeros (places + 1) digits
  padded.splitAt (padded.length - places)

/-- The digits of a whole number with a point in front of the last six. -/
def withPoint (digits : List Char) : String :=
  let (whole, fraction) := splitPlaces digits
  String.ofList (whole ++ '.' :: fraction)

def minus (negative : Bool) : String := if negative then "-" else ""

/-- The number of millionths nearest to a value. -/
def millionths (significand : Nat) (exponent : Int) : Nat :=
  match exponent with
  | .ofNat up => significand * Nat.pow 10 places * Nat.pow 2 up
  | .negSucc down => roundHalfEven (significand * Nat.pow 10 places) (Nat.pow 2 (down + 1))

/-- The value with six decimal places. -/
def fixed : FloatValue Nat → String
  | .infinite negative => minus negative ++ "inf"
  | .nan negative => minus negative ++ "nan"
  | .finite negative significand exponent =>
    minus negative ++ withPoint (Nat.toDigits 10 (millionths significand exponent))

/-! ## From limbs -/

/-- The limbs of the number of millionths nearest to a value. -/
def limbMillionths (significand : Limbs) (exponent : Int) : Limbs :=
  let scaled := Limbs.mul (UInt64.ofNat (Nat.pow 10 places)) significand
  match exponent with
  | .ofNat up => Limbs.shiftLeft up scaled
  | .negSucc down => Limbs.shiftRightEven (down + 1) scaled

end Cognate.Text
