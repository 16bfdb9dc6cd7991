/-! # Numerals

Digits of a radix up to sixteen, of either case, and the numbers they write. -/

namespace Cognate.Text

/-- The value of a digit, if the radix has it. -/
def digitValue? (radix : Nat) (c : Char) : Option Nat :=
  let value? : Option Nat :=
    if '0' ≤ c && c ≤ '9' then some (c.toNat - '0'.toNat)
    else if 'a' ≤ c && c ≤ 'f' then some (c.toNat - 'a'.toNat + 10)
    else if 'A' ≤ c && c ≤ 'F' then some (c.toNat - 'A'.toNat + 10)
    else none
  value?.filter (· < radix)

/-- The number that digits write behind `start`. -/
def numeralFrom (radix start : Nat) : List Char → Option Nat
  | [] => some start
  | c :: cs => (digitValue? radix c).bind fun d => numeralFrom radix (start * radix + d) cs

/-- The number that one or more digits write. -/
def numeral? (radix : Nat) (cs : List Char) : Option Nat :=
  if cs.isEmpty then none else numeralFrom radix 0 cs

/-- The number that digits write, a plus sign allowed in front, if it is below `limit`. -/
def signedNumeral? (radix limit : Nat) (cs : List Char) : Option Nat :=
  let digits :=
    match cs with
    | '+' :: rest => rest
    | _ => cs
  (numeral? radix digits).filter (· < limit)

end Cognate.Text
