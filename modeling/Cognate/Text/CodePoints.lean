/-! # Sets of code points

A set of characters is kept as the increasing list of code points at which membership changes. -/

namespace Cognate

/-- The code points at which membership changes, in increasing order; code point zero is outside. -/
structure CodePoints where
  flips : Array Nat

namespace CodePoints

/-- How many of `flips` from index `lo` up to `lo + span` are at most `n`, by halving the range. -/
def rank (flips : Array Nat) (n : Nat) : Nat → Nat → Nat → Nat
  | 0, lo, _ => lo
  | fuel + 1, lo, span =>
    if span = 0 then lo
    else
      let half := span / 2
      if flips.getD (lo + half) 0 ≤ n then rank flips n fuel (lo + half + 1) (span - half - 1)
      else rank flips n fuel lo half

/-- A character belongs to the set when an odd number of changes lie at or before it. -/
def contains (s : CodePoints) (c : Char) : Bool :=
  rank s.flips c.toNat s.flips.size 0 s.flips.size % 2 == 1

end CodePoints
end Cognate
