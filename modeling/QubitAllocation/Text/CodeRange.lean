/-!
# Ranges of characters

A property of characters is given by ranges of code points.
-/

namespace QubitAllocation.Text

/-- The code points from `first` to `last`. -/
structure CodeRange where
  first : Nat
  last : Nat
  deriving DecidableEq, Repr

/-- The code point lies in a range. -/
def CodeRange.contains (r : CodeRange) (n : Nat) : Bool := r.first ≤ n && n ≤ r.last

/-- The character lies in one of some ranges. -/
def liesIn (ranges : List CodeRange) (c : Char) : Bool := ranges.any (·.contains c.toNat)

end QubitAllocation.Text
