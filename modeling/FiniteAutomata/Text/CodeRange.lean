/-!
# Ranges of code points

A class of characters that a standard fixes is a list of ranges of code points.
-/

namespace FiniteAutomata

/-- The code points from `first` to `last`, both included. -/
structure CodeRange where
  first : Nat
  last : Nat
deriving DecidableEq, Repr

namespace CodeRange

/-- Whether the character lies in the range. -/
def contains (r : CodeRange) (c : Char) : Bool := r.first ≤ c.toNat && c.toNat ≤ r.last

/-- Whether the character lies in some range of the list. -/
def cover (ranges : List CodeRange) (c : Char) : Bool := ranges.any (·.contains c)

end CodeRange

end FiniteAutomata
