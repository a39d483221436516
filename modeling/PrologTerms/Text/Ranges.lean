/-!
# Sets of characters given by ranges

A property of characters is kept as a list of ranges of code points, both ends included.
-/

namespace PrologTerms

/-- A set of code points, as ranges with both ends included. -/
abbrev Ranges := List (Nat × Nat)

/-- Is the character in one of the ranges? -/
def Ranges.contains (rs : Ranges) (c : Char) : Bool :=
  rs.any fun r => r.1 ≤ c.toNat && c.toNat ≤ r.2

end PrologTerms
