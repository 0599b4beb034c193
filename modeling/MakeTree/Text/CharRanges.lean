/-!
Sets of characters given by ranges of code points.
-/

namespace MakeTree

/-- Ranges of code points, both ends included, in ascending order. -/
abbrev CharRanges := List (Nat × Nat)

def CharRanges.contains (ranges : CharRanges) (c : Char) : Bool :=
  ranges.any fun r => r.1 ≤ c.toNat && c.toNat ≤ r.2

end MakeTree
