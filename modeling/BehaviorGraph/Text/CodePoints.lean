/-
# Sets of code points

A set of characters is given by ranges of their code points, both ends included.  The tables of the
Unicode standard come in this form.
-/
namespace BehaviorGraph

/-- A set of characters. -/
structure CodePoints where
  /-- The first and the last code point of each range. -/
  ranges : List (Nat × Nat)

namespace CodePoints

/-- Whether a character is in the set. -/
def contains (set : CodePoints) (c : Char) : Bool :=
  set.ranges.any fun range => decide (range.1 ≤ c.toNat) && decide (c.toNat ≤ range.2)

end CodePoints

end BehaviorGraph
