/-!
Sets of characters, given as ranges of their numbers.
-/

namespace Treewalk.Text

/-- The number lies in one of the ranges, both ends included. -/
def inRanges (ranges : List (Nat × Nat)) (n : Nat) : Bool :=
  ranges.any fun (first, last) => first ≤ n && n ≤ last

end Treewalk.Text
