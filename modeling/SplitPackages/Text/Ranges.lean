/-!
# Ranges of characters

A class of characters is given by ranges of character numbers, both ends
included. The ranges of a table ascend and do not touch, so that each class has
one table.
-/

namespace SplitPackages.Text

/-- Whether one of the ranges holds the number. -/
def covers (ranges : List (Nat × Nat)) (n : Nat) : Bool :=
  ranges.any fun r => r.1 ≤ n && n ≤ r.2

end SplitPackages.Text
