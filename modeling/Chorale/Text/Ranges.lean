/-!
# Sets of characters as ranges

A property of characters is kept as the list of its ranges, each with its first and last code
point.
-/

namespace Chorale.Text

/-- Ranges of code points, each with its first and last member. -/
abbrev Ranges := List (Nat × Nat)

/-- Whether a range contains the character. -/
def Ranges.contain (ranges : Ranges) (c : Char) : Bool :=
  ranges.any fun range => range.1 ≤ c.toNat && c.toNat ≤ range.2

end Chorale.Text
