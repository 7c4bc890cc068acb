/-!
# Classes of code points as ranges

A class of code points is a list of closed ranges in increasing order. Membership stops
at the first range that ends at or after the code point.
-/

namespace Reckon

/-- Closed ranges of numbers, in increasing order and apart. -/
abbrev Ranges := List (Nat × Nat)

namespace Ranges

/-- The number lies in one of the ranges. -/
def has : Ranges → Nat → Bool
  | [], _ => false
  | (low, high) :: rest, n =>
    if n ≤ high then decide (low ≤ n) else has rest n

end Ranges

end Reckon
