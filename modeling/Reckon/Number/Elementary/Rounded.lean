import Reckon.Number.Elementary.Exponential
import Reckon.Number.Elementary.Trigonometric
import Reckon.Number.Library

/-!
# The library with the nearest doubles

A library of which every function gives the double nearest to its value in fixed point. It is what
runs are done with.
-/

namespace Reckon

open Elementary

/-- The rank of the power of a positive finite base. -/
def Double.powerRank : Sizes := fun base negative exponent =>
  expRank ((logOf (Double.units base) * Double.signedUnits negative exponent).fdiv
    Double.unitsOfOne)

/-- The functions in fixed point, rounded to the nearest double. -/
abbrev Library.rounded : Library where
  exp := Elementary.exp
  log := Elementary.log
  sin := Elementary.sin
  cos := Elementary.cos
  tan := Elementary.tan
  size := Double.powerRank

end Reckon
