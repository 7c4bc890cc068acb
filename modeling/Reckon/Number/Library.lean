import Reckon.Number.Power

/-!
# The library

Exponentials, logarithms, sines, cosines, tangents and powers of doubles are worked out by the
library of the platform, and how it rounds is left open. An inferred `Library` carries it, so that
what needs it does not name it. The library refuses an exponential that overflows, and it is not
asked for the logarithm of zero or of a number below it, or for a function of an infinite angle;
what stands for these is said here.
-/

namespace Reckon

/-- The functions of doubles that the platform provides. -/
class Library where
  /-- The exponential; nothing if it overflows. -/
  exp : Double → Option Double
  /-- The natural logarithm of a number above zero. -/
  log : Double → Double
  /-- The sine of an angle that is not infinite. -/
  sin : Double → Double
  /-- The cosine of an angle that is not infinite. -/
  cos : Double → Double
  /-- The tangent of an angle that is not infinite. -/
  tan : Double → Double
  /-- How powers are rounded. -/
  size : Sizes

namespace Double

/-- A function of angles, of which an infinite angle has no value. -/
def ofAngle (f : Double → Double) : Double → Double
  | .infinite _ => .nan
  | x => f x

variable [Library]

/-- The exponential; one that overflows is an infinity. -/
def exp (x : Double) : Double := (Library.exp x).getD (.infinite false)

/-- The natural logarithm; that of zero is minus infinity, and a number below zero has none. -/
def log (x : Double) : Double :=
  if x = zero false ∨ x = zero true then .infinite true
  else if x.less (zero false) then .nan
  else Library.log x

/-- The sine. -/
def sin : Double → Double := ofAngle Library.sin

/-- The cosine. -/
def cos : Double → Double := ofAngle Library.cos

/-- The tangent. -/
def tan : Double → Double := ofAngle Library.tan

/-- The power, as the library rounds it. -/
def power : Double → Double → Double := powerWith Library.size

end Double

end Reckon
