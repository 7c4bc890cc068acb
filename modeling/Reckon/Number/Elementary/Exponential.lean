import Reckon.Number.Elementary.Series

/-!
# Exponential and logarithm

The exponential of a double is worked out from a series for numbers between zero and one and from
powers of two, the logarithm from one for numbers between one and two.
-/

namespace Reckon

-- Powers are those of core, also where there are others.
attribute [local instance (high)] instPowNat

namespace Elementary

/-- The size of an exponent from which on an exponential overflows or vanishes. -/
def exponentBound : Int := 1100 * (unit : Int)

/-- The rank of the exponential of a number in fixed point; an overflow is the rank of infinity. -/
def expRank (x : Int) : Nat :=
  if exponentBound < x then infinityRank
  else if x < -exponentBound then 0
  else
    let k := x.fdiv logTwo
    mantissaRank (expSeries (x - k * logTwo)).toNat k

/-- The logarithm of a positive number of units, in fixed point. -/
def logOf (u : Nat) : Int :=
  let e := u.log2
  let z := (u - 2 ^ e) * unit / (u + 2 ^ e)
  ((e : Int) - 1074) * logTwo + 2 * artanhSeries z

/-- A double as a number in fixed point. -/
def fixedOf (negative : Bool) (rank : Nat) : Int :=
  Double.signedUnits negative rank * 2 ^ (places - 1074)

/-- The exponential; nothing if it overflows. -/
def exp : Double → Option Double
  | .nan => some .nan
  | .infinite s => some (if s then .zero false else .infinite false)
  | .finite s r =>
    let y := Double.ofRank false (expRank (fixedOf s r))
    if y = .infinite false then none else some y

/-- The natural logarithm of a number above zero. -/
def log : Double → Double
  | .finite _ r => ofFixed (logOf (Double.units r))
  | x => x

end Elementary

end Reckon
