import Reckon.Number.Decimal
import Reckon.Number.Rounding
import Reckon.Number.Signal

/-!
# Fixed-point notation

`Decimal.fixed d places` writes a decimal with a fixed number of places, rounded to the
nearest, halves to the even digit. The sign of the number is kept even if it rounds to
zero. A negative number of places rounds to tens, hundreds and so on, and writes zeros in
their place.
-/

namespace Reckon.Decimal

-- Powers are those of core, also where there are others.
attribute [local instance (high)] instPowNat

/-- The places of a result in fixed-point notation. -/
def resultPlaces : Int := 50

/-- The number of digits in front of the point, at least one. -/
def wholeDigits (coefficient : Nat) (exponent : Int) : Int :=
  max (adjusted coefficient exponent + 1) 1

/-- The number of units of `10 ^ place` nearest to `c · 10 ^ e`. -/
def unitsAt (place : Int) (c : Nat) (e : Int) : Nat :=
  if c = 0 then 0
  else if place ≤ e then c * 10 ^ (e - place).toNat
  else if (digitCount c : Int) < place - e then 0
  else roundHalfEven c (10 ^ (place - e).toNat)

/-- The power of ten of the last place that is written. A unit of that place is itself a
decimal with an exponent in a range : too many places are cut, too few are an overflow. -/
def lastPlace (places : Int) : Except Signal Int :=
  if 2000054 < places ∨ places < -2000054 then .error .invalidOperation
  else if places < -999999 then .error .overflow
  else .ok (max (-places) (-1000026))

/-- The decimal with a fixed number of places. -/
def fixed (d : Decimal) (places : Int) : Except Signal Text :=
  match d with
  | .nan .. => .ok "NaN"
  | .infinite s => .ok (if s then "-Inf" else "+Inf")
  | .finite s c e => do
    let digits := wholeDigits c e + places + 1
    if digits < 1 ∨ 999999999999999999 < digits then throw .precisionRange
    let place ← lastPlace places
    let n := unitsAt place c e
    let ds := digitsOf n
    return signText s ++
      if n = 0 ∧ 0 ≤ place then Text.ofDigits [0] else pointed ds (ds.length + place)

end Reckon.Decimal
