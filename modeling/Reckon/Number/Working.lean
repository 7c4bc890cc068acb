import Reckon.Number.Decimal
import Reckon.Number.Rounding
import Reckon.Number.Signal

/-!
# Working arithmetic

Arithmetic on decimals at 80 significant digits, halves going to the even neighbour, with
exponents up to 999999999999999999 in size. Operands are used as they are; each result is
settled once (`Decimal.settle`). Infinities and missing numbers follow the rules of
floating point : an operation without a value is `missing`, a result that is too small
becomes a zero of its sign, and a finite result that is too large is the one signal.

A sum of numbers far apart, an inexact quotient and an inexact root are settled from a
neighbour with a few more digits that rounds alike, so that no coefficient grows with the
distance of the exponents.
-/

namespace Reckon.Decimal

-- Powers are those of core, also where there are others, and so exponents need their type.
attribute [local instance (high)] instPowNat

/-- The number of digits that a settled coefficient keeps. -/
def workingDigits : Nat := 80

/-- The largest exponent of a first digit. -/
def largestExponent : Int := 999999999999999999

/-- The exponent of the smallest nonzero number. -/
def tinyExponent : Int := -1000000000000000078

/-- The nearest number with at most 80 digits and an exponent in range. -/
def settle (negative : Bool) (coefficient : Nat) (exponent : Int) : Except Signal Decimal :=
  let count := digitCount coefficient
  let excess := max ((count : Int) - workingDigits) (tinyExponent - exponent)
  if coefficient = 0 then .ok (.finite negative 0 exponent)
  else if (count : Int) < excess then .ok (.finite negative 0 tinyExponent)
  else
    let dropped := excess.toNat
    let rounded := roundHalfEven coefficient (10 ^ dropped)
    let carries := decide (10 ^ workingDigits ≤ rounded)
    let c := if carries then rounded / 10 else rounded
    let e := exponent + dropped + (if carries then 1 else 0)
    if c ≠ 0 ∧ largestExponent < adjusted c e then .error .overflow
    else .ok (.finite negative c e)

/-- The integer with a sign and a size. -/
def signed (negative : Bool) (n : Nat) : Int := if negative then -(n : Int) else n

theorem natAbs_signed (s : Bool) (n : Nat) : (signed s n).natAbs = n := by
  cases s <;> simp [signed]

theorem decide_signed_neg (s : Bool) {n : Nat} (h : 0 < n) : decide (signed s n < 0) = s := by
  cases s <;> simp [signed]
  omega

/-- The sum of two nonzero numbers of which the first has the larger exponent. A second
number below the last digit that can matter counts as one unit 83 places below the first. -/
def addLower (s : Bool) (c : Nat) (e : Int) (t : Bool) (d : Nat) (f : Int) :
    Except Signal Decimal :=
  let far := decide ((digitCount d : Int) + f + 83 ≤ e)
  let d' := if far then 1 else d
  let f' := if far then e - 83 else f
  let total := signed s (c * 10 ^ (e - f').toNat) + signed t d'
  settle (decide (total < 0)) total.natAbs f'

/-- The sum. Opposite infinities have none; a zero sum is negative only if both
operands are. -/
def sum : Decimal → Decimal → Except Signal Decimal
  | .nan .., _ => .ok missing
  | _, .nan .. => .ok missing
  | .infinite s, .infinite t => .ok (if s = t then .infinite s else missing)
  | .infinite s, .finite .. => .ok (.infinite s)
  | .finite .., .infinite t => .ok (.infinite t)
  | .finite s c e, .finite t d f =>
    if c = 0 ∧ d = 0 then .ok (.finite (s && t) 0 (min e f))
    else if d = 0 then settle s c e
    else if c = 0 then settle t d f
    else if f ≤ e then addLower s c e t d f
    else addLower t d f s c e

/-- The sum with the second operand negated. -/
def difference (a b : Decimal) : Except Signal Decimal := sum a b.negate

/-- The product. An infinity times a zero has none. -/
def product : Decimal → Decimal → Except Signal Decimal
  | .nan .., _ => .ok missing
  | _, .nan .. => .ok missing
  | .infinite s, .infinite t => .ok (.infinite (s != t))
  | .infinite s, .finite t d _ => .ok (if d = 0 then missing else .infinite (s != t))
  | .finite s c _, .infinite t => .ok (if c = 0 then missing else .infinite (s != t))
  | .finite s c e, .finite t d f => settle (s != t) (c * d) (e + f)

/-- The quotient by a divisor that is not zero. A finite number over an infinity is a
zero; two infinities have no quotient. -/
def quotient : Decimal → Decimal → Except Signal Decimal
  | .nan .., _ => .ok missing
  | _, .nan .. => .ok missing
  | .infinite _, .infinite _ => .ok missing
  | .infinite s, .finite t _ _ => .ok (.infinite (s != t))
  | .finite s _ _, .infinite t => .ok (.finite (s != t) 0 tinyExponent)
  | .finite s c e, .finite t d f =>
    let places := workingDigits + 2 + digitCount d - digitCount c
    let n := c * 10 ^ places
    let q := n / d
    if n % d = 0 then settle (s != t) q (e - f - places)
    else settle (s != t) (10 * q + 1) (e - f - places - 1)

/-- The largest whole number that is not above the given one. Whole numbers keep their
exponent, and a negative zero its sign. -/
def floor : Decimal → Decimal
  | .finite s c e =>
    if 0 ≤ e then .finite s c e
    else if digitCount c < (-e).toNat then .finite s (if s ∧ c ≠ 0 then 1 else 0) 0
    else
      let unit := 10 ^ (-e).toNat
      .finite s (if s then (c + unit - 1) / unit else c / unit) 0
  | d => d

/-- What is left of `a` after taking `b` as often as the floored quotient says. -/
def flooredRemainder (a b : Decimal) : Except Signal Decimal := do
  let q ← quotient a b
  let p ← product q.floor b
  difference a p

/-- The square root; a negative number has none. The root of a zero is a zero of its sign,
and an exact root keeps half of the exponent. -/
def squareRoot : Decimal → Except Signal Decimal
  | .nan .. => .ok missing
  | .infinite s => .ok (if s then missing else .infinite false)
  | .finite s c e =>
    let half := e.fdiv 2
    if c = 0 then .ok (.finite s 0 half)
    else if s then .ok missing
    else
      let n := if e % 2 = 0 then c else 10 * c
      let r := rootFloor n
      if r * r = n then settle false r half
      else settle false (10 * rootFloor (n * 10 ^ (162 : Nat)) + 1) (half - 82)

end Reckon.Decimal
