import Reckon.Number.Double.Basic

/-!
# Powers

The power of two doubles is worked out by a library, which follows the floating-point rules
for the special cases : `x ^ 0` and `1 ^ y` are one for every operand, a power of an infinity or
to an infinity is exact, and a negative base has a power only for integers. Otherwise the rank of
the power is that of the positive base, rounded as the library rounds it (`Sizes`). The library
refuses a power that overflows, one of zero that is infinite, and one that is no number
(`PowerFault`), and `handled` puts the double in its place that the rules give, so that every two
doubles have a power.
-/

namespace Reckon

/-- Why the library gives no power. -/
inductive PowerFault where
  /-- The power is larger than all doubles. -/
  | overflow
  /-- There is no power, or it is that of a zero and infinite. -/
  | domain
  deriving DecidableEq, Repr

/-- How a library rounds : the rank of the power of a positive finite base by the rank of the base
and the sign and the rank of the exponent. Ranks from infinity's on are an overflow. -/
abbrev Sizes := Nat → Bool → Nat → Nat

namespace Double

/-- The rank of one. -/
def rankOfOne : Nat := 0x3FF0000000000000

/-- The sign bit; a missing number has none. -/
def negative : Double → Bool
  | .nan => false
  | .infinite s => s
  | .finite s _ => s

/-- The size of the number leaves one when it is divided by two. -/
def leavesOne : Double → Bool
  | .finite _ r => units r % (2 * unitsOfOne) == unitsOfOne
  | _ => false

/-- A power with a sign and a rank, unless it overflows. -/
def checked (sign : Bool) (rank : Nat) : Except PowerFault Double :=
  if h : rank < infinityRank then .ok (.finite sign ⟨rank, h⟩) else .error .overflow

/-- The power as the library works it out. -/
def libraryPower (size : Sizes) (x y : Double) : Except PowerFault Double :=
  if y = zero false ∨ y = zero true ∨ x = one then .ok one
  else
    match x, y with
    | .nan, _ => .ok .nan
    | _, .nan => .ok .nan
    | .infinite _, .infinite t => .ok (if t then zero false else .infinite false)
    | .finite _ r, .infinite t =>
      if r.val = rankOfOne then .ok one
      else .ok (if decide (rankOfOne < r.val) == t then zero false else .infinite false)
    | .infinite s, .finite t q =>
      let sign := s && leavesOne (.finite t q)
      .ok (if t then zero sign else .infinite sign)
    | .finite s r, .finite t q =>
      let sign := s && leavesOne (.finite t q)
      if r.val = 0 then (if t then .error .domain else .ok (zero sign))
      else if s && !isInteger (.finite t q) then .error .domain
      else checked sign (if r.val = rankOfOne then rankOfOne else size r t q)

/-- The power of the library, and what stands for one that it refuses : an infinity for an overflow,
negative for an odd power of a negative base, an infinity for a power of zero, with the sign of the
zero for an odd power, and otherwise no number. -/
def handled (x y : Double) : Except PowerFault Double → Double
  | .ok z => z
  | .error .overflow => .infinite (x.less (zero false) && y.isOddInteger)
  | .error .domain =>
    if x = zero false ∨ x = zero true then
      if y.isOddInteger then .infinite x.negative else .infinite false
    else .nan

/-- The power, with the rounding of a library. -/
def powerWith (size : Sizes) (x y : Double) : Double := handled x y (libraryPower size x y)

end Double

end Reckon
