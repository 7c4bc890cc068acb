import Reckon.Number.Rounding

/-!
# Doubles

A double is a 64-bit floating-point number. The nonnegative ones are counted by their
rank : rank `0` is zero and each next rank is the next larger double, up to infinity. The
rank is the bit pattern without the sign bit. `Double.units` gives the value of a rank as a
whole number of units, one unit being the smallest positive double `2 ^ -1074`.

`nearestRank n d` is the rank nearest to `n / d` units, the even one of two, and infinity
from the point on where that is nearest; every operation rounds with it.
-/

namespace Reckon

-- Powers are those of core, also where there are others, and so exponents need their type.
attribute [local instance (high)] instPowNat

/-- The rank of infinity. -/
def infinityRank : Nat := 0x7FF0000000000000

/-- A 64-bit floating-point number. -/
inductive Double where
  /-- A finite number by its sign and rank. -/
  | finite (negative : Bool) (rank : Fin infinityRank)
  /-- An infinity. -/
  | infinite (negative : Bool)
  /-- The result of an operation without a value. -/
  | nan
  deriving DecidableEq, Repr

namespace Double

/-- The value of a rank in units of `2 ^ -1074`. -/
def units (rank : Nat) : Nat :=
  if rank < 2 ^ (52 : Nat) then rank
  else (2 ^ (52 : Nat) + rank % 2 ^ (52 : Nat)) * 2 ^ (rank / 2 ^ (52 : Nat) - 1)

/-- The number of units in one. -/
def unitsOfOne : Nat := 2 ^ (1074 : Nat)

/-- The rank nearest to `n / d` units, the even one of two. -/
def nearestRank (n d : Nat) : Nat :=
  let k := (n / d).log2 - 52
  min (k * 2 ^ (52 : Nat) + roundHalfEven n (d * 2 ^ k)) infinityRank

/-- The double with a sign and a rank; ranks from infinity's on are infinite. -/
def ofRank (negative : Bool) (rank : Nat) : Double :=
  if h : rank < infinityRank then .finite negative ⟨rank, h⟩ else .infinite negative

/-- The double nearest to `± n / d`. -/
def ofRatio (negative : Bool) (n d : Nat) : Double :=
  ofRank negative (nearestRank (n * unitsOfOne) d)

/-- Zero of either sign. -/
def zero (negative : Bool) : Double := .finite negative ⟨0, by decide⟩

/-- The number one. -/
def one : Double := .finite false ⟨0x3FF0000000000000, by decide⟩

/-- The bit pattern; all missing numbers share one. -/
def bits : Double → Nat
  | .nan => 0x7FF8000000000000
  | .infinite s => infinityRank + (if s then 2 ^ (63 : Nat) else 0)
  | .finite s r => r.val + (if s then 2 ^ (63 : Nat) else 0)

/-! ## Order -/

/-- The signed rank; no number has none. -/
def key : Double → Option Int
  | .nan => none
  | .infinite s => some (if s then -(infinityRank : Int) else infinityRank)
  | .finite s r => some (if s then -(r.val : Int) else r.val)

/-- The double is a number. -/
def isNumber (x : Double) : Bool := x.key.isSome

/-- `x` is less than `y`. A missing number is not less than anything nor anything than it,
and the two zeros are equal. -/
def less (x y : Double) : Bool :=
  match x.key, y.key with
  | some a, some b => decide (a < b)
  | _, _ => false

/-! ## Arithmetic -/

/-- The number with the sign bit flipped. -/
def negate : Double → Double
  | .nan => .nan
  | .infinite s => .infinite (!s)
  | .finite s r => .finite (!s) r

/-- The value of a finite double in units. -/
def signedUnits (negative : Bool) (rank : Nat) : Int :=
  if negative then -(units rank : Int) else units rank

/-- The sum, rounded once. A zero sum is negative only if both operands are. -/
def add : Double → Double → Double
  | .nan, _ => .nan
  | _, .nan => .nan
  | .infinite s, .infinite t => if s = t then .infinite s else .nan
  | .infinite s, .finite .. => .infinite s
  | .finite .., .infinite t => .infinite t
  | .finite s r, .finite t q =>
    let total := signedUnits s r + signedUnits t q
    if total = 0 then zero (s && t)
    else ofRank (decide (total < 0)) (nearestRank total.natAbs 1)

/-- The remainder of the quotient cut to a whole number; it has the sign of `x`. An
infinite dividend and a zero divisor leave none. -/
def remainder : Double → Double → Double
  | .finite s r, .finite _ q =>
    if q.val = 0 then .nan else ofRank s (nearestRank (units r % units q) 1)
  | .finite s r, .infinite _ => .finite s r
  | _, _ => .nan

/-- The square root, rounded once; a negative number has none, a zero is its own root. -/
def squareRoot : Double → Double
  | .nan => .nan
  | .infinite s => if s then .nan else .infinite false
  | .finite s r =>
    if r.val = 0 then zero s
    else if s then .nan
    else
      let n := units r * unitsOfOne
      let root := rootFloor n
      if root * root = n then ofRank false (nearestRank root 1)
      else ofRank false (nearestRank (2 * root + 1) 2)

/-- The number is an odd integer. -/
def isOddInteger : Double → Bool
  | .finite _ r => units r % unitsOfOne == 0 && units r / unitsOfOne % 2 == 1
  | _ => false

/-- The number is an integer. -/
def isInteger : Double → Bool
  | .finite _ r => units r % unitsOfOne == 0
  | _ => false

theorem less_irrefl (x : Double) : x.less x = false := by
  cases x <;> simp [less, key]

end Double

end Reckon
