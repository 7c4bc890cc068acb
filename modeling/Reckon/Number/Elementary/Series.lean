import Reckon.Number.Double.Basic

/-!
# Series in fixed point

A number is an integer count of `2 ^ -1300`, so every double is one exactly. The series of
the exponential, of the sine and cosine and of the logarithm are summed in such integers
until a term vanishes, each with an error of a few hundred counts. The last 200 bits are
rounded off before a result becomes a double (`mantissaRank`, `ofFixed`), so that a result
that is exactly a double or halfway between two is seen as such.
-/

namespace Reckon.Elementary

-- Powers are those of core, also where there are others.
attribute [local instance (high)] instPowNat

/-- The number of bits behind the binary point. -/
def places : Nat := 1300

/-- The number of bits that are rounded off at the end. -/
def guard : Nat := 200

/-- The number one. -/
def unit : Nat := 2 ^ places

/-- Terms added up to the first that vanishes, at most as many as the fuel says. -/
def sumTerms (next : Nat → Int → Int) : Nat → Nat → Int → Int
  | 0, _, _ => 0
  | fuel + 1, i, t => if t = 0 then 0 else t + sumTerms next fuel (i + 1) (next i t)

/-- Powers divided by the odd numbers and added up, to the first power that vanishes. -/
def sumOdd (next : Int → Int) : Nat → Nat → Int → Int
  | 0, _, _ => 0
  | fuel + 1, i, p => if p = 0 then 0 else p.tdiv (2 * i + 1) + sumOdd next fuel (i + 1) (next p)

/-- The exponential of a number between zero and one. -/
def expSeries (r : Int) : Int :=
  sumTerms (fun i t => (t * r).tdiv ((i + 1 : Nat) * unit)) 1000 0 unit

/-- The sine of a number between zero and two. -/
def sinSeries (r : Int) : Int :=
  sumTerms (fun i t => -(t * r * r).tdiv ((2 * i + 2 : Nat) * (2 * i + 3 : Nat) * (unit * unit)))
    1000 0 r

/-- The cosine of a number between zero and two. -/
def cosSeries (r : Int) : Int :=
  sumTerms (fun i t => -(t * r * r).tdiv ((2 * i + 1 : Nat) * (2 * i + 2 : Nat) * (unit * unit)))
    1000 0 unit

/-- Half the logarithm of `(1 + z) / (1 - z)`, for `z` between zero and a third. -/
def artanhSeries (z : Int) : Int :=
  sumOdd (fun p => (p * z * z).tdiv (unit * unit)) 1000 0 z

/-- The angle whose tangent is `1 / k`, as a count of `1 / one`. -/
def arctanInverse (one k : Nat) : Int :=
  sumOdd (fun p => -p.tdiv (k * k)) 1000 0 (one / k : Nat)

/-- The logarithm of two. -/
def logTwo : Int := 2 * artanhSeries (unit / 3 : Nat)

/-- A quarter turn as a count of `1 / one`. -/
def quarterTurn (one : Nat) : Int := 2 * (4 * arctanInverse one 5 - arctanInverse one 239)

/-- The rank nearest to `n · 2 ^ k`, for `n` in fixed point. -/
def mantissaRank (n : Nat) (k : Int) : Nat :=
  let shift := k - places + guard
  Double.nearestRank (roundHalfEven n (2 ^ guard) * 2 ^ shift.toNat * Double.unitsOfOne)
    (2 ^ (-shift).toNat)

/-- The double nearest to a number in fixed point. -/
def ofFixed (x : Int) : Double := Double.ofRank (decide (x < 0)) (mantissaRank x.natAbs 0)

end Reckon.Elementary
