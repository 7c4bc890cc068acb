import Reckon.Number.Elementary.Series

/-!
# Sine, cosine and tangent

An angle is first reduced to the first quarter turn. The quarter turn is known to 1100 bits
more than the result needs, which is enough for the largest double, whose reduction
multiplies its error by `2 ^ 1024`.
-/

namespace Reckon

-- Powers are those of core, also where there are others, and so exponents need their type.
attribute [local instance (high)] instPowNat

namespace Elementary

/-- The unit in which angles are reduced. -/
def fineUnit : Nat := 2 ^ (places + 1100)

/-- A quarter turn in the fine unit. -/
def fineQuarter : Nat := (quarterTurn fineUnit).toNat

/-- An angle of so many units as whole quarter turns and the rest of one. -/
def quarters (u : Nat) : Nat × Int :=
  let x := u * 2 ^ (places + 1100 - 1074)
  (x / fineQuarter, (x % fineQuarter / 2 ^ (1100 : Nat) : Nat))

/-- The sine of a number of quarter turns and a rest. -/
def sinAt (q : Nat) (r : Int) : Int :=
  match q % 4 with
  | 0 => sinSeries r
  | 1 => cosSeries r
  | 2 => -sinSeries r
  | _ => -cosSeries r

/-- The quotient of two numbers in fixed point, to the nearest double. -/
def ofQuotient (x y : Int) : Double :=
  Double.ofRatio (decide (x < 0) != decide (y < 0))
    (roundHalfEven x.natAbs (2 ^ guard)) (roundHalfEven y.natAbs (2 ^ guard))

/-- The sine. -/
def sin : Double → Double
  | .finite s r =>
    if r.val = 0 then .zero s
    else
      let a := quarters (Double.units r)
      ofFixed (if s then -sinAt a.1 a.2 else sinAt a.1 a.2)
  | _ => .nan

/-- The cosine. -/
def cos : Double → Double
  | .finite _ r =>
    let a := quarters (Double.units r)
    ofFixed (sinAt (a.1 + 1) a.2)
  | _ => .nan

/-- The tangent. -/
def tan : Double → Double
  | .finite s r =>
    if r.val = 0 then .zero s
    else
      let a := quarters (Double.units r)
      ofQuotient (if s then -sinAt a.1 a.2 else sinAt a.1 a.2) (sinAt (a.1 + 1) a.2)
  | _ => .nan

end Elementary

end Reckon
