import Reckon.Number.Double.Basic
import Reckon.Number.Numeral

/-!
# Doubles and decimals

Every finite double is a decimal : a unit is `5 ^ 1074` units of the 1074th place.
`Double.toDecimal` writes it with the fewest places. `Double.ofDecimal` rounds a decimal
to the nearest double, the even one of two. A decimal whose first digit stands above
`10 ^ 310` or below `10 ^ -330` rounds to an infinity or a zero of its sign whatever
its digits are.
-/

namespace Reckon

-- Powers are those of core, also where there are others.
attribute [local instance (high)] instPowNat

namespace Double

/-- The exact value of a double. -/
def toDecimal : Double → Decimal
  | .nan => .missing
  | .infinite s => .infinite s
  | .finite s r =>
    let u := units r
    if u = 0 then .finite s 0 0
    else
      let common := Nat.gcd u unitsOfOne
      let places := (unitsOfOne / common).log2
      .finite s (u / common * 5 ^ places) (-(places : Int))

/-- The nearest double. -/
def ofDecimal : Decimal → Double
  | .nan .. => .nan
  | .infinite s => .infinite s
  | .finite s c e =>
    if c = 0 then zero s
    else
      let first := Decimal.adjusted c e
      if 310 < first then .infinite s
      else if first < -330 then zero s
      else ofRatio s (c * 10 ^ e.toNat) (10 ^ (-e).toNat)

end Double

namespace Decimal

/-- The decimal rounded to the nearest double. -/
def toNearestDouble (d : Decimal) : Decimal := (Double.ofDecimal d).toDecimal

/-- The decimal is signaling. -/
def isSignaling : Decimal → Bool
  | .nan _ signaling _ => signaling
  | _ => false

/-- The decimal as an operand of an operation on doubles, which a signaling one cannot be. -/
def toDouble (d : Decimal) : Except Signal Double :=
  if d.isSignaling then .error .signalingOperand else .ok (Double.ofDecimal d)

theorem isSignaling_toDecimal (x : Double) : x.toDecimal.isSignaling = false := by
  cases x with
  | nan => rfl
  | infinite s => rfl
  | finite s r =>
    simp only [Double.toDecimal]
    split <;> rfl

end Decimal

/-- How literals are read and results are written. -/
inductive Precision where
  /-- Numbers are doubles. -/
  | standard
  /-- Literals keep all their digits, and results have fifty places. -/
  | high
  deriving DecidableEq, Repr

/-- The number that a literal denotes : the nearest double, or with high precision the
number itself. -/
def SignedNumeral.read (precision : Precision) (n : SignedNumeral) : Except Signal Decimal :=
  match precision with
  | .standard => .ok n.written.toNearestDouble
  | .high => n.decimal

end Reckon
