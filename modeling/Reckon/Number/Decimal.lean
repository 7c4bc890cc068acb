import Reckon.Number.Digits

/-!
# Decimal numbers

A finite decimal is a sign, a coefficient and a power of ten. The three are kept as they
are written : `1.50` and `1.5` are different decimals of equal value, and a zero has a
sign and an exponent. `Decimal.text` is the scientific notation that keeps all three.

What is no number may still carry a sign and a diagnostic that were given with it, and it
may be signaling : then it cannot be taken for a double. Arithmetic only makes the plain
`Decimal.missing`.
-/

namespace Reckon

/-- A decimal number with its sign and exponent, an infinity, or no number at all. -/
inductive Decimal where
  /-- The number `± coefficient · 10 ^ exponent`. -/
  | finite (negative : Bool) (coefficient : Nat) (exponent : Int)
  /-- An infinity. -/
  | infinite (negative : Bool)
  /-- No number, with a sign, signaling or not, and a diagnostic, of which zero is none. -/
  | nan (negative signaling : Bool) (diagnostic : Nat)
  deriving DecidableEq, Repr

namespace Decimal

/-- The result of an operation without a value. -/
def missing : Decimal := .nan false false 0

/-- Zero without sign or places. -/
def zero : Decimal := .finite false 0 0

/-- The whole number as a decimal. -/
def ofInt (i : Int) : Decimal := .finite (decide (i < 0)) i.natAbs 0

/-- A zero of either sign. -/
def isZero : Decimal → Bool
  | .finite _ c _ => c == 0
  | _ => false

/-- The number with the opposite sign. -/
def negate : Decimal → Decimal
  | .finite s c e => .finite (!s) c e
  | .infinite s => .infinite (!s)
  | .nan s signaling d => .nan (!s) signaling d

/-- The exponent of the first digit. -/
def adjusted (coefficient : Nat) (exponent : Int) : Int :=
  exponent + (digitCount coefficient : Int) - 1

/-! ## Notation -/

/-- Digits with a point after the first `whole` of them; missing digits are zeros, and a
point stands only between digits. -/
def pointed (ds : List Digit) (whole : Int) : Text :=
  if whole ≤ 0 then
    Text.ofDigits [0] ++ CodePoint.ofChar '.' ::
      Text.ofDigits (List.replicate (-whole).toNat 0 ++ ds)
  else if ds.length ≤ whole.toNat then
    Text.ofDigits (ds ++ List.replicate (whole.toNat - ds.length) 0)
  else
    Text.ofDigits (ds.take whole.toNat) ++ CodePoint.ofChar '.' ::
      Text.ofDigits (ds.drop whole.toNat)

/-- A minus sign for a negative number. -/
def signText (negative : Bool) : Text :=
  if negative then [CodePoint.ofChar '-'] else []

/-- The decimal in scientific notation : plain if the exponent is at most zero and the first
digit stands no further than six places behind the point, else with one digit in front of
the point and a signed power of ten. A diagnostic stands behind the word for no number. -/
def text : Decimal → Text
  | .nan s signaling d =>
    signText s ++ (if signaling then Text.ofString "sNaN" else Text.ofString "NaN") ++
      (if d = 0 then [] else Text.ofNat d)
  | .infinite s => signText s ++ Text.ofString "Infinity"
  | .finite s c e =>
    let ds := digitsOf c
    let first := adjusted c e
    signText s ++
      if e ≤ 0 ∧ -6 ≤ first then pointed ds (first + 1)
      else
        pointed ds 1 ++ CodePoint.ofChar 'E' ::
          (if first < 0 then Text.ofInt first else CodePoint.ofChar '+' :: Text.ofInt first)

end Decimal

end Reckon
