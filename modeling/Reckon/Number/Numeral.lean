import Reckon.Number.Decimal
import Reckon.Number.Signal

/-!
# Numerals

A numeral is a number as it is written : digits, perhaps a point with more digits, perhaps
a power of ten. It is kept as written, so that `1.50e+3` prints as it was read
(`Numeral.text`), and it denotes a coefficient and an exponent (`Numeral.coefficient`,
`Numeral.exponent`).
-/

namespace Reckon

/-- A written sign. -/
inductive Sign where
  | plus
  | minus
  deriving DecidableEq, Repr

namespace Sign

/-- The mark of the sign. -/
def codePoint : Sign → CodePoint
  | .plus => CodePoint.ofChar '+'
  | .minus => CodePoint.ofChar '-'

/-- The sign that a mark stands for. -/
def ofCodePoint? (c : CodePoint) : Option Sign :=
  if c = CodePoint.ofChar '+' then some .plus
  else if c = CodePoint.ofChar '-' then some .minus
  else none

/-- An optional sign as text. -/
def optionText : Option Sign → Text
  | none => []
  | some s => [s.codePoint]

end Sign

/-- A written power of ten. -/
structure Power where
  /-- The letter is `E` and not `e`. -/
  capital : Bool
  /-- The sign in front of the digits. -/
  sign : Option Sign
  /-- The digits, at least one in a numeral that is read. -/
  digits : List Digit
  deriving DecidableEq, Repr

namespace Power

/-- The power as it is written. -/
def text (p : Power) : Text :=
  CodePoint.ofChar (if p.capital then 'E' else 'e') ::
    (Sign.optionText p.sign ++ Text.ofDigits p.digits)

/-- The exponent that the power denotes. -/
def value (p : Power) : Int :=
  if p.sign = some .minus then -(digitsValue p.digits : Int) else digitsValue p.digits

end Power

/-- A number as it is written, without a sign. -/
structure Numeral where
  /-- The digits in front of the point. -/
  whole : List Digit
  /-- The digits behind the point, if there is a point. -/
  fraction : Option (List Digit)
  /-- The power of ten, if one is written. -/
  power : Option Power
  deriving DecidableEq, Repr

namespace Numeral

variable (n : Numeral)

/-- The point and the digits behind it. -/
def fractionText : Option (List Digit) → Text
  | none => []
  | some ds => CodePoint.ofChar '.' :: Text.ofDigits ds

/-- The numeral as it is written. -/
def text : Text :=
  Text.ofDigits n.whole ++ fractionText n.fraction ++ (n.power.map Power.text).getD []

/-- The numeral has neither a point nor a power. -/
def isInteger : Bool := n.fraction.isNone && n.power.isNone

/-- All its digits as one number. -/
def coefficient : Nat := digitsValue (n.whole ++ n.fraction.getD [])

/-- The power of ten of its last digit. -/
def exponent : Int := (n.power.map Power.value).getD 0 - (n.fraction.getD []).length

/-- A numeral has a digit, and so has its power. -/
def WellFormed : Prop :=
  n.whole ++ n.fraction.getD [] ≠ [] ∧ ∀ p, n.power = some p → p.digits ≠ []

end Numeral

/-- A numeral with the sign in front of it. -/
structure SignedNumeral where
  /-- The sign, if one is written. -/
  sign : Option Sign
  /-- The numeral. -/
  numeral : Numeral
  deriving DecidableEq, Repr

namespace SignedNumeral

variable (n : SignedNumeral)

/-- The number as it is written. -/
def text : Text := Sign.optionText n.sign ++ n.numeral.text

/-- The sign is a minus. -/
def negative : Bool := n.sign == some .minus

/-- The number that is written, with all its digits. -/
def written : Decimal := .finite n.negative n.numeral.coefficient n.numeral.exponent

/-- The least exponent of a decimal. -/
def leastExponent : Int := -1999999999999999997

/-- The greatest exponent of the first digit of a decimal. -/
def greatestExponent : Int := 999999999999999999

/-- The written number, if its exponent is in the range of decimals. -/
def decimal : Except Signal Decimal :=
  let c := n.numeral.coefficient
  let e := n.numeral.exponent
  if leastExponent ≤ e ∧ (if c = 0 then e else Decimal.adjusted c e) ≤ greatestExponent then
    .ok n.written
  else .error .invalidOperation

end SignedNumeral

end Reckon
