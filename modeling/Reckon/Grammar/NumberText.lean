import Reckon.Grammar.Scan
import Reckon.Number.Double.Decimal
import Reckon.Text.Blank

/-!
# Numbers as texts

A number that is handed over as a text is read more leniently than one in an expression :
white space around it does not count, its digits may be those of any script, low lines may
group them, and there are words for infinities and for what is no number. The whole text
must be one number. `Decimal.ofText` keeps all its digits, `Double.ofText` rounds it to the
nearest double. Neither reads a number that is too long (`Numeral.fitsDouble`,
`SignedNumeral.decimal`).
-/

namespace Reckon

/-- The digit that a decimal digit of any script stands for; in every script the digits from
zero to nine follow each other. -/
def Digit.ofAnyScript? (c : CodePoint) : Option Digit :=
  (decimalDigitRanges.find? fun r => decide (r.1 ≤ c.val) && decide (c.val ≤ r.2)).map fun r =>
    ⟨(c.val - r.1) % 10, Nat.mod_lt _ (by decide)⟩

namespace Numeral

/-- The greatest number of digits with which a number is read as a double. -/
def mostDoubleDigits : Nat := 1000000000

/-- The numeral has not too many digits for a double; zeros at its beginning do not count unless
they stand behind the point. -/
def fitsDouble (n : Numeral) : Bool :=
  let fraction := n.fraction.getD []
  decide (((n.whole ++ fraction).dropWhile (· == 0)).length ≤ mostDoubleDigits) &&
    decide (fraction.length ≤ mostDoubleDigits)

end Numeral

namespace NumberText

/-- The text with ASCII digits for all decimal digits. -/
def plainDigits (t : Text) : Text :=
  t.map fun c => ((Digit.ofAnyScript? c).map Digit.codePoint).getD c

/-- Every low line behind the first code point stands between two digits. -/
def groupsDigits : Text → Bool
  | c :: d :: rest =>
    (d != CodePoint.lowLine || c.isDigit && rest.head?.any CodePoint.isDigit) &&
      groupsDigits (d :: rest)
  | _ => true

/-- The text is a word for infinity; case does not count. -/
def isInfinity (t : Text) : Bool :=
  t.toLower == Text.ofString "inf" || t.toLower == Text.ofString "infinity"

/-- The word for no number, signaling or not, with the diagnostic behind it; case does not
count. -/
def missing? (t : Text) : Option (Bool × Nat) :=
  let signaling := t.toLower.head? == some (CodePoint.ofChar 's')
  let word := t.toLower.drop (if signaling then 1 else 0)
  if word.take 3 = Text.ofString "nan" then
    match Scan.digits (word.drop 3) with
    | (ds, []) => some (signaling, digitsValue ds)
    | _ => none
  else none

/-- A text that is one numeral. -/
def numeral? (t : Text) : Option Numeral :=
  match Scan.numeral t with
  | .ok (n, []) => if n.whole ++ n.fraction.getD [] = [] then none else some n
  | _ => none

/-- A text without white space and low lines as a decimal. -/
def decimal (t : Text) : Except Signal Decimal :=
  let (sign, rest) := Scan.sign t
  let negative := sign == some .minus
  if isInfinity rest then .ok (.infinite negative)
  else
    match missing? rest, numeral? rest with
    | some (signaling, diagnostic), _ => .ok (.nan negative signaling diagnostic)
    | _, some n => (SignedNumeral.mk sign n).decimal
    | none, none => .error .invalidOperation

/-- A text without white space and low lines as a double. -/
def double? (t : Text) : Option Double :=
  let (sign, rest) := Scan.sign t
  if isInfinity rest then some (.infinite (sign == some .minus))
  else if rest.toLower = Text.ofString "nan" then some .nan
  else
    match numeral? rest with
    | none => none
    | some n =>
      if n.fitsDouble then some (Double.ofDecimal (SignedNumeral.mk sign n).written) else none

end NumberText

/-- A text as a decimal; low lines in it do not count wherever they stand. -/
def Decimal.ofText (t : Text) : Except Signal Decimal :=
  NumberText.decimal (NumberText.plainDigits (t.trim.filter (· != CodePoint.lowLine)))

/-- A text as a double; the low lines in it must stand between digits. -/
def Double.ofText (t : Text) : Except Signal Double :=
  let plain := NumberText.plainDigits t.withoutMargins
  let number :=
    if plain.head? != some CodePoint.lowLine && NumberText.groupsDigits plain then
      NumberText.double? (plain.filter (· != CodePoint.lowLine))
    else none
  match number with
  | some x => .ok x
  | none => .error (.unreadable t)

end Reckon
