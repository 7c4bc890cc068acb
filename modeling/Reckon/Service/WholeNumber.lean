import Reckon.Grammar.Scan
import Reckon.Text.Blank

/-!
# Whole numbers in settings

A setting may give a whole number as a text. Around the number there may be margins; in
front of it one sign, zeros and low lines; inside it single low lines between the digits;
behind it a point with zeros. `WholeNumber.read` strips all this, and what is left must be a
number as it is usually written, of a bounded length.
-/

namespace Reckon

/-- Why a text is no whole number. -/
inductive WholeNumber.Flaw where
  /-- It is not written like one. -/
  | malformed
  /-- It has too many digits. -/
  | tooLong
  deriving DecidableEq, Repr

namespace WholeNumber

/-- A zero. -/
def zero : CodePoint := CodePoint.ofChar '0'

/-- The minus sign. -/
def minus : CodePoint := CodePoint.ofChar '-'

/-- What a number without leading zeros starts with. -/
def startsNumber (c : CodePoint) : Bool := c.between '1' '9' || c == minus

/-- The text without a point and one or more zeros at its end. -/
def withoutFraction (t : Text) : Text :=
  let isPoint (c : CodePoint) : Bool := c == CodePoint.ofChar '.'
  let zeros := (t.dropWhile fun c => !isPoint c).drop 1
  if !zeros.isEmpty && zeros.all (· == zero) then t.takeWhile fun c => !isPoint c else t

/-- The rest of a text after zeros and low lines; if there is nothing else, the last of
them, which is `c` in front of an empty text. -/
def afterZeros (c : CodePoint) : Text → Option Text
  | [] => some [c]
  | d :: rest =>
    if d = zero ∨ d = CodePoint.lowLine then afterZeros d rest
    else if startsNumber d then some (d :: rest)
    else none

/-- The text without its leading zeros. -/
def withoutLeadingZeros : Text → Option Text
  | [] => none
  | c :: rest =>
    if c = zero then afterZeros c rest else if startsNumber c then some (c :: rest) else none

/-- Every low line stands between two other code points. -/
def groupsDigits (t : Text) : Bool :=
  t.head? != some CodePoint.lowLine && t.getLast? != some CodePoint.lowLine &&
    (t.zip t.tail).all fun (c, d) => !(c == CodePoint.lowLine && d == CodePoint.lowLine)

/-- The text without the low lines that group its digits. -/
def ungrouped (t : Text) : Text := if groupsDigits t then t.filter (· != CodePoint.lowLine) else t

/-- The greatest number of digits, a minus sign counted among them. -/
def longest : Nat := 4300

/-- The number that digits write with or without a minus in front. They start with a zero
only if it is alone, and nothing follows them; too many of them are noticed first. -/
def ofDigits (negative : Bool) (t : Text) : Except Flaw Int :=
  match Scan.digits t with
  | ([], _) => .error .malformed
  | (d :: ds, rest) =>
    if d = 0 ∧ ds ≠ [] then .error .malformed
    else if longest < (if negative then 1 else 0) + (d :: ds).length then .error .tooLong
    else if rest ≠ [] then .error .malformed
    else
      let n : Int := digitsValue (d :: ds)
      .ok (if negative then -n else n)

/-- The number of a text in its usual form. -/
def ofUsual : Text → Except Flaw Int
  | [] => .error .malformed
  | c :: rest => if c = minus then ofDigits true rest else ofDigits false (c :: rest)

/-- The number of a text without sign; the minus that was in front of it comes back there
when all else is stripped. -/
def ofUnsigned (negative : Bool) (t : Text) : Except Flaw Int :=
  match withoutLeadingZeros (withoutFraction t) with
  | none => .error .malformed
  | some u => ofUsual (if negative then minus :: ungrouped u else ungrouped u)

/-- A text as a whole number. -/
def read (t : Text) : Except Flaw Int :=
  match t.withoutMargins with
  | [] => .error .malformed
  | c :: rest =>
    if c = minus then ofUnsigned true rest
    else if c = CodePoint.ofChar '+' then
      if rest.head? = some minus then .error .malformed else ofUnsigned false rest
    else ofUnsigned false (c :: rest)

end WholeNumber

end Reckon
