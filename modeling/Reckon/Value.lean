import Reckon.Number.Double.Shortest
import Reckon.Number.Fixed
import Reckon.Text.Displayed

/-!
# Values

A value is a number or a string. A number is a decimal with or without an imaginary part;
only `complex` makes one with. It also remembers whether it was written as an integer.
-/

namespace Reckon

/-- The kind of a value. -/
inductive Kind where
  | number
  | complex
  | string
  deriving DecidableEq, Repr

/-- The name of a kind. -/
def Kind.name : Kind → Text
  | .number => "number"
  | .complex => "complex"
  | .string => "string"

/-- The result of evaluating an expression. -/
inductive Value where
  /-- A number. -/
  | number (real : Decimal) (imaginary : Option Decimal) (isInteger : Bool)
  /-- A string. -/
  | string (text : Text)
  deriving DecidableEq, Repr

/-- Why parts make no value. -/
inductive PartsFault where
  /-- A string without text, or with a part of a number. -/
  | string
  /-- A number without a real part, or with a text. -/
  | number
  deriving DecidableEq, Repr

/-- The wording of the fault. -/
def PartsFault.text : PartsFault → Text
  | .string => "string values carry text and no numeric payload"
  | .number => "numeric values carry a real component and no text"

namespace Value

/-- A number without imaginary part that was not written as an integer. -/
def real (d : Decimal) : Value := .number d none false

/-- The value with the given parts. -/
def ofParts (isString : Bool) (real imaginary : Option Decimal) (text : Option Text)
    (isInteger : Bool) : Except PartsFault Value :=
  if isString then
    match text, real, imaginary with
    | some t, none, none => .ok (.string t)
    | _, _, _ => .error .string
  else
    match real, text with
    | some r, none => .ok (.number r imaginary isInteger)
    | _, _ => .error .number

/-- The kind of the value. -/
def kind : Value → Kind
  | .string _ => .string
  | .number _ none _ => .number
  | .number _ (some _) _ => .complex

/-- The value is a string. -/
def isString : Value → Bool
  | .string _ => true
  | .number .. => false

/-- The name of the kind, complex numbers being numbers. -/
def sort (v : Value) : Text := if v.isString then Kind.string.name else Kind.number.name

/-- The value as it is displayed. -/
def displayed : Value → Text
  | .string t => t.displayed
  | .number r none _ => r.text
  | .number r (some i) _ =>
    Text.ofString "complex(" ++ r.text ++ Text.ofString ", " ++ i.text ++ Text.ofString ")"

/-- The value as a result : a string as it is, a number by its real part, with fifty places
at high precision and else as a double. -/
def result (precision : Precision) : Value → Except Signal Text
  | .string t => .ok t
  | .number r _ _ =>
    match precision with
    | .standard =>
      match r.toDouble with
      | .error s => .error s
      | .ok x => .ok x.text
    | .high => r.fixed Decimal.resultPlaces

end Value

end Reckon
