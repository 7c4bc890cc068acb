import Reckon.Text.Displayed

/-!
# Signals

The conditions that arithmetic and the reading of numbers report instead of absorbing, and the
exhausted stack. They are no faults of an expression : they end a calculation. `Signal.message?` is
the wording of those that have one.
-/

namespace Reckon

/-- A condition that ends a calculation. -/
inductive Signal where
  /-- A finite result lies above the largest exponent. -/
  | overflow
  /-- An operand or an exponent is out of range. -/
  | invalidOperation
  /-- A number is asked for with more digits than can be counted. -/
  | precisionRange
  /-- An operation on doubles meets an operand that is signaling. -/
  | signalingOperand
  /-- A text denotes no double. -/
  | unreadable (text : Text)
  /-- A tree has more levels than the stack has room for. -/
  | stackExhausted
  deriving DecidableEq, Repr

/-- The wording of a signal that is about a value; the conditions of decimal arithmetic have none,
and neither has the exhausted stack. -/
def Signal.message? : Signal → Option Text
  | .overflow => none
  | .invalidOperation => none
  | .stackExhausted => none
  | .precisionRange => some "valid range for prec is [1, MAX_PREC]"
  | .signalingOperand => some "cannot convert signaling NaN to float"
  | .unreadable t => some (Text.ofString "could not convert string to float: " ++ t.displayed)

end Reckon
