import Reckon.Fault
import Reckon.Grammar.Token
import Reckon.Number.Library
import Reckon.Number.Working
import Reckon.Value

/-!
# Operations

What the operators do. A sum, difference, product, quotient or floored remainder is worked
out at 80 digits and then rounded to the nearest double, at either precision; a power, which the
library works out, and the remainder at standard precision are operations on doubles. Two strings
are joined by `+`, and no other operator takes a string. An imaginary part does not survive an
operation.
-/

namespace Reckon

/-- What goes wrong in an operation or a call, before it is known where. -/
inductive Trouble where
  /-- A fault of the expression. -/
  | fault (f : Fault)
  /-- An exceeded limit. -/
  | exceeded (e : Excess)
  /-- A signal of arithmetic. -/
  | signal (s : Signal)
  deriving DecidableEq, Repr

/-- How an evaluation fails. -/
inductive Failure where
  /-- With a report on the expression. -/
  | report (r : Report)
  /-- With a signal of arithmetic. -/
  | signal (s : Signal)
  deriving DecidableEq, Repr

namespace Trouble

/-- The failure at a position of a statement. A limit has no place. -/
def located (statement : Text) (position : Nat) : Trouble → Failure
  | .fault f => .report ⟨f, some position, some statement⟩
  | .exceeded e => .report (Report.ofExcess e)
  | .signal s => .signal s

/-- The failure without a place. -/
def unplaced : Trouble → Failure
  | .fault f => .report ⟨f, none, none⟩
  | .exceeded e => .report (Report.ofExcess e)
  | .signal s => .signal s

end Trouble

namespace Operator

/-- A result of working arithmetic, rounded to the nearest double. -/
def rounded (d : Except Signal Decimal) : Except Trouble Decimal :=
  match d with
  | .error s => .error (.signal s)
  | .ok d => .ok d.toNearestDouble

/-- A function of two doubles at two numbers. -/
def onDoubles (f : Double → Double → Double) (a b : Decimal) : Except Trouble Decimal :=
  match a.toDouble, b.toDouble with
  | .error s, _ => .error (.signal s)
  | _, .error s => .error (.signal s)
  | .ok x, .ok y => .ok (f x y).toDecimal

/-- Refuses a divisor that is zero or that cannot be compared with zero. -/
def checkDivisor (b : Decimal) : Except Trouble Unit :=
  if b.isSignaling then .error (.signal .invalidOperation)
  else if b.isZero then .error (.fault .divisionByZero)
  else .ok ()

/-- The operator on two numbers. -/
def onDecimals [Library] (precision : Precision) (op : Operator) (a b : Decimal) :
    Except Trouble Decimal :=
  match op with
  | .plus => rounded (a.sum b)
  | .minus => rounded (a.difference b)
  | .times => rounded (a.product b)
  | .divide =>
    match checkDivisor b with
    | .error t => .error t
    | .ok () => rounded (a.quotient b)
  | .modulo =>
    match checkDivisor b, precision with
    | .error t, _ => .error t
    | .ok (), .high => rounded (a.flooredRemainder b)
    | .ok (), .standard => onDoubles Double.remainder a b
  | .power => onDoubles Double.power a b

/-- Two strings joined, within the bound on their length. -/
def joined (limits : Limits) (s t : Text) : Except Trouble Value :=
  match limits.check .stringLength (s ++ t).length with
  | .error e => .error (.exceeded e)
  | .ok () => .ok (.string (s ++ t))

/-- The operator on two values. -/
def apply [Library] (precision : Precision) (limits : Limits) (op : Operator) (x y : Value) :
    Except Trouble Value :=
  match x, y with
  | .number a _ _, .number b _ _ =>
    match op.onDecimals precision a b with
    | .error t => .error t
    | .ok d => .ok (.real d)
  | _, _ =>
    if op = .plus then
      match x, y with
      | .string s, .string t => joined limits s t
      | _, _ => .error (.fault (.kind op.text x.kind.name y.kind.name))
    else .error (.fault (.stringOperator op.text))

end Operator

end Reckon
