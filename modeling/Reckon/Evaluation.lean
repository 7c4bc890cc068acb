import Reckon.Session
import Reckon.Source.Statements

/-!
# Evaluating an expression

`evaluate` takes the text of an expression to the text of its result, in a session of its
own. It either succeeds with a value, or fails with a report on the expression or with a
signal of arithmetic. `evaluateOn` does so on a stack that can be exhausted.
-/

namespace Reckon

/-- A value and the text of it. -/
structure Answer where
  /-- The value. -/
  value : Value
  /-- The text of the result. -/
  text : Text
  deriving DecidableEq, Repr

/-- The value of an expression with its text, if its statements are run. -/
def answerRunning (run : List Text → Evaluation Value) (rules : Rules) (expression : Text) :
    Evaluation Answer := do
  let sources ← Evaluation.ofReport (Text.prepare rules.limits expression)
  let v ← run sources
  fun s =>
    match v.result rules.precision with
    | .error e => (.error (.signal e), s)
    | .ok t => (.ok ⟨v, t⟩, s)

/-- The value of an expression with its text, in a session. -/
def answer (rules : Rules) (expression : Text) : Evaluation Answer :=
  answerRunning (Session.run rules) rules expression

/-- The same on a stack with room for so many levels. -/
def answerOn (stack : Nat) (rules : Rules) (expression : Text) : Evaluation Answer :=
  answerRunning (Session.runOn stack rules) rules expression

/-- Evaluates an expression in a new session. -/
def evaluate (rules : Rules) (expression : Text) : Except Failure Answer × Session :=
  answer rules expression {}

/-- The same on a stack with room for so many levels. -/
def evaluateOn (stack : Nat) (rules : Rules) (expression : Text) :
    Except Failure Answer × Session :=
  answerOn stack rules expression {}

end Reckon
