import Reckon.Grammar.Expr
import Reckon.Number.Double.Basic

/-!
# Journal

What a session and the service around it note down while they work. Each event has a
channel, a level and a name; a run from the command line writes these three.
-/

namespace Reckon

/-- How important an event is. -/
inductive Level where
  | debug
  | info
  | warning
  | error
  | critical
  deriving DecidableEq, Repr

namespace Level

/-- All levels, the least important first. -/
def all : List Level := [.debug, .info, .warning, .error, .critical]

/-- The name of the level. -/
def name : Level → Text
  | .debug => "debug"
  | .info => "info"
  | .warning => "warning"
  | .error => "error"
  | .critical => "critical"

/-- The name of the level in capitals. -/
def mark : Level → Text
  | .debug => "DEBUG"
  | .info => "INFO"
  | .warning => "WARNING"
  | .error => "ERROR"
  | .critical => "CRITICAL"

/-- The rank of the level. -/
def rank : Level → Nat
  | .debug => 0
  | .info => 1
  | .warning => 2
  | .error => 3
  | .critical => 4

end Level

/-- Something that was noted down. -/
inductive Event where
  /-- A statement was read. -/
  | statementParsed (index : Nat) (outline : Text)
  /-- A statement was evaluated, to a value of a sort. -/
  | statementEvaluated (index : Nat) (form : Form) (sort : Text)
  /-- A session was ended with statements left over. -/
  | returnedEarly (index skipped : Nat)
  /-- A calculation failed. -/
  | calculationFailed (client message : Text)
  /-- The total of a client changed. -/
  | leaderboardUpdated (client : Text) (count : Nat) (total : Double)
  /-- The result of a random calculation was recorded. -/
  | drawRecorded (client : Text) (value : Double)
  /-- A calculation succeeded. -/
  | calculationSucceeded (client value : Text)
  deriving DecidableEq, Repr

namespace Event

/-- The part of the program that notes the event. -/
def channel : Event → Text
  | .statementParsed .. | .statementEvaluated .. | .returnedEarly .. =>
    "calcapi.expr.evaluator"
  | .leaderboardUpdated .. => "calcapi.service.leaderboard"
  | _ => "calcapi.service.calculator"

/-- The level of the event. -/
def level : Event → Level
  | .calculationFailed .. => .warning
  | _ => .debug

/-- The name of the event. -/
def name : Event → Text
  | .statementParsed .. => "statement_parsed"
  | .statementEvaluated .. => "statement_evaluated"
  | .returnedEarly .. => "session_returned_early"
  | .calculationFailed .. => "calculation_failed"
  | .leaderboardUpdated .. => "leaderboard_updated"
  | .drawRecorded .. => "random_draw_recorded"
  | .calculationSucceeded .. => "calculation_succeeded"

/-- The event as a line of a log. -/
def line (e : Event) : Text :=
  e.level.mark ++ Text.ofString ":" ++ e.channel ++ Text.ofString ":" ++ e.name ++
    Text.ofString "\n"

end Event

/-- The name of the form of a statement. -/
def Form.name : Form → Text
  | .bare => "Expression"
  | .binding _ => "Assignment"
  | .result => "Return"

end Reckon
