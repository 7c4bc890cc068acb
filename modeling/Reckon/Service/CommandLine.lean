import Reckon.Number.Elementary.Rounded
import Reckon.Service.Calculator

/-!
# Command line

A run from the command line joins its arguments to one expression, evaluates it with the
settings of the environment, and writes the value or the failure. Events of the level of the
log and above are written in front of a failure.
-/

namespace Reckon.CommandLine

/-- The client for whom a run calculates. -/
def client : Text := "cli"

/-- What a run writes, and its exit code. -/
structure Output where
  /-- The exit code. -/
  code : Nat
  /-- What is written as the result. -/
  result : Text
  /-- What is written besides. -/
  messages : Text
  deriving DecidableEq, Repr

/-- The lines of the events of a level and above. -/
def log (level : Level) (journal : List Event) : Text :=
  (journal.filter fun e => decide (level.rank ≤ e.level.rank)).flatMap Event.line

/-- A text as a line. -/
def line (t : Text) : Text := t ++ Text.ofString "\n"

/-- The expression that arguments make. -/
def expression (arguments : List Text) : Text := Text.join (Text.ofString " ") arguments

/-- A run with settings. -/
def runWith [Library] (settings : Settings) (draws : Nat → Double) (arguments : List Text) :
    Except Signal Output :=
  let calculator : Calculator := ⟨settings, .none, Registry.standard, draws⟩
  let c := calculator.calculate {} (expression arguments) client
  let messages := log settings.level c.journal
  match c.outcome with
  | .error s => .error s
  | .ok (.success value _) => .ok ⟨0, line value, messages⟩
  | .ok (.failure message context) => .ok ⟨1, [], messages ++ line (context.getD message)⟩

/-- Why a run has no output : bad settings, or a signal of arithmetic. -/
inductive Refusal where
  /-- The settings are refused. -/
  | settings (complaints : Settings.Complaints)
  /-- Arithmetic ended the run. -/
  | signal (s : Signal)
  deriving DecidableEq, Repr

/-- A run in an environment. -/
def run [Library] (environment : List (Text × Text)) (draws : Nat → Double)
    (arguments : List Text) : Except Refusal Output :=
  match Settings.ofEnvironment environment with
  | .error complaints => .error (.settings complaints)
  | .ok settings => (runWith settings draws arguments).mapError .signal

/-- The library of a run that is given none. -/
instance : Library := .rounded

end Reckon.CommandLine
