import Reckon.Evaluation
import Reckon.Service.Leaderboard
import Reckon.Service.Settings

/-!
# Calculator

The calculator evaluates expressions for clients and records what came of them. Blank input
is refused and not recorded. A failed calculation is recorded with the marker of failures, a
successful one with its result, from which a number in fixed-point notation loses the zeros
at its end (`trimmed`). A calculation that succeeds with a number and called `rand` counts
as a random result of its client.

A signal leaves the calculator as it is : nothing is recorded, and only the draws that were
taken are gone. One signal is left at standard precision, that of the exhausted stack.
-/

namespace Reckon

/-! ## Trimmed results -/

/-- An optional minus sign, decimal digits of any script, a point, and more such digits. -/
def isFixedPoint (t : Text) : Bool :=
  let unsigned := if t.head? = some (CodePoint.ofChar '-') then t.drop 1 else t
  let whole := unsigned.takeWhile CodePoint.isDecimalDigit
  match unsigned.dropWhile CodePoint.isDecimalDigit with
  | [] => false
  | c :: places =>
    !whole.isEmpty && c == CodePoint.ofChar '.' && places.all CodePoint.isDecimalDigit

/-- The text without copies of a code point at its end. -/
def stripEnd (c : CodePoint) (t : Text) : Text := (t.reverse.dropWhile (· == c)).reverse

/-- A number in fixed-point notation without zeros at its end and without a point that
nothing follows; any other text as it is. -/
def trimmed (t : Text) : Text :=
  if isFixedPoint t then stripEnd (CodePoint.ofChar '.') (stripEnd (CodePoint.ofChar '0') t)
  else t

/-! ## Calculations -/

/-- What becomes of the records of a calculator. -/
inductive Sink where
  /-- They are kept on a board. -/
  | board
  /-- They are thrown away. -/
  | none
  deriving DecidableEq, Repr

/-- What a calculator works with. -/
structure Calculator where
  /-- The settings. -/
  settings : Settings
  /-- What becomes of the records. -/
  sink : Sink
  /-- The functions that can be called. -/
  functions : Registry
  /-- The random draws, in order. -/
  draws : Nat → Double
  /-- The library. -/
  [library : Library]

/-- The state of a calculator between two calculations. -/
structure Desk where
  /-- The board. -/
  board : Board := {}
  /-- The number of draws that were taken. -/
  drawn : Nat := 0

/-- What a client is told. -/
inductive Response where
  /-- The result, and whether it counts for the leaderboard. -/
  | success (value : Text) (ranked : Bool)
  /-- The message, and the message with the statement if an expression was evaluated. -/
  | failure (message : Text) (context : Option Text)
  deriving DecidableEq, Repr

/-- The outcome of one calculation. -/
structure Calculation where
  /-- What the client is told, or the signal that ended the calculation. -/
  outcome : Except Signal Response
  /-- The state after it. -/
  desk : Desk
  /-- What was noted down. -/
  journal : List Event

namespace Calculator

variable (c : Calculator)

/-- The message for blank input. -/
def blankMessage : Text := "expression cannot be empty"

/-- The name whose calls make a result random. -/
def randomName : Text := Builtin.rand.name

/-- The rules of the sessions of the calculator. -/
def rules : Rules :=
  { precision := c.settings.precision
    limits := { expressionLength := c.settings.longestExpression }
    functions := c.functions
    draws := c.draws
    library := c.library }

/-- The board with one more record, if records are kept. -/
def record (b : Board) (r : Record) : Board :=
  match c.sink with
  | .board => b.record r
  | .none => b

/-- The board with one more random result, if records are kept, and what is noted. -/
def recordDraw (b : Board) (client : Text) (value : Double) (expression : Text) :
    Board × List Event :=
  let recorded := Event.drawRecorded client value
  match c.sink with
  | .none => (b, [recorded])
  | .board =>
    let after := b.draw client value expression
    match after.entry? client with
    | some e => (after, [.leaderboardUpdated client e.count e.total, recorded])
    | none => (after, [recorded])

/-- A message behind the marker of failures. -/
def marked (message : Text) : Text := c.settings.failureMarker ++ Text.ofString ": " ++ message

/-- The outcome of a failed evaluation. -/
def failed (desk : Desk) (client expression : Text) (journal : List Event) (r : Report) :
    Calculation :=
  { outcome := .ok (.failure (c.marked r.message) (some (c.marked r.context)))
    desk := { desk with
      board := c.record desk.board ⟨client, expression, c.settings.failureMarker⟩ }
    journal := journal ++ [.calculationFailed client r.message] }

/-- The outcome of a successful evaluation in which the functions `called` were called. -/
def succeeded (desk : Desk) (client expression : Text) (journal : List Event) (a : Answer)
    (called : List Text) : Calculation :=
  let value := if a.value.isString then a.text else trimmed a.text
  let board := c.record desk.board ⟨client, expression, value⟩
  let success := Event.calculationSucceeded client value
  match a.value with
  | .number r _ _ =>
    if randomName ∈ called then
      let (board, events) := c.recordDraw board client (Double.ofDecimal r) expression
      ⟨.ok (.success value true), { desk with board := board }, journal ++ events ++ [success]⟩
    else ⟨.ok (.success value false), { desk with board := board }, journal ++ [success]⟩
  | .string _ =>
    ⟨.ok (.success value false), { desk with board := board }, journal ++ [success]⟩

/-- Evaluates an expression for a client, on a stack with room for so many levels. -/
def calculateOn (stack : Nat) (desk : Desk) (expression client : Text) : Calculation :=
  if expression.isBlank then ⟨.ok (.failure blankMessage none), desk, []⟩
  else
    let (outcome, session) := answerOn stack c.rules expression { drawn := desk.drawn }
    let desk := { desk with drawn := session.drawn }
    match outcome with
    | .ok a => c.succeeded desk client expression session.journal a session.called
    | .error (.report r) => c.failed desk client expression session.journal r
    | .error (.signal s) => ⟨.error s, desk, session.journal⟩

/-- Evaluates an expression for a client, on a stack of the usual size. -/
def calculate (desk : Desk) (expression client : Text) : Calculation :=
  c.calculateOn usualStack desk expression client

end Calculator

end Reckon
