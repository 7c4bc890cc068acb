import Reckon.Builtin
import Reckon.Environment
import Reckon.Grammar.Levels
import Reckon.Journal

/-!
# Sessions

A session runs statements one after the other in one environment. An assignment binds its
name and yields the bound value, a bare expression only yields its value, and `return` ends
the run : what comes after it is not even read. The first failure ends the run too; the
bindings made before it stay.

An evaluation takes a session to a value or a failure and to the session after it, so what
an evaluation did before it failed is not lost. The operands of an operator are evaluated
from left to right, a called name is looked up before the arguments are evaluated, and each
call of `rand` takes the next draw.

`Session.run` has as much stack as it needs. `Session.runOn` has a stack with room for so many
levels, and what would enter more of them ends the run.
-/

namespace Reckon

/-- What a session runs under. -/
structure Rules where
  /-- How literals are read and results are written. -/
  precision : Precision
  /-- The limits. -/
  limits : Limits
  /-- The functions that can be called. -/
  functions : Registry
  /-- The random draws, in order. -/
  draws : Nat → Double
  /-- The library. -/
  [library : Library]

namespace Rules

variable (rules : Rules)

/-- The operator on two values under the rules. -/
def apply (op : Operator) (x y : Value) : Except Trouble Value :=
  letI := rules.library
  op.apply rules.precision rules.limits x y

/-- A call of a function by name under the rules; `draw` is the next random draw. -/
def call (draw : Double) (name : Text) (arguments : List Value) : Except Trouble Value :=
  letI := rules.library
  rules.functions.call rules.precision draw name arguments

end Rules

/-- The state of a session. -/
structure Session where
  /-- The variables. -/
  bindings : Environment := []
  /-- The names of the functions that completed a call, in the order of their first. -/
  called : List Text := []
  /-- The number of draws that were taken. -/
  drawn : Nat := 0
  /-- The statement to which failures belong. -/
  source : Text := []
  /-- What was noted down. -/
  journal : List Event := []

/-- A computation in a session. -/
abbrev Evaluation (α : Type) := Session → Except Failure α × Session

namespace Evaluation

variable {α β : Type}

/-- Yields a value. -/
def pure (a : α) : Evaluation α := fun s => (.ok a, s)

/-- Fails. -/
def fail (f : Failure) : Evaluation α := fun s => (.error f, s)

/-- One computation after another that needs its value. -/
def bind (x : Evaluation α) (f : α → Evaluation β) : Evaluation β := fun s =>
  match x s with
  | (.error e, t) => (.error e, t)
  | (.ok a, t) => f a t

instance : Monad Evaluation where
  pure := pure
  bind := bind

/-- Changes the session. -/
def update (f : Session → Session) : Evaluation Unit := fun s => (.ok (), f s)

/-- A node that yields a value or goes wrong, at a position of the current statement. -/
def node (position : Nat) (x : Except Trouble α) : Evaluation α := fun s =>
  match x with
  | .ok a => (.ok a, s)
  | .error t => (.error (t.located s.source position), s)

/-- A computation that only reports. -/
def ofReport (x : Except Report α) : Evaluation α := fun s =>
  match x with
  | .ok a => (.ok a, s)
  | .error r => (.error (.report r), s)

/-- A computation that enters so many levels of a stack, if there is room for them. -/
def within (room levels : Nat) (x : Evaluation α) : Evaluation α :=
  if room < levels then fail (.signal .stackExhausted) else x

/-- Notes an event down. -/
def note (e : Event) : Evaluation Unit := update fun s => { s with journal := s.journal ++ [e] }

end Evaluation

namespace Session

/-- The session after a completed call. -/
def afterCall (rules : Rules) (name : Text) (s : Session) : Session :=
  { s with
    called := if name ∈ s.called then s.called else s.called ++ [name]
    drawn := s.drawn + (if rules.functions.lookup name = some .rand then 1 else 0) }

/-- A call of a function by name. -/
def call (rules : Rules) (name : Text) (position : Nat) (arguments : List Value) :
    Evaluation Value := fun s =>
  match rules.call (rules.draws s.drawn) name arguments with
  | .error t => (.error (t.located s.source position), s)
  | .ok v => (.ok v, s.afterCall rules name)

/-- The value of a variable. -/
def read (name : Text) (position : Nat) : Evaluation Value := fun s =>
  Evaluation.node position
    (match s.bindings.get? name with
      | some v => .ok v
      | none => .error (.fault (.undefinedVariable name))) s

end Session

namespace Expr

open Evaluation

mutual

/-- Evaluates an expression. -/
def evaluate (rules : Rules) : Expr → Evaluation Value
  | .number n p =>
    node p (match n.read rules.precision with
      | .ok d => .ok (.number d none n.numeral.isInteger)
      | .error s => .error (.signal s))
  | .string v _ => Evaluation.pure (.string v)
  | .variable n p => Session.read n p
  | .group inner _ => inner.evaluate rules
  | .binary op left right p => do
    let x ← left.evaluate rules
    let y ← right.evaluate rules
    node p (rules.apply op x y)
  | .call n arguments p => do
    let _ ← node p (rules.functions.find n)
    let values ← evaluateAll rules arguments
    Session.call rules n p values

/-- Evaluates expressions from left to right. -/
def evaluateAll (rules : Rules) : List Expr → Evaluation (List Value)
  | [] => Evaluation.pure []
  | e :: rest => do
    let v ← e.evaluate rules
    let vs ← evaluateAll rules rest
    return v :: vs

end

mutual

/-- Evaluates an expression on a stack with room for so many levels. The operator is a level of its
own, and so are the call and the list of its arguments. -/
def evaluateOn (rules : Rules) : Expr → Nat → Evaluation Value
  | .number n p, room => within room 1 ((Expr.number n p).evaluate rules)
  | .string v p, room => within room 1 ((Expr.string v p).evaluate rules)
  | .variable n p, room => within room 1 ((Expr.variable n p).evaluate rules)
  | .group inner _, room => within room 1 (inner.evaluateOn rules (room - 1))
  | .binary op left right p, room => within room 2 do
    let x ← left.evaluateOn rules (room - 2)
    let y ← right.evaluateOn rules (room - 2)
    node p (rules.apply op x y)
  | .call n arguments p, room => within room 3 do
    let _ ← node p (rules.functions.find n)
    let values ← evaluateAllOn rules arguments (room - 3)
    Session.call rules n p values

/-- Evaluates expressions from left to right, each with the same room. -/
def evaluateAllOn (rules : Rules) : List Expr → Nat → Evaluation (List Value)
  | [], _ => Evaluation.pure []
  | e :: rest, room => do
    let v ← e.evaluateOn rules room
    let vs ← evaluateAllOn rules rest room
    return v :: vs

end

end Expr

namespace Session

open Evaluation

/-- Computes a value as part of a statement; without one, failures belong to the statement
before. -/
def ofStatement (source : Option Text) (x : Evaluation Value) : Evaluation Value := do
  update fun s => { s with source := source.getD s.source }
  x

/-- Evaluates an expression as part of a statement. -/
def evaluate (rules : Rules) (e : Expr) (source : Option Text) : Evaluation Value :=
  ofStatement source (e.evaluate rules)

/-- Binds the value of a statement if it is an assignment. -/
def settle (index : Nat) (st : Statement) (x : Evaluation Value) : Evaluation Value := do
  let v ← x
  match st.form with
  | .binding target => update fun s => { s with bindings := s.bindings.bind target v }
  | _ => Evaluation.pure ()
  note (.statementEvaluated index st.form v.sort)
  return v

/-- Evaluates a statement and binds its value if it is an assignment. -/
def execute (rules : Rules) (index : Nat) (st : Statement) : Evaluation Value :=
  settle index st (evaluate rules st.expression (some st.source))

/-- The same on a stack with room for so many levels. -/
def executeOn (stack : Nat) (rules : Rules) (index : Nat) (st : Statement) : Evaluation Value :=
  settle index st (ofStatement (some st.source) (st.expression.evaluateOn rules stack))

/-- Reads a statement. -/
def parse (rules : Rules) (source : Text) : Evaluation Statement :=
  ofReport (Statement.parse rules.limits source)

/-- The same on a stack with room for so many levels. -/
def parseOn (stack : Nat) (rules : Rules) (source : Text) : Evaluation Statement :=
  match Statement.parseOn stack rules.limits source with
  | none => fail (.signal .stackExhausted)
  | some x => ofReport x

/-- Runs statements from the one of the given index on, each of which is read and then executed;
`last` is the value so far. -/
def runWith (read : Text → Evaluation Statement) (exec : Nat → Statement → Evaluation Value)
    (index : Nat) (last : Option Value) : List Text → Evaluation Value
  | [] =>
    match last with
    | some v => Evaluation.pure v
    | none => fail (.report ⟨.empty, none, none⟩)
  | source :: rest => do
    let st ← read source
    note (.statementParsed index (st.expression.outline 0))
    let v ← exec index st
    if st.form = .result then do
      note (.returnedEarly index rest.length)
      return v
    else runWith read exec (index + 1) (some v) rest

/-- Runs statements from the one of the given index on; `last` is the value so far. -/
def runFrom (rules : Rules) (index : Nat) (last : Option Value) (sources : List Text) :
    Evaluation Value :=
  runWith (parse rules) (execute rules) index last sources

/-- Runs statements in order and yields the last value. -/
def run (rules : Rules) (sources : List Text) : Evaluation Value := runFrom rules 0 none sources

/-- The same on a stack with room for so many levels. -/
def runOn (stack : Nat) (rules : Rules) (sources : List Text) : Evaluation Value :=
  runWith (parseOn stack rules) (executeOn stack rules) 0 none sources

end Session

end Reckon
