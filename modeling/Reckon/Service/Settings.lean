import Reckon.Journal
import Reckon.Number.Double.Decimal
import Reckon.Service.WholeNumber

/-!
# Settings

The settings of the service : precision, level of the log, the longest expression and the
marker of a failure. They come from named data (`Settings.ofData`) or from the environment
(`Settings.ofEnvironment`). Each setting has two names, of which the joined one counts if
both are given. Data are read leniently : a switch may be a number or a word, a whole number
may be a text. What cannot be read is a complaint, and all complaints are reported together.
-/

namespace Reckon

-- Powers are those of core, also where there are others, and so exponents need their type.
attribute [local instance (high)] instPowNat

/-- A piece of data. -/
inductive Datum where
  /-- No value. -/
  | nothing
  /-- Yes or no. -/
  | switch (on : Bool)
  /-- A whole number. -/
  | whole (n : Int)
  /-- A number that is written with a point or a power of ten. -/
  | floating (x : Double)
  /-- A text. -/
  | text (t : Text)
  /-- A list or a table. -/
  | composite
  deriving DecidableEq, Repr

/-- Why a piece of data is no setting. -/
inductive Complaint where
  /-- A text or number that is neither yes nor no. -/
  | switchValue
  /-- Data of a kind that cannot be a switch. -/
  | switchKind
  /-- A text that is no whole number. -/
  | wholeValue
  /-- A whole number that is too long. -/
  | wholeSize
  /-- Data of a kind that cannot be a whole number. -/
  | wholeKind
  /-- A number with a fraction. -/
  | fraction
  /-- A number that is not finite. -/
  | notFinite
  /-- A number that is not positive. -/
  | notPositive
  /-- None of the choices. -/
  | noChoice
  /-- Data that are no text. -/
  | textKind
  deriving DecidableEq, Repr

/-- The name under which a complaint is reported. -/
def Complaint.name : Complaint → Text
  | .switchValue => "bool_parsing"
  | .switchKind => "bool_type"
  | .wholeValue => "int_parsing"
  | .wholeSize => "int_parsing_size"
  | .wholeKind => "int_type"
  | .fraction => "int_from_float"
  | .notFinite => "finite_number"
  | .notPositive => "greater_than"
  | .noChoice => "literal_error"
  | .textKind => "string_type"

/-! ## Reading data -/

namespace Datum

/-- The words for yes. -/
def yesWords : List Text := ["1", "true", "t", "yes", "y", "on"]

/-- The words for no. -/
def noWords : List Text := ["0", "false", "f", "no", "n", "off"]

/-- The size of the largest floating-point number that is taken for a whole number. -/
def wholeBound : Nat := 2 ^ (63 : Nat)

/-- The whole number that a floating-point number is. -/
def wholeOf : Double → Except Complaint Int
  | .nan => .error .notFinite
  | .infinite _ => .error .notFinite
  | .finite s r =>
    let u := Double.units r
    if u % Double.unitsOfOne ≠ 0 then .error .fraction
    else
      let n := u / Double.unitsOfOne
      if wholeBound ≤ n then .error .wholeSize
      else .ok (if s then -(n : Int) else n)

/-- The switch of a whole number : one or zero. -/
def switchOf (n : Int) : Except Complaint Bool :=
  if n = 1 then .ok true else if n = 0 then .ok false else .error .switchValue

/-- A piece of data as a switch. -/
def asSwitch : Datum → Except Complaint Bool
  | .switch on => .ok on
  | .text t =>
    if t.toLower ∈ yesWords then .ok true
    else if t.toLower ∈ noWords then .ok false
    else .error .switchValue
  | .whole n =>
    if (wholeBound : Int) ≤ n ∨ n < -(wholeBound : Int) then .error .switchKind else switchOf n
  | .floating x =>
    match wholeOf x with
    | .ok n => switchOf n
    | .error _ => .error .switchKind
  | .nothing | .composite => .error .switchKind

/-- The complaint about a text that is no whole number. -/
def flawed : WholeNumber.Flaw → Complaint
  | .malformed => .wholeValue
  | .tooLong => .wholeSize

/-- A piece of data as a whole number. -/
def asWhole : Datum → Except Complaint Int
  | .whole n => .ok n
  | .switch on => .ok (if on then 1 else 0)
  | .floating x => wholeOf x
  | .text t => (WholeNumber.read t).mapError flawed
  | .nothing | .composite => .error .wholeKind

/-- A piece of data as a positive whole number. -/
def asPositive (d : Datum) : Except Complaint Int :=
  match d.asWhole with
  | .error c => .error c
  | .ok n => if 0 < n then .ok n else .error .notPositive

/-- A piece of data as a level; case and blanks around do not count. -/
def asLevel : Datum → Except Complaint Level
  | .text t =>
    match Level.all.find? fun l => l.name == t.trim.toLower with
    | some l => .ok l
    | none => .error .noChoice
  | _ => .error .noChoice

/-- A piece of data as a text. -/
def asText : Datum → Except Complaint Text
  | .text t => .ok t
  | _ => .error .textKind

end Datum

/-! ## Settings -/

/-- The settings of the service. -/
structure Settings where
  /-- How literals are read and results are written. -/
  precision : Precision := .standard
  /-- The least important events that are logged. -/
  level : Level := .warning
  /-- The greatest length of an expression. -/
  longestExpression : Int := 4096
  /-- The result that is recorded for a failed calculation. -/
  failureMarker : Text := "calculation failed"
  deriving DecidableEq, Repr

/-- A setting that can be given. -/
inductive Setting where
  | precision
  | level
  | longestExpression
  | failureMarker
  deriving DecidableEq, Repr

namespace Setting

/-- All settings. -/
def all : List Setting := [.precision, .level, .longestExpression, .failureMarker]

/-- The name of a setting. -/
def name : Setting → Text
  | .precision => "high_precision"
  | .level => "log_level"
  | .longestExpression => "max_expression_length"
  | .failureMarker => "failure_marker"

/-- The joined name of a setting. -/
def joinedName : Setting → Text
  | .precision => "highPrecision"
  | .level => "logLevel"
  | .longestExpression => "maxExpressionLength"
  | .failureMarker => "failureMarker"

/-- The environment variable of a setting. -/
def environmentName? : Setting → Option Text
  | .precision => some "CALC_HIGH_PRECISION"
  | .level => some "CALC_LOG_LEVEL"
  | .longestExpression => some "CALC_MAX_EXPRESSION_LENGTH"
  | .failureMarker => none

/-- What is given for a setting, with the name that it is given under. -/
def given (s : Setting) (data : List (Text × Datum)) : Option (Text × Datum) :=
  match data.lookup s.joinedName with
  | some d => some (s.joinedName, d)
  | none => (data.lookup s.name).map fun d => (s.name, d)

end Setting

namespace Settings

/-- The settings with one of them changed. -/
def change (settings : Settings) (s : Setting) (d : Datum) : Except Complaint Settings :=
  match s with
  | .precision =>
    d.asSwitch.map fun on => { settings with precision := if on then .high else .standard }
  | .level => d.asLevel.map fun l => { settings with level := l }
  | .longestExpression => d.asPositive.map fun n => { settings with longestExpression := n }
  | .failureMarker => d.asText.map fun t => { settings with failureMarker := t }

/-- A complaint with the name of what it is about. -/
abbrev Complaints := List (Text × Complaint)

/-- A complaint at its place in the order of the names. -/
def insertComplaint (c : Text × Complaint) : Complaints → Complaints
  | [] => [c]
  | d :: rest => if c.1.precedes d.1 then c :: d :: rest else d :: insertComplaint c rest

/-- The settings with everything changed that is given, and the complaints. -/
def collect (data : List (Text × Datum)) : List Setting → Settings × Complaints →
    Settings × Complaints
  | [], result => result
  | s :: rest, (settings, complaints) =>
    match s.given data with
    | none => collect data rest (settings, complaints)
    | some (name, d) =>
      match settings.change s d with
      | .ok settings => collect data rest (settings, complaints)
      | .error c => collect data rest (settings, insertComplaint (name, c) complaints)

/-- The settings that named data give; what is not given keeps its default, and names that
are no setting are ignored. -/
def ofData (data : List (Text × Datum)) : Except Complaints Settings :=
  let (settings, complaints) := collect data Setting.all ({}, [])
  if complaints.isEmpty then .ok settings else .error complaints

/-- The data that environment variables give; an empty variable gives nothing. -/
def environmentData (environment : List (Text × Text)) : List (Text × Datum) :=
  Setting.all.filterMap fun s =>
    match s.environmentName?.bind fun n => environment.lookup n with
    | some (c :: rest) => some (s.name, .text (c :: rest))
    | _ => none

/-- The settings that environment variables give. -/
def ofEnvironment (environment : List (Text × Text)) : Except Complaints Settings :=
  ofData (environmentData environment)

end Settings

end Reckon
