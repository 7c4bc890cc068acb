import Reckon.Operation

/-!
# Functions

The twelve functions of the language. `sqrt` follows the precision; `sin`, `cos`, `tan`, `log`,
`exp` and `pow` are functions of doubles that the library works out at either precision. `complex`,
`re` and `im` take a number apart or put it together without rounding. `string` hashes a text (`Text.hash`), and `rand` takes the next draw. A
`Registry` says under which names the functions are called.
-/

namespace Reckon

-- Powers are those of core, also where there are others, and so exponents need their type.
attribute [local instance (high)] instPowNat

/-- The rolling hash of a text : at each code point `31` times the hash so far plus the code
point, in 64-bit words, the result read as a signed word. -/
def Text.hash (t : Text) : Int :=
  let word : Nat := t.foldl (fun h c => (h * 31 + c.val) % 2 ^ (64 : Nat)) 0
  if word < 2 ^ (63 : Nat) then word else (word : Int) - 2 ^ (64 : Nat)

/-- A function of the language. -/
inductive Builtin where
  | sqrt
  | pow
  | rand
  | sin
  | cos
  | tan
  | log
  | exp
  | complex
  | re
  | im
  | string
  deriving DecidableEq, Repr

namespace Builtin

/-- All functions. -/
def all : List Builtin :=
  [.sqrt, .pow, .rand, .sin, .cos, .tan, .log, .exp, .complex, .re, .im, .string]

/-- The name of the function. -/
def name : Builtin → Text
  | .sqrt => "sqrt"
  | .pow => "pow"
  | .rand => "rand"
  | .sin => "sin"
  | .cos => "cos"
  | .tan => "tan"
  | .log => "log"
  | .exp => "exp"
  | .complex => "complex"
  | .re => "re"
  | .im => "im"
  | .string => "string"

/-- The number of arguments. -/
def arity : Builtin → Nat
  | .rand => 0
  | .pow | .complex => 2
  | _ => 1

/-- The fault of an argument of the wrong kind. -/
def mismatch (b : Builtin) (expected : Kind) (v : Value) : Trouble :=
  .fault (.kind b.name expected.name v.kind.name)

/-- The real part of an argument, which must be a number. -/
def realPart (b : Builtin) : Value → Except Trouble Decimal
  | .number r _ _ => .ok r
  | v => .error (b.mismatch .number v)

/-- The value of a function of doubles at a number. -/
def onDouble (f : Double → Double) (d : Decimal) : Except Trouble Value :=
  match d.toDouble with
  | .error s => .error (.signal s)
  | .ok x => .ok (.real (f x).toDecimal)

/-- The value of a function at a number. -/
def ofReal [Library] (b : Builtin) (precision : Precision) (d : Decimal) : Except Trouble Value :=
  match b, precision with
  | .sqrt, .high =>
    match d.squareRoot with
    | .error s => .error (.signal s)
    | .ok r => .ok (.real r)
  | .sqrt, .standard => onDouble Double.squareRoot d
  | .sin, _ => onDouble Double.sin d
  | .cos, _ => onDouble Double.cos d
  | .tan, _ => onDouble Double.tan d
  | .log, _ => onDouble Double.log d
  | .exp, _ => onDouble Double.exp d
  | _, _ => .ok (.real d)

/-- The imaginary part of an argument, which must have one. -/
def imaginaryPart : Value → Except Trouble Value
  | .number _ (some i) _ => .ok (.real i)
  | .number r none k => .error (mismatch .im .complex (.number r none k))
  | .string t => .error (mismatch .im .number (.string t))

/-- The hash of an argument, which must be a string. -/
def hashOf : Value → Except Trouble Value
  | .string t => .ok (.number (Decimal.ofInt t.hash) none true)
  | v => .error (mismatch .string .string v)

/-- The value of a function at two numbers. -/
def ofReals [Library] (b : Builtin) (x y : Decimal) : Except Trouble Value :=
  match b with
  | .pow =>
    match Operator.onDoubles Double.power x y with
    | .error t => .error t
    | .ok d => .ok (.real d)
  | _ => .ok (.number x (some y) false)

/-- The function at arguments of the right number; `draw` is the next random draw. -/
def apply [Library] (b : Builtin) (precision : Precision) (draw : Double) :
    List Value → Except Trouble Value
  | [] => .ok (.real draw.toDecimal)
  | [v] =>
    match b with
    | .im => imaginaryPart v
    | .string => hashOf v
    | _ =>
      match b.realPart v with
      | .error t => .error t
      | .ok d => b.ofReal precision d
  | v :: w :: _ =>
    match b.realPart v, b.realPart w with
    | .error t, _ => .error t
    | _, .error t => .error t
    | .ok x, .ok y => b.ofReals x y

end Builtin

/-- The functions that can be called, by name. -/
abbrev Registry := List (Text × Builtin)

namespace Registry

/-- Every function under its own name. -/
def standard : Registry := Builtin.all.map fun b => (b.name, b)

/-- The function of a name. -/
def find (functions : Registry) (name : Text) : Except Trouble Builtin :=
  match functions.lookup name with
  | some b => .ok b
  | none => .error (.fault (.unknownFunction name))

/-- Calls a function by name; the number of arguments must be right. -/
def call [Library] (functions : Registry) (precision : Precision) (draw : Double) (name : Text)
    (arguments : List Value) : Except Trouble Value :=
  match functions.find name with
  | .error t => .error t
  | .ok b =>
    if arguments.length = b.arity then b.apply precision draw arguments
    else .error (.fault (.arity name b.arity arguments.length))

end Registry

end Reckon
