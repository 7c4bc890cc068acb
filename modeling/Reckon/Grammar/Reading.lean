import Reckon.Fault
import Reckon.Grammar.Expr
import Reckon.Grammar.Scan

/-!
# Reading

An expression is read token by token. The reader's state (`Reader`) is what a viewer would
note down at that point : the parentheses and calls that are still open, the operands that
wait for a right partner, and what must come next. One step takes one token
(`Reader.step`), so a token that cannot stand where it does is refused when it is met.

Operators of one level group to the left. When an operator comes, every waiting operand
whose operator binds at least as tightly is finished first (`absorb`); so the operators of
the waiting operands bind more and more tightly. A sign belongs to the number that
follows it; there is no sign of an expression. A name becomes a call by the parenthesis
behind it.

Here reading has as much stack as it needs. How much that is, and what becomes of a statement
without it, is in `Reader.levels` and `Statement.parseOn`.
-/

namespace Reckon

/-- An operand with its operator, waiting for the right operand. -/
structure Waiting where
  /-- The left operand. -/
  left : Expr
  /-- The operator. -/
  op : Operator
  /-- The position of the operator. -/
  position : Nat

/-- What a parenthesis was opened for. -/
inductive Opening where
  /-- An expression in parentheses. -/
  | group (position : Nat)
  /-- A call, with the arguments that are complete. -/
  | call (name : Text) (position : Nat) (arguments : List Expr)

/-- An open parenthesis and the operands that wait in front of it. -/
structure Enclosure where
  /-- The operands in front of the parenthesis, the nearest first. -/
  waiting : List Waiting
  /-- What was opened. -/
  opening : Opening

/-- What must come next. -/
inductive Expecting where
  /-- An operand. -/
  | operand
  /-- The first argument of a call, or the end of the call. -/
  | firstArgument
  /-- The number of a sign. -/
  | signedNumber (sign : Sign) (position : Nat)
  /-- A parenthesis that makes the name a call, or what follows an operand. -/
  | afterName (name : Text) (position : Nat)
  /-- What follows an operand. -/
  | afterOperand (e : Expr)

/-- The state of reading an expression. -/
structure Reader where
  /-- The open parentheses, the innermost first. -/
  enclosures : List Enclosure
  /-- The operands that wait since the innermost one, the nearest first. -/
  waiting : List Waiting
  /-- What must come next. -/
  expecting : Expecting

namespace Reader

/-- Nothing is read. -/
def start : Reader := ⟨[], [], .operand⟩

/-- Finishes the waiting operands whose operators bind at least at `level`. -/
def absorb (level : Nat) : List Waiting → Expr → List Waiting × Expr
  | [], e => ([], e)
  | w :: rest, e =>
    if level ≤ w.op.level then absorb level rest (.binary w.op w.left e w.position)
    else (w :: rest, e)

/-- Finishes all waiting operands. -/
def complete (waiting : List Waiting) (e : Expr) : Expr := (absorb 0 waiting e).2

/-- Opens a parenthesis, within the bound on the depth. -/
def openWith (limits : Limits) (r : Reader) (opening : Opening) (next : Expecting) :
    Except Halt Reader :=
  match limits.check .depth (r.enclosures.length + 1 : Nat) with
  | .error e => .error (.exceeded e)
  | .ok () => .ok ⟨⟨r.waiting, opening⟩ :: r.enclosures, [], next⟩

/-- Ends a call, within the bound on its arguments. -/
def endCall (limits : Limits) (outside : List Enclosure) (waiting : List Waiting) (name : Text)
    (position : Nat) (arguments : List Expr) : Except Halt Reader :=
  match limits.check .arguments arguments.length with
  | .error e => .error (.exceeded e)
  | .ok () => .ok ⟨outside, waiting, .afterOperand (.call name arguments position)⟩

/-- A token where an operand must start. -/
def operand (limits : Limits) (r : Reader) (t : Token) : Except Halt Reader :=
  let become (e : Expecting) : Except Halt Reader := .ok { r with expecting := e }
  let refuse : Except Halt Reader :=
    .error (.fault (.grammar (.unexpected t.lexeme.shown)) t.position)
  match t.lexeme with
  | .number n => become (.afterOperand (.number ⟨none, n⟩ t.position))
  | .string v => become (.afterOperand (.string v t.position))
  | .name n => become (.afterName n t.position)
  | .left => openWith limits r (.group t.position) .operand
  | .operator op =>
    match op.sign? with
    | some s => become (.signedNumber s t.position)
    | none => refuse
  | _ => refuse

/-- The expression that is read so far, if no parenthesis is open at `position`; its size is
checked here, and to count its nodes takes a stack as high as it is (`Reader.countedLevels`). -/
def closed (limits : Limits) (enclosures : List Enclosure) (e : Expr) (position : Nat) :
    Except Halt Expr :=
  match enclosures with
  | ⟨_, .group _⟩ :: _ => .error (.fault (.grammar .openGroup) position)
  | ⟨_, .call ..⟩ :: _ => .error (.fault (.grammar .openArguments) position)
  | [] =>
    match limits.check .nodes e.nodes with
    | .error x => .error (.exceeded x)
    | .ok () => .ok e

/-- A token after a complete operand. -/
def after (limits : Limits) (r : Reader) (e : Expr) (t : Token) : Except Halt Reader :=
  let whole := complete r.waiting e
  let refuse : Except Halt Reader :=
    match closed limits r.enclosures whole t.position with
    | .error h => .error h
    | .ok _ => .error (.fault (.grammar (.unexpected t.lexeme.shown)) t.position)
  match t.lexeme, r.enclosures with
  | .operator op, _ =>
    let (waiting, left) := absorb op.level r.waiting e
    .ok { r with waiting := ⟨left, op, t.position⟩ :: waiting, expecting := .operand }
  | .right, ⟨waiting, .group p⟩ :: outside =>
    .ok ⟨outside, waiting, .afterOperand (.group whole p)⟩
  | .right, ⟨waiting, .call n p arguments⟩ :: outside =>
    endCall limits outside waiting n p (arguments ++ [whole])
  | .comma, ⟨waiting, .call n p arguments⟩ :: outside =>
    .ok ⟨⟨waiting, .call n p (arguments ++ [whole])⟩ :: outside, [], .operand⟩
  | _, _ => refuse

/-- One token. -/
def step (limits : Limits) (r : Reader) (t : Token) : Except Halt Reader :=
  match r.expecting with
  | .operand => operand limits r t
  | .firstArgument =>
    match t.lexeme, r.enclosures with
    | .right, ⟨waiting, .call n p arguments⟩ :: outside =>
      endCall limits outside waiting n p arguments
    | _, _ => operand limits r t
  | .signedNumber s p =>
    match t.lexeme with
    | .number n => .ok { r with expecting := .afterOperand (.number ⟨some s, n⟩ p) }
    | _ => .error (.fault (.grammar (.loneSign s)) p)
  | .afterName n p =>
    match t.lexeme with
    | .left => openWith limits r (.call n p []) .firstArgument
    | _ => after limits r (.variable n p) t
  | .afterOperand e => after limits r e t

/-- The end of the statement. -/
def finish (limits : Limits) (r : Reader) (position : Nat) : Except Halt Expr :=
  match r.expecting with
  | .operand | .firstArgument => .error (.fault (.grammar .endOfStatement) position)
  | .signedNumber s p => .error (.fault (.grammar (.loneSign s)) p)
  | .afterName n p =>
    closed limits r.enclosures (complete r.waiting (.variable n p)) position
  | .afterOperand e => closed limits r.enclosures (complete r.waiting e) position

/-- Reads on from a state to the end of the statement. -/
def run (limits : Limits) (position : Nat) : Reader → List Token → Except Halt Expr
  | r, [] => r.finish limits position
  | r, t :: rest =>
    match r.step limits t with
    | .error h => .error h
    | .ok next => run limits position next rest

end Reader

/-- The expression that a list of tokens writes, in a text that ends at `position`. -/
def Expr.ofTokens (limits : Limits) (position : Nat) (ts : List Token) : Except Halt Expr :=
  Reader.start.run limits position ts

/-- The form that the first tokens of a statement give it, and the tokens of its
expression. -/
def Form.ofTokens : List Token → Form × List Token
  | ⟨.result, _⟩ :: rest => (.result, rest)
  | ⟨.name n, _⟩ :: ⟨.define, _⟩ :: rest => (.binding n, rest)
  | ⟨.name n, _⟩ :: ⟨.equals, _⟩ :: rest => (.binding n, rest)
  | ts => (.bare, ts)

namespace Statement

/-- Reads a statement; what stops it is left without the statement. -/
def read (limits : Limits) (source : Text) : Except Halt Statement :=
  match tokens limits source with
  | .error h => .error h
  | .ok ts =>
    let (form, rest) := Form.ofTokens ts
    match Expr.ofTokens limits source.length rest with
    | .error h => .error h
    | .ok e => .ok ⟨form, e, source⟩

/-- Reads a statement, or reports why there is none, with as much stack as that takes. -/
def parse (limits : Limits) (source : Text) : Except Report Statement :=
  (read limits source).mapError (Halt.report source)

end Statement

end Reckon
