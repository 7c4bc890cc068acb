import Reckon.Grammar.Reading

/-!
# Levels

A tree is read, counted and evaluated by recursion, so the stack of the machine must have room for
the levels of the recursion. The limits on the depth and on the nodes bound those of reading and of
evaluating. But the nodes of a tree are counted level by level before their number is compared with
its bound, and a chain of operators is as high as it is long (`Expr.height`). `Statement.levels`
says how many levels the reading of a statement enters, with the counting at its end, and
`Expr.evaluationLevels` how many the evaluation of a tree enters.
-/

namespace Reckon

/-- The levels for which a stack usually has room. -/
def usualStack : Nat := 990

namespace Expr

mutual

/-- The levels that a recursion over a tree enters : one for each node on the way down, `operands`
more for an operator and `arguments` more for a call. -/
def levels (operands arguments : Nat) : Expr → Nat
  | .number .. => 1
  | .string .. => 1
  | .variable .. => 1
  | .group inner _ => 1 + inner.levels operands arguments
  | .binary _ left right _ =>
    1 + operands + max (left.levels operands arguments) (right.levels operands arguments)
  | .call _ es _ => 1 + arguments + levelsOfAll operands arguments es

/-- The levels of the deepest recursion over one of several trees. -/
def levelsOfAll (operands arguments : Nat) : List Expr → Nat
  | [] => 0
  | e :: rest => max (e.levels operands arguments) (levelsOfAll operands arguments rest)

end

variable (e : Expr)

/-- The levels that the counting of the nodes enters : the tree is so high. -/
def height : Nat := e.levels 0 0

/-- The levels that the evaluation enters : the operator is a level of its own, and so are the call
and the list of its arguments. -/
def evaluationLevels : Nat := e.levels 1 2

end Expr

/-- The levels between an expression and its operands : the three of the operators and the one of
the operands. -/
def operandLevels : Nat := 4

/-- The levels from a parenthesis on outwards, up to the next one : the list of the arguments of a
call is one of its own. -/
def Opening.levels : Opening → Nat
  | .group _ => operandLevels
  | .call .. => operandLevels + 1

/-- The levels from the innermost of several open parentheses on outwards. -/
def Enclosure.levelsOfAll : List Enclosure → Nat
  | [] => 0
  | ⟨_, opening⟩ :: outside => opening.levels + levelsOfAll outside

namespace Reader

/-- The levels that are entered in a state. -/
def entered (r : Reader) : Nat :=
  Enclosure.levelsOfAll r.enclosures +
    (match r.expecting with
      | .firstArgument => 0
      | _ => operandLevels)

/-- The tree whose nodes are counted if the reading ends in front of the lexeme : an operand is
complete, no parenthesis is open, and the lexeme opens none behind a name. -/
def counted? (r : Reader) (next : Option Lexeme) : Option Expr :=
  match r.enclosures, r.expecting with
  | [], .afterOperand e => some (complete r.waiting e)
  | [], .afterName n p =>
    if next = some .left then none else some (complete r.waiting (.variable n p))
  | _, _ => none

/-- The levels of the counting, if the reading ends in front of the lexeme. -/
def countedLevels (r : Reader) (next : Option Lexeme) : Nat :=
  ((r.counted? next).map Expr.height).getD 0

/-- The levels that are entered from a state on, those of the counting included where the reading
ends. -/
def levels (limits : Limits) : Reader → List Token → Nat
  | r, [] => max r.entered (r.countedLevels none)
  | r, t :: rest =>
    max r.entered
      (match r.step limits t with
        | .error _ => r.countedLevels (some t.lexeme)
        | .ok next => next.levels limits rest)

end Reader

namespace Statement

/-- The levels that the reading of a statement enters. -/
def levels (limits : Limits) (source : Text) : Nat :=
  match tokens limits source with
  | .error _ => 0
  | .ok ts => Reader.start.levels limits (Form.ofTokens ts).2

/-- Reads a statement on a stack with room for so many levels, if that is enough room. -/
def parseOn (stack : Nat) (limits : Limits) (source : Text) : Option (Except Report Statement) :=
  if stack < levels limits source then none else some (parse limits source)

end Statement

end Reckon
