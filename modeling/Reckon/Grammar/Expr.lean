import Reckon.Grammar.Token

/-!
# Expressions

The tree of an expression. Each node keeps its position in the statement : an operator that
of its mark, a call that of its name, every other node that of its first code point.
`Expr.nodes` counts the nodes, and `Expr.outline` shows the tree one node a line.
-/

namespace Reckon

/-- An expression. -/
inductive Expr where
  /-- A number, its sign read as part of it. -/
  | number (value : SignedNumeral) (position : Nat)
  /-- A string. -/
  | string (value : Text) (position : Nat)
  /-- A variable. -/
  | variable (name : Text) (position : Nat)
  /-- An expression in parentheses. -/
  | group (inner : Expr) (position : Nat)
  /-- Two operands around an operator. -/
  | binary (op : Operator) (left right : Expr) (position : Nat)
  /-- A call of a function. -/
  | call (name : Text) (arguments : List Expr) (position : Nat)
  deriving Repr

namespace Expr

/-- The position of a node. -/
def position : Expr → Nat
  | .number _ p | .string _ p | .variable _ p | .group _ p | .binary _ _ _ p | .call _ _ p => p

mutual

/-- The number of nodes of a tree. -/
def nodes : Expr → Nat
  | .number .. => 1
  | .string .. => 1
  | .variable .. => 1
  | .group inner _ => 1 + inner.nodes
  | .binary _ left right _ => 1 + left.nodes + right.nodes
  | .call _ arguments _ => 1 + nodesOfAll arguments

/-- The number of nodes of several trees. -/
def nodesOfAll : List Expr → Nat
  | [] => 0
  | e :: rest => e.nodes + nodesOfAll rest

end

/-- The blanks in front of a line of an outline. -/
def indent (depth : Int) : Text := Text.spaces (2 * depth).toNat

/-- A line of an outline. -/
def outlineLine (depth : Int) (kind : String) (content : Text) : Text :=
  indent depth ++ Text.ofString kind ++ Text.ofString ": " ++ content

mutual

/-- The lines of the outline of a tree, each node two blanks deeper than its parent. -/
def outlineLines (depth : Int) : Expr → List Text
  | .number n _ =>
    [outlineLine depth (if n.numeral.isInteger then "Integer" else "Number") n.text]
  | .string v _ =>
    [outlineLine depth "String" (CodePoint.quote :: v ++ [CodePoint.quote])]
  | .variable n _ => [outlineLine depth "Identifier" n]
  | .group inner _ =>
    (indent depth ++ Text.ofString "Parenthesized:") :: outlineLines (depth + 1) inner
  | .binary op left right _ =>
    outlineLine depth "BinaryOp" op.text ::
      (outlineLines (depth + 1) left ++ outlineLines (depth + 1) right)
  | .call n arguments _ =>
    outlineLine depth "FunctionCall" n :: outlineLinesOfAll (depth + 1) arguments

/-- The lines of the outlines of several trees. -/
def outlineLinesOfAll (depth : Int) : List Expr → List Text
  | [] => []
  | e :: rest => outlineLines depth e ++ outlineLinesOfAll depth rest

end

/-- The tree as text, one node a line. -/
def outline (e : Expr) (depth : Int) : Text :=
  Text.join (Text.ofString "\n") (outlineLines depth e)

end Expr

/-- What a statement does with its value. -/
inductive Form where
  /-- The value becomes the result so far. -/
  | bare
  /-- The value is bound to a name. -/
  | binding (target : Text)
  /-- The value ends the session. -/
  | result
  deriving DecidableEq, Repr

/-- A statement with the text that it was read from. -/
structure Statement where
  /-- What it does with its value. -/
  form : Form
  /-- The expression of its value. -/
  expression : Expr
  /-- The text of the statement. -/
  source : Text
  deriving Repr

end Reckon
