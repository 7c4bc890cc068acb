import Reckon.Text.Basic

/-!
# Limits

The bounds on one evaluation. The engine has no clock; these bounds are all that keeps a
call small. A bound is exceeded by what is greater than it, so a zero or negative bound is
a bound like any other.
-/

namespace Reckon

/-- A quantity that is bounded. -/
inductive Limit where
  /-- The code points of an expression, and of each of its statements. -/
  | expressionLength
  /-- The statements of an expression. -/
  | statements
  /-- The parentheses and calls around a place. -/
  | depth
  /-- The nodes of the tree of a statement. -/
  | nodes
  /-- The code points of a string. -/
  | stringLength
  /-- The arguments of a call. -/
  | arguments
  deriving DecidableEq, Repr

/-- The name under which a limit is reported. -/
def Limit.name : Limit → Text
  | .expressionLength => "max_expression_length"
  | .statements => "max_statements"
  | .depth => "max_ast_depth"
  | .nodes => "max_ast_nodes"
  | .stringLength => "max_string_length"
  | .arguments => "max_function_args"

/-- The bounds on one evaluation. -/
structure Limits where
  /-- The greatest length of an expression. -/
  expressionLength : Int := 4096
  /-- The greatest number of statements. -/
  statements : Int := 64
  /-- The greatest depth of parentheses and calls. -/
  depth : Int := 32
  /-- The greatest number of nodes of a statement. -/
  nodes : Int := 256
  /-- The greatest length of a string. -/
  stringLength : Int := 1024
  /-- The greatest number of arguments. -/
  arguments : Int := 16
  deriving DecidableEq, Repr

/-- A limit that was exceeded, with its bound and what exceeded it. -/
structure Excess where
  /-- The limit. -/
  limit : Limit
  /-- Its bound. -/
  bound : Int
  /-- The size that is greater. -/
  actual : Int
  deriving DecidableEq, Repr

namespace Limits

/-- The bound of a limit. -/
def bound (limits : Limits) : Limit → Int
  | .expressionLength => limits.expressionLength
  | .statements => limits.statements
  | .depth => limits.depth
  | .nodes => limits.nodes
  | .stringLength => limits.stringLength
  | .arguments => limits.arguments

/-- Refuses a size above its bound. -/
def check (limits : Limits) (limit : Limit) (actual : Int) : Except Excess Unit :=
  if limits.bound limit < actual then .error ⟨limit, limits.bound limit, actual⟩ else .ok ()

theorem check_eq_ok_iff (limits : Limits) (limit : Limit) (actual : Int) :
    limits.check limit actual = .ok () ↔ actual ≤ limits.bound limit := by
  unfold check
  split
  · simp only [reduceCtorEq, false_iff]; omega
  · simp only [true_iff]; omega

theorem check_eq_error_iff {limits : Limits} {limit : Limit} {actual : Int} {x : Excess} :
    limits.check limit actual = .error x ↔
      limits.bound limit < actual ∧ x = ⟨limit, limits.bound limit, actual⟩ := by
  unfold check
  split
  · rename_i h
    simp only [h, true_and, Except.error.injEq, eq_comm]
  · rename_i h
    simp only [reduceCtorEq, h, false_and]

end Limits

end Reckon
