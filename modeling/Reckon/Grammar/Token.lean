import Reckon.Number.Numeral

/-!
# Tokens

A lexeme is a meaningful piece of a statement and a token is a lexeme at a position.
Operators bind at three levels : powers loosest, then sums, then products.
-/

namespace Reckon

/-- A binary operator. -/
inductive Operator where
  | plus
  | minus
  | times
  | divide
  | modulo
  | power
  deriving DecidableEq, Repr

namespace Operator

/-- How tightly the operator binds. -/
def level : Operator → Nat
  | .power => 0
  | .plus | .minus => 1
  | .times | .divide | .modulo => 2

/-- The mark of the operator. -/
def codePoint : Operator → CodePoint
  | .plus => CodePoint.ofChar '+'
  | .minus => CodePoint.ofChar '-'
  | .times => CodePoint.ofChar '*'
  | .divide => CodePoint.ofChar '/'
  | .modulo => CodePoint.ofChar '%'
  | .power => CodePoint.ofChar '^'

/-- The operator as text. -/
def text (op : Operator) : Text := [op.codePoint]

/-- The sign that looks like the operator. -/
def sign? : Operator → Option Sign
  | .plus => some .plus
  | .minus => some .minus
  | _ => none

theorem level_le (op : Operator) : op.level ≤ 2 := by
  cases op <;> simp [level]

end Operator

/-- A meaningful piece of a statement. -/
inductive Lexeme where
  /-- A number without a sign. -/
  | number (numeral : Numeral)
  /-- A string, by the text it stands for. -/
  | string (value : Text)
  /-- A name. -/
  | name (name : Text)
  /-- The word `return`. -/
  | result
  /-- An operator, or the sign of a number. -/
  | operator (op : Operator)
  /-- The assignment mark `=`. -/
  | equals
  /-- The assignment mark `:=`. -/
  | define
  /-- An opening parenthesis. -/
  | left
  /-- A closing parenthesis. -/
  | right
  /-- A comma. -/
  | comma
  deriving DecidableEq, Repr

namespace Lexeme

/-- The word that ends a session with a value. -/
def resultWord : Text := "return"

/-- The lexeme as text; a string by its value. -/
def text : Lexeme → Text
  | .number n => n.text
  | .string v => v
  | .name n => n
  | .result => resultWord
  | .operator op => op.text
  | .equals => "="
  | .define => ":="
  | .left => "("
  | .right => ")"
  | .comma => ","

/-- The lexeme as it is named in a message; an empty string has only its kind to show. -/
def shown : Lexeme → Text
  | .string [] => "STRING"
  | l => l.text

end Lexeme

/-- A lexeme at a position of its statement. -/
structure Token where
  /-- The lexeme. -/
  lexeme : Lexeme
  /-- The position of its first code point. -/
  position : Nat
  deriving DecidableEq, Repr

end Reckon
