import Reckon.Limits
import Reckon.Number.Numeral

/-!
# Faults and reports

A fault is what is wrong with an expression. A `Report` says where : it adds the position
and the statement, if they are known. `Report.message` is the one-line wording, and
`Report.context` shows the statement below it with a caret under the position.
-/

namespace Reckon

/-- What is wrong with the characters of a statement. -/
inductive LexicalFault where
  /-- A colon without an equals sign. -/
  | loneColon
  /-- A code point that starts nothing. -/
  | strayCodePoint (c : CodePoint)
  /-- A string without its closing quotation mark. -/
  | openString
  /-- A line break inside a string. -/
  | lineBreak
  /-- A backslash in front of a code point that makes no escape. -/
  | unknownEscape (c : CodePoint)
  /-- A `u` escape without four hexadecimal digits. -/
  | shortUnicodeEscape
  /-- A power of ten without digits. -/
  | missingExponent
  /-- A number followed by what cannot follow one. -/
  | runOnNumber (c : CodePoint)
  /-- Anything else, in its own words. -/
  | described (cause : Text)
  deriving DecidableEq, Repr

/-- What is wrong with the order of the tokens of a statement. -/
inductive GrammarFault where
  /-- The statement ends too early. -/
  | endOfStatement
  /-- A token where none of its kind can stand. -/
  | unexpected (token : Text)
  /-- A sign in front of something else than a number. -/
  | loneSign (sign : Sign)
  /-- Arguments without their closing parenthesis. -/
  | openArguments
  /-- A parenthesis without its partner. -/
  | openGroup
  /-- Anything else, in its own words. -/
  | described (cause : Text)
  deriving DecidableEq, Repr

/-- What is wrong with an expression. -/
inductive Fault where
  /-- A fault in its own words. -/
  | general (message : Text)
  /-- The characters of a statement make no tokens. -/
  | lexical (cause : LexicalFault)
  /-- The tokens of a statement make no tree. -/
  | grammar (cause : GrammarFault)
  /-- There is no statement. -/
  | empty
  /-- A limit is exceeded. -/
  | exceeded (limit : Text) (bound actual : Int)
  /-- An evaluation fails, in its own words. -/
  | evaluation (message : Text)
  /-- A variable is read before it is bound. -/
  | undefinedVariable (name : Text)
  /-- A call names no function. -/
  | unknownFunction (name : Text)
  /-- An operator other than `+` meets a string. -/
  | stringOperator (operator : Text)
  /-- The right operand of `/` or `%` is zero. -/
  | divisionByZero
  /-- A function fails, in its own words. -/
  | function (name message : Text)
  /-- A call has the wrong number of arguments. -/
  | arity (name : Text) (expected actual : Int)
  /-- An argument or operand has the wrong kind. -/
  | kind (name expected actual : Text)
  deriving DecidableEq, Repr

/-- The wording of a lexical fault. -/
def LexicalFault.text : LexicalFault → Text
  | .loneColon => "Unexpected ':'. Did you mean ':='?"
  | .strayCodePoint c =>
    Text.ofString "Unexpected character: '" ++ [c] ++ Text.ofString "'"
  | .openString => "Unterminated string"
  | .lineBreak => "Unterminated string (newline in string literal)"
  | .unknownEscape c =>
    Text.ofString "Invalid escape sequence: " ++ [CodePoint.backslash, c]
  | .shortUnicodeEscape => "Invalid unicode escape: expected 4 hex digits"
  | .missingExponent => "Invalid number: expected exponent digits"
  | .runOnNumber c =>
    Text.ofString "Invalid number: unexpected '" ++ [c] ++ Text.ofString "'"
  | .described cause => cause

/-- The wording of a grammatical fault. -/
def GrammarFault.text : GrammarFault → Text
  | .endOfStatement => "Unexpected end of statement"
  | .unexpected token => Text.ofString "Unexpected token: " ++ token
  | .loneSign sign =>
    Text.ofString "Unary '" ++ [sign.codePoint] ++
      Text.ofString "' is only allowed before a number literal"
  | .openArguments => "Expected ')' after function arguments"
  | .openGroup => "Expected ')' after expression"
  | .described cause => cause

namespace Fault

/-- The cause of a malformed statement, after the statement if it is known. -/
def malformed (statement : Option Text) (cause : Text) : Text :=
  match statement with
  | none => cause
  | some s =>
    Text.ofString "parse error in statement '" ++ s ++ Text.ofString "': " ++ cause

/-- The wording of a fault in a statement. -/
def message (statement : Option Text) : Fault → Text
  | .general m => m
  | .lexical cause => malformed statement cause.text
  | .grammar cause => malformed statement cause.text
  | .empty => "Expression is empty"
  | .exceeded limit bound actual =>
    Text.ofString "Limit exceeded: " ++ limit ++ Text.ofString " (limit: " ++ Text.ofInt bound ++
      Text.ofString ", actual: " ++ Text.ofInt actual ++ Text.ofString ")"
  | .evaluation m => m
  | .undefinedVariable name => Text.ofString "Undefined variable: " ++ name
  | .unknownFunction name => Text.ofString "Unknown function: " ++ name
  | .stringOperator operator => Text.ofString "Unsupported string operation: " ++ operator
  | .divisionByZero => "Division by zero"
  | .function name m => name ++ Text.ofString ": " ++ m
  | .arity name expected actual =>
    name ++ Text.ofString ": expected " ++ Text.ofInt expected ++
      Text.ofString " argument(s), got " ++ Text.ofInt actual
  | .kind name expected actual =>
    name ++ Text.ofString ": type error: expected " ++ expected ++
      Text.ofString ", got " ++ actual

end Fault

/-- A fault with its place. -/
structure Report where
  /-- What is wrong. -/
  fault : Fault
  /-- The position in the statement, if it is known. -/
  position : Option Int := none
  /-- The statement, if it is known. -/
  statement : Option Text := none
  deriving DecidableEq, Repr

namespace Report

/-- The report of an exceeded limit; it has no place. -/
def ofExcess (e : Excess) : Report := ⟨.exceeded e.limit.name e.bound e.actual, none, none⟩

/-- The wording of the fault. -/
def message (r : Report) : Text := r.fault.message r.statement

/-- The statement below a message, and a caret below the position. -/
def pointing (message statement : Text) (position : Int) : Text :=
  let indent := Text.ofString "\n  "
  message ++ indent ++ statement ++ indent ++ Text.spaces position.toNat ++ Text.ofString "^"

/-- The wording of the fault with the statement and a caret, if the place is known. -/
def context (r : Report) : Text :=
  match r.statement, r.position with
  | some s, some p => pointing r.message s p
  | _, _ => r.message

end Report

/-- Why a statement was not read : a fault at a position of it, or an exceeded limit. -/
inductive Halt where
  /-- A fault at a position. -/
  | fault (fault : Fault) (position : Nat)
  /-- An exceeded limit. -/
  | exceeded (excess : Excess)
  deriving DecidableEq, Repr

/-- The report on a statement that was not read. -/
def Halt.report (source : Text) : Halt → Report
  | .fault f p => ⟨f, some p, some source⟩
  | .exceeded e => Report.ofExcess e

end Reckon
