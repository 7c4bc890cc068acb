import Reckon.Fault
import Reckon.Source.StringCall
import Reckon.Text.Blank

/-!
# Statements of an expression

A semicolon outside of strings and parentheses ends a statement. `segments` cuts a text at
these semicolons, `statements` drops the blanks around the pieces and the pieces that hold
nothing else, and `prepare` is what happens to an expression before its statements are
read : bare arguments are made literals, and the limits are checked.
-/

namespace Reckon

namespace Segments

/-- The list with a code point in front of its first text. -/
def extend (c : CodePoint) : List Text → List Text
  | [] => [[c]]
  | first :: others => (c :: first) :: others

/-- The pieces of a text between the semicolons that end statements. `quoted` says that the
text starts inside a string, where a backslash takes the next code point with it; `depth` is
the number of open parentheses, and one that closes nothing is ignored. -/
def ofText (quoted : Bool) (depth : Nat) : Text → List Text
  | [] => [[]]
  | c :: rest =>
    if quoted then
      if c = CodePoint.backslash then
        match rest with
        | [] => [[c]]
        | d :: more => extend c (extend d (ofText true depth more))
      else extend c (ofText (!decide (c = CodePoint.quote)) depth rest)
    else if c = CodePoint.quote then extend c (ofText true depth rest)
    else if c = CodePoint.ofChar '(' then extend c (ofText false (depth + 1) rest)
    else if c = CodePoint.ofChar ')' then extend c (ofText false (depth - 1) rest)
    else if c = CodePoint.ofChar ';' ∧ depth = 0 then [] :: ofText false 0 rest
    else extend c (ofText false depth rest)

end Segments

namespace Text

/-- The pieces of a text between the semicolons that end statements. -/
def segments (t : Text) : List Text := Segments.ofText false 0 t

/-- The statements of a text, in order. -/
def statements (t : Text) : List Text :=
  (t.segments.map trim).filter fun s => !s.isEmpty

/-- The statements of an expression, ready to be read. -/
def prepare (limits : Limits) (expression : Text) : Except Report (List Text) :=
  match limits.check .expressionLength expression.length with
  | .error e => .error (Report.ofExcess e)
  | .ok () =>
    let sources := expression.withLiteralArguments.statements
    match limits.check .statements sources.length with
    | .error e => .error (Report.ofExcess e)
    | .ok () =>
      if sources.isEmpty then .error ⟨.empty, none, some expression⟩ else .ok sources

end Text

end Reckon
