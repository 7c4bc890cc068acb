import Reckon.Source.Literal
import Reckon.Text.Letter

/-!
# Bare arguments of `string`

`string(hello)` hashes the bare text between its parentheses. Before anything else is read,
the argument of every such call becomes a string literal (`argumentLiteral`) : an argument
in quotation marks is left as it is, one in backticks is taken raw, and any other has its
escapes decoded. Strings outside of calls are copied, and a call that is never closed is
left alone.

`replaceArguments` goes through an expression from left to right; all it remembers is whether
the code point before is part of a word, for `substring(` is no call of `string`.
-/

namespace Reckon.StringCall

/-- What a call of `string` starts with. -/
def opening : Text := "string("

/-- The code points of a quoted run up to and with its closing mark, which is `mark`; a
backslash takes the next code point with it. -/
def quotedLength (mark : CodePoint) : Text → Nat
  | [] => 0
  | c :: rest =>
    if c = CodePoint.backslash then
      match rest with
      | [] => 1
      | _ :: more => quotedLength mark more + 2
    else if c = mark then 1
    else quotedLength mark rest + 1

/-- The code points in front of the parenthesis that closes a call, if one does. `mark` is
the mark of the quoted run around the place, and `depth` the number of parentheses opened
since the call. -/
def argumentLength? (mark : Option CodePoint) (depth : Nat) : Text → Option Nat
  | [] => none
  | c :: rest =>
    if c = CodePoint.backslash then
      match rest with
      | [] => none
      | _ :: more => (argumentLength? mark depth more).map (· + 2)
    else
      match mark with
      | some m =>
        (argumentLength? (if c = m then none else some m) depth rest).map (· + 1)
      | none =>
        if c = CodePoint.quote ∨ c = CodePoint.backtick then
          (argumentLength? (some c) depth rest).map (· + 1)
        else if c = CodePoint.ofChar '(' then
          (argumentLength? none (depth + 1) rest).map (· + 1)
        else if c = CodePoint.ofChar ')' then
          match depth with
          | 0 => some 0
          | d + 1 => (argumentLength? none d rest).map (· + 1)
        else (argumentLength? none depth rest).map (· + 1)

/-- The text that an escape in a bare argument stands for; an unknown escape stands for
itself. -/
def unescape (c : CodePoint) : Text :=
  if c = CodePoint.ofChar 'n' then [CodePoint.ofNat 10]
  else if c = CodePoint.ofChar 't' then [CodePoint.ofNat 9]
  else if c = CodePoint.backslash ∨ c = CodePoint.ofChar '(' ∨ c = CodePoint.ofChar ')' then [c]
  else [CodePoint.backslash, c]

/-- A bare argument with its escapes decoded. -/
def unescaped : Text → Text
  | [] => []
  | c :: rest =>
    if c = CodePoint.backslash then
      match rest with
      | [] => [c]
      | d :: more => unescape d ++ unescaped more
    else c :: unescaped rest

/-- The text lies between two marks of its own. -/
def isEnclosed (mark : CodePoint) (t : Text) : Bool :=
  decide (2 ≤ t.length) && t.head? == some mark && t.getLast? == some mark

/-- An argument of `string` as a string literal. -/
def argumentLiteral (argument : Text) : Text :=
  if isEnclosed CodePoint.quote argument then argument
  else if isEnclosed CodePoint.backtick argument then
    Text.literal (argument.drop 1).dropLast
  else Text.literal (unescaped argument)

/-- The code point is part of a word. -/
def isWordPart (c : CodePoint) : Bool := c.isAlphanumeric || c == CodePoint.ofChar '_'

/-- The expression with the argument of every call of `string` made a literal. `joined` says
that the code point before is part of a word. -/
def replaceArguments (joined : Bool) : Text → Text
  | [] => []
  | c :: rest =>
    if c = CodePoint.quote then
      let n := quotedLength CodePoint.quote rest
      c :: rest.take n ++ replaceArguments false (rest.drop n)
    else if !joined && opening.isPrefixOf (c :: rest) then
      let inside := rest.drop 6
      match argumentLength? none 0 inside with
      | some n =>
        opening ++ argumentLiteral (inside.take n) ++ Text.ofString ")" ++
          replaceArguments false (inside.drop (n + 1))
      | none => c :: replaceArguments (isWordPart c) rest
    else c :: replaceArguments (isWordPart c) rest
termination_by t => t.length
decreasing_by all_goals (simp only [List.length_cons, List.length_drop]; omega)

end Reckon.StringCall

namespace Reckon

/-- The expression with the argument of every call of `string` made a literal. -/
def Text.withLiteralArguments (t : Text) : Text := StringCall.replaceArguments false t

end Reckon
