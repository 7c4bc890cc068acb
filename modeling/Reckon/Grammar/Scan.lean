import Reckon.Fault
import Reckon.Grammar.Token
import Reckon.Text.Letter

/-!
# Scanning

`scan` reads the lexeme at the start of a text and says how many code points it takes. It
always takes as many as it can : a name to its last letter, digit or low line, a number to
its last digit, a string to its closing quotation mark. It knows nothing of the position,
so a lexeme is read alike wherever it stands; a fault is placed by its distance from the
start of the lexeme. `tokens` scans a statement to its end, skipping spaces, tabs and line
ends between the lexemes.
-/

namespace Reckon

namespace CodePoint

/-- White space between lexemes. -/
def isGap (c : CodePoint) : Bool :=
  c == ofChar ' ' || c == ofChar '\t' || c == ofChar '\n' || c == ofChar '\r'

/-- The start of a name. -/
def startsName (c : CodePoint) : Bool := c == lowLine || c.isLetter

/-- The continuation of a name. -/
def continuesName (c : CodePoint) : Bool := c.startsName || c.isDigit

end CodePoint

namespace Scan

/-- A fault and its distance from the start of the lexeme. -/
abbrev Outcome (α : Type) := Except (LexicalFault × Nat) α

/-! ## Numbers -/

/-- The digits at the start of a text, and the rest. -/
def digits : Text → List Digit × Text
  | [] => ([], [])
  | c :: rest =>
    match Digit.ofCodePoint? c with
    | some d => let (ds, after) := digits rest; (d :: ds, after)
    | none => ([], c :: rest)

/-- A point and its digits, if there is a point. -/
def fraction : Text → Option (List Digit) × Text
  | [] => (none, [])
  | c :: rest =>
    if c = CodePoint.ofChar '.' then
      let (ds, after) := digits rest
      (some ds, after)
    else (none, c :: rest)

/-- A sign, if there is one. -/
def sign : Text → Option Sign × Text
  | [] => (none, [])
  | c :: rest =>
    match Sign.ofCodePoint? c with
    | some s => (some s, rest)
    | none => (none, c :: rest)

/-- A power of ten, if there is one; its letter must be followed by digits. -/
def power : Text → Except LexicalFault (Option Power × Text)
  | [] => .ok (none, [])
  | c :: rest =>
    if c = CodePoint.ofChar 'e' ∨ c = CodePoint.ofChar 'E' then
      let (s, unsigned) := sign rest
      match digits unsigned with
      | ([], _) => .error .missingExponent
      | (d :: ds, after) => .ok (some ⟨decide (c = CodePoint.ofChar 'E'), s, d :: ds⟩, after)
    else .ok (none, c :: rest)

/-- The numeral at the start of a text, and the rest. -/
def numeral (t : Text) : Except LexicalFault (Numeral × Text) :=
  let (whole, t₁) := digits t
  let (places, t₂) := fraction t₁
  match power t₂ with
  | .error f => .error f
  | .ok (p, rest) => .ok (⟨whole, places, p⟩, rest)

/-- What cannot follow a number directly. -/
def continuesNumber (c : CodePoint) : Bool := c.startsName || c == CodePoint.ofChar '.'

/-- The number at the start of a text. -/
def number (t : Text) : Outcome (Lexeme × Nat) :=
  match numeral t with
  | .error f => .error (f, 0)
  | .ok (n, []) => .ok (.number n, n.text.length)
  | .ok (n, c :: _) =>
    if continuesNumber c then .error (.runOnNumber c, n.text.length)
    else .ok (.number n, n.text.length)

/-! ## Strings -/

/-- The code point that an escape of one letter stands for. -/
def shortEscape? (c : CodePoint) : Option CodePoint :=
  if c = CodePoint.quote ∨ c = CodePoint.apostrophe ∨ c = CodePoint.backslash
      ∨ c = CodePoint.ofChar '/' then some c
  else if c = CodePoint.ofChar 'a' then some (CodePoint.ofNat 7)
  else if c = CodePoint.ofChar 'b' then some (CodePoint.ofNat 8)
  else if c = CodePoint.ofChar 'f' then some (CodePoint.ofNat 12)
  else if c = CodePoint.ofChar 'n' then some (CodePoint.ofNat 10)
  else if c = CodePoint.ofChar 'r' then some (CodePoint.ofNat 13)
  else if c = CodePoint.ofChar 't' then some (CodePoint.ofNat 9)
  else if c = CodePoint.ofChar 'v' then some (CodePoint.ofNat 11)
  else none

/-- The number that four hexadecimal digits write. -/
def hexFour? : Text → Option Nat
  | a :: b :: c :: d :: _ => do
    let a ← a.hexValue?
    let b ← b.hexValue?
    let c ← c.hexValue?
    let d ← d.hexValue?
    return ((a * 16 + b) * 16 + c) * 16 + d
  | _ => none

/-- The first half of a surrogate pair. -/
def isHighSurrogate (n : Nat) : Bool := decide (0xD800 ≤ n) && decide (n ≤ 0xDBFF)

/-- The second half of a surrogate pair. -/
def isLowSurrogate (n : Nat) : Bool := decide (0xDC00 ≤ n) && decide (n ≤ 0xDFFF)

/-- The four digits of a further `u` escape, if the text goes on with one. -/
def furtherEscape? : Text → Option Text
  | a :: b :: rest =>
    if a = CodePoint.backslash ∧ b = CodePoint.ofChar 'u' then some rest else none
  | _ => none

/-- The code point of a `u` escape, read after its `u`, and the code points it takes there.
Two escapes that make a surrogate pair are read as one code point; the first half of a pair
may stand alone, but a `u` escape that follows it needs its four digits all the same. -/
def unicodeEscape (t : Text) : Except LexicalFault (CodePoint × Nat) :=
  match hexFour? t with
  | none => .error .shortUnicodeEscape
  | some high =>
    if isHighSurrogate high then
      match furtherEscape? (t.drop 4) with
      | none => .ok (CodePoint.ofNat high, 4)
      | some rest =>
        match hexFour? rest with
        | none => .error .shortUnicodeEscape
        | some low =>
          if isLowSurrogate low then
            .ok (CodePoint.ofNat (0x10000 + (high - 0xD800) * 1024 + (low - 0xDC00)), 10)
          else .ok (CodePoint.ofNat high, 4)
    else .ok (CodePoint.ofNat high, 4)

/-- The code point of an escape, read after its backslash, and the code points it takes
there. -/
def escape : Text → Except LexicalFault (CodePoint × Nat)
  | [] => .error .openString
  | c :: rest =>
    match shortEscape? c with
    | some d => .ok (d, 1)
    | none =>
      if c = CodePoint.ofChar 'u' then
        match unicodeEscape rest with
        | .error f => .error f
        | .ok (d, n) => .ok (d, n + 1)
      else .error (.unknownEscape c)

/-- The place of a fault in an escape : an open string is reported at its start, every
other fault at the backslash. -/
def escapeFault (offset : Nat) : LexicalFault → LexicalFault × Nat
  | .openString => (.openString, 0)
  | f => (f, offset)

/-- The value of a string from `offset` on, and the code points up to and with its closing
quotation mark. -/
def stringBody (offset : Nat) : Text → Outcome (Text × Nat)
  | [] => .error (.openString, 0)
  | c :: rest =>
    if c = CodePoint.quote then .ok ([], 1)
    else if c = CodePoint.backslash then
      match escape rest with
      | .error f => .error (escapeFault offset f)
      | .ok (d, n) =>
        match stringBody (offset + 1 + n) (rest.drop n) with
        | .error f => .error f
        | .ok (value, m) => .ok (d :: value, m + 1 + n)
    else if c = CodePoint.ofChar '\n' ∨ c = CodePoint.ofChar '\r' then .error (.lineBreak, 0)
    else
      match stringBody (offset + 1) rest with
      | .error f => .error f
      | .ok (value, m) => .ok (c :: value, m + 1)
termination_by t => t.length
decreasing_by all_goals (simp only [List.length_cons, List.length_drop]; omega)

/-! ## Lexemes -/

/-- The mark that is a lexeme by itself. -/
def mark? (c : CodePoint) : Option Lexeme :=
  if c = CodePoint.ofChar '(' then some .left
  else if c = CodePoint.ofChar ')' then some .right
  else if c = CodePoint.ofChar ',' then some .comma
  else if c = CodePoint.ofChar '+' then some (.operator .plus)
  else if c = CodePoint.ofChar '-' then some (.operator .minus)
  else if c = CodePoint.ofChar '*' then some (.operator .times)
  else if c = CodePoint.ofChar '/' then some (.operator .divide)
  else if c = CodePoint.ofChar '%' then some (.operator .modulo)
  else if c = CodePoint.ofChar '^' then some (.operator .power)
  else if c = CodePoint.ofChar '=' then some .equals
  else none

/-- The lexeme of a word : a name, or the word that returns. -/
def word (w : Text) : Lexeme := if w = Lexeme.resultWord then .result else .name w

/-- The text starts with a digit, or with a point and a digit. -/
def startsNumber (c : CodePoint) (rest : Text) : Bool :=
  c.isDigit || (c == CodePoint.ofChar '.' && rest.head?.any CodePoint.isDigit)

/-- The lexeme at the start of a text that starts with no gap, and its length. -/
def scan (c : CodePoint) (rest : Text) : Outcome (Lexeme × Nat) :=
  if c = CodePoint.ofChar ':' then
    if rest.head? = some (CodePoint.ofChar '=') then .ok (.define, 2)
    else .error (.loneColon, 0)
  else
    match mark? c with
    | some l => .ok (l, 1)
    | none =>
      if c = CodePoint.quote then
        match stringBody 1 rest with
        | .error f => .error f
        | .ok (value, n) => .ok (.string value, n + 1)
      else if startsNumber c rest then number (c :: rest)
      else if c.startsName then
        let w := c :: rest.takeWhile CodePoint.continuesName
        .ok (word w, w.length)
      else .error (.strayCodePoint c, 0)

/-- Refuses a string that is too long. -/
def checkString (limits : Limits) : Lexeme → Except Excess Unit
  | .string value => limits.check .stringLength value.length
  | _ => .ok ()

/-- The tokens of a text whose first code point stands at `position`. -/
def tokensFrom (limits : Limits) (position : Nat) : Text → Except Halt (List Token)
  | [] => .ok []
  | c :: rest =>
    if c.isGap then tokensFrom limits (position + 1) rest
    else
      match scan c rest with
      | .error (f, offset) => .error (.fault (.lexical f) (position + offset))
      | .ok (l, n) =>
        match checkString limits l with
        | .error e => .error (.exceeded e)
        | .ok () =>
          match tokensFrom limits (position + n) (rest.drop (n - 1)) with
          | .error h => .error h
          | .ok more => .ok (⟨l, position⟩ :: more)
termination_by t => t.length
decreasing_by all_goals (simp only [List.length_cons, List.length_drop]; omega)

end Scan

/-- The tokens of a statement of bounded length. -/
def tokens (limits : Limits) (source : Text) : Except Halt (List Token) :=
  match limits.check .expressionLength source.length with
  | .error e => .error (.exceeded e)
  | .ok () => Scan.tokensFrom limits 0 source

end Reckon
