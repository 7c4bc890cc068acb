import Reckon.Source.Literal
import Reckon.Text.Hidden

/-!
# Displayed texts

`Text.displayed` shows a text between apostrophes, or between quotation marks if it holds
an apostrophe and no quotation mark. The mark, the backslash and every hidden code point
are written as escapes.
-/

namespace Reckon

-- Powers are those of core, also where there are others, and so exponents need their type.
attribute [local instance (high)] instPowNat

namespace CodePoint

/-- A code point as the shortest escape that can hold it. -/
def numericEscape (n : Nat) : Text :=
  if n < 0x100 then [backslash, ofChar 'x', ofHexDigit (n / 16), ofHexDigit n]
  else if n < 0x10000 then unicodeEscape n
  else
    [backslash, ofChar 'U', ofHexDigit (n / 2 ^ (28 : Nat)), ofHexDigit (n / 2 ^ (24 : Nat)),
      ofHexDigit (n / 2 ^ (20 : Nat)), ofHexDigit (n / 2 ^ (16 : Nat)),
      ofHexDigit (n / 2 ^ (12 : Nat)), ofHexDigit (n / 2 ^ (8 : Nat)),
      ofHexDigit (n / 2 ^ (4 : Nat)), ofHexDigit n]

/-- The code point as it is displayed between two marks. -/
def displayed (mark c : CodePoint) : Text :=
  if c = mark ∨ c = backslash then [backslash, c]
  else if c = ofNat 10 then [backslash, ofChar 'n']
  else if c = ofNat 13 then [backslash, ofChar 'r']
  else if c = ofNat 9 then [backslash, ofChar 't']
  else if c.isHidden then numericEscape c.val
  else [c]

end CodePoint

/-- The text between two marks, with escapes for what cannot be seen. -/
def Text.displayed (t : Text) : Text :=
  let mark :=
    if t.contains CodePoint.apostrophe && !t.contains CodePoint.quote then CodePoint.quote
    else CodePoint.apostrophe
  mark :: t.flatMap (CodePoint.displayed mark) ++ [mark]

end Reckon
