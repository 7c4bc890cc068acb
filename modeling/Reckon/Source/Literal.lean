import Reckon.Number.Digits

/-!
# String literals

`Text.literal` writes a text as a string literal. A quotation mark, a backslash and the
controls below the space are written as escapes, everything else as itself, so the literal
holds no line break and ends at its last quotation mark.
-/

namespace Reckon

namespace CodePoint

/-- A hexadecimal digit, in lower case. -/
def ofHexDigit (n : Nat) : CodePoint :=
  if n % 16 < 10 then ofNat (48 + n % 16) else ofNat (87 + n % 16)

/-- The `u` escape of a code point below `10000`. -/
def unicodeEscape (n : Nat) : Text :=
  [backslash, ofChar 'u', ofHexDigit (n / 4096), ofHexDigit (n / 256), ofHexDigit (n / 16),
    ofHexDigit n]

/-- The code point as it stands in a string literal. -/
def inLiteral (c : CodePoint) : Text :=
  if c = quote ∨ c = backslash then [backslash, c]
  else if c = ofNat 10 then [backslash, ofChar 'n']
  else if c = ofNat 13 then [backslash, ofChar 'r']
  else if c = ofNat 9 then [backslash, ofChar 't']
  else if c = ofNat 12 then [backslash, ofChar 'f']
  else if c = ofNat 8 then [backslash, ofChar 'b']
  else if c.val < 32 then unicodeEscape c.val
  else [c]

end CodePoint

/-- The text as a string literal. -/
def Text.literal (t : Text) : Text :=
  CodePoint.quote :: t.flatMap CodePoint.inLiteral ++ [CodePoint.quote]

end Reckon
