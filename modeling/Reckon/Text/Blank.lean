import Reckon.Text.Basic
import Reckon.Text.Ranges

/-!
# Blanks

The code points that count as white space around a statement, and `Text.trim`, which
removes them from both ends of a text. The zero-width space and the byte order mark are
not among them; the information separators `1C` to `1F` are. Around a number that is given
as a text the separators do not count as white space; what does there is a margin
(`Text.withoutMargins`).
-/

namespace Reckon

/-- The ranges of the blanks. -/
def blankRanges : Ranges := [
  (0x9, 0xD), (0x1C, 0x20), (0x85, 0x85), (0xA0, 0xA0), (0x1680, 0x1680), (0x2000, 0x200A),
  (0x2028, 0x2029), (0x202F, 0x202F), (0x205F, 0x205F), (0x3000, 0x3000)]

/-- A blank code point. -/
def CodePoint.isBlank (c : CodePoint) : Bool := blankRanges.has c.val

/-- A blank that is no information separator. -/
def CodePoint.isMargin (c : CodePoint) : Bool :=
  c.isBlank && !(decide (0x1C ≤ c.val) && decide (c.val ≤ 0x1F))

namespace Text

/-- The text from its first code point that is not blank. -/
def trimStart (t : Text) : Text := t.dropWhile CodePoint.isBlank

/-- The text up to its last code point that is not blank. -/
def trimEnd (t : Text) : Text := (t.reverse.dropWhile CodePoint.isBlank).reverse

/-- The text without the blanks at its ends. -/
def trim (t : Text) : Text := trimEnd (trimStart t)

/-- The text has no code point but blanks. -/
def isBlank (t : Text) : Bool := t.all CodePoint.isBlank

/-- The text without the margins at its ends. -/
def withoutMargins (t : Text) : Text :=
  ((t.dropWhile CodePoint.isMargin).reverse.dropWhile CodePoint.isMargin).reverse

end Text

end Reckon
