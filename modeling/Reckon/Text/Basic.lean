/-!
# Text

A text is a list of code points. Surrogates are code points like any other: a string
literal can write one alone, and two that meet by concatenation stay two. Positions and
lengths everywhere in this library count code points.

`Text.precedes` is the order in which names are listed : code point by code point, a
text before its extensions.
-/

namespace Reckon

/-- A Unicode code point, surrogates included. -/
structure CodePoint where
  /-- The number of the code point. -/
  val : Nat
  /-- The code space ends at `10FFFF`. -/
  isLt : val < 0x110000
  deriving DecidableEq, Repr

namespace CodePoint

/-- The code point of a character. -/
def ofChar (c : Char) : CodePoint :=
  ⟨c.toNat, by
    have h := c.valid
    simp only [UInt32.isValidChar, Nat.isValidChar] at h
    unfold Char.toNat
    omega⟩

instance : Coe Char CodePoint := ⟨ofChar⟩

/-- The code point of a number, taken modulo the size of the code space. -/
def ofNat (n : Nat) : CodePoint := ⟨n % 0x110000, Nat.mod_lt _ (by decide)⟩

theorem ofNat_val (c : CodePoint) : ofNat c.val = c := by
  obtain ⟨v, hv⟩ := c
  simp only [ofNat, CodePoint.mk.injEq]
  exact Nat.mod_eq_of_lt hv

theorem val_ofNat {n : Nat} (h : n < 0x110000) : (ofNat n).val = n := Nat.mod_eq_of_lt h

/-- The quotation mark that opens and closes a string literal. -/
def quote : CodePoint := ofChar '\x22'

/-- The mark that starts an escape. -/
def backslash : CodePoint := ofChar '\x5c'

/-- The mark around a raw argument of a `string` call. -/
def backtick : CodePoint := ofChar '\x60'

/-- The low line, which may group the digits of a number. -/
def lowLine : CodePoint := ofChar '_'

/-- The apostrophe. -/
def apostrophe : CodePoint := ofChar '\x27'

/-- A code point between two others, ends included. -/
def between (low high : Char) (c : CodePoint) : Bool :=
  decide (low.toNat ≤ c.val) && decide (c.val ≤ high.toNat)

/-- An ASCII digit. -/
def isDigit (c : CodePoint) : Bool := c.between '0' '9'

/-- The value of a hexadecimal digit of either case. -/
def hexValue? (c : CodePoint) : Option Nat :=
  if c.isDigit then some (c.val - 48)
  else if c.between 'a' 'f' then some (c.val - 87)
  else if c.between 'A' 'F' then some (c.val - 55)
  else none

/-- The ASCII lower-case form of a code point; others are unchanged. -/
def toLower (c : CodePoint) : CodePoint :=
  if c.between 'A' 'Z' then ofNat (c.val + 32) else c

end CodePoint

/-- A sequence of code points. -/
abbrev Text := List CodePoint

instance Text.lawfulBEq : LawfulBEq Text := inferInstance

namespace Text

/-- The text of a string. -/
def ofString (s : String) : Text := s.toList.map CodePoint.ofChar

instance : Coe String Text := ⟨ofString⟩

/-- The order of texts by their code points. -/
def precedes : Text → Text → Bool
  | [], [] => false
  | [], _ :: _ => true
  | _ :: _, [] => false
  | a :: as, b :: bs =>
    if a.val < b.val then true else if b.val < a.val then false else precedes as bs

/-- `n` blanks. -/
def spaces (n : Nat) : Text := List.replicate n (CodePoint.ofChar ' ')

/-- Texts one after the other with `separator` between neighbours. -/
def join (separator : Text) : List Text → Text
  | [] => []
  | [t] => t
  | t :: u :: rest => t ++ separator ++ join separator (u :: rest)

/-- The text in ASCII lower case. -/
def toLower (t : Text) : Text := t.map CodePoint.toLower

@[simp] theorem length_spaces (n : Nat) : (spaces n).length = n := by
  simp [spaces]

theorem precedes_irrefl (t : Text) : precedes t t = false := by
  induction t with
  | nil => rfl
  | cons c t ih => simp [precedes, ih]

end Text

end Reckon
