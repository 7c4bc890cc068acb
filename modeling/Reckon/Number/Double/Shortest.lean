import Reckon.Number.Double.Decimal

/-!
# Shortest digits

`Double.shortest` finds the fewest significant digits that read back as a given double. A
decimal with `n` digits reads back only if one of the two neighbours of the exact value on
the grid of `n` digits does, so the search tries these two for `n = 1, 2, …`; the nearer of
two hits is taken, and the even one of two equally near. The exact value has finitely many
digits and reads back, so the search ends (`Double.text` always has digits to write).

`Double.text` writes them : with a power of ten if the first digit stands below the fourth
place behind the point or above the sixth place in front of it, else in place.
-/

namespace Reckon.Double

-- Powers are those of core, also where there are others.
attribute [local instance (high)] instPowNat

/-- The digits of a positive decimal cut to `n`, or the next number with as many digits :
whichever of the two reads back as the double of `rank`, and the nearer if both do. -/
def grid? (rank : Nat) (coefficient : Nat) (first : Int) (n : Nat) : Option Nat :=
  let unit := 10 ^ (digitCount coefficient - n)
  let low := coefficient / unit
  let excess := coefficient % unit
  let place := first - n + 1
  let readsBack (m : Nat) : Bool :=
    ofDecimal (.finite false m place) == ofRank false rank
  if readsBack low then
    if readsBack (low + 1) then
      if 2 * excess < unit then some low
      else if unit < 2 * excess then some (low + 1)
      else some (low + low % 2)
    else some low
  else if readsBack (low + 1) then some (low + 1)
  else none

/-- Digits without the zeros at their end; one digit stays. -/
def significant (ds : List Digit) : List Digit :=
  match (ds.reverse.dropWhile (· == 0)).reverse with
  | [] => [0]
  | d :: rest => d :: rest

/-- The fewest digits that read back as the positive double of `rank`, and the exponent of
the first. -/
def shortest (rank : Fin infinityRank) : List Digit × Int :=
  match toDecimal (.finite false rank) with
  | .finite _ c e =>
    let first := Decimal.adjusted c e
    let found := (List.range (digitCount c)).findSome? fun i =>
      (grid? rank c first (i + 1)).map fun m => (m, first - i)
    let m := (found.getD (c, e)).1
    let place := (found.getD (c, e)).2
    (significant (digitsOf m), Decimal.adjusted m place)
  | _ => ([0], 0)

/-- The exponent of the first digit from which on a power of ten is written. -/
def powerFrom : Int := 6

/-- The exponent of the first digit below which a power of ten is written. -/
def powerBelow : Int := -4

/-- A power of ten with its sign and at least two digits. -/
def powerText (exponent : Int) : Text :=
  let size := Text.ofNat exponent.natAbs
  CodePoint.ofChar 'e' :: CodePoint.ofChar (if exponent < 0 then '-' else '+') ::
    (if size.length < 2 then CodePoint.ofChar '0' :: size else size)

/-- Digits in place, or with a power of ten if their first one stands far from the point. -/
def layout (ds : List Digit) (exponent : Int) : Text :=
  if exponent < powerBelow ∨ powerFrom ≤ exponent then
    Decimal.pointed ds 1 ++ powerText exponent
  else Decimal.pointed ds (exponent + 1)

/-- The double in the fewest digits. -/
def text : Double → Text
  | .nan => "NaN"
  | .infinite s => if s then "-Inf" else "+Inf"
  | .finite s r =>
    Decimal.signText s ++
      if r.val = 0 then Text.ofDigits [0]
      else layout (shortest r).1 (shortest r).2

end Reckon.Double
