import Reckon.Service.Ranking.Runs

/-!
# Merging

Two neighbouring runs are joined into one. What stands in front of the first element of the
second run and behind the last element of the first stays where it is, and the two middles
are woven together, from the front if the first is not longer and else from the back.
Weaving goes element by element until one run has been taken from often enough without a
break; then it leaps over whole stretches, as long as they are worth it. How often is often
enough is the patience, which grows and shrinks with the success of the leaps. For elements
that can all be compared the pace does not matter to the result.
-/

namespace Reckon.Ranking

variable {α : Type}

/-! ## Leaps -/

/-- The distances `1`, `3`, `7` and so on up to `most` : the last one that is gone on from,
and the first one that is not. -/
def strides (goesOn : Nat → Bool) (most last step : Nat) : Nat × Nat :=
  if step < most ∧ goesOn step then strides goesOn most step (2 * step + 1)
  else (last, min step most)
termination_by most - step

/-- The end of the elements that pass, searched from `hint` on : in growing strides to the
side where it lies, then by bisection. -/
def boundary (passes : α → Bool) (l : List α) (hint : Nat) : Nat :=
  let passesAt (i : Nat) : Bool := l[i]?.any passes
  if passesAt hint then
    let (last, step) := strides (fun d => passesAt (hint + d)) (l.length - hint) 0 1
    bisect passes l (hint + last + 1) (hint + step)
  else
    let (last, step) := strides (fun d => !passesAt (hint - d)) (hint + 1) 0 1
    bisect passes l (hint + 1 - step) (hint - last)

/-! ## Weaving -/

/-- What is decided in weaving two runs. -/
structure Weave (α : Type) where
  /-- Of the two next elements, that of the first run is taken. -/
  takesFirst : α → α → Bool
  /-- A round of leaps begins with the first run. -/
  firstLeaps : Bool
  /-- The number of elements of the first run that go before the next one of the second. -/
  firstLead : α → List α → Nat
  /-- The number of elements of the second run that go before the next one of the first. -/
  secondLead : α → List α → Nat

/-- The pace of weaving. -/
inductive Pace where
  /-- One by one, after so many elements without a break of the first run or the second. -/
  | single (firsts seconds : Nat)
  /-- In leaps, early or late in a round, after an earlier leap in the round. -/
  | leap (late : Bool) (earlier : Nat)
  deriving DecidableEq, Repr

/-- The least leap that is worth a further round, and the patience at the start. -/
def worthwhile : Nat := 7

namespace Pace

/-- The pace after one more element without a break of the first run. -/
def afterFirst (patience firsts : Nat) : Pace :=
  if patience ≤ firsts + 1 then .leap false 0 else .single (firsts + 1) 0

/-- The pace after one more element without a break of the second run. -/
def afterSecond (patience seconds : Nat) : Pace :=
  if patience ≤ seconds + 1 then .leap false 0 else .single 0 (seconds + 1)

/-- The pace and the patience after a leap. -/
def afterLeap (patience : Nat) (late : Bool) (earlier lead : Nat) : Pace × Nat :=
  if !late then (.leap true lead, patience)
  else if worthwhile ≤ earlier ∨ worthwhile ≤ lead then (.leap false 0, max 1 (patience - 1))
  else (.single 0 0, patience + 1)

end Pace

/-- Nothing is left to weave : the first run is used up, or the second to its last element,
which goes behind the first run. -/
def settled (xs ys : List α) : Bool := xs.isEmpty || decide (ys.length ≤ 1)

/-- Two runs woven together, and the patience at the end. -/
def weave (w : Weave α) (pace : Pace) (patience : Nat) : List α → List α → List α × Nat
  | x :: xs, y :: z :: ys =>
    match pace with
    | .single firsts seconds =>
      if w.takesFirst x y then
        let (woven, p) := weave w (.afterFirst patience firsts) patience xs (y :: z :: ys)
        (x :: woven, p)
      else
        let (woven, p) := weave w (.afterSecond patience seconds) patience (x :: xs) (z :: ys)
        (y :: woven, p)
    | .leap late earlier =>
      if w.firstLeaps != late then
        let lead := w.firstLead y (x :: xs)
        let rest := (x :: xs).drop lead
        if settled rest (y :: z :: ys) then
          ((x :: xs).take lead ++ (rest ++ y :: z :: ys), patience)
        else
          let (next, q) := Pace.afterLeap patience late earlier lead
          let (woven, p) :=
            weave w next (if settled rest (z :: ys) then patience else q) rest (z :: ys)
          ((x :: xs).take lead ++ y :: woven, p)
      else
        let lead := w.secondLead x (y :: z :: ys)
        let rest := (y :: z :: ys).drop lead
        if settled (x :: xs) rest then
          ((y :: z :: ys).take lead ++ (x :: xs ++ rest), patience)
        else
          let (next, q) := Pace.afterLeap patience late earlier lead
          let (woven, p) := weave w next (if settled xs rest then patience else q) xs rest
          ((y :: z :: ys).take lead ++ x :: woven, p)
  | xs, ys => (xs ++ ys, patience)
termination_by xs ys => xs.length + ys.length
decreasing_by all_goals (simp only [List.length_cons, List.length_drop]; omega)

/-! ## Joining -/

variable (less : α → α → Bool)

/-- Weaving from the front : the first run is the later one in the list, of which an element
is taken if it is less. -/
def forwards : Weave α where
  takesFirst x y := less x y
  firstLeaps := false
  firstLead y xs := boundary (fun e => less e y) xs 0
  secondLead x ys := boundary (fun e => !less x e) ys 0

/-- Weaving from the back : both runs are turned around, and the first run is the earlier
one in the list, of which an element is taken if it is greater. -/
def backwards : Weave α where
  takesFirst x y := less y x
  firstLeaps := true
  firstLead y xs := xs.length - boundary (fun e => !less y e) xs.reverse (xs.length - 1)
  secondLead x ys := ys.length - boundary (fun e => less e x) ys.reverse (ys.length - 1)

/-- The middles of two runs joined, and the patience at the end : the second starts with the
first element of all, and the first ends with the last. -/
def joinMiddles (patience : Nat) (a b : List α) : List α × Nat :=
  if a.length ≤ b.length then
    match b with
    | [] => (a, patience)
    | y :: ys =>
      let (woven, p) := weave (forwards less) (.single 0 0) patience ys a
      (y :: woven, p)
  else
    match a.reverse with
    | [] => (b, patience)
    | x :: xs =>
      let (woven, p) := weave (backwards less) (.single 0 0) patience xs b.reverse
      ((x :: woven).reverse, p)

/-- Two neighbouring runs joined, and the patience at the end. -/
def join (patience : Nat) (a b : List α) : List α × Nat :=
  match b.head? with
  | none => (a, patience)
  | some y =>
    let start := boundary (fun e => !less y e) a 0
    match (a.drop start).getLast? with
    | none => (a ++ b, patience)
    | some x =>
      let stop := boundary (fun e => less e x) b (b.length - 1)
      let (middle, p) := joinMiddles less patience (a.drop start) (b.take stop)
      (a.take start ++ middle ++ b.drop stop, p)

end Reckon.Ranking
