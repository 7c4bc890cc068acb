/-!
# Runs

A list falls into runs, stretches in rising order. A run that falls from element to element
is turned around, and a run that is too short takes in the elements behind it one by one,
each placed by bisection behind the elements that are not greater. Equal elements keep
their order. Nothing is asked of the comparison : an element that cannot be compared lands
where the bisection ends.
-/

namespace Reckon.Ranking

-- Powers are those of core, also where there are others.
attribute [local instance (high)] instPowNat

variable {α : Type} (less : α → α → Bool)

/-- The elements after `x` as long as each is less than the one before, and the others. -/
def falling (x : α) : List α → List α × List α
  | [] => ([], [])
  | y :: rest =>
    if less y x then (y :: (falling y rest).1, (falling y rest).2) else ([], y :: rest)

/-- The elements after `x` as long as none is less than the one before, and the others. -/
def rising (x : α) : List α → List α × List α
  | [] => ([], [])
  | y :: rest =>
    if less y x then ([], y :: rest) else (y :: (rising y rest).1, (rising y rest).2)

/-- The run that starts with `x`, in rising order, and the others. -/
def firstRun (x : α) : List α → List α × List α
  | [] => ([x], [])
  | y :: rest =>
    if less y x then ((x :: y :: (falling less y rest).1).reverse, (falling less y rest).2)
    else (x :: y :: (rising less y rest).1, (rising less y rest).2)

/-- The end of the elements that pass, by bisection between `low` and `high`. -/
def bisect (passes : α → Bool) (l : List α) (low high : Nat) : Nat :=
  if low < high then
    let middle := low + (high - low) / 2
    if l[middle]?.any passes then bisect passes l (middle + 1) high
    else bisect passes l low middle
  else low
termination_by high - low

/-- The run with `x` at its place. -/
def insert (run : List α) (x : α) : List α :=
  run.insertIdx (bisect (fun e => !less x e) run 0 run.length) x

/-- The least length of a run among `n` elements : all of them below 64, and else from 32 to
64, such that the number of runs comes close to a power of two. -/
def leastLength (n : Nat) : Nat :=
  let parts := 2 ^ (n.log2 - 5)
  (n + parts - 1) / parts

/-- The run that starts with `x`, extended to a length if it is shorter, and the others. -/
def extendedRun (length : Nat) (x : α) (l : List α) : List α × List α :=
  let run := (firstRun less x l).1
  let others := (firstRun less x l).2
  ((others.take (length - run.length)).foldl (insert less) run,
    others.drop (length - run.length))

theorem falling_append (x : α) (l : List α) :
    (falling less x l).1 ++ (falling less x l).2 = l := by
  induction l generalizing x with
  | nil => rfl
  | cons y l ih =>
    unfold falling
    split
    · simp [ih]
    · rfl

theorem rising_append (x : α) (l : List α) :
    (rising less x l).1 ++ (rising less x l).2 = l := by
  induction l generalizing x with
  | nil => rfl
  | cons y l ih =>
    unfold rising
    split
    · rfl
    · simp [ih]

theorem length_firstRun (x : α) (l : List α) : (firstRun less x l).2.length ≤ l.length := by
  cases l with
  | nil => simp [firstRun]
  | cons y l =>
    have hf := congrArg List.length (falling_append less y l)
    have hr := congrArg List.length (rising_append less y l)
    simp only [List.length_append] at hf hr
    simp only [firstRun, List.length_cons]
    split <;> (dsimp only; omega)

theorem length_extendedRun (length : Nat) (x : α) (l : List α) :
    (extendedRun less length x l).2.length ≤ l.length := by
  have := length_firstRun less x l
  simp only [extendedRun, List.length_drop]
  omega

/-- The runs of a list, none but the last shorter than the given length. -/
def runs (length : Nat) : List α → List (List α)
  | [] => []
  | x :: l => (extendedRun less length x l).1 :: runs length (extendedRun less length x l).2
termination_by l => l.length
decreasing_by
  have := length_extendedRun less length x l
  simp only [List.length_cons]
  omega

end Reckon.Ranking
