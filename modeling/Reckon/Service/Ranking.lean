import Reckon.Service.Ranking.Merging

/-!
# Ranking

A list is put in order run by run. A new run waits on top of those before it, and waiting
runs are joined where the boundary between them lies deeper than the new one : a boundary is
deep if the halves, quarters, eighths and so on of the list tell its two sides apart late.
This is the order for elements of which some cannot be compared; for others it is the one
order in which equal elements keep their places.
-/

namespace Reckon.Ranking

-- Powers are those of core, also where there are others.
attribute [local instance (high)] instPowNat

variable {α : Type} (less : α → α → Bool)

/-- A run that waits to be joined. -/
structure Waiting (α : Type) where
  /-- The run. -/
  run : List α
  /-- The place of its first element in the list. -/
  start : Nat
  /-- The depth of the boundary to the run above. -/
  depth : Nat

/-- The runs that wait, the last one on top, and the patience. -/
abbrev Bench (α : Type) := List (Waiting α) × Nat

/-- The depth of the boundary between two neighbouring runs in a list of length `n` : the
first power of two by which the list must be cut so that the middles of the runs fall into
different parts. -/
def boundaryDepth (n start first second : Nat) : Nat :=
  let a := 2 * start + first
  let b := a + first + second
  (((List.range n.log2).find? fun r => a * 2 ^ r / n != b * 2 ^ r / n).getD n.log2) + 1

/-- Joins the runs on top as long as the boundary below the uppermost is deeper. -/
def joinDeeper (depth : Nat) : Bench α → Bench α
  | (top :: below :: rest, patience) =>
    if depth < below.depth then
      let (run, p) := join less patience below.run top.run
      joinDeeper depth (⟨run, below.start, below.depth⟩ :: rest, p)
    else (top :: below :: rest, patience)
  | bench => bench
termination_by bench => bench.1.length

/-- The runs that wait after one more in a list of length `n`. -/
def push (n : Nat) (bench : Bench α) (run : List α) : Bench α :=
  match bench.1 with
  | [] => ([⟨run, 0, 0⟩], bench.2)
  | top :: _ =>
    let depth := boundaryDepth n top.start top.run.length run.length
    let start := top.start + top.run.length
    match joinDeeper less depth bench with
    | (top :: rest, p) => (⟨run, start, 0⟩ :: ⟨top.run, top.start, depth⟩ :: rest, p)
    | ([], p) => ([⟨run, start, 0⟩], p)

/-- All runs that wait, joined from the top; the second joins the third if that is shorter
than the first. -/
def joinAll : Bench α → List α
  | ([], _) => []
  | ([top], _) => top.run
  | ([top, second], patience) => (join less patience second.run top.run).1
  | (top :: second :: third :: rest, patience) =>
    if third.run.length < top.run.length then
      let (run, p) := join less patience third.run second.run
      joinAll (top :: ⟨run, third.start, third.depth⟩ :: rest, p)
    else
      let (run, p) := join less patience second.run top.run
      joinAll (⟨run, second.start, second.depth⟩ :: third :: rest, p)
termination_by bench => bench.1.length

/-- The list in rising order. -/
def ranked (l : List α) : List α :=
  joinAll less ((runs less (leastLength l.length) l).foldl (push less l.length) ([], worthwhile))

/-- The list in falling order; equal elements keep their order here too. -/
def rankedDown (l : List α) : List α := (ranked less l.reverse).reverse

end Reckon.Ranking
