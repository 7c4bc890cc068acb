import Mathlib.Data.List.Induction
import Reckon.Proofs.Session.Sequel

/-!
# The calls of trees

`Expr.calls` lists the calls of a tree in the order in which they are completed, those of the
arguments of a call before the call itself. A session keeps the names of what was called once each,
in the order of their first calls : adding them one by one (`addName`) leaves the names without
their repetitions (`foldl_addName_nil`).
-/

namespace Reckon

namespace Expr

mutual

/-- The names of the functions that a tree calls, in the order in which the calls are completed. -/
def calls : Expr → List Text
  | .number .. => []
  | .string .. => []
  | .variable .. => []
  | .group inner _ => inner.calls
  | .binary _ left right _ => left.calls ++ right.calls
  | .call n arguments _ => callsOfAll arguments ++ [n]

/-- The names of the functions that several trees call. -/
def callsOfAll : List Expr → List Text
  | [] => []
  | e :: rest => e.calls ++ callsOfAll rest

end

end Expr

/-- The statements that a run executes if none of them fails : those up to the first that
returns. -/
def Statement.executed (limits : Limits) : List Text → List Statement
  | [] => []
  | source :: rest =>
    match parse limits source with
    | .error _ => []
    | .ok st => st :: if st.form = .result then [] else executed limits rest

/-- Statements that can all be read, and none of which returns, are all executed. -/
theorem Statement.executed_eq {limits : Limits} {sources : List Text} {sts : List Statement}
    (h : List.Forall₂ (fun source st => parse limits source = .ok st) sources sts)
    (hforms : ∀ st ∈ sts, st.form ≠ .result) : executed limits sources = sts := by
  induction h with
  | nil => rfl
  | @cons source st rest sts hst _ ih =>
    obtain ⟨hform, hforms⟩ := List.forall_mem_cons.1 hforms
    rw [executed, hst]
    simp only [if_neg hform, ih hforms]

/-- The names with one more at the end, unless it is among them. -/
def addName (names : List Text) (n : Text) : List Text :=
  if n ∈ names then names else names ++ [n]

theorem mem_addName {names : List Text} {n m : Text} : m ∈ addName names n ↔ m ∈ names ∨ m = n := by
  unfold addName
  split
  · rename_i hn
    exact ⟨.inl, fun h => h.elim id fun hm => hm ▸ hn⟩
  · rw [List.mem_append, List.mem_singleton]

theorem mem_foldl_addName {ns : List Text} {m : Text} : ∀ {names : List Text},
    m ∈ ns.foldl addName names ↔ m ∈ names ∨ m ∈ ns := by
  induction ns with
  | nil => simp
  | cons n ns ih =>
    intro names
    rw [List.foldl_cons, ih, mem_addName, List.mem_cons, or_assoc]

theorem eraseDups_append_singleton {α : Type} [BEq α] [LawfulBEq α] (l : List α) (x : α) :
    (l ++ [x]).eraseDups = if x ∈ l then l.eraseDups else l.eraseDups ++ [x] := by
  rw [List.eraseDups_append]
  by_cases hx : x ∈ l
  · simp [hx, List.removeAll]
  · simp [hx, List.removeAll, List.eraseDups_cons]

/-- Names that are added one by one are there once each, in the order of their first places. -/
theorem foldl_addName_nil (ns : List Text) : ns.foldl addName [] = ns.eraseDups := by
  induction ns using List.reverseRecOn with
  | nil => rfl
  | append_singleton ns n ih =>
    rw [List.foldl_append, ih, eraseDups_append_singleton]
    simp only [List.foldl_cons, List.foldl_nil, addName, List.mem_eraseDups]

end Reckon
