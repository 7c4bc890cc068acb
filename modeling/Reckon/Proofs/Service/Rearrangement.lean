import Mathlib.Data.List.Basic
import Reckon.Service.Ranking

/-!
# Rankings are rearrangements

Cutting a list into runs, weaving two runs together and joining the runs that wait move elements
around, but lose none and add none. Nothing is asked of the comparison for this, so it holds of
lists with elements that cannot be compared too (`rankedDown_perm`).
-/

open scoped List

namespace Reckon.Ranking

variable {α : Type} (less : α → α → Bool)

/-! ## Runs -/

theorem bisect_le (passes : α → Bool) (l : List α) {low high : Nat} (h : low ≤ high) :
    bisect passes l low high ≤ high := by
  fun_induction bisect passes l low high with
  | case1 low high hlt middle _ ih => exact ih (by omega)
  | case2 low high hlt middle _ ih => exact Nat.le_trans (ih (by omega)) (by omega)
  | case3 => exact h

/-- An element placed in a run is one more element. -/
theorem insert_perm (run : List α) (x : α) : insert less run x ~ x :: run :=
  List.perm_insertIdx x run (bisect_le _ run (Nat.zero_le _))

theorem foldl_insert_perm (run l : List α) : l.foldl (insert less) run ~ run ++ l := by
  induction l generalizing run with
  | nil => rw [List.append_nil]; rfl
  | cons x l ih =>
    calc l.foldl (insert less) (insert less run x)
      _ ~ insert less run x ++ l := ih _
      _ ~ x :: run ++ l := (insert_perm less run x).append_right l
      _ ~ run ++ x :: l := List.perm_middle.symm

theorem firstRun_perm (x : α) (l : List α) :
    (firstRun less x l).1 ++ (firstRun less x l).2 ~ x :: l := by
  cases l with
  | nil => rfl
  | cons y l =>
    rw [firstRun]
    split
    · have h := falling_append less y l
      calc (x :: y :: (falling less y l).1).reverse ++ (falling less y l).2
        _ ~ (x :: y :: (falling less y l).1) ++ (falling less y l).2 :=
          (List.reverse_perm _).append_right _
        _ = x :: y :: l := by rw [List.cons_append, List.cons_append, h]
    · have h := rising_append less y l
      rw [List.cons_append, List.cons_append, h]

theorem extendedRun_perm (length : Nat) (x : α) (l : List α) :
    (extendedRun less length x l).1 ++ (extendedRun less length x l).2 ~ x :: l := by
  unfold extendedRun
  set run := (firstRun less x l).1
  set others := (firstRun less x l).2
  calc (others.take (length - run.length)).foldl (insert less) run ++
        others.drop (length - run.length)
    _ ~ run ++ others.take (length - run.length) ++ others.drop (length - run.length) :=
      (foldl_insert_perm less _ _).append_right _
    _ = run ++ others := by rw [List.append_assoc, List.take_append_drop]
    _ ~ x :: l := firstRun_perm less x l

/-- The runs of a list make up the list. -/
theorem flatten_runs_perm (length : Nat) (l : List α) : (runs less length l).flatten ~ l := by
  fun_induction runs less length l with
  | case1 => rfl
  | case2 x l ih =>
    rw [List.flatten_cons]
    exact (ih.append_left _).trans (extendedRun_perm less length x l)

/-! ## Weaving -/

/-- What goes around the end of a list goes around the whole list if its start is put in front. -/
theorem take_append_perm (n : Nat) (l front back : List α) {around : List α}
    (h : around ~ front ++ (l.drop n ++ back)) : l.take n ++ around ~ front ++ (l ++ back) := by
  calc l.take n ++ around
    _ ~ l.take n ++ (front ++ (l.drop n ++ back)) := h.append_left _
    _ ~ front ++ (l.take n ++ (l.drop n ++ back)) := List.perm_append_comm_assoc _ _ _
    _ = front ++ (l ++ back) := by rw [← List.append_assoc (l.take n), List.take_append_drop]

/-- Two runs woven together are the elements of both. -/
theorem weave_perm (w : Weave α) (pace : Pace) (patience : Nat) (xs ys : List α) :
    (weave w pace patience xs ys).1 ~ xs ++ ys := by
  fun_induction weave w pace patience xs ys with
  | case1 patience x xs y z ys firsts seconds htakes woven p heq ih =>
    rw [heq] at ih
    exact ih.cons x
  | case2 patience x xs y z ys firsts seconds htakes woven p heq ih =>
    rw [heq] at ih
    exact (ih.cons y).trans List.perm_middle.symm
  | case3 patience x xs y z ys late earlier hturn lead rest hsettled =>
    exact take_append_perm lead (x :: xs) [] _ (.refl _)
  | case4 patience x xs y z ys late earlier hturn lead rest hsettled next q hnext woven p heq ih =>
    rw [heq] at ih
    exact take_append_perm lead (x :: xs) [] _ ((ih.cons y).trans List.perm_middle.symm)
  | case5 patience x xs y z ys late earlier hturn lead rest hsettled =>
    have h := take_append_perm lead (y :: z :: ys) (x :: xs) [] (.refl _)
    rwa [List.append_nil, List.append_nil] at h
  | case6 patience x xs y z ys late earlier hturn lead rest hsettled next q hnext woven p heq ih =>
    rw [heq, ← List.append_nil rest] at ih
    have h := take_append_perm lead (y :: z :: ys) (x :: xs) [] (ih.cons x)
    rwa [List.append_nil] at h
  | case7 => rfl

/-! ## Joining -/

theorem joinMiddles_perm (patience : Nat) (a b : List α) :
    (joinMiddles less patience a b).1 ~ a ++ b := by
  unfold joinMiddles
  split
  · split
    · rw [List.append_nil]
    · rename_i y ys _
      have h := weave_perm (forwards less) (.single 0 0) patience ys a
      calc y :: (weave (forwards less) (.single 0 0) patience ys a).1
        _ ~ y :: ys ++ a := h.cons y
        _ ~ a ++ y :: ys := List.perm_append_comm
  · have hreverse := List.reverse_perm a
    split
    · rename_i heq
      rw [List.reverse_eq_nil_iff.1 heq, List.nil_append]
    · rename_i x xs heq
      rw [heq] at hreverse
      have h := weave_perm (backwards less) (.single 0 0) patience xs b.reverse
      calc (x :: (weave (backwards less) (.single 0 0) patience xs b.reverse).1).reverse
        _ ~ x :: (weave (backwards less) (.single 0 0) patience xs b.reverse).1 :=
          List.reverse_perm _
        _ ~ x :: xs ++ b.reverse := h.cons x
        _ ~ a ++ b := hreverse.append (List.reverse_perm b)

theorem join_perm (patience : Nat) (a b : List α) : (join less patience a b).1 ~ a ++ b := by
  unfold join
  split
  · rename_i hhead
    rw [List.head?_eq_none_iff.1 hhead, List.append_nil]
  · rename_i y _
    extract_lets start
    split
    · rfl
    · extract_lets stop
      have h := joinMiddles_perm less patience (a.drop start) (b.take stop)
      calc a.take start ++ (joinMiddles less patience (a.drop start) (b.take stop)).1 ++ b.drop stop
        _ ~ a.take start ++ (a.drop start ++ b.take stop) ++ b.drop stop :=
          (h.append_left _).append_right _
        _ = a ++ b := by
          rw [← List.append_assoc, List.take_append_drop, List.append_assoc, List.take_append_drop]

/-! ## Ranking -/

namespace Bench

/-- The elements of the runs that wait. -/
def elements (bench : Bench α) : List α := bench.1.flatMap Waiting.run

end Bench

open Bench

/-- Two runs on top are joined. -/
theorem elements_join_perm {top below : Waiting α} {rest : List (Waiting α)} {run : List α}
    {patience p start depth : Nat} (h : join less patience below.run top.run = (run, p)) :
    elements (⟨run, start, depth⟩ :: rest, p) ~ elements (top :: below :: rest, patience) := by
  have hrun := join_perm less patience below.run top.run
  rw [h] at hrun
  calc run ++ elements (rest, patience)
    _ ~ top.run ++ below.run ++ elements (rest, patience) :=
      (hrun.trans List.perm_append_comm).append_right _
    _ = elements (top :: below :: rest, patience) := List.append_assoc _ _ _

theorem joinDeeper_perm (depth : Nat) (bench : Bench α) :
    elements (joinDeeper less depth bench) ~ elements bench := by
  fun_induction joinDeeper less depth bench with
  | case1 top below rest patience hdeeper run p heq ih =>
    exact ih.trans (elements_join_perm less heq)
  | case2 => rfl
  | case3 => rfl

theorem push_perm (n : Nat) (bench : Bench α) (run : List α) :
    elements (push less n bench run) ~ run ++ elements bench := by
  unfold push
  split
  · rename_i hnil
    rw [elements, elements, hnil]
    rfl
  · rename_i top rest hcons
    extract_lets depth start
    have h := joinDeeper_perm less depth bench
    split
    · rename_i top' rest' p heq
      rw [heq] at h
      exact h.append_left run
    · rename_i p heq
      rw [heq] at h
      exact h.append_left run

theorem elements_foldl_push_perm (n : Nat) (l : List (List α)) (bench : Bench α) :
    elements (l.foldl (push less n) bench) ~ l.flatten ++ elements bench := by
  induction l generalizing bench with
  | nil => rfl
  | cons run l ih =>
    calc elements (l.foldl (push less n) (push less n bench run))
      _ ~ l.flatten ++ elements (push less n bench run) := ih _
      _ ~ l.flatten ++ (run ++ elements bench) := (push_perm less n bench run).append_left _
      _ ~ run ++ (l.flatten ++ elements bench) := List.perm_append_comm_assoc _ _ _
      _ = (run :: l).flatten ++ elements bench := by rw [List.flatten_cons, List.append_assoc]

theorem joinAll_perm (bench : Bench α) : joinAll less bench ~ elements bench := by
  fun_induction joinAll less bench with
  | case1 => rfl
  | case2 top => exact .of_eq (List.append_nil _).symm
  | case3 top second patience =>
    have h := join_perm less patience second.run top.run
    calc (join less patience second.run top.run).1
      _ ~ top.run ++ second.run := h.trans List.perm_append_comm
      _ = elements ([top, second], patience) := by simp [elements]
  | case4 top second third rest patience hshorter run p heq ih =>
    exact ih.trans ((elements_join_perm less heq).append_left top.run)
  | case5 top second third rest patience hlonger run p heq ih =>
    exact ih.trans (elements_join_perm less heq)

/-- A ranked list is a rearrangement. -/
theorem ranked_perm (l : List α) : ranked less l ~ l := by
  have hpushed := elements_foldl_push_perm less l.length (runs less (leastLength l.length) l)
    ([], worthwhile)
  have hnil : elements (([], worthwhile) : Bench α) = [] := rfl
  rw [hnil, List.append_nil] at hpushed
  exact (joinAll_perm less _).trans (hpushed.trans (flatten_runs_perm less _ l))

/-- A list ranked from the greatest on is a rearrangement, whatever the comparison. -/
theorem rankedDown_perm (l : List α) : rankedDown less l ~ l :=
  (List.reverse_perm _).trans ((ranked_perm less l.reverse).trans (List.reverse_perm l))

end Reckon.Ranking
