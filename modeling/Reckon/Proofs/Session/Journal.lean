import Reckon.Proofs.Session.Execution

/-!
# The journal is only written

Nothing that a session computes depends on its journal. `Evaluation.Alike` says of two
computations that, from sessions that differ in nothing but the journal, they come to the same
outcome and to such sessions again. An expression is alike itself (`Expr.evaluate_alike`), and
so are the runs of the same sources with other indices and, if there is a source, with another
value so far (`Session.runFrom_alike`).
-/

namespace Reckon

namespace Evaluation

variable {α β : Type}

/-- Two computations come to the same outcome and, but for the journal, to the same session. -/
def Alike (x y : Evaluation α) : Prop :=
  ∀ (s : Session) (journal : List Event), ∃ journal', y { s with journal := journal } =
    ((x s).1, { (x s).2 with journal := journal' })

theorem alike_pure (a : α) : Alike (Evaluation.pure a) (Evaluation.pure a) :=
  fun _ journal => ⟨journal, rfl⟩

theorem alike_fail (f : Failure) : Alike (fail f : Evaluation α) (fail f) :=
  fun _ journal => ⟨journal, rfl⟩

theorem alike_node (position : Nat) (x : Except Trouble α) :
    Alike (node position x) (node position x) := by
  intro s journal
  refine ⟨journal, ?_⟩
  cases x <;> rfl

theorem alike_ofReport (x : Except Report α) : Alike (ofReport x) (ofReport x) := by
  intro s journal
  refine ⟨journal, ?_⟩
  cases x <;> rfl

theorem alike_note (e e' : Event) : Alike (note e) (note e') :=
  fun _ journal => ⟨journal ++ [e'], rfl⟩

theorem Alike.bind {x y : Evaluation α} {f g : α → Evaluation β} (h : Alike x y)
    (hf : ∀ a, Alike (f a) (g a)) : Alike (x >>= f) (y >>= g) := by
  intro s journal
  obtain ⟨journal, hy⟩ := h s journal
  rw [bind_apply, bind_apply, hy]
  rcases x s with ⟨e | a, t⟩
  · exact ⟨journal, rfl⟩
  · exact hf a t journal

end Evaluation

open Evaluation

namespace Session

variable {rules : Rules}

theorem read_alike (n : Text) (p : Nat) : Alike (read n p) (read n p) := by
  intro s journal
  unfold read
  exact alike_node p _ s journal

theorem call_alike (n : Text) (p : Nat) (vs : List Value) :
    Alike (call rules n p vs) (call rules n p vs) := by
  intro s journal
  refine ⟨journal, ?_⟩
  unfold call
  cases rules.call (rules.draws s.drawn) n vs <;> rfl

end Session

namespace Expr

variable {rules : Rules}

mutual

/-- An expression does not read the journal. -/
theorem evaluate_alike : ∀ e : Expr, Alike (e.evaluate rules) (e.evaluate rules)
  | .number _ p => alike_node p _
  | .string .. => alike_pure _
  | .variable n p => Session.read_alike n p
  | .group inner _ => evaluate_alike inner
  | .binary _ left right p =>
    (evaluate_alike left).bind fun _ => (evaluate_alike right).bind fun _ => alike_node p _
  | .call n arguments p =>
    (alike_node p _).bind fun _ => (evaluateAll_alike arguments).bind fun vs =>
      Session.call_alike n p vs

theorem evaluateAll_alike : ∀ es : List Expr, Alike (evaluateAll rules es) (evaluateAll rules es)
  | [] => alike_pure _
  | e :: rest => (evaluate_alike e).bind fun _ => (evaluateAll_alike rest).bind fun _ =>
      alike_pure _

end

end Expr

namespace Session

variable {rules : Rules}

/-- The index of a statement is only noted down. -/
theorem execute_alike (i j : Nat) (st : Statement) :
    Alike (execute rules i st) (execute rules j st) := by
  intro s journal
  obtain ⟨journal, h⟩ := st.expression.evaluate_alike { s with source := st.source } journal
  rw [execute_eq, execute_eq, h]
  rcases st.expression.evaluate rules { s with source := st.source } with ⟨f | v, t⟩
  · exact ⟨journal, rfl⟩
  · exact ⟨journal ++ [.statementEvaluated j st.form v.sort], rfl⟩

/-- The index of a run is only noted down, and its value so far counts only without sources. -/
theorem runFrom_alike : ∀ (sources : List Text) (i j : Nat) {v w : Option Value},
    (sources = [] → v = w) → Alike (runFrom rules i v sources) (runFrom rules j w sources)
  | [], _, _, v, w, h => by
    obtain rfl := h rfl
    cases v with
    | none => exact alike_fail _
    | some v => exact alike_pure v
  | source :: rest, i, j, v, w, _ => by
    rw [runFrom, runFrom, runWith, runWith]
    refine (alike_ofReport _).bind fun st => (alike_note _ _).bind fun _ =>
      (execute_alike i j st).bind fun a => ?_
    split
    · exact (alike_note _ _).bind fun _ => alike_pure a
    · exact runFrom_alike rest (i + 1) (j + 1) fun _ => rfl

end Session

end Reckon
