import Reckon.Proofs.Number.Range
import Reckon.Session

/-!
# Executing statements one after the other

What a statement does to a session is written out in `Session.execute_eq` : its expression is
evaluated, and if it yields a value, an assignment changes the variables. `Session.steps` is
the trace of a sequence of statements, one step for each statement that is executed. It stops
behind a failure and behind `return`, and a run of statements that can all be read ends as the
last step of its trace does (`Session.runFrom_eq_steps`).

`Evaluation.Keeps` says of a computation that it keeps an invariant of sessions and how it ends.
-/

namespace Reckon

theorem Evaluation.bind_apply {α β : Type} (x : Evaluation α) (f : α → Evaluation β)
    (s : Session) : (x >>= f) s = match x s with
      | (.error e, t) => (.error e, t)
      | (.ok a, t) => f a t := rfl

namespace Evaluation

variable {α β : Type} {I : Session → Prop} {P : α → Prop} {Q : β → Prop} {F : Failure → Prop}

/-- From a session with the invariant, the computation leads to one, and it ends as the
properties say. -/
def Keeps (I : Session → Prop) (P : α → Prop) (F : Failure → Prop) (x : Evaluation α) : Prop :=
  ∀ s, I s → I (x s).2 ∧ Reckon.Ends P F (x s).1

theorem keeps_pure {a : α} (h : P a) : Keeps I P F (Evaluation.pure a) := fun _ hs => ⟨hs, h⟩

theorem keeps_node {x : Except Trouble α} {T : Trouble → Prop} (position : Nat)
    (h : Reckon.Ends P T x) (hT : ∀ t, T t → ∀ s, I s → F (t.located s.source position)) :
    Keeps I P F (node position x) := by
  intro s hs
  cases x with
  | ok a => exact ⟨hs, h⟩
  | error t => exact ⟨hs, hT t h s hs⟩

theorem Keeps.bind {x : Evaluation α} {f : α → Evaluation β} (h : Keeps I P F x)
    (hf : ∀ a, P a → Keeps I Q F (f a)) : Keeps I Q F (x >>= f) := by
  intro s hs
  obtain ⟨hi, he⟩ := h s hs
  rw [bind_apply]
  rcases hx : x s with ⟨e | a, t⟩
  · rw [hx] at hi he
    exact ⟨hi, he⟩
  · rw [hx] at hi he
    exact hf a he t hi

end Evaluation

namespace Session

variable {rules : Rules} {I : Session → Prop} {P : Value → Prop} {F : Failure → Prop}

/-- A call keeps what does not depend on the calls and the draws that were made. -/
theorem call_keeps {T : Trouble → Prop} (n : Text) (p : Nat) (vs : List Value)
    (hI : ∀ s, I s → I (s.afterCall rules n))
    (h : ∀ draw, Reckon.Ends P T (rules.call draw n vs))
    (hT : ∀ t, T t → ∀ s, I s → F (t.located s.source p)) :
    Evaluation.Keeps I P F (Session.call rules n p vs) := by
  intro s hs
  unfold Session.call
  rcases (h (rules.draws s.drawn)).value_or_error with ⟨v, hc, hv⟩ | ⟨t, hc, ht⟩
  · rw [hc]
    exact ⟨hI s hs, hv⟩
  · rw [hc]
    exact ⟨hs, hT t ht s hs⟩

end Session

/-- What a statement of the form does to the variables when it yields a value. -/
def Form.update : Form → Value → Environment → Environment
  | .binding target, v, B => B.bind target v
  | .bare, _, B => B
  | .result, _, B => B

/-- What is bound behind a statement is its value, or was bound before. -/
theorem Form.get?_update (form : Form) {v w : Value} {B : Environment} {n : Text}
    (h : (form.update v B).get? n = some w) : w = v ∨ B.get? n = some w := by
  cases form with
  | binding target =>
    by_cases hn : n = target
    · subst hn
      rw [update, Environment.get?_bind_self] at h
      exact .inl (Option.some.inj h).symm
    · rw [update, Environment.get?_bind_of_ne _ _ hn] at h
      exact .inr h
  | bare => exact .inr h
  | result => exact .inr h

namespace Session

/-- The session with one more event. -/
def noted (s : Session) (e : Event) : Session := { s with journal := s.journal ++ [e] }

/-- A statement fails as its expression does, or yields the value and may bind it. -/
theorem execute_eq (rules : Rules) (index : Nat) (st : Statement) (s : Session) :
    execute rules index st s =
      match st.expression.evaluate rules { s with source := st.source } with
      | (.error f, t) => (.error f, t)
      | (.ok v, t) => (.ok v, { t with
          bindings := st.form.update v t.bindings
          journal := t.journal ++ [.statementEvaluated index st.form v.sort] }) := by
  unfold execute settle evaluate ofStatement
  simp only [Evaluation.bind_apply, Evaluation.update, Option.getD_some]
  rcases st.expression.evaluate rules { s with source := st.source } with ⟨_ | v, t⟩
  · rfl
  · cases st.form <;> rfl

section

variable {rules : Rules} {read : Text → Evaluation Statement}
  {exec : Nat → Statement → Evaluation Value} {source : Text} {st : Statement}

/-- A source that is read is executed; then the run returns, or goes on with the rest. -/
theorem runWith_cons {s : Session} (h : read source s = (.ok st, s)) (index : Nat)
    (last : Option Value) (rest : List Text) :
    runWith read exec index last (source :: rest) s =
      match exec index st (s.noted (.statementParsed index (st.expression.outline 0))) with
      | (.error f, t) => (.error f, t)
      | (.ok v, t) =>
        if st.form = .result then (.ok v, t.noted (.returnedEarly index rest.length))
        else runWith read exec (index + 1) (some v) rest t := by
  rw [runWith]
  simp only [h, Evaluation.bind_apply, Evaluation.note, Evaluation.update, noted]
  rcases exec index st _ with ⟨_ | v, t⟩
  · rfl
  · simp only
    split <;> rfl

/-- A source that is not read ends the run. -/
theorem runWith_cons_of_error {s t : Session} {f : Failure} (h : read source s = (.error f, t))
    (index : Nat) (last : Option Value) (rest : List Text) :
    runWith read exec index last (source :: rest) s = (.error f, t) := by
  rw [runWith, Evaluation.bind_apply, h]

theorem parse_eq_ok (h : Statement.parse rules.limits source = .ok st) (s : Session) :
    parse rules source s = (.ok st, s) := by
  rw [parse, h]
  rfl

theorem parse_eq_error {r : Report} (h : Statement.parse rules.limits source = .error r)
    (s : Session) : parse rules source s = (.error (.report r), s) := by
  rw [parse, h]
  rfl

theorem runFrom_cons (h : Statement.parse rules.limits source = .ok st) (index : Nat)
    (last : Option Value) (rest : List Text) (s : Session) :
    runFrom rules index last (source :: rest) s =
      match execute rules index st (s.noted (.statementParsed index (st.expression.outline 0))) with
      | (.error f, t) => (.error f, t)
      | (.ok v, t) =>
        if st.form = .result then (.ok v, t.noted (.returnedEarly index rest.length))
        else runFrom rules (index + 1) (some v) rest t :=
  runWith_cons (parse_eq_ok h s) index last rest

theorem runFrom_cons_of_error {r : Report} (h : Statement.parse rules.limits source = .error r)
    (index : Nat) (last : Option Value) (rest : List Text) (s : Session) :
    runFrom rules index last (source :: rest) s = (.error (.report r), s) :=
  runWith_cons_of_error (parse_eq_error h s) index last rest

end

/-! ## Traces -/

/-- A statement that was executed, with its outcome and the session after it. -/
structure Step where
  /-- The statement. -/
  statement : Statement
  /-- Its value or its failure. -/
  outcome : Except Failure Value
  /-- The session after it. -/
  after : Session

/-- The steps of the statements that are executed, from one of the given index on. -/
def steps (rules : Rules) : Nat → List Statement → Session → List Step
  | _, [], _ => []
  | index, st :: rest, s =>
    match execute rules index st (s.noted (.statementParsed index (st.expression.outline 0))) with
    | (.error f, t) => [⟨st, .error f, t⟩]
    | (.ok v, t) =>
      ⟨st, .ok v, t⟩ :: (if st.form = .result then [] else steps rules (index + 1) rest t)

/-- The outcome of the last step; without one, the value so far. -/
def lastOutcome (last : Option Value) (trace : List Step) : Except Failure Value :=
  match trace.getLast?, last with
  | some step, _ => step.outcome
  | none, some v => .ok v
  | none, none => .error (.report ⟨.empty, none, none⟩)

theorem lastOutcome_cons (last : Option Value) {step : Step} {v : Value}
    (h : step.outcome = .ok v) (trace : List Step) :
    lastOutcome last (step :: trace) = lastOutcome (some v) trace := by
  unfold lastOutcome
  rw [List.getLast?_cons]
  cases trace.getLast? <;> simp [h]

/-- A run of sources that can all be read ends as its last step does. -/
theorem runFrom_eq_steps {rules : Rules} {sources : List Text} {sts : List Statement}
    (h : List.Forall₂ (fun source st => Statement.parse rules.limits source = .ok st) sources sts)
    (index : Nat) (last : Option Value) (s : Session) :
    (runFrom rules index last sources s).1 = lastOutcome last (steps rules index sts s) := by
  induction h generalizing index last s with
  | nil => cases last <;> rfl
  | @cons source st rest sts hst _ ih =>
    rw [runFrom_cons hst, steps]
    rcases execute rules index st _ with ⟨f | v, t⟩
    · rfl
    · simp only
      rw [lastOutcome_cons last rfl]
      split
      · rfl
      · exact ih (index + 1) (some v) t

end Session

end Reckon
