import Mathlib.Data.List.Forall2
import Reckon.Evaluation
import Reckon.Number.Elementary.Rounded
import Reckon.Proofs.Session.Journal
import Reckon.Proofs.Source.Cut

/-!
# Expressions one after the other

What is evaluated when a second expression stands behind a first one and a semicolon depends
only on how the first one ends (`evaluate_append`). The statements of the two are those of the
first and then those of the second, if the first can be read (`Text.sources_append`). If the
first one returns, the second has no influence, even if it cannot be read
(`Session.runFrom_append_of_result`). If it comes to its end without a failure, the second one
runs in the session that the first one leaves (`Session.runFrom_append`).
-/

namespace Reckon

namespace Session

variable {rules : Rules} {sources : List Text} {sts : List Statement}

/-- All steps of the trace yield values. -/
def Succeeds (trace : List Step) : Prop := ∀ step ∈ trace, ∃ v, step.outcome = .ok v

/-- If all that is executed succeeds, the first statement does, and the others do unless it
returns. -/
theorem Succeeds.execute {index : Nat} {st : Statement} {s : Session}
    (h : Succeeds (steps rules index (st :: sts) s)) :
    ∃ v t, execute rules index st
        (s.noted (.statementParsed index (st.expression.outline 0))) = (.ok v, t) ∧
      (st.form ≠ .result → Succeeds (steps rules (index + 1) sts t)) := by
  rw [steps] at h
  rcases hst : Session.execute rules index st
    (s.noted (.statementParsed index (st.expression.outline 0))) with ⟨f | v, t⟩
  all_goals rw [hst] at h
  · obtain ⟨_, hf⟩ := h ⟨st, .error f, t⟩ List.mem_cons_self
    cases hf
  · refine ⟨v, t, rfl, fun hform step hstep => h step ?_⟩
    simp only [if_neg hform]
    exact List.mem_cons_of_mem _ hstep

/-- Statements that succeed without `return` leave their session to those behind them. -/
theorem runFrom_append
    (h : List.Forall₂ (fun source st => Statement.parse rules.limits source = .ok st) sources sts)
    (hform : ∀ st ∈ sts, st.form ≠ .result) (more : List Text)
    (last : Option Value) {index : Nat} {s : Session} (hok : Succeeds (steps rules index sts s)) :
    ∃ i w, runFrom rules index last (sources ++ more) s =
      runFrom rules i w more (runFrom rules index last sources s).2 := by
  induction h generalizing last index s with
  | nil =>
    refine ⟨index, last, ?_⟩
    cases last <;> rfl
  | @cons source st rest sts hst _ ih =>
    obtain ⟨v, t, hrun, hrest⟩ := hok.execute
    have hst' : st.form ≠ .result := hform st List.mem_cons_self
    rw [List.cons_append, runFrom_cons hst, runFrom_cons hst, hrun]
    simp only [if_neg hst']
    exact ih (fun st h => hform st (List.mem_cons_of_mem _ h)) (some v) (hrest hst')

/-- Behind statements that succeed with a `return` among them nothing counts. -/
theorem runFrom_append_of_result
    (h : List.Forall₂ (fun source st => Statement.parse rules.limits source = .ok st) sources sts)
    (hform : ∃ st ∈ sts, st.form = .result) (more : List Text)
    (last : Option Value) {index : Nat} {s : Session} (hok : Succeeds (steps rules index sts s)) :
    ∃ journal, runFrom rules index last (sources ++ more) s =
      ((runFrom rules index last sources s).1,
        { (runFrom rules index last sources s).2 with journal := journal }) := by
  induction h generalizing last index s with
  | nil =>
    obtain ⟨_, h, -⟩ := hform
    cases h
  | @cons source st rest sts hst _ ih =>
    obtain ⟨v, t, hrun, hrest⟩ := hok.execute
    rw [List.cons_append, runFrom_cons hst, runFrom_cons hst, hrun]
    by_cases hst' : st.form = .result
    · simp only [if_pos hst']
      exact ⟨t.journal ++ [.returnedEarly index (rest ++ more).length], rfl⟩
    · simp only [if_neg hst']
      obtain ⟨st', hmem, hresult⟩ := hform
      rcases List.mem_cons.1 hmem with rfl | hmem
      · exact (hst' hresult).elim
      · exact ih ⟨st', hmem, hresult⟩ (some v) (hrest hst')

/-- A run that fails was given no statement, or fails at its first statement that does not succeed :
that cannot be read, or whose execution fails in the session that those before it leave. -/
theorem exists_of_runFrom_error {f : Failure} : ∀ (sources : List Text) {index : Nat}
    {last : Option Value} {s : Session}, (runFrom rules index last sources s).1 = .error f →
    (sources = [] ∧ last = none ∧ f = .report ⟨.empty, none, none⟩) ∨
    ∃ before source after sts, sources = before ++ source :: after ∧
      List.Forall₂ (fun source st => Statement.parse rules.limits source = .ok st) before sts ∧
      Succeeds (steps rules index sts s) ∧ (∀ st ∈ sts, st.form ≠ .result) ∧
      ((∃ r, Statement.parse rules.limits source = .error r ∧ f = .report r ∧
          (runFrom rules index last sources s).2 = (runFrom rules index last before s).2) ∨
        ∃ st i, Statement.parse rules.limits source = .ok st ∧
          execute rules i st ((runFrom rules index last before s).2.noted
              (.statementParsed i (st.expression.outline 0))) =
            (.error f, (runFrom rules index last sources s).2))
  | [], _, last, _, h => by
    cases last with
    | some v => cases h
    | none => exact .inl ⟨rfl, rfl, (Except.error.inj h).symm⟩
  | source :: rest, index, last, s, h => by
    right
    have hnone : (runFrom rules index last [] s).2 = s := by cases last <;> rfl
    cases hst : Statement.parse rules.limits source with
    | error r =>
      have hfirst := runFrom_cons_of_error hst index last rest s
      rw [hfirst] at h
      exact ⟨[], source, rest, [], rfl, .nil, fun _ h => (by cases h), fun _ h => (by cases h),
        .inl ⟨r, hst, (Except.error.inj h).symm, by rw [hfirst, hnone]⟩⟩
    | ok st =>
      have hfirst := runFrom_cons hst index last
      rcases hx : execute rules index st
        (s.noted (.statementParsed index (st.expression.outline 0))) with ⟨g | v, t⟩
      · rw [hfirst, hx] at h
        obtain rfl := Except.error.inj h
        refine ⟨[], source, rest, [], rfl, .nil, fun _ h => (by cases h), fun _ h => (by cases h),
          .inr ⟨st, index, hst, ?_⟩⟩
        rw [hnone, hfirst, hx]
      · by_cases hform : st.form = .result
        · simp only [hfirst, hx, if_pos hform] at h
          cases h
        have hnext : ∀ more, runFrom rules index last (source :: more) s =
            runFrom rules (index + 1) (some v) more t := fun more => by
          simp only [hfirst, hx, if_neg hform]
        rw [hnext] at h
        rcases exists_of_runFrom_error rest h with
          ⟨-, hlast, -⟩ | ⟨before, culprit, after, sts, rfl, hread, hok, hforms, hculprit⟩
        · cases hlast
        refine ⟨source :: before, culprit, after, st :: sts, rfl, .cons hst hread, ?_,
          List.forall_mem_cons.2 ⟨hform, hforms⟩, ?_⟩
        · rw [steps, hx]
          simp only [if_neg hform]
          exact List.forall_mem_cons.2 ⟨⟨v, rfl⟩, hok⟩
        · rw [hnext, hnext]
          exact hculprit

/-! ## What a run comes to -/

section

variable {source target : Text} {rest : List Text} {index : ℕ} {s : Session}

/-- The run of the sources comes to one of them : those before it are read and executed with
success, and none of them returns. -/
def Reaches (rules : Rules) (index : ℕ) (sources : List Text) (s : Session) (source : Text) :
    Prop :=
  ∃ before after sts, sources = before ++ source :: after ∧
    List.Forall₂ (fun source st => Statement.parse rules.limits source = .ok st) before sts ∧
    Succeeds (steps rules index sts s) ∧ ∀ st ∈ sts, st.form ≠ .result

theorem Reaches.mem {sources : List Text} (h : Reaches rules index sources s source) :
    source ∈ sources := by
  obtain ⟨before, after, -, rfl, -⟩ := h
  simp

theorem reaches_self : Reaches rules index (source :: rest) s source :=
  ⟨[], rest, [], rfl, .nil, fun _ h => (by cases h), fun _ h => (by cases h)⟩

/-- A run that goes on behind its first source comes to what the rest of it comes to. -/
theorem Reaches.cons {st : Statement} {v : Value} {t : Session}
    (hst : Statement.parse rules.limits source = .ok st)
    (hx : execute rules index st (s.noted (.statementParsed index (st.expression.outline 0))) =
      (.ok v, t)) (hform : st.form ≠ .result) (h : Reaches rules (index + 1) rest t target) :
    Reaches rules index (source :: rest) s target := by
  obtain ⟨before, after, sts, rfl, hread, hok, hforms⟩ := h
  refine ⟨source :: before, after, st :: sts, rfl, .cons hst hread, ?_,
    List.forall_mem_cons.2 ⟨hform, hforms⟩⟩
  rw [steps, hx]
  simp only [if_neg hform]
  exact List.forall_mem_cons.2 ⟨⟨v, rfl⟩, hok⟩

/-- A run comes to its first source, and to another one only if the first one succeeds and does not
return. -/
theorem Reaches.cases (h : Reaches rules index (source :: rest) s target) : target = source ∨
    ∃ st v t, Statement.parse rules.limits source = .ok st ∧
      execute rules index st (s.noted (.statementParsed index (st.expression.outline 0))) =
        (.ok v, t) ∧ st.form ≠ .result ∧ Reaches rules (index + 1) rest t target := by
  obtain ⟨before, after, sts, hsplit, hread, hok, hforms⟩ := h
  cases hread with
  | nil => exact .inl (List.cons.inj hsplit).1.symm
  | @cons _ st before sts hst hread =>
    obtain ⟨rfl, rfl⟩ := List.cons.inj hsplit
    obtain ⟨v, t, hx, hrest⟩ := hok.execute
    have hform := hforms st List.mem_cons_self
    exact .inr ⟨st, v, t, hst, hx, hform, before, after, sts, rfl, hread, hrest hform,
      fun st h => hforms st (List.mem_cons_of_mem _ h)⟩

end

end Session

/-- A value with its text. -/
def Value.answer (precision : Precision) (v : Value) : Except Failure Answer :=
  match v.result precision with
  | .error e => .error (.signal e)
  | .ok t => .ok ⟨v, t⟩

/-- An expression comes to what the run of its statements comes to, once they are prepared. -/
theorem evaluate_of_prepare {rules : Rules} {t : Text}
    (h : Text.prepare rules.limits t = .ok t.sources) :
    evaluate rules t = ((Session.run rules t.sources {}).1.bind (Value.answer rules.precision),
      (Session.run rules t.sources {}).2) := by
  unfold evaluate answer answerRunning
  rw [Evaluation.bind_apply, h]
  simp only [Evaluation.ofReport, Evaluation.bind_apply]
  rcases Session.run rules t.sources {} with ⟨f | v, s⟩
  · rfl
  · simp only [Except.bind, Value.answer]
    cases v.result rules.precision <;> rfl

/-- Within the limits, an expression with statements comes to what their run comes to. -/
theorem evaluate_eq {rules : Rules} {t : Text}
    (hlength : (t.length : Int) ≤ rules.limits.expressionLength)
    (hcount : (t.sources.length : Int) ≤ rules.limits.statements) (hne : t.sources ≠ []) :
    evaluate rules t = ((Session.run rules t.sources {}).1.bind (Value.answer rules.precision),
      (Session.run rules t.sources {}).2) :=
  evaluate_of_prepare (Text.prepare_eq_ok hlength hcount hne)

/-- An expression is refused for a limit or because it is empty, or comes to what the run of its
statements comes to. -/
theorem evaluate_cases (rules : Rules) (t : Text) :
    (∃ r, (evaluate rules t).1 = .error (.report r) ∧
      ((∃ x, r = Report.ofExcess x) ∨ r = ⟨.empty, none, some t⟩)) ∨
    evaluate rules t = ((Session.run rules t.sources {}).1.bind (Value.answer rules.precision),
      (Session.run rules t.sources {}).2) := by
  rcases Text.prepare_cases rules.limits t with h | ⟨r, h, hr⟩
  · exact .inr (evaluate_of_prepare h)
  · refine .inl ⟨r, ?_, hr⟩
    rw [evaluate, answer, answerRunning, Evaluation.bind_apply, h]
    rfl

/-- If an expression has a value with a text, the run of its statements yields the value, and the
text is its result. -/
theorem run_of_evaluate {rules : Rules} {t : Text} {a : Answer}
    (h : (evaluate rules t).1 = .ok a) : (Session.run rules t.sources {}).1 = .ok a.value ∧
      a.value.result rules.precision = .ok a.text := by
  rcases evaluate_cases rules t with ⟨r, hr, -⟩ | hrun
  · rw [hr] at h
    cases h
  rw [hrun] at h
  cases hv : (Session.run rules t.sources {}).1 with
  | error f =>
    rw [hv] at h
    cases h
  | ok v =>
    simp only [hv, Except.bind, Value.answer] at h
    cases hresult : v.result rules.precision with
    | error s =>
      rw [hresult] at h
      cases h
    | ok u =>
      rw [hresult] at h
      obtain rfl := Except.ok.inj h
      exact ⟨rfl, hresult⟩

/-- A report on an expression that is prepared is one of its run : a value that has no text is a
signal. -/
theorem run_of_report {rules : Rules} {t : Text} {r : Report}
    (hsources : Text.prepare rules.limits t = .ok t.sources)
    (h : (evaluate rules t).1 = .error (.report r)) :
    (Session.run rules t.sources {}).1 = .error (.report r) := by
  rw [evaluate_of_prepare hsources] at h
  cases hrun : (Session.run rules t.sources {}).1 with
  | ok v =>
    simp only [hrun, Except.bind, Value.answer] at h
    split at h <;> cases h
  | error f =>
    rw [hrun] at h
    exact congrArg _ (Except.error.inj h)

/-- A report on an expression says that it is not prepared, or is one of its run. -/
theorem report_cases {rules : Rules} {t : Text} {r : Report}
    (h : (evaluate rules t).1 = .error (.report r)) :
    (∃ x, r = Report.ofExcess x) ∨ r = ⟨.empty, none, some t⟩ ∨
      (Session.run rules t.sources {}).1 = .error (.report r) := by
  rcases Text.prepare_cases rules.limits t with hsources | ⟨r', hsources, hr'⟩
  · exact .inr (.inr (run_of_report hsources h))
  · rw [evaluate, answer, answerRunning, Evaluation.bind_apply, hsources] at h
    obtain rfl : r' = r := Failure.report.inj (Except.error.inj h)
    exact hr'.imp_right .inl

/-- An expression of one statement comes to the value of its tree. -/
theorem evaluate_singleton {rules : Rules} {t source : Text} {st : Statement}
    (hlength : (t.length : Int) ≤ rules.limits.expressionLength)
    (hcount : 1 ≤ rules.limits.statements) (hsource : t.sources = [source])
    (hread : Statement.parse rules.limits source = .ok st) :
    ∃ journal, (evaluate rules t).1 = (st.expression.evaluate rules
      { source := st.source, journal := journal }).1.bind (Value.answer rules.precision) := by
  refine ⟨[.statementParsed 0 (st.expression.outline 0)], ?_⟩
  rw [evaluate_eq hlength (by simpa [hsource] using hcount) (by simp [hsource]), hsource,
    Session.run, Session.runFrom_cons hread, Session.execute_eq]
  simp only [Session.noted, List.nil_append]
  rcases st.expression.evaluate rules _ with ⟨f | v, s⟩
  · rfl
  · simp only
    split <;> rfl

/-- Two expressions with a semicolon between. If the statements of the first one can be read,
the statements of both are those of the first one and then those of the second one. Within the
limits, if those of the first one succeed and one of them returns, the second one does not
count; if they succeed and none returns, the statements of the second one are run in the
session that the first one leaves. -/
theorem evaluate_append {rules : Rules} {u : Text} {sts : List Statement}
    (hread : List.Forall₂ (fun source st => Statement.parse rules.limits source = .ok st)
      u.sources sts) (v : Text) :
    let whole := u ++ CodePoint.semicolon :: v
    whole.sources = u.sources ++ v.sources ∧
    ((whole.length : Int) ≤ rules.limits.expressionLength →
      (whole.sources.length : Int) ≤ rules.limits.statements →
      Session.Succeeds (Session.steps rules 0 sts {}) →
      ((∃ st ∈ sts, st.form = .result) → ∃ journal, evaluate rules whole =
        ((evaluate rules u).1, { (evaluate rules u).2 with journal := journal })) ∧
      ((∀ st ∈ sts, st.form ≠ .result) → v.sources ≠ [] →
        let left := (Session.run rules u.sources {}).2
        ∃ journal, evaluate rules whole =
          ((Session.run rules v.sources left).1.bind (Value.answer rules.precision),
            { (Session.run rules v.sources left).2 with journal := journal }))) := by
  intro whole
  have hsources : whole.sources = u.sources ++ v.sources := by
    have hparse : ∀ source ∈ u.sources, ∃ st, Statement.parse rules.limits source = .ok st := by
      intro source hsource
      obtain ⟨i, hi, rfl⟩ := List.getElem_of_mem hsource
      exact ⟨_, hread.get hi (hread.length_eq ▸ hi)⟩
    exact Text.sources_append hparse v
  refine ⟨hsources, fun hlength hcount hok => ⟨fun hform => ?_, fun hform hne => ?_⟩⟩
  · have hne : u.sources ≠ [] := by
      obtain ⟨st, hst, -⟩ := hform
      rw [← List.length_pos_iff, hread.length_eq]
      exact List.length_pos_of_mem hst
    obtain ⟨journal, hrun⟩ :=
      Session.runFrom_append_of_result hread hform v.sources none hok
    have hlength' : (u.length : Int) ≤ rules.limits.expressionLength := by
      rw [List.length_append] at hlength
      omega
    have hcount' : (u.sources.length : Int) ≤ rules.limits.statements := by
      rw [hsources, List.length_append] at hcount
      omega
    refine ⟨journal, ?_⟩
    rw [evaluate_eq hlength hcount (by simp [hsources, hne]), evaluate_eq hlength' hcount' hne,
      hsources, Session.run, hrun]
    rfl
  · obtain ⟨i, w, hrun⟩ := Session.runFrom_append hread hform v.sources none hok
    -- The second run goes on with an index, a value so far and a journal that do not count.
    have halike : Evaluation.Alike (Session.runFrom rules 0 none v.sources)
        (Session.runFrom rules i w v.sources) :=
      Session.runFrom_alike v.sources 0 i fun h => (hne h).elim
    let s := (Session.runFrom rules 0 none u.sources {}).2
    obtain ⟨journal, hrest⟩ := halike s s.journal
    have hrest : Session.runFrom rules i w v.sources s =
        ((Session.runFrom rules 0 none v.sources s).1,
          { (Session.runFrom rules 0 none v.sources s).2 with journal := journal }) := hrest
    refine ⟨journal, ?_⟩
    rw [evaluate_eq hlength hcount (by simp [hsources, hne]), hsources, Session.run, hrun, hrest]
    rfl

attribute [local instance] Library.rounded

/-- A string in a call that is never closed does not matter behind `return`. -/
theorem evaluate_append_open :
    let rules : Rules := ⟨.standard, {}, .standard, fun _ => .one⟩
    let u : Text := "x:=1;return x"
    let v : Text := "string(\x22"
    ∃ journal, evaluate rules (u ++ CodePoint.semicolon :: v) =
      ((evaluate rules u).1, { (evaluate rules u).2 with journal := journal }) := by
  intro rules u v
  let sts : List Statement :=
    [⟨.binding "x", .number ⟨none, ⟨[1], none, none⟩⟩ 3, "x:=1"⟩,
      ⟨.result, .variable "x" 7, "return x"⟩]
  have hfirst : Statement.parse rules.limits "x:=1" = .ok sts[0] :=
    Statement.parse_eq_ok_iff.2 ⟨[⟨.name "x", 0⟩, ⟨.define, 1⟩,
      ⟨.number ⟨[1], none, none⟩, 3⟩], by decide +kernel, rfl, rfl, rfl⟩
  have hsecond : Statement.parse rules.limits "return x" = .ok sts[1] :=
    Statement.parse_eq_ok_iff.2 ⟨[⟨.result, 0⟩, ⟨.name "x", 7⟩], by decide +kernel, rfl, rfl, rfl⟩
  have hu : u.sources = ["x:=1", "return x"] := by decide +kernel
  have hread : List.Forall₂ (fun source st => Statement.parse rules.limits source = .ok st)
      u.sources sts := by
    rw [hu]
    exact .cons hfirst (.cons hsecond .nil)
  have hok : Session.Succeeds (Session.steps rules 0 sts {}) := by
    have h : ∀ step ∈ Session.steps rules 0 sts {}, step.outcome.isOk = true := by decide +kernel
    intro step hstep
    have hstep := h step hstep
    cases hout : step.outcome with
    | error f =>
      rw [hout] at hstep
      cases hstep
    | ok v => exact ⟨v, rfl⟩
  obtain ⟨-, h⟩ := evaluate_append hread v
  have hlength : ((u ++ CodePoint.semicolon :: v).length : Int) ≤
      rules.limits.expressionLength := by decide
  have hcount : ((u ++ CodePoint.semicolon :: v).sources.length : Int) ≤
      rules.limits.statements := by decide +kernel
  exact (h hlength hcount hok).1 ⟨sts[1], by simp [sts], rfl⟩

end Reckon
