import Reckon.Proofs.Grammar.Nesting
import Reckon.Proofs.Session.Faults
import Reckon.Proofs.Source.Length

/-!
# Statements that become too long

The limit on the length of an expression is checked twice : for the expression as it is written, and
again for each statement when it is read. Between the two the arguments of `string` become literals,
which may be longer. So an expression within the limit can be refused for this limit, and
`evaluate_overlong` says when : if its run comes to a statement that is longer than the limit.
Nothing else that can go wrong names the limit, neither in a statement of bounded length
(`Statement.names_of_parse`) nor in an evaluation (`Session.execute_inner`). Only calls of `string`
make a statement longer, and at most six times as long.
-/

namespace Reckon

/-- The report names the limit. -/
def Report.Names (r : Report) (limit : Limit) : Prop :=
  ∃ bound actual, r.fault = .exceeded limit.name bound actual

/-- The limit with the name : the length of the name and its ninth letter tell the limits apart. -/
def Limit.ofName (t : Text) : Limit :=
  match t.length, t[8]? with
  | 21, _ => .expressionLength
  | 14, _ => .statements
  | 13, c => if c = some (CodePoint.ofChar 'd') then .depth else .nodes
  | _, c => if c = some (CodePoint.ofChar 'n') then .stringLength else .arguments

theorem Limit.ofName_name (l : Limit) : ofName l.name = l := by
  cases l <;> decide +kernel

theorem Limit.name_injective : Function.Injective name :=
  Function.LeftInverse.injective ofName_name

theorem Report.names_ofExcess_iff {x : Excess} {limit : Limit} :
    (ofExcess x).Names limit ↔ x.limit = limit := by
  constructor
  · rintro ⟨bound, actual, h⟩
    exact Limit.name_injective (Fault.exceeded.inj h).1
  · rintro rfl
    exact ⟨_, _, rfl⟩

/-! ## Statements of bounded length -/

/-- What stops the reading is not the length of the statement. -/
def Halt.IsInner : Halt → Prop
  | .fault .. => True
  | .exceeded x => x.limit ≠ .expressionLength

namespace Statement

variable {limits : Limits} {source : Text} {r : Report}

/-- A statement that is too long is refused. -/
theorem parse_overlong (h : limits.expressionLength < source.length) : parse limits source =
    .error (Report.ofExcess ⟨.expressionLength, limits.expressionLength, source.length⟩) := by
  have hcheck : limits.check .expressionLength source.length = .error _ :=
    Limits.check_eq_error_iff.2 ⟨h, rfl⟩
  rw [parse, read, tokens, hcheck]
  rfl

theorem isInner_of_read (hlength : (source.length : Int) ≤ limits.expressionLength) {g : Halt}
    (h : read limits source = .error g) : g.IsInner := by
  cases g with
  | fault => trivial
  | exceeded x =>
    intro hx
    rcases excess_of_read h with ⟨hlt, -⟩ | hstring | hreading
    · exact absurd hlength (Int.not_le.2 hlt)
    · rw [hx] at hstring
      cases hstring
    · simp only [Halt.OfReading, hx, reduceCtorEq, false_and, or_self] at hreading

/-- A statement whose report names a limit is refused for it. -/
theorem exists_excess_of_parse {l : Limit} (h : parse limits source = .error r) (hr : r.Names l) :
    ∃ x, read limits source = .error (.exceeded x) ∧ r = Report.ofExcess x ∧ x.limit = l := by
  unfold parse at h
  cases hread : read limits source with
  | ok st =>
    rw [hread] at h
    cases h
  | error g =>
    rw [hread] at h
    obtain rfl := Except.error.inj h
    cases g with
    | fault f p =>
      obtain ⟨bound, actual, hf⟩ := hr
      have hmalformed := (fault_of_read hread).1
      change f = _ at hf
      rw [hf] at hmalformed
      exact hmalformed.elim
    | exceeded x => exact ⟨x, rfl, rfl, Report.names_ofExcess_iff.1 hr⟩

/-- A statement is refused for its length only if it is too long. -/
theorem names_of_parse (h : parse limits source = .error r) (hr : r.Names .expressionLength) :
    limits.expressionLength < source.length ∧
      r = Report.ofExcess ⟨.expressionLength, limits.expressionLength, source.length⟩ := by
  by_cases hlength : limits.expressionLength < source.length
  · rw [parse_overlong hlength] at h
    exact ⟨hlength, (Except.error.inj h).symm⟩
  · obtain ⟨x, hread, -, hx⟩ := exists_excess_of_parse h hr
    exact (isInner_of_read (Int.not_lt.1 hlength) hread hx).elim

end Statement

/-! ## Evaluations -/

/-- The only limit that the failure can name is that on strings. -/
def Failure.OfStrings : Failure → Prop
  | .report r => ∀ l, r.Names l → l = .stringLength
  | .signal _ => True

/-- The failure does not name the limit on the length of an expression. -/
def Failure.IsInner : Failure → Prop
  | .report r => ¬ r.Names .expressionLength
  | .signal _ => True

/-- What is about a text, or about the length of a string, names no other limit. -/
theorem Trouble.About.ofStrings {w : Text} {t : Trouble} (h : t.About w) (source : Text) (p : Nat) :
    (t.located source p).OfStrings := by
  cases t with
  | fault f =>
    rintro l ⟨bound, actual, hf⟩
    change f = _ at hf
    rw [hf] at h
    cases h
  | exceeded x => exact fun l hl => (Report.names_ofExcess_iff.1 hl).symm.trans h
  | signal s => trivial

namespace Session

variable {rules : Rules} {index : Nat} {st : Statement} {s t : Session} {f : Failure}

theorem execute_ofStrings (h : execute rules index st s = (.error f, t)) : f.OfStrings := by
  have hstrings := Expr.evaluate_keeps rules (I := fun _ => True) (F := Failure.OfStrings)
    (fun _ _ h => h) (fun _ ⟨_, ht⟩ s _ p => ht.ofStrings s.source p) st.expression
    { s with source := st.source } trivial
  rw [execute_eq] at h
  rcases hx : st.expression.evaluate rules { s with source := st.source } with ⟨g | v, u⟩
  · rw [hx] at h hstrings
    obtain rfl := Except.error.inj (Prod.mk.inj h).1
    exact hstrings.2
  · rw [hx] at h
    cases h

theorem execute_inner (h : execute rules index st s = (.error f, t)) : f.IsInner := by
  have hstrings := execute_ofStrings h
  cases f with
  | report r => exact fun hr => by cases hstrings _ hr
  | signal s => trivial

end Session

/-! ## Expressions -/

/-- The run of the expression comes to the statement : there are not too many statements, all before
it are read and executed with success, and none of them returns. -/
def Text.Reaches (rules : Rules) (t source : Text) : Prop :=
  (t.sources.length : Int) ≤ rules.limits.statements ∧
    Session.Reaches rules 0 t.sources {} source

variable {rules : Rules} {t : Text}

/-- An expression of bounded length is not refused for its length before it is run. -/
theorem Text.prepare_inner {limits : Limits} (ht : (t.length : Int) ≤ limits.expressionLength) :
    (prepare limits t = .ok t.sources ∧ (t.sources.length : Int) ≤ limits.statements) ∨
      ∃ r, prepare limits t = .error r ∧ ¬ r.Names .expressionLength := by
  have hcheck : limits.check .expressionLength t.length = .ok () :=
    (limits.check_eq_ok_iff _ _).2 ht
  cases hcount : limits.check .statements t.sources.length with
  | error x =>
    obtain ⟨-, rfl⟩ := Limits.check_eq_error_iff.1 hcount
    refine .inr ⟨_, by simp only [prepare, hcheck]; rw [← sources, hcount], fun h => ?_⟩
    cases Report.names_ofExcess_iff.1 h
  | ok _ =>
    have hle := (limits.check_eq_ok_iff _ _).1 hcount
    rcases eq_or_ne t.sources [] with hempty | hne
    · refine .inr ⟨⟨.empty, none, some t⟩, ?_, ?_⟩
      · simp only [prepare, hcheck]
        rw [← sources, hcount]
        simp [hempty]
      · rintro ⟨_, _, h⟩
        cases h
    · exact .inl ⟨prepare_eq_ok ht hle hne, hle⟩

/-- An expression within the limit on its length is refused for this limit if and only if its run
comes to a statement that is longer than the limit, and the report gives the length of that
statement. Such a statement is longer than the expression is written : the expression has a call of
`string` in it, and the statement is at most as long as the expression is with its arguments made
literals, and at most six times as long as it is written. -/
theorem evaluate_overlong (ht : (t.length : Int) ≤ rules.limits.expressionLength) :
    (∀ r, (evaluate rules t).1 = .error (.report r) ∧ r.Names .expressionLength ↔
      ∃ source, t.Reaches rules source ∧ rules.limits.expressionLength < source.length ∧
        r = Report.ofExcess
          ⟨.expressionLength, rules.limits.expressionLength, source.length⟩) ∧
    ∀ source, t.Reaches rules source → rules.limits.expressionLength < source.length →
      StringCall.opening <:+: t ∧ t.length < source.length ∧
        source.length ≤ t.withLiteralArguments.length ∧ source.length ≤ 6 * t.length := by
  refine ⟨fun r => ⟨fun ⟨h, hr⟩ => ?_, ?_⟩, ?_⟩
  · rcases Text.prepare_inner ht with ⟨hsources, hcount⟩ | ⟨r', hr', hnames⟩
    · rw [evaluate_of_prepare hsources] at h
      cases hrun : (Session.run rules t.sources {}).1 with
      | ok v =>
        -- A value that has no text is a signal and no report.
        simp only [hrun, Except.bind, Value.answer] at h
        split at h <;> cases h
      | error f =>
        rw [hrun] at h
        obtain rfl := Except.error.inj h
        rcases Session.exists_of_runFrom_error t.sources hrun with
          ⟨-, -, hempty⟩ | ⟨before, source, after, sts, hsplit, hread, hok, hforms, hsource⟩
        · obtain rfl := Failure.report.inj hempty
          obtain ⟨_, _, hf⟩ := hr
          cases hf
        rcases hsource with ⟨r', hr', hreport, -⟩ | ⟨st, i, hst, hx⟩
        · obtain rfl := Failure.report.inj hreport
          obtain ⟨hlength, rfl⟩ := Statement.names_of_parse hr' hr
          exact ⟨source, ⟨hcount, before, after, sts, hsplit, hread, hok, hforms⟩, hlength, rfl⟩
        · exact (Session.execute_inner hx hr).elim
    · rw [evaluate, answer, answerRunning, Evaluation.bind_apply, hr'] at h
      obtain rfl := Failure.report.inj (Except.error.inj h)
      exact (hnames hr).elim
  · rintro ⟨source, ⟨hcount, before, after, sts, hsplit, hread, hok, hforms⟩, hlength, rfl⟩
    have hne : t.sources ≠ [] := by simp [hsplit]
    refine ⟨?_, Report.names_ofExcess_iff.2 rfl⟩
    obtain ⟨i, w, hrun⟩ := Session.runFrom_append hread hforms (source :: after) none hok
    rw [evaluate_eq ht hcount hne, Session.run, hsplit, hrun,
      Session.runFrom_cons_of_error (Statement.parse_overlong hlength)]
    rfl
  · rintro source ⟨-, before, after, sts, hsplit, -⟩ hlength
    have hmem : source ∈ t.sources := by simp [hsplit]
    have hle := Text.length_le_withLiteralArguments hmem
    refine ⟨?_, by omega, hle, Text.length_le_of_mem_sources hmem⟩
    by_contra hcall
    rw [Text.withLiteralArguments, StringCall.replaceArguments_eq_self hcall] at hle
    omega

attribute [local instance] Library.rounded

/-- The second statement gets its quotation marks, and escapes for those it has. -/
theorem evaluate_overlong_second :
    let rules : Rules := ⟨.standard, { expressionLength := 14 }, .standard, fun _ => .one⟩
    let t : Text := "1;string(a\x22b\x22)"
    let r : Report := Report.ofExcess ⟨.expressionLength, 14, 16⟩
    (t.length : Int) ≤ rules.limits.expressionLength ∧ (evaluate rules t).1 = .error (.report r) ∧
      ∃ source, t.Reaches rules source ∧ rules.limits.expressionLength < source.length ∧
        r = Report.ofExcess
          ⟨.expressionLength, rules.limits.expressionLength, source.length⟩ := by
  intro rules t r
  have ht : (t.length : Int) ≤ rules.limits.expressionLength := by decide
  have hfailure : (evaluate rules t).1 = .error (.report r) := by decide +kernel
  exact ⟨ht, hfailure,
    ((evaluate_overlong ht).1 r).1 ⟨hfailure, Report.names_ofExcess_iff.2 rfl⟩⟩

/-- An expression of nine code points is refused under a limit of nine. -/
theorem not_within_expressionLength : ¬ ∀ (rules : Rules) (t : Text),
    0 < rules.limits.expressionLength →
    rules.limits = { expressionLength := rules.limits.expressionLength } →
    (t.length : Int) ≤ rules.limits.expressionLength →
    ∀ r, (evaluate rules t).1 = .error (.report r) → ¬ r.Names .expressionLength := by
  intro h
  let rules : Rules := ⟨.standard, { expressionLength := 9 }, .standard, fun _ => .one⟩
  have hfailure : (evaluate rules "string(a)").1 =
      .error (.report (Report.ofExcess ⟨.expressionLength, 9, 11⟩)) := by decide +kernel
  exact h rules "string(a)" (by decide) rfl (by decide) _ hfailure (Report.names_ofExcess_iff.2 rfl)

end Reckon
