import Reckon.Proofs.Grammar.Viability
import Reckon.Proofs.Session.Calls
import Reckon.Proofs.Session.Faults

/-!
# The variables of a session, step by step

A session is told to run sources or to execute a statement, again and again (`Command`), and what it
is told may fail anywhere. `Command.history` is the trace of it, one step for each statement that is
executed. Behind each step the variables are those of the assignments so far that came to a value,
each with its latest value (`Command.history_bindings`). Nothing else binds a name : not a bare
expression, not `return`, and not a statement that fails.

The value of a bare expression may also go through a variable of its own, that is bound, read and
taken away again (`Session.executeThrough`). Its name starts with a mark that no name starts with,
so this makes no difference (`Session.executeThrough_eq`).
-/

namespace Reckon

/-! ## The order of names -/

namespace Text

theorem precedes_trans : ∀ {t u v : Text}, t.precedes u = true → u.precedes v = true →
    t.precedes v = true
  | [], [], _, h, _ => by cases h
  | [], _ :: _, [], _, h => by cases h
  | [], _ :: _, _ :: _, _, _ => rfl
  | _ :: _, [], _, h, _ => by cases h
  | _ :: _, _ :: _, [], _, h => by cases h
  | a :: t, b :: u, c :: v, htu, huv => by
    simp only [precedes] at htu huv ⊢
    split at htu
    · split at huv
      · rw [if_pos (by omega)]
      · split at huv
        · cases huv
        · rw [if_pos (by omega)]
    · split at htu
      · cases htu
      · split at huv
        · rw [if_pos (by omega)]
        · split at huv
          · cases huv
          · rw [if_neg (by omega), if_neg (by omega)]
            exact precedes_trans htu huv

theorem precedes_total : ∀ {t u : Text}, t ≠ u → t.precedes u = false → u.precedes t = true
  | [], [], hne, _ => (hne rfl).elim
  | [], _ :: _, _, h => by cases h
  | _ :: _, [], _, _ => rfl
  | a :: t, b :: u, hne, h => by
    simp only [precedes] at h ⊢
    split at h
    · cases h
    · split at h
      · rw [if_pos ‹_›]
      · rename_i hab hba
        rw [if_neg hba, if_neg hab]
        refine precedes_total (fun htu => hne ?_) h
        have hval : a.val = b.val := by omega
        obtain ⟨a, _⟩ := a
        obtain ⟨b, _⟩ := b
        obtain rfl : a = b := hval
        rw [htu]

end Text

/-! ## Tidy variables -/

namespace Environment

variable {B : Environment} {n : Text} {v : Value}

/-- The names that are bound. -/
def names (B : Environment) : List Text := B.map Prod.fst

/-- The variables are listed in the order of their names, and the names are such as statements can
write. -/
structure Tidy (B : Environment) : Prop where
  /-- A name precedes those behind it. -/
  ordered : B.names.Pairwise fun n m => n.precedes m = true
  /-- All names are names of variables. -/
  named : ∀ n ∈ B.names, n.IsName ∧ n ≠ Lexeme.resultWord

theorem tidy_nil : Tidy [] := ⟨.nil, fun _ h => by cases h⟩

/-- Each name is bound once. -/
theorem Tidy.nodup (h : B.Tidy) : B.names.Nodup :=
  h.ordered.imp fun hprecedes heq => by
    rw [heq, Text.precedes_irrefl] at hprecedes
    cases hprecedes

theorem mem_names_bind {m : Text} : ∀ {B : Environment},
    m ∈ names (B.bind n v) ↔ m = n ∨ m ∈ B.names
  | [] => by simp [bind, names]
  | (k, w) :: B => by
    unfold bind
    split
    · rename_i hk
      subst hk
      simp [names]
    · split
      · simp [names]
      · have ih : m ∈ names (bind n v B) ↔ m = n ∨ m ∈ names B := mem_names_bind
        change m ∈ k :: names (bind n v B) ↔ m = n ∨ m ∈ k :: names B
        rw [List.mem_cons, List.mem_cons, ih, or_left_comm]

theorem ordered_bind : ∀ {B : Environment}, (B.names.Pairwise fun n m => n.precedes m = true) →
    (names (B.bind n v)).Pairwise fun n m => n.precedes m = true
  | [], _ => by simp [bind, names]
  | (k, w) :: B, h => by
    obtain ⟨hk, hB⟩ := List.pairwise_cons.1 h
    unfold bind
    split
    · rename_i hkn
      subst hkn
      exact h
    · rename_i hkn
      split
      · rename_i hnk
        refine List.pairwise_cons.2 ⟨fun m hm => ?_, h⟩
        rcases List.mem_cons.1 hm with rfl | hm
        · exact hnk
        · exact Text.precedes_trans hnk (hk m hm)
      · rename_i hnk
        refine List.pairwise_cons.2 ⟨fun m hm => ?_, ordered_bind hB⟩
        rcases mem_names_bind.1 hm with rfl | hm
        · exact Text.precedes_total (Ne.symm hkn) (Bool.eq_false_iff.2 hnk)
        · exact hk m hm

theorem Tidy.bind (h : B.Tidy) (hn : n.IsName ∧ n ≠ Lexeme.resultWord) : (B.bind n v).Tidy where
  ordered := ordered_bind h.ordered
  named m hm := by
    rcases mem_names_bind.1 hm with rfl | hm
    · exact hn
    · exact h.named m hm

/-- The variables without those of a name. -/
def unbind (B : Environment) (name : Text) : Environment := B.filter fun p => p.1 ≠ name

/-- To bind a new name and to take it away again changes nothing. -/
theorem unbind_bind : ∀ {B : Environment}, n ∉ B.names → (B.bind n v).unbind n = B
  | [], _ => by simp [bind, unbind]
  | (k, w) :: B, h => by
    obtain ⟨hk, hB⟩ := not_or.1 (mt List.mem_cons.2 h)
    unfold bind
    rw [if_neg (Ne.symm hk)]
    split
    · have hself : unbind ((k, w) :: B) n = (k, w) :: B := by
        refine List.filter_eq_self.2 fun p hp => decide_eq_true ?_
        rintro rfl
        exact h (List.mem_map_of_mem hp)
      rw [unbind, List.filter_cons_of_neg (by simp), ← unbind, hself]
    · rw [unbind, List.filter_cons_of_pos (by simpa using Ne.symm hk), ← unbind, unbind_bind hB]

/-- Names that are bound one after the other. -/
def bindAll (B : Environment) (made : List (Text × Value)) : Environment :=
  made.foldl (fun B p => B.bind p.1 p.2) B

/-- A name has the value that it was bound to last. -/
theorem get?_bindAll (n : Text) (made : List (Text × Value)) :
    (bindAll [] made).get? n = made.reverse.lookup n := by
  induction made using List.reverseRecOn with
  | nil => rfl
  | append_singleton made p ih =>
    obtain ⟨m, v⟩ := p
    have hlast : bindAll [] (made ++ [(m, v)]) = (bindAll [] made).bind m v := List.foldl_append
    rw [hlast, List.reverse_append, List.reverse_singleton, List.singleton_append,
      List.lookup_cons]
    by_cases hn : n = m
    · subst hn
      rw [get?_bind_self, beq_self_eq_true]
    · rw [get?_bind_of_ne _ _ hn, ih, beq_eq_false_iff_ne.2 hn]

end Environment

/-! ## What a statement does to a session -/

namespace Statement

/-- The statement was read from a text, under some limits. -/
def Parsed (st : Statement) : Prop := ∃ limits source, parse limits source = .ok st

/-- What a statement assigns to is the name of a variable. -/
theorem Parsed.target {st : Statement} {n : Text} (h : st.Parsed) (hform : st.form = .binding n) :
    n.IsName ∧ n ≠ Lexeme.resultWord := by
  obtain ⟨limits, source, h⟩ := h
  obtain ⟨ts, hts, -, hts', -⟩ := parse_eq_ok_iff.1 h
  obtain ⟨us, hus, hopens⟩ := Form.exists_of_ofTokens ts
  rw [← hts', hform] at hopens
  have hw : ∀ t ∈ us, t.lexeme.WellFormed := fun t ht =>
    wellFormed_of_tokens hts t (hus ▸ List.mem_append_left _ ht)
  cases hopens with
  | define p q => exact hw _ List.mem_cons_self
  | equals p q => exact hw _ List.mem_cons_self

end Statement

namespace Session

variable {rules : Rules}

/-- The assignment of a step, if it is one and came to a value. -/
def Step.assignment? (step : Step) : Option (Text × Value) :=
  match step.statement.form, step.outcome with
  | .binding n, .ok v => some (n, v)
  | _, _ => none

/-- What is no assignment, or fails, assigns nothing. -/
theorem Step.assignment?_eq_none {step : Step}
    (h : ∀ n v, step.statement.form = .binding n → step.outcome ≠ .ok v) :
    step.assignment? = none := by
  unfold Step.assignment?
  split
  · rename_i n v hform hout
    exact (h n v hform hout).elim
  · rfl

/-- The assignments of a trace, in order. -/
def assignments (trace : List Step) : List (Text × Value) := trace.filterMap Step.assignment?

theorem assignments_cons_none {step : Step} (trace : List Step)
    (h : ∀ n v, step.statement.form = .binding n → step.outcome ≠ .ok v) :
    assignments (step :: trace) = assignments trace :=
  List.filterMap_cons_none (Step.assignment?_eq_none h)

/-- The functions that were called before stay in front, and none is there twice. -/
def Grows (s t : Session) : Prop := s.called <+: t.called ∧ (s.called.Nodup → t.called.Nodup)

theorem Grows.refl (s : Session) : Grows s s := ⟨List.prefix_refl _, id⟩

theorem Grows.trans {s t u : Session} (h : Grows s t) (h' : Grows t u) : Grows s u :=
  ⟨h.1.trans h'.1, h'.2 ∘ h.2⟩

theorem grows_afterCall (n : Text) (s : Session) : Grows s (s.afterCall rules n) := by
  unfold Grows afterCall
  simp only
  split
  · exact ⟨List.prefix_refl _, id⟩
  · rename_i hn
    refine ⟨List.prefix_append _ _, fun h =>
      List.nodup_append.2 ⟨h, List.pairwise_singleton _ n, ?_⟩⟩
    rintro m hm _ hm' rfl
    exact hn (List.mem_singleton.1 hm' ▸ hm)

variable (rules) in
/-- A statement binds its target if it is an assignment and comes to a value. -/
theorem execute_step (i : Nat) (st : Statement) (s : Session) :
    let r := execute rules i st s
    r.2.bindings = s.bindings.bindAll (assignments [⟨st, r.1, r.2⟩]) ∧ Grows s r.2 := by
  have hkeeps := (Expr.evaluate_keeps rules (F := fun _ => True)
    (I := fun t => t.bindings = s.bindings ∧ Grows s t)
    (fun n t ⟨hb, hg⟩ => ⟨hb, hg.trans (grows_afterCall n t)⟩) (fun _ _ _ _ _ => trivial)
    st.expression { s with source := st.source } ⟨rfl, Grows.refl s⟩).1
  rw [execute_eq]
  rcases hx : st.expression.evaluate rules { s with source := st.source } with ⟨f | v, t⟩
  · rw [hx] at hkeeps
    refine ⟨hkeeps.1.trans ?_, hkeeps.2⟩
    cases hform : st.form <;> simp [assignments, Step.assignment?, hform, Environment.bindAll]
  · rw [hx] at hkeeps
    have hbindings : t.bindings = s.bindings := hkeeps.1
    refine ⟨?_, hkeeps.2⟩
    cases hform : st.form <;>
      simp [assignments, Step.assignment?, hform, Environment.bindAll, Form.update, hbindings]

/-! ## Traces -/

/-- The session behind a trace that starts in `s`. -/
def afterTrace (s : Session) (trace : List Step) : Session := (trace.getLast?.map Step.after).getD s

theorem afterTrace_append (s : Session) (trace trace' : List Step) :
    afterTrace s (trace ++ trace') = afterTrace (afterTrace s trace) trace' := by
  unfold afterTrace
  rw [List.getLast?_append]
  cases trace'.getLast? <;> rfl

/-- Each step of the trace executes a statement that was read, binds what it assigns, and may add to
the functions that were called. Between the steps, and from the last one to `t`, the variables and
the functions that were called stay as they are. -/
def Leads (s : Session) : List Step → Session → Prop
  | [], t => t.bindings = s.bindings ∧ t.called = s.called
  | step :: trace, t => step.statement.Parsed ∧
    step.after.bindings = s.bindings.bindAll (assignments [step]) ∧ Grows s step.after ∧
    Leads step.after trace t

namespace Leads

theorem congr {s s' t : Session} (hb : s'.bindings = s.bindings) (hc : s'.called = s.called) :
    ∀ {trace : List Step}, Leads s trace t → Leads s' trace t
  | [], h => ⟨h.1.trans hb.symm, h.2.trans hc.symm⟩
  | step :: trace, h => by
    refine ⟨h.1, ?_, ?_, h.2.2.2⟩
    · rw [hb]
      exact h.2.1
    · unfold Grows
      rw [hc]
      exact h.2.2.1

theorem append {t u : Session} {trace' : List Step} : ∀ {trace : List Step} {s : Session},
    Leads s trace t → Leads t trace' u → Leads s (trace ++ trace') u
  | [], _, h, h' => h'.congr h.1.symm h.2.symm
  | _ :: _, _, h, h' => ⟨h.1, h.2.1, h.2.2.1, append h.2.2.2 h'⟩

theorem cut {t : Session} {after : List Step} : ∀ {before : List Step} {s : Session},
    Leads s (before ++ after) t →
    Leads s before (afterTrace s before) ∧ Leads (afterTrace s before) after t
  | [], _, h => ⟨⟨rfl, rfl⟩, h⟩
  | step :: before, s, h => by
    have hafter : afterTrace s (step :: before) = afterTrace step.after before :=
      afterTrace_append s [step] before
    obtain ⟨hbefore, hrest⟩ := cut h.2.2.2
    rw [hafter]
    exact ⟨⟨h.1, h.2.1, h.2.2.1, hbefore⟩, hrest⟩

/-- Behind the trace all is bound that the trace assigns. -/
theorem bindings {t : Session} : ∀ {trace : List Step} {s : Session}, Leads s trace t →
    t.bindings = s.bindings.bindAll (assignments trace)
  | [], _, h => h.1
  | step :: trace, s, h => by
    have happend : assignments (step :: trace) = assignments [step] ++ assignments trace :=
      List.filterMap_append (l := [step])
    rw [bindings h.2.2.2, h.2.1, happend, Environment.bindAll, Environment.bindAll,
      Environment.bindAll, List.foldl_append]

theorem grows {t : Session} : ∀ {trace : List Step} {s : Session}, Leads s trace t → Grows s t
  | [], s, h => by
    unfold Grows
    rw [h.2]
    exact Grows.refl s
  | _ :: _, _, h => h.2.2.1.trans (grows h.2.2.2)

theorem tidy {t : Session} : ∀ {trace : List Step} {s : Session}, Leads s trace t →
    s.bindings.Tidy → t.bindings.Tidy
  | [], _, h, hs => h.1 ▸ hs
  | step :: trace, s, h, hs => by
    refine tidy h.2.2.2 ?_
    rw [h.2.1]
    cases hform : step.statement.form with
    | binding n =>
      cases hout : step.outcome with
      | ok v =>
        have hmade : assignments [step] = [(n, v)] := by
          simp [assignments, Step.assignment?, hform, hout]
        rw [hmade]
        exact hs.bind (h.1.target hform)
      | error f =>
        rw [assignments_cons_none [] fun _ _ _ hok => by cases hout.symm.trans hok]
        exact hs
    | bare | result =>
      rw [assignments_cons_none [] fun _ _ hbinding => by cases hform.symm.trans hbinding]
      exact hs

end Leads

/-- A run leads through the steps of the statements that are executed. -/
theorem runFrom_leads : ∀ (sources : List Text) (index : Nat) (last : Option Value) (s : Session),
    Leads s (steps rules index (Statement.executed rules.limits sources) s)
      (runFrom rules index last sources s).2
  | [], _, last, _ => by cases last <;> exact ⟨rfl, rfl⟩
  | source :: rest, index, last, s => by
    rw [Statement.executed]
    cases hst : Statement.parse rules.limits source with
    | error r =>
      rw [runFrom_cons_of_error hst]
      exact ⟨rfl, rfl⟩
    | ok st =>
      let begun := s.noted (.statementParsed index (st.expression.outline 0))
      obtain ⟨hbindings, hgrows⟩ := execute_step rules index st begun
      rw [runFrom_cons hst]
      simp only
      rw [steps]
      rcases hx : execute rules index st begun with ⟨f | v, t⟩
      · rw [hx] at hbindings hgrows
        exact ⟨⟨_, _, hst⟩, hbindings, hgrows, rfl, rfl⟩
      · rw [hx] at hbindings hgrows
        refine ⟨⟨_, _, hst⟩, hbindings, hgrows, ?_⟩
        by_cases hform : st.form = .result
        · simp only [if_pos hform]
          exact ⟨rfl, rfl⟩
        · simp only [if_neg hform]
          exact runFrom_leads rest (index + 1) (some v) t

/-! ## Bare values under a name -/

/-- A name that no statement can write. -/
def temporaryName (index : Nat) : Text :=
  Text.ofString "<statement " ++ Text.ofInt index ++ Text.ofString ">"

theorem not_isName_temporaryName (index : Nat) : ¬ (temporaryName index).IsName :=
  fun h => absurd h.1 (by decide)

/-- Binds the value of an assignment; a bare value is bound to a name of its own, read back, and
taken away again. -/
def keepThrough (index : Nat) (v : Value) : Form → Evaluation Value
  | .binding target => do
    Evaluation.update fun s => { s with bindings := s.bindings.bind target v }
    return v
  | .bare => do
    Evaluation.update fun s => { s with bindings := s.bindings.bind (temporaryName index) v }
    let w ← read (temporaryName index) 0
    Evaluation.update fun s => { s with bindings := s.bindings.unbind (temporaryName index) }
    return w
  | .result => return v

/-- Executes a statement as `execute` does, but a bare value gets a name for a while. -/
def executeThrough (rules : Rules) (index : Nat) (st : Statement) : Evaluation Value := do
  let v ← evaluate rules st.expression (some st.source)
  let w ← keepThrough index v st.form
  Evaluation.note (.statementEvaluated index st.form w.sort)
  return w

/-- Among variables that statements can write, the name of a bare value makes no difference. -/
theorem executeThrough_eq (index : Nat) (st : Statement) {s : Session} (hs : s.bindings.Tidy) :
    executeThrough rules index st s = execute rules index st s := by
  have hkeeps := (Expr.evaluate_keeps rules (F := fun _ => True)
    (I := fun t => t.bindings.Tidy) (fun _ _ h => h) (fun _ _ _ _ _ => trivial)
    st.expression { s with source := st.source } hs).1
  rw [execute_eq]
  unfold executeThrough evaluate ofStatement
  simp only [Evaluation.bind_apply, Evaluation.update, Option.getD_some]
  rcases hx : st.expression.evaluate rules { s with source := st.source } with ⟨f | v, t⟩
  · rfl
  rw [hx] at hkeeps
  cases hform : st.form with
  | binding target => rfl
  | result => rfl
  | bare =>
    have hnew : temporaryName index ∉ t.bindings.names := fun h =>
      not_isName_temporaryName index (hkeeps.named _ h).1
    simp only [keepThrough, Evaluation.bind_apply, Evaluation.update, read,
      Environment.get?_bind_self, Evaluation.node, Environment.unbind_bind hnew]
    rfl

/-- So a run may execute each statement in this way. -/
theorem runWith_executeThrough : ∀ (sources : List Text) (index : Nat) (last : Option Value)
    {s : Session}, s.bindings.Tidy →
    runWith (Session.parse rules) (executeThrough rules) index last sources s =
      runFrom rules index last sources s
  | [], _, last, _, _ => by cases last <;> rfl
  | source :: rest, index, last, s, hs => by
    cases hst : Statement.parse rules.limits source with
    | error r =>
      rw [runFrom_cons_of_error hst, runWith_cons_of_error (parse_eq_error hst s)]
    | ok st =>
      let begun := s.noted (.statementParsed index (st.expression.outline 0))
      have hsame : executeThrough rules index st begun = execute rules index st begun :=
        executeThrough_eq index st hs
      have htidy : (execute rules index st begun).2.bindings.Tidy := by
        have h := execute_step rules index st begun
        have hleads : Leads begun [⟨st, _, _⟩] (execute rules index st begun).2 :=
          ⟨⟨_, _, hst⟩, h.1, h.2, rfl, rfl⟩
        exact hleads.tidy hs
      rw [runFrom_cons hst, runWith_cons (parse_eq_ok hst s), hsame]
      rcases hx : execute rules index st begun with ⟨f | v, t⟩
      · rfl
      · rw [hx] at htidy
        simp only
        split
        · rfl
        · exact runWith_executeThrough rest (index + 1) (some v) htidy

end Session

/-! ## Histories -/

open Session

/-- What a session is told to do. -/
inductive Command where
  /-- To run sources. -/
  | run (sources : List Text)
  /-- To execute a statement that was read. -/
  | execute (index : Nat) (st : Statement) (parsed : st.Parsed)

namespace Command

variable (rules : Rules)

/-- Does what the command says. -/
def perform : Command → Evaluation Value
  | .run sources => Session.run rules sources
  | .execute index st _ => Session.execute rules index st

/-- Does what the command says, and binds each bare value to a name of its own. -/
def performThrough : Command → Evaluation Value
  | .run sources => runWith (Session.parse rules) (executeThrough rules) 0 none sources
  | .execute index st _ => executeThrough rules index st

/-- The statements that are executed for the command. -/
def steps (s : Session) : Command → List Step
  | .run sources => Session.steps rules 0 (Statement.executed rules.limits sources) s
  | .execute index st _ =>
    let r := Session.execute rules index st s
    [⟨st, r.1, r.2⟩]

/-- The session after commands. -/
def after (s : Session) (commands : List Command) : Session :=
  commands.foldl (fun s c => (c.perform rules s).2) s

/-- The statements that are executed for commands. -/
def history (s : Session) : List Command → List Step
  | [] => []
  | c :: rest => c.steps rules s ++ history (c.perform rules s).2 rest

variable {rules}

theorem perform_leads (c : Command) (s : Session) :
    Leads s (c.steps rules s) (c.perform rules s).2 := by
  cases c with
  | run sources => exact runFrom_leads sources 0 none s
  | execute index st parsed =>
    obtain ⟨hbindings, hgrows⟩ := execute_step rules index st s
    exact ⟨parsed, hbindings, hgrows, rfl, rfl⟩

theorem after_leads : ∀ (commands : List Command) (s : Session),
    Leads s (history rules s commands) (after rules s commands)
  | [], _ => ⟨rfl, rfl⟩
  | c :: rest, s => (perform_leads c s).append (after_leads rest (c.perform rules s).2)

theorem performThrough_eq (c : Command) {s : Session} (hs : s.bindings.Tidy) :
    c.performThrough rules s = c.perform rules s := by
  cases c with
  | run sources =>
    exact runWith_executeThrough sources 0 none hs
  | execute index st parsed => exact executeThrough_eq index st hs

/-- A run that fails leaves what the statements in front of the failing one have bound. -/
theorem run_error {sources : List Text} {s : Session} {f : Failure}
    (h : (Session.run rules sources s).1 = .error f) :
    (sources = [] ∧ (Session.run rules sources s).2.bindings = s.bindings) ∨
    ∃ before source after sts, sources = before ++ source :: after ∧
      List.Forall₂ (fun source st => Statement.parse rules.limits source = .ok st) before sts ∧
      Succeeds (Session.steps rules 0 sts s) ∧ (∀ st ∈ sts, st.form ≠ .result) ∧
      ((∃ r, Statement.parse rules.limits source = .error r ∧ f = .report r) ∨
        ∃ st i s' t, Statement.parse rules.limits source = .ok st ∧
          Session.execute rules i st s' = (.error f, t)) ∧
      (Session.run rules sources s).2.bindings =
        s.bindings.bindAll (assignments (Session.steps rules 0 sts s)) := by
  rcases exists_of_runFrom_error sources h with
    ⟨rfl, -, -⟩ | ⟨before, source, after, sts, hsources, hread, hok, hforms, hsource⟩
  · exact .inl ⟨rfl, rfl⟩
  refine .inr ⟨before, source, after, sts, hsources, hread, hok, hforms, ?_⟩
  have hleads : Leads s _ (runFrom rules 0 none before s).2 := runFrom_leads before 0 none s
  have hbefore := hleads.bindings
  rw [Statement.executed_eq hread hforms] at hbefore
  rcases hsource with ⟨r, hr, rfl, hrun⟩ | ⟨st, i, hst, hx⟩
  · exact ⟨.inl ⟨r, hr, rfl⟩, (congrArg Session.bindings hrun).trans hbefore⟩
  · refine ⟨.inr ⟨st, i, _, _, hst, hx⟩, ?_⟩
    have hstep := (execute_step rules i st ((runFrom rules 0 none before s).2.noted
      (.statementParsed i (st.expression.outline 0)))).1
    rw [hx] at hstep
    rw [assignments_cons_none [] fun _ _ _ hok => by cases hok] at hstep
    exact hstep.trans hbefore

/-- Whatever a session was told to do, behind each step of it the variables are exactly those of the
assignments so far that came to a value, each with its latest value. They have names that statements
can write. What is no assignment, or fails, leaves the variables as they were. The functions that
were called are there once each, and more of them are only added at the end. Behind the last step
nothing changes any more; so a run that fails leaves what the statements in front of the failing one
have bound. And it makes no difference whether the value of a bare expression goes through a
variable of its own. -/
theorem history_bindings (rules : Rules) (commands : List Command) :
    let trace := history rules {} commands
    let s := after rules {} commands
    (∀ before rest, trace = before ++ rest →
      let m := afterTrace {} before
      m.bindings = Environment.bindAll [] (assignments before) ∧
      (∀ n, m.bindings.get? n = (assignments before).reverse.lookup n) ∧
      m.bindings.Tidy ∧ m.called.Nodup) ∧
    (∀ before step rest, trace = before ++ step :: rest →
      (∀ n v, step.statement.form = .binding n → step.outcome ≠ .ok v) →
      step.after.bindings = (afterTrace {} before).bindings) ∧
    (∀ before middle rest, trace = before ++ middle ++ rest →
      (afterTrace {} before).called <+: (afterTrace {} (before ++ middle)).called) ∧
    (s.bindings = (afterTrace {} trace).bindings ∧ s.called = (afterTrace {} trace).called) ∧
    (∀ sources f, (Session.run rules sources s).1 = .error f →
      (sources = [] ∧ (Session.run rules sources s).2.bindings = s.bindings) ∨
      ∃ before source after sts, sources = before ++ source :: after ∧
        List.Forall₂ (fun source st => Statement.parse rules.limits source = .ok st) before sts ∧
        Succeeds (Session.steps rules 0 sts s) ∧ (∀ st ∈ sts, st.form ≠ .result) ∧
        ((∃ r, Statement.parse rules.limits source = .error r ∧ f = .report r) ∨
          ∃ st i s' t, Statement.parse rules.limits source = .ok st ∧
            Session.execute rules i st s' = (.error f, t)) ∧
        (Session.run rules sources s).2.bindings =
          s.bindings.bindAll (assignments (Session.steps rules 0 sts s))) ∧
    ∀ c : Command, c.performThrough rules s = c.perform rules s := by
  intro trace s
  have hleads : Leads {} trace s := after_leads commands {}
  have hcut : ∀ {before rest}, trace = before ++ rest →
      Leads {} before (afterTrace {} before) ∧ Leads (afterTrace {} before) rest s :=
    fun htrace => (htrace ▸ hleads).cut
  refine ⟨fun before rest htrace => ?_, fun before step rest htrace hstep => ?_,
    fun before middle rest htrace => ?_, ?_, fun sources f => run_error, fun c => ?_⟩
  · have hbefore := (hcut htrace).1
    refine ⟨hbefore.bindings, fun n => ?_, hbefore.tidy Environment.tidy_nil,
      hbefore.grows.2 List.nodup_nil⟩
    rw [hbefore.bindings]
    exact Environment.get?_bindAll n _
  · have hbindings := (hcut htrace).2.2.1
    rwa [assignments_cons_none [] hstep] at hbindings
  · rw [List.append_assoc] at htrace
    rw [afterTrace_append]
    exact (hcut htrace).2.cut.1.grows.1
  · exact (hcut (List.append_nil trace).symm).2
  · exact performThrough_eq c (hleads.tidy Environment.tidy_nil)

attribute [local instance] Library.rounded

/-- The name has its latest value, and neither the bare value nor the assignment that fails is
there. -/
example :
    let s := after ⟨.standard, {}, .standard, fun _ => .one⟩ {}
      [.run ["x:=1", "x:=x+1", "7"], .run ["y:=x/0"]]
    s.bindings = [(Text.ofString "x", .real (.finite false 2 0))] := by
  decide +kernel

end Command

end Reckon
