import Reckon.Proofs.Session.Kinds
import Reckon.Proofs.Session.Overlong
import Reckon.Proofs.Session.Points

/-!
# Limits of a run

The limits are checked in different places : the length of an expression and the number of its
statements before anything is read, the length of a statement and of a string where it is scanned,
the depth, the arguments and the nodes by the reader, and the length of a string once more where two
are joined. Together they hold at every point of a run (`evaluate_within`).

The statements that a plan begins are those that a run executes (`Text.started_plan`), and each of
them was read, so it keeps the limits on one statement. A string on the stack is written in one of
them or was joined, and a function yields none (`Registry.fits_call`). A failure that names the
limit on the depth comes from the reader (`Text.parse_of_names`), which stops at the first
parenthesis that is too deep.
-/

namespace Reckon

/-! ## Statements of a plan -/

namespace Action

/-- The statement that the action begins, if it begins one. -/
def started? : Action → Option Statement
  | .start _ st => some st
  | _ => none

/-- The statements that actions begin, in order. -/
def started (actions : List Action) : List Statement := actions.filterMap started?

/-- The string that the action reads, if it reads one. -/
def string? : Action → Option Text
  | .string w => some w
  | _ => none

/-- The action is one of a node, and a string that it reads is among the lexemes. -/
def Among (ls : List Lexeme) : Action → Prop
  | .start .. | .finish .. | .leave .. => False
  | .string w => .string w ∈ ls
  | _ => True

theorem Among.mono {ls ms : List Lexeme} {a : Action} (h : a.Among ls) (hsub : ls ⊆ ms) :
    a.Among ms := by
  cases a <;> first | exact hsub h | exact h

end Action

namespace Expr

mutual

/-- The actions of a tree are those of its nodes, and their strings are written in it. -/
theorem among_of_mem_actions : ∀ (e : Expr) {a : Action}, a ∈ e.actions → a.Among e.lexemes
  | .number .., _, h | .variable .., _, h => by
    obtain rfl := List.mem_singleton.1 h
    trivial
  | .string .., _, h => by
    obtain rfl := List.mem_singleton.1 h
    exact List.mem_cons_self
  | .group inner _, _, h => by
    refine (among_of_mem_actions inner h).mono fun l hl => ?_
    exact List.mem_append_left _ (List.mem_cons_of_mem _ hl)
  | .binary _ left right _, _, h => by
    rcases List.mem_append.1 h with h | h
    · rcases List.mem_append.1 h with h | h
      · exact (among_of_mem_actions left h).mono (List.subset_append_left _ _)
      · refine (among_of_mem_actions right h).mono fun l hl => ?_
        exact List.mem_append_right _ (List.mem_cons_of_mem _ hl)
    · obtain rfl := List.mem_singleton.1 h
      trivial
  | .call _ arguments _, _, h => by
    rcases List.mem_append.1 h with h | h
    · rcases List.mem_cons.1 h with rfl | h
      · trivial
      · refine (among_of_mem_actionsOfAll arguments h).mono fun l hl => ?_
        exact List.mem_append_left _ (List.mem_cons_of_mem _ (List.mem_cons_of_mem _ hl))
    · obtain rfl := List.mem_singleton.1 h
      trivial

theorem among_of_mem_actionsOfAll : ∀ (es : List Expr) {a : Action}, a ∈ actionsOfAll es →
    a.Among (lexemesOfAll es)
  | [e], _, h => among_of_mem_actions e ((List.mem_append.1 h).resolve_right List.not_mem_nil)
  | e :: f :: es, _, h => by
    rcases List.mem_append.1 h with h | h
    · exact (among_of_mem_actions e h).mono (List.subset_append_left _ _)
    · refine (among_of_mem_actionsOfAll (f :: es) h).mono fun l hl => ?_
      exact List.mem_append_right _ (List.mem_cons_of_mem _ hl)

end

/-- The evaluation of a tree begins no statement. -/
theorem started_actions (e : Expr) : Action.started e.actions = [] :=
  List.filterMap_eq_nil_iff.2 fun a ha => by
    have hamong := among_of_mem_actions e ha
    cases a <;> first | rfl | exact hamong.elim

end Expr

namespace Session

/-- A plan begins the statements that are executed. -/
theorem started_plan (limits : Limits) (sources : List Text) (index : Nat) :
    Action.started (plan limits index sources) = Statement.executed limits sources := by
  rw [Action.started, filterMap_plan (g := some) (fun _ _ => rfl) (fun _ _ => rfl)
    (fun _ _ => rfl)]
  refine (List.flatMap_congr fun st _ => ?_).trans (List.flatMap_singleton' _)
  exact congrArg (st :: ·) (Expr.started_actions st.expression)

/-- A string that is read is written in a statement that is executed. -/
theorem exists_of_string_mem_plan {limits : Limits} {w : Text} {sources : List Text} {index : Nat}
    (h : .string w ∈ plan limits index sources) :
    ∃ st ∈ Statement.executed limits sources, .string w ∈ st.expression.lexemes := by
  have hmem : w ∈ (plan limits index sources).filterMap Action.string? :=
    List.mem_filterMap.2 ⟨_, h, rfl⟩
  rw [filterMap_plan (g := fun _ => none) (fun _ _ => rfl) (fun _ _ => rfl) (fun _ _ => rfl)]
    at hmem
  obtain ⟨st, hst, hw⟩ := List.mem_flatMap.1 hmem
  obtain ⟨a, ha, hstring⟩ := List.mem_filterMap.1 hw
  have hamong := Expr.among_of_mem_actions st.expression ha
  cases a with
  | string v =>
    obtain rfl := Option.some.inj hstring
    exact ⟨st, hst, hamong⟩
  | _ => cases hstring

end Session

namespace Statement

variable {limits : Limits}

theorem length_executed_le (limits : Limits) : ∀ sources : List Text,
    (executed limits sources).length ≤ sources.length
  | [] => le_rfl
  | source :: rest => by
    rw [executed]
    split
    · exact Nat.zero_le _
    split
    · exact Nat.le_add_left _ _
    · exact Nat.succ_le_succ (length_executed_le limits rest)

/-- A statement that is executed keeps the limits on one statement. -/
theorem within_of_mem_executed (h0 : limits.Nonnegative) {st : Statement} :
    ∀ {sources : List Text}, st ∈ executed limits sources → st.Within limits
  | source :: rest, h => by
    rw [executed] at h
    split at h
    · cases h
    · rename_i st' hst
      rcases List.mem_cons.1 h with rfl | h
      · exact within_of_parse h0 hst
      split at h
      · cases h
      · exact within_of_mem_executed h0 h

end Statement

namespace Text

variable {limits : Limits} {t : Text}

theorem started_plan (limits : Limits) (t : Text) :
    Action.started (t.plan limits) = t.executed limits := by
  unfold plan executed
  cases t.prepare limits with
  | error r => rfl
  | ok sources => exact Session.started_plan limits sources 0

/-- No more statements are executed than the limit allows. -/
theorem length_executed_le (h0 : limits.Nonnegative) (t : Text) :
    ((t.executed limits).length : Int) ≤ limits.statements := by
  unfold executed prepare
  split
  · exact h0 .statements
  · rename_i sources hsources
    split at hsources
    · cases hsources
    simp only at hsources
    split at hsources
    · cases hsources
    rename_i hcount
    split at hsources
    · cases hsources
    obtain rfl := Except.ok.inj hsources
    have hle := (limits.check_eq_ok_iff .statements _).1 hcount
    exact Int.le_trans (Int.ofNat_le.2 (Statement.length_executed_le limits _)) hle

theorem within_of_mem_executed (h0 : limits.Nonnegative) {st : Statement}
    (h : st ∈ t.executed limits) : st.Within limits := by
  unfold executed at h
  split at h
  · cases h
  · exact Statement.within_of_mem_executed h0 h

/-- A string that is read is not too long. -/
theorem length_le_of_string_mem_plan (h0 : limits.Nonnegative) {w : Text}
    (h : .string w ∈ t.plan limits) : (w.length : Int) ≤ limits.stringLength := by
  unfold plan at h
  split at h
  · cases h
  · obtain ⟨st, hst, hw⟩ := Session.exists_of_string_mem_plan h
    exact (Statement.within_of_mem_executed h0 hst).strings w hw

end Text

/-! ## Strings -/

/-- A string is not longer than the limit. -/
def Value.Fits (limits : Limits) : Value → Prop
  | .number .. => True
  | .string w => (w.length : Int) ≤ limits.stringLength

theorem Value.fits_of_kind {limits : Limits} {v : Value} (h : v.kind ≠ .string) :
    v.Fits limits := by
  obtain ⟨_, _, _, rfl⟩ := exists_number h
  trivial

/-- Only a sum of strings is a string, and it is not too long. -/
theorem Operator.fits_apply {library : Library} {precision : Precision} {limits : Limits}
    {op : Operator} {x y v : Value} (h : op.apply precision limits x y = .ok v) :
    v.Fits limits := by
  unfold apply at h
  split at h
  · split at h
    · cases h
    · obtain rfl := Except.ok.inj h
      trivial
  split at h
  · split at h
    · unfold joined at h
      split at h
      · cases h
      · rename_i hcheck
        obtain rfl := Except.ok.inj h
        exact (limits.check_eq_ok_iff .stringLength _).1 hcheck
    · cases h
  · cases h

theorem Builtin.kind?_ne_string (b : Builtin) (ks : List Kind) : b.kind? ks ≠ some .string := by
  unfold kind?
  split <;> simp

/-- A call yields no string. -/
theorem Registry.fits_call {library : Library} {limits : Limits} {functions : Registry}
    {precision : Precision} {draw : Double} {n : Text} {vs : List Value} {v : Value}
    (h : functions.call precision draw n vs = .ok v) : v.Fits limits := by
  unfold call at h
  split at h
  · cases h
  · rename_i b _
    split at h
    · rename_i hlength
      have hkind := b.apply_kind precision draw vs hlength
      rw [h] at hkind
      exact Value.fits_of_kind fun hv => b.kind?_ne_string _ (hkind.trans (congrArg some hv))
    · cases h

/-- At every point of a run all strings are within the limit. -/
theorem Action.Reaches.fits {rules : Rules} (h0 : rules.limits.Nonnegative) {t : Text}
    {done : List Action} {stack : List Value} {s : Session}
    (h : Reaches rules (t.plan rules.limits) done stack s) :
    Session.AllValues (Value.Fits rules.limits) stack s := by
  refine h.allValues (P := fun _ => Value.Fits rules.limits) (fun _ _ _ hv => hv)
    fun done a stack s v hnext _ hall hv => ?_
  cases hv with
  | number => trivial
  | string w =>
    have hmem := hnext.subset (List.mem_append_right done (List.mem_singleton_self _))
    exact Text.length_le_of_string_mem_plan h0 hmem
  | read p h => exact hall.bindings _ (Environment.mem_of_get? h)
  | operator p hstack h => exact Operator.fits_apply h
  | call p h => exact Registry.fits_call h

/-! ## Depth -/

variable {l : Limit} {r : Report}

/-- Before it is run, an expression is refused for its length or for the number of its
statements. -/
theorem Text.names_of_prepare {limits : Limits} {t : Text} (h : prepare limits t = .error r)
    (hr : r.Names l) : l = .expressionLength ∨ l = .statements := by
  unfold prepare at h
  split at h
  · rename_i x hx
    obtain ⟨-, rfl⟩ := Limits.check_eq_error_iff.1 hx
    obtain rfl := Except.error.inj h
    exact .inl (Report.names_ofExcess_iff.1 hr).symm
  simp only at h
  split at h
  · rename_i x hx
    obtain ⟨-, rfl⟩ := Limits.check_eq_error_iff.1 hx
    obtain rfl := Except.error.inj h
    exact .inr (Report.names_ofExcess_iff.1 hr).symm
  split at h
  · obtain rfl := Except.error.inj h
    obtain ⟨_, _, hf⟩ := hr
    cases hf
  · cases h

/-- A limit on the tree of a statement is only exceeded where a statement is read. -/
theorem Text.parse_of_names {rules : Rules} {t : Text}
    (h : (evaluate rules t).1 = .error (.report r)) (hr : r.Names l)
    (hl : l = .depth ∨ l = .nodes ∨ l = .arguments) :
    ∃ source ∈ t.sources, Statement.parse rules.limits source = .error r := by
  rcases Text.prepare_cases rules.limits t with hsources | ⟨r', hr', -⟩
  · rcases Session.exists_of_runFrom_error t.sources (run_of_report hsources h) with
      ⟨-, -, hempty⟩ | ⟨before, source, after, sts, hsplit, -, -, -, hsource⟩
    · obtain rfl := Failure.report.inj hempty
      obtain ⟨_, _, hf⟩ := hr
      cases hf
    rcases hsource with ⟨r', hr', hreport, -⟩ | ⟨st, i, -, hx⟩
    · obtain rfl := Failure.report.inj hreport
      exact ⟨source, by simp [hsplit], hr'⟩
    · obtain rfl := Session.execute_ofStrings hx l hr
      rcases hl with hl | hl | hl <;> cases hl
  · rw [evaluate, answer, answerRunning, Evaluation.bind_apply, hr'] at h
    obtain rfl := Failure.report.inj (Except.error.inj h)
    rcases Text.names_of_prepare hr' hr with rfl | rfl <;> rcases hl with hl | hl | hl <;> cases hl

/-- A statement that is refused for its depth gets one parenthesis too deep. -/
theorem Statement.depth_of_parse {limits : Limits} (h0 : limits.Nonnegative) {source : Text}
    (h : parse limits source = .error r) (hr : r.Names .depth) :
    r = Report.ofExcess ⟨.depth, limits.depth, limits.depth + 1⟩ := by
  obtain ⟨x, hread, rfl, hx⟩ := exists_excess_of_parse h hr
  have hstart : Reader.start.Shallow limits := h0 .depth
  rcases excess_of_read hread with ⟨-, rfl⟩ | hstring | harguments | hnodes | ⟨-, hdepth⟩
  · cases hx
  · cases hx.symm.trans hstring
  · cases hx.symm.trans harguments
  · cases hx.symm.trans hnodes
  · rw [hdepth hstart]

/-! ## Evaluations -/

/-- Under limits that are not negative, an expression keeps them at every point of its run. No more
statements are begun than the limit allows, and each of them keeps the limits on its length, on the
depth and the nodes of its tree and on the arguments in it. All strings are within the limit : those
on the stack, where the arguments of the next call are, and those of the variables. The evaluation
ends or fails at a point, with its value the last one there. Whatever the tokens are, the reader is
never inside more parentheses and calls than the limit allows, and when a statement or an expression
is refused for this limit, the report gives a depth of one more. -/
theorem evaluate_within {rules : Rules} (h0 : rules.limits.Nonnegative) (t : Text) :
    let limits := rules.limits
    let excess := Report.ofExcess ⟨.depth, limits.depth, limits.depth + 1⟩
    (∀ done stack s, Action.Reaches rules (t.plan limits) done stack s →
      ((Action.started done).length : Int) ≤ limits.statements ∧
      (∀ st ∈ Action.started done, st.Within limits) ∧
      Session.AllValues (Value.Fits limits) stack s) ∧
    (∃ done stack, Action.Reaches rules (t.plan limits) done stack (evaluate rules t).2 ∧
      ∀ a, (evaluate rules t).1 = .ok a → stack.head? = some a.value ∧ a.value.Fits limits) ∧
    (∀ us r, Reader.start.steps limits us = .ok r → (r.enclosures.length : Int) ≤ limits.depth) ∧
    (∀ source r, Statement.parse limits source = .error r → r.Names .depth → r = excess) ∧
    ∀ r, (evaluate rules t).1 = .error (.report r) → r.Names .depth → r = excess := by
  intro limits excess
  refine ⟨fun done stack s h => ?_, ?_, fun us r h => Reader.steps_shallow limits h (h0 .depth),
    fun source r h hr => Statement.depth_of_parse h0 h hr, fun r h hr => ?_⟩
  · have hstarted : Action.started done <+: t.executed limits := by
      rw [← Text.started_plan]
      exact h.1.filterMap _
    have hlength := Int.ofNat_le.2 hstarted.length_le
    exact ⟨Int.le_trans hlength (Text.length_executed_le h0 t),
      fun st hst => Text.within_of_mem_executed h0 (hstarted.subset hst), h.fits h0⟩
  · obtain ⟨done, rest, stack, hcut, hdone, hvalue, -⟩ := exists_performed rules t
    have hreaches : Action.Reaches rules (t.plan limits) done stack (evaluate rules t).2 :=
      ⟨⟨rest, hcut.symm⟩, hdone⟩
    refine ⟨done, stack, hreaches, fun a ha => ?_⟩
    have hhead := (hvalue a ha).2
    exact ⟨hhead, (hreaches.fits h0).stack _ (List.mem_of_mem_head? hhead)⟩
  · obtain ⟨source, -, hsource⟩ := Text.parse_of_names h hr (.inl rfl)
    exact Statement.depth_of_parse h0 hsource hr

attribute [local instance] Library.rounded

/-- The first statement binds a string that fits, and the second one is refused for its depth. -/
theorem evaluate_within_nested :
    let rules : Rules := ⟨.standard, { depth := 1, stringLength := 2 }, .standard, fun _ => .one⟩
    let t : Text := "x = \x22a\x22 + \x22b\x22; ((1))"
    let r : Report := Report.ofExcess ⟨.depth, 1, 2⟩
    rules.limits.Nonnegative ∧ (evaluate rules t).1 = .error (.report r) ∧ r.Names .depth ∧
      (evaluate rules t).2.bindings.get? "x" = some (.string "ab") ∧
      r = Report.ofExcess ⟨.depth, rules.limits.depth, rules.limits.depth + 1⟩ ∧
      ∃ done stack, Action.Reaches rules (t.plan rules.limits) done stack (evaluate rules t).2 ∧
        ((Action.started done).length : Int) ≤ rules.limits.statements ∧
        Session.AllValues (Value.Fits rules.limits) stack (evaluate rules t).2 := by
  intro rules t r
  have h0 : rules.limits.Nonnegative := by
    intro l
    cases l <;> decide
  have hfailure : (evaluate rules t).1 = .error (.report r) := by decide +kernel
  have hr : r.Names .depth := Report.names_ofExcess_iff.2 rfl
  obtain ⟨hpoints, ⟨done, stack, hend, -⟩, -, -, hdepth⟩ := evaluate_within h0 t
  obtain ⟨hstarted, -, hvalues⟩ := hpoints done stack _ hend
  exact ⟨h0, hfailure, hr, by decide +kernel, hdepth r hfailure hr, done, stack, hend, hstarted,
    hvalues⟩

end Reckon
