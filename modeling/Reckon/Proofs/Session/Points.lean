import Reckon.Proofs.Session.Actions

/-!
# Points of a run

A run is at a point when it has carried out the first actions of its plan (`Action.Reaches`). There
are then values on the stack, where the operands and arguments of what comes next are, and values of
variables. An action yields a value (`Action.Yields`) or leaves the stack as it is, and a variable
is only bound to the last value (`Action.perform_cases`). So a property of values holds at every point
if what the actions yield has it (`Action.Reaches.allValues`). The last point of a run is where it
ends or fails (`Session.exists_reached`).
-/

namespace Reckon

/-! ## Values of variables -/

namespace Environment

variable {B : Environment} {n : Text} {v : Value}

theorem mem_of_get? (h : B.get? n = some v) : (n, v) ∈ B := by
  induction B with
  | nil => cases h
  | cons p B ih =>
    obtain ⟨m, w⟩ := p
    rw [get?_cons] at h
    split at h
    · rename_i hn
      rw [hn, Option.some.inj h]
      exact List.mem_cons_self
    · exact List.mem_cons_of_mem _ (ih h)

theorem eq_or_mem_of_mem_bind {p : Text × Value} (h : p ∈ B.bind n v) : p = (n, v) ∨ p ∈ B := by
  induction B with
  | nil => exact .inl (List.mem_singleton.1 h)
  | cons q B ih =>
    obtain ⟨m, w⟩ := q
    unfold bind at h
    split at h
    · exact (List.mem_cons.1 h).imp_right (List.mem_cons_of_mem _)
    split at h
    · exact List.mem_cons.1 h
    · rcases List.mem_cons.1 h with rfl | h
      · exact .inr List.mem_cons_self
      · exact (ih h).imp_right (List.mem_cons_of_mem _)

end Environment

/-- What is bound behind a statement is its value, or was bound before. -/
theorem Form.eq_or_mem_of_mem_update {form : Form} {v : Value} {B : Environment} {p : Text × Value}
    (h : p ∈ form.update v B) : p.2 = v ∨ p ∈ B := by
  cases form with
  | binding target => exact (Environment.eq_or_mem_of_mem_bind h).imp_left (congrArg Prod.snd)
  | bare | result => exact .inr h

/-! ## What an action does -/

namespace Action

variable {rules : Rules} {stack next : List Value} {s t : Session}

/-- The action yields the value. -/
inductive Yields (rules : Rules) (stack : List Value) (s : Session) : Action → Value → Prop
  | number {n : SignedNumeral} (p : Nat) {d : Decimal} (h : n.read rules.precision = .ok d) :
    Yields rules stack s (.number n p) (.number d none n.numeral.isInteger)
  | string (w : Text) : Yields rules stack s (.string w) (.string w)
  | read {n : Text} (p : Nat) {v : Value} (h : s.bindings.get? n = some v) :
    Yields rules stack s (.read n p) v
  | operator {op : Operator} (p : Nat) {x y v : Value} {below : List Value}
    (hstack : stack = y :: x :: below) (h : rules.apply op x y = .ok v) :
    Yields rules stack s (.operator op p) v
  | call {n : Text} {k : Nat} (p : Nat) {v : Value}
    (h : rules.call (rules.draws s.drawn) n (stack.take k).reverse =
      .ok v) : Yields rules stack s (.call n k p) v

/-- The number of values that the action takes from the stack. -/
def taken : Action → Nat
  | .operator .. => 2
  | .call _ k _ => k
  | _ => 0

/-- An action yields a value in the place of those that it takes, or leaves the stack as it is.
Variables are bound where a statement is done, and to its value. -/
theorem perform_cases {a : Action} (h : a.perform rules stack s = (.ok next, t)) :
    (∃ v, a.Yields rules stack s v ∧ next = v :: stack.drop a.taken ∧ t.bindings = s.bindings) ∨
      next = stack ∧ (t.bindings = s.bindings ∨ ∃ index st v, a = .finish index st ∧
        stack.head? = some v ∧ t.bindings = st.form.update v s.bindings) := by
  cases a with
  | start | leave =>
    obtain ⟨hnext, rfl⟩ := Prod.mk.inj h
    exact .inr ⟨(Except.ok.inj hnext).symm, .inl rfl⟩
  | number n p =>
    obtain ⟨rfl, v, hv, rfl⟩ := Evaluation.exists_of_node h
    split at hv
    · rename_i d hd
      obtain rfl := Except.ok.inj hv
      exact .inl ⟨_, .number p hd, rfl, rfl⟩
    · cases hv
  | string w =>
    obtain ⟨hnext, rfl⟩ := Prod.mk.inj h
    exact .inl ⟨_, .string w, (Except.ok.inj hnext).symm, rfl⟩
  | read n p =>
    obtain ⟨rfl, v, hv, rfl⟩ := Evaluation.exists_of_node h
    split at hv
    · rename_i w hw
      obtain rfl := Except.ok.inj hv
      exact .inl ⟨_, .read p hw, rfl, rfl⟩
    · cases hv
  | operator op p =>
    rcases stack with - | ⟨y, - | ⟨x, below⟩⟩
    · obtain ⟨hnext, rfl⟩ := Prod.mk.inj h
      exact .inr ⟨(Except.ok.inj hnext).symm, .inl rfl⟩
    · obtain ⟨hnext, rfl⟩ := Prod.mk.inj h
      exact .inr ⟨(Except.ok.inj hnext).symm, .inl rfl⟩
    · obtain ⟨rfl, v, hv, rfl⟩ := Evaluation.exists_of_node h
      exact .inl ⟨v, .operator p rfl hv, rfl, rfl⟩
  | find n p =>
    obtain ⟨rfl, -, -, rfl⟩ := Evaluation.exists_of_node h
    exact .inr ⟨rfl, .inl rfl⟩
  | call n k p =>
    obtain ⟨v, u, hcall, hv⟩ := Evaluation.exists_of_bind h
    obtain ⟨hnext, rfl⟩ := Prod.mk.inj hv
    unfold Session.call at hcall
    split at hcall
    · cases hcall
    · rename_i w hw
      obtain ⟨hwv, rfl⟩ := Prod.mk.inj hcall
      obtain rfl := Except.ok.inj hwv
      exact .inl ⟨w, .call p hw, (Except.ok.inj hnext).symm, rfl⟩
  | finish index st =>
    cases stack with
    | nil =>
      obtain ⟨hnext, rfl⟩ := Prod.mk.inj h
      exact .inr ⟨(Except.ok.inj hnext).symm, .inl rfl⟩
    | cons v below =>
      obtain ⟨hnext, rfl⟩ := Prod.mk.inj h
      exact .inr ⟨(Except.ok.inj hnext).symm, .inr ⟨index, st, v, rfl, rfl, rfl⟩⟩

/-! ## Points -/

/-- From nothing, the run of the actions comes to the stack and the session behind `done`. -/
def Reaches (rules : Rules) (actions done : List Action) (stack : List Value) (s : Session) :
    Prop :=
  done <+: actions ∧ performAll rules done [] {} = (.ok stack, s)

end Action

/-- All values on the stack and all values of variables have the property. -/
structure Session.AllValues (P : Value → Prop) (stack : List Value) (s : Session) : Prop where
  /-- The values on the stack. -/
  stack : ∀ v ∈ stack, P v
  /-- The values of the variables. -/
  bindings : ∀ p ∈ s.bindings, P p.2

namespace Action

variable {actions done : List Action}

/-- In front of the last action that is carried out is a point of the run. -/
theorem Reaches.exists_before {a : Action} (h : Reaches rules actions (done ++ [a]) next t) :
    ∃ stack s, Reaches rules actions done stack s ∧ a.perform rules stack s = (.ok next, t) := by
  obtain ⟨hfront, h⟩ := h
  rw [performAll_append] at h
  obtain ⟨stack, s, hdone, h⟩ := Evaluation.exists_of_bind h
  obtain ⟨stack', s', ha, h⟩ := Evaluation.exists_of_bind h
  obtain ⟨hnext, rfl⟩ := Prod.mk.inj h
  obtain rfl := Except.ok.inj hnext
  exact ⟨stack, s, ⟨(List.prefix_append done [a]).trans hfront, hdone⟩, ha⟩

/-- A property of values, which may depend on what is done, holds at every point if what is yielded
has it and no action takes it away. -/
theorem Reaches.allValues {P : List Action → Value → Prop}
    (hmono : ∀ done a v, P done v → P (done ++ [a]) v)
    (hstep : ∀ done a stack s v, done ++ [a] <+: actions → Reaches rules actions done stack s →
      Session.AllValues (P done) stack s → a.Yields rules stack s v → P (done ++ [a]) v)
    (h : Reaches rules actions done stack s) : Session.AllValues (P done) stack s := by
  induction done using List.reverseRecOn generalizing stack s with
  | nil =>
    obtain ⟨hstack, rfl⟩ := Prod.mk.inj h.2
    obtain rfl := Except.ok.inj hstack
    exact ⟨fun _ hv => (by cases hv), fun _ hp => (by cases hp)⟩
  | append_singleton done a ih =>
    obtain ⟨stack', u, hbefore, ha⟩ := h.exists_before
    have hall := ih hbefore
    have hvalues : Session.AllValues (P (done ++ [a])) stack' u :=
      ⟨fun v hv => hmono done a v (hall.stack v hv),
        fun p hp => hmono done a _ (hall.bindings p hp)⟩
    rcases perform_cases ha with ⟨v, hv, rfl, hbindings⟩ | ⟨rfl, hbindings⟩
    · have hyield := hstep done a stack' u v h.1 hbefore hall hv
      refine ⟨List.forall_mem_cons.2 ⟨hyield, fun w hw => ?_⟩, hbindings ▸ hvalues.bindings⟩
      exact hvalues.stack w (List.mem_of_mem_drop hw)
    · refine ⟨hvalues.stack, ?_⟩
      rcases hbindings with hbindings | ⟨index, st, v, -, hv, hbindings⟩
      · exact hbindings ▸ hvalues.bindings
      · intro p hp
        rw [hbindings] at hp
        rcases Form.eq_or_mem_of_mem_update hp with hp | hp
        · exact hp ▸ hvalues.stack v (List.mem_of_mem_head? hv)
        · exact hvalues.bindings p hp

end Action

/-- A run ends or fails at a point of it, and its value is the last one there. -/
theorem Session.exists_reached (rules : Rules) (sources : List Text) :
    ∃ done stack, Action.Reaches rules (plan rules.limits 0 sources) done stack
        (run rules sources {}).2 ∧
      ∀ v, (run rules sources {}).1 = .ok v → stack.head? = some v := by
  have hrun := runFrom_eq_plan rules sources 0 none [] {} rfl
  rcases hplan : Action.performAll rules (plan rules.limits 0 sources) [] {} with ⟨f | stack, s⟩
  · rw [hplan] at hrun
    obtain ⟨done, a, rest, stack, hsplit, hdone, -⟩ := Action.exists_failing hplan
    refine ⟨done, stack, ⟨⟨a :: rest, hsplit.symm⟩, ?_⟩, fun v hv => ?_⟩
    · rw [run, hrun, hdone]
    · rw [run, hrun] at hv
      cases hv
  · rw [hplan] at hrun
    obtain ⟨hs, hvalue⟩ := hrun
    refine ⟨_, stack, ⟨List.prefix_rfl, ?_⟩, hvalue⟩
    rw [hplan, run, hs]

end Reckon
