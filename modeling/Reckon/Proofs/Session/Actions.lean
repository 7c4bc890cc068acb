import Reckon.Number.Elementary.Rounded
import Reckon.Proofs.Session.Calls

/-!
# Runs as lists of actions

What a run does is fixed by its text. `Session.plan` is the list of its actions : each statement is
begun, the nodes of its tree are worked off with the operands in front of their operator and the
arguments in front of their call, and the statement is done. A called name is looked up in front of
the arguments, by an action of its own. `Action.perform` carries an action out on a stack of values.

Evaluating a tree is carrying out its actions (`Expr.performAll_actions`), and so is a run
(`Session.runFrom_eq_plan`). An action that fails leaves the session as it is, so a run that fails
stops in front of one of its actions (`Action.exists_failing`). What the session knows of calls and
draws is then read off the actions that were carried out (`Action.performAll_calls`) : no call is
recorded twice or out of order, and each call of `rand` gets the draw of its place
(`evaluate_plan`).
-/

namespace Reckon

/-- The number of calls that take a draw, by their names. -/
def Registry.drawing (functions : Registry) (names : List Text) : Nat :=
  names.countP fun n => functions.lookup n = some .rand

/-- A call of the function that draws yields the draw. -/
theorem Registry.call_rand {library : Library} {functions : Registry} {precision : Precision}
    {draw : Double} {n : Text} {vs : List Value} {v : Value}
    (hn : functions.lookup n = some .rand)
    (h : functions.call precision draw n vs = .ok v) : v = .real draw.toDecimal := by
  have hfind : functions.find n = .ok .rand := by rw [find, hn]
  rw [call, hfind] at h
  simp only at h
  split at h
  · rename_i harity
    obtain rfl := List.eq_nil_of_length_eq_zero harity
    exact (Except.ok.inj h).symm
  · cases h

/-! ## Actions -/

/-- Something that a run does. -/
inductive Action where
  /-- A statement is begun. -/
  | start (index : Nat) (st : Statement)
  /-- A number is read. -/
  | number (value : SignedNumeral) (position : Nat)
  /-- A string is read. -/
  | string (value : Text)
  /-- A variable is looked up. -/
  | read (name : Text) (position : Nat)
  /-- An operator is applied to the last two values. -/
  | operator (op : Operator) (position : Nat)
  /-- The name of a call is looked up. -/
  | find (name : Text) (position : Nat)
  /-- A function is called with so many of the last values. -/
  | call (name : Text) (arguments : Nat) (position : Nat)
  /-- A statement is done. -/
  | finish (index : Nat) (st : Statement)
  /-- The run is ended with statements left over. -/
  | leave (index skipped : Nat)

namespace Expr

mutual

/-- The actions that evaluate a tree. -/
def actions : Expr → List Action
  | .number n p => [.number n p]
  | .string v _ => [.string v]
  | .variable n p => [.read n p]
  | .group inner _ => inner.actions
  | .binary op left right p => left.actions ++ right.actions ++ [.operator op p]
  | .call n arguments p =>
    .find n p :: actionsOfAll arguments ++ [.call n arguments.length p]

/-- The actions that evaluate several trees. -/
def actionsOfAll : List Expr → List Action
  | [] => []
  | e :: rest => e.actions ++ actionsOfAll rest

end

end Expr

namespace Action

open Evaluation

/-- Carries an action out on a stack of values, the last one first. -/
def perform (rules : Rules) (stack : List Value) : Action → Evaluation (List Value)
  | .start index st => do
    note (.statementParsed index (st.expression.outline 0))
    update fun s => { s with source := st.source }
    return stack
  | .number n p => do
    let v ← node p (match n.read rules.precision with
      | .ok d => .ok (.number d none n.numeral.isInteger)
      | .error s => .error (.signal s))
    return v :: stack
  | .string v => Evaluation.pure (.string v :: stack)
  | .read n p => do
    let v ← Session.read n p
    return v :: stack
  | .operator op p =>
    match stack with
    | y :: x :: rest => do
      let v ← node p (rules.apply op x y)
      return v :: rest
    | _ => Evaluation.pure stack
  | .find n p => do
    let _ ← node p (rules.functions.find n)
    return stack
  | .call n k p => do
    let v ← Session.call rules n p (stack.take k).reverse
    return v :: stack.drop k
  | .finish index st =>
    match stack with
    | [] => Evaluation.pure []
    | v :: _ => do
      update fun s => { s with bindings := st.form.update v s.bindings }
      note (.statementEvaluated index st.form v.sort)
      return stack
  | .leave index skipped => do
    note (.returnedEarly index skipped)
    return stack

/-- Carries actions out in order. -/
def performAll (rules : Rules) : List Action → List Value → Evaluation (List Value)
  | [], stack => Evaluation.pure stack
  | a :: rest, stack => do
    let next ← a.perform rules stack
    performAll rules rest next

/-- The function that the action calls, if it calls one. -/
def called? : Action → Option Text
  | .call n _ _ => some n
  | _ => none

/-- The functions that actions call, in order. -/
def calls (actions : List Action) : List Text := actions.filterMap called?

end Action

namespace Evaluation

variable {α β γ : Type}

theorem bind_assoc (x : Evaluation α) (f : α → Evaluation β) (g : β → Evaluation γ) :
    x >>= f >>= g = x >>= fun a => f a >>= g := by
  funext s
  simp only [bind_apply]
  rcases x s with ⟨e | a, t⟩ <;> rfl

theorem bind_congr {x : Evaluation α} {f g : α → Evaluation β}
    (h : ∀ s a t, x s = (.ok a, t) → f a = g a) : x >>= f = x >>= g := by
  funext s
  rw [bind_apply, bind_apply]
  rcases hx : x s with ⟨e | a, t⟩
  · rfl
  · exact congrFun (h s a t hx) t

/-- A computation that fails does so before its value is changed. -/
theorem error_of_map {x : Evaluation α} {g : α → β} {s t : Session} {f : Failure}
    (h : (x >>= fun a => Evaluation.pure (g a)) s = (.error f, t)) : x s = (.error f, t) := by
  rw [bind_apply] at h
  rcases hx : x s with ⟨e | a, u⟩
  · rw [hx] at h
    obtain ⟨he, rfl⟩ := Prod.mk.inj h
    rw [Except.error.inj he]
  · rw [hx] at h
    cases h

theorem node_error {x : Except Trouble α} {p : Nat} {s t : Session} {f : Failure}
    (h : node p x s = (.error f, t)) : t = s := by
  cases x with
  | ok a => cases h
  | error e => exact (Prod.mk.inj h).2.symm

/-- The value of a computation that yields one comes from the computation without its last step. -/
theorem exists_of_bind {x : Evaluation α} {f : α → Evaluation β} {s t : Session} {b : β}
    (h : (x >>= f) s = (.ok b, t)) : ∃ a u, x s = (.ok a, u) ∧ f a u = (.ok b, t) := by
  rw [bind_apply] at h
  rcases hx : x s with ⟨e | a, u⟩
  · rw [hx] at h
    cases h
  · rw [hx] at h
    exact ⟨a, u, rfl, h⟩

/-- A node whose value is used yields it, and leaves the session as it is. -/
theorem exists_of_node {x : Except Trouble α} {g : α → β} {p : Nat} {s t : Session} {b : β}
    (h : (node p x >>= fun a => Evaluation.pure (g a)) s = (.ok b, t)) :
    t = s ∧ ∃ a, x = .ok a ∧ b = g a := by
  obtain ⟨a, u, hx, hg⟩ := exists_of_bind h
  obtain ⟨hb, rfl⟩ := Prod.mk.inj hg
  cases x with
  | error e => cases hx
  | ok c =>
    obtain ⟨hc, rfl⟩ := Prod.mk.inj hx
    obtain rfl := Except.ok.inj hc
    exact ⟨rfl, c, rfl, (Except.ok.inj hb).symm⟩

end Evaluation

variable {rules : Rules}

namespace Action

theorem performAll_append (l m : List Action) (stack : List Value) :
    performAll rules (l ++ m) stack = performAll rules l stack >>= performAll rules m := by
  induction l generalizing stack with
  | nil => rfl
  | cons a l ih =>
    rw [List.cons_append, performAll, performAll, Evaluation.bind_assoc]
    exact congrArg _ (funext ih)

end Action

namespace Expr

open Reckon.Action

/-- Each tree has a value of its own. -/
theorem evaluateAll_length : ∀ (es : List Expr) {s t : Session} {vs : List Value},
    evaluateAll rules es s = (.ok vs, t) → vs.length = es.length
  | [], _, _, _, h => by
    obtain rfl := Except.ok.inj (Prod.mk.inj h).1
    rfl
  | e :: es, s, t, vs, h => by
    obtain ⟨v, u, -, h⟩ := Evaluation.exists_of_bind h
    obtain ⟨ws, u', hws, h⟩ := Evaluation.exists_of_bind h
    obtain rfl := Except.ok.inj (Prod.mk.inj h).1
    rw [List.length_cons, List.length_cons, evaluateAll_length es hws]

mutual

/-- To evaluate a tree is to carry out its actions, whatever follows them. -/
theorem performAll_actions : ∀ (e : Expr) (rest : List Action) (stack : List Value),
    performAll rules (e.actions ++ rest) stack =
      e.evaluate rules >>= fun v => performAll rules rest (v :: stack)
  | .number _ _, _, _ => Evaluation.bind_assoc _ _ _
  | .string _ _, _, _ => rfl
  | .variable _ _, _, _ => Evaluation.bind_assoc _ _ _
  | .group inner _, rest, stack => performAll_actions inner rest stack
  | .binary op left right p, rest, stack => by
    have hoperator : ∀ x y, performAll rules (.operator op p :: rest) (y :: x :: stack) =
        Evaluation.node p (rules.apply op x y) >>= fun v =>
          performAll rules rest (v :: stack) := fun x y => Evaluation.bind_assoc _ _ _
    rw [actions, List.append_assoc, List.append_assoc, performAll_actions left, evaluate,
      Evaluation.bind_assoc]
    refine congrArg _ (funext fun x => ?_)
    rw [performAll_actions right, Evaluation.bind_assoc]
    exact congrArg _ (funext fun y => hoperator x y)
  | .call n arguments p, rest, stack => by
    have hcall : ∀ vs : List Value, vs.length = arguments.length →
        performAll rules (.call n arguments.length p :: rest) (vs.reverse ++ stack) =
          Session.call rules n p vs >>= fun v => performAll rules rest (v :: stack) := by
      intro vs hlength
      rw [performAll, perform, Evaluation.bind_assoc, ← hlength, ← List.length_reverse,
        List.take_left, List.drop_left, List.reverse_reverse]
      rfl
    rw [actions, List.append_assoc, List.cons_append, performAll, perform, Evaluation.bind_assoc,
      evaluate, Evaluation.bind_assoc]
    refine congrArg _ (funext fun _ => ?_)
    change performAll rules (actionsOfAll arguments ++ _) stack = _
    rw [performAll_actionsOfAll arguments, Evaluation.bind_assoc]
    exact Evaluation.bind_congr fun s vs t h => hcall vs (evaluateAll_length arguments h)

theorem performAll_actionsOfAll : ∀ (es : List Expr) (rest : List Action) (stack : List Value),
    performAll rules (actionsOfAll es ++ rest) stack =
      evaluateAll rules es >>= fun vs => performAll rules rest (vs.reverse ++ stack)
  | [], _, _ => rfl
  | e :: es, rest, stack => by
    rw [actionsOfAll, List.append_assoc, performAll_actions e, evaluateAll, Evaluation.bind_assoc]
    refine congrArg _ (funext fun v => ?_)
    rw [performAll_actionsOfAll es, Evaluation.bind_assoc]
    refine congrArg _ (funext fun vs => ?_)
    change _ = performAll rules rest ((v :: vs).reverse ++ stack)
    rw [List.reverse_cons, List.append_assoc, List.singleton_append]

end

end Expr

/-! ## What actions do to a session -/

namespace Action

/-- An action that fails leaves the session as it is. -/
theorem perform_error {a : Action} {stack : List Value} {s t : Session} {f : Failure}
    (h : a.perform rules stack s = (.error f, t)) : t = s := by
  cases a with
  | start | string | leave => cases h
  | number | read | find => exact Evaluation.node_error (Evaluation.error_of_map h)
  | operator op p =>
    rcases stack with - | ⟨y, - | ⟨x, rest⟩⟩
    · cases h
    · cases h
    · exact Evaluation.node_error (Evaluation.error_of_map h)
  | call n k p =>
    have hcall := Evaluation.error_of_map h
    unfold Session.call at hcall
    split at hcall
    · exact (Prod.mk.inj hcall).2.symm
    · cases hcall
  | finish index st => cases stack <;> cases h

/-- Actions that fail do so at one of them. Those in front of it were carried out, and lead to the
session that is left. -/
theorem exists_failing {f : Failure} : ∀ {actions : List Action} {stack : List Value}
    {s t : Session}, performAll rules actions stack s = (.error f, t) →
    ∃ done a rest stack', actions = done ++ a :: rest ∧
      performAll rules done stack s = (.ok stack', t) ∧ a.perform rules stack' t = (.error f, t)
  | [], _, _, _, h => by cases h
  | a :: actions, stack, s, t, h => by
    rw [performAll, Evaluation.bind_apply] at h
    rcases ha : a.perform rules stack s with ⟨g | next, u⟩
    · rw [ha] at h
      obtain ⟨hg, rfl⟩ := Prod.mk.inj h
      obtain rfl := Except.error.inj hg
      obtain rfl := perform_error ha
      exact ⟨[], a, actions, stack, rfl, rfl, ha⟩
    · rw [ha] at h
      obtain ⟨done, b, rest, stack', rfl, hdone, hb⟩ := exists_failing h
      refine ⟨a :: done, b, rest, stack', rfl, ?_, hb⟩
      rw [performAll, Evaluation.bind_apply, ha]
      exact hdone

/-- An action records its call and takes the draw of its call, and does nothing else to either. -/
theorem perform_calls {a : Action} {stack next : List Value} {s t : Session}
    (h : a.perform rules stack s = (.ok next, t)) :
    t.called = (calls [a]).foldl addName s.called ∧
      t.drawn = s.drawn + rules.functions.drawing (calls [a]) := by
  cases a with
  | start | string | leave =>
    obtain ⟨-, rfl⟩ := Prod.mk.inj h
    exact ⟨rfl, rfl⟩
  | number | read | find =>
    obtain ⟨rfl, -⟩ := Evaluation.exists_of_node h
    exact ⟨rfl, rfl⟩
  | operator op p =>
    rcases stack with - | ⟨y, - | ⟨x, rest⟩⟩
    · obtain ⟨-, rfl⟩ := Prod.mk.inj h
      exact ⟨rfl, rfl⟩
    · obtain ⟨-, rfl⟩ := Prod.mk.inj h
      exact ⟨rfl, rfl⟩
    · obtain ⟨rfl, -⟩ := Evaluation.exists_of_node h
      exact ⟨rfl, rfl⟩
  | finish index st =>
    cases stack <;>
    · obtain ⟨-, rfl⟩ := Prod.mk.inj h
      exact ⟨rfl, rfl⟩
  | call n k p =>
    obtain ⟨v, u, hcall, hv⟩ := Evaluation.exists_of_bind h
    obtain ⟨-, rfl⟩ := Prod.mk.inj hv
    unfold Session.call at hcall
    split at hcall
    · cases hcall
    · obtain ⟨-, rfl⟩ := Prod.mk.inj hcall
      refine ⟨rfl, ?_⟩
      by_cases hn : rules.functions.lookup n = some .rand <;>
        simp [Session.afterCall, Registry.drawing, calls, called?, hn]

theorem calls_append (l m : List Action) : calls (l ++ m) = calls l ++ calls m :=
  List.filterMap_append

/-- The calls that are recorded and the draws that are taken are those of the actions. -/
theorem performAll_calls : ∀ {actions : List Action} {stack next : List Value} {s t : Session},
    performAll rules actions stack s = (.ok next, t) →
    t.called = (calls actions).foldl addName s.called ∧
      t.drawn = s.drawn + rules.functions.drawing (calls actions)
  | [], _, _, _, _, h => by
    obtain ⟨-, rfl⟩ := Prod.mk.inj h
    exact ⟨rfl, rfl⟩
  | a :: actions, stack, next, s, t, h => by
    obtain ⟨stack', u, ha, hrest⟩ := Evaluation.exists_of_bind h
    obtain ⟨hcalled, hdrawn⟩ := perform_calls ha
    obtain ⟨hcalled', hdrawn'⟩ := performAll_calls hrest
    have happend : calls (a :: actions) = calls [a] ++ calls actions := calls_append [a] actions
    rw [happend, List.foldl_append, ← hcalled, Registry.drawing, List.countP_append,
      ← Nat.add_assoc]
    exact ⟨hcalled', by rw [hdrawn', hdrawn]; rfl⟩

/-- A call of `rand` yields the draw of its place among the calls that draw. -/
theorem performAll_rand {before after : List Action} {stack next : List Value} {s t : Session}
    {n : Text} {k p : Nat} (hn : rules.functions.lookup n = some .rand)
    (h : performAll rules (before ++ .call n k p :: after) stack s = (.ok next, t)) :
    ∃ below u, performAll rules (before ++ [.call n k p]) stack s = (.ok (.real (rules.draws
      (s.drawn + rules.functions.drawing (calls before))).toDecimal :: below), u) := by
  rw [performAll_append] at h
  obtain ⟨stack', u, hbefore, h⟩ := Evaluation.exists_of_bind h
  obtain ⟨stack'', w, hcall, -⟩ := Evaluation.exists_of_bind h
  have happend : performAll rules (before ++ [.call n k p]) stack s = (.ok stack'', w) := by
    rw [performAll_append, Evaluation.bind_apply, hbefore]
    simp only [performAll, Evaluation.bind_apply, hcall]
    rfl
  obtain ⟨v, w', hv, hstack⟩ := Evaluation.exists_of_bind hcall
  obtain rfl := Except.ok.inj (Prod.mk.inj hstack).1
  refine ⟨stack'.drop k, w, ?_⟩
  rw [happend, ← (performAll_calls hbefore).2]
  unfold Session.call at hv
  split at hv
  · cases hv
  · rename_i x hx
    obtain rfl := Except.ok.inj (Prod.mk.inj hv).1
    rw [Registry.call_rand hn hx]

end Action

/-! ## Runs -/

namespace Expr

mutual

/-- The calls among the actions of a tree are its calls, in their order. -/
theorem calls_actions : ∀ e : Expr, Action.calls e.actions = e.calls
  | .number .. | .string .. | .variable .. => rfl
  | .group inner _ => calls_actions inner
  | .binary _ left right _ => by
    rw [actions, Action.calls_append, Action.calls_append, calls_actions left, calls_actions right]
    exact List.append_nil _
  | .call n arguments _ => by
    rw [actions, List.cons_append, Action.calls, List.filterMap_cons_none rfl, ← Action.calls,
      Action.calls_append, calls_actionsOfAll arguments]
    rfl

theorem calls_actionsOfAll : ∀ es : List Expr, Action.calls (actionsOfAll es) = callsOfAll es
  | [] => rfl
  | e :: es => by
    rw [actionsOfAll, Action.calls_append, calls_actions e, calls_actionsOfAll es, callsOfAll]

end

end Expr

namespace Session

/-- The actions of a run : those of the statements up to the first that returns or cannot be
read. -/
def plan (limits : Limits) (index : Nat) : List Text → List Action
  | [] => []
  | source :: rest =>
    match Statement.parse limits source with
    | .error _ => []
    | .ok st => .start index st :: (st.expression.actions ++ .finish index st ::
        if st.form = .result then [.leave index rest.length] else plan limits (index + 1) rest)

/-- What is collected from a plan is collected from the statements that are executed, if there is
nothing where a statement is done or the run is ended. -/
theorem filterMap_plan {α : Type} {f : Action → Option α} {g : Statement → Option α}
    (hstart : ∀ index st, f (.start index st) = g st)
    (hfinish : ∀ index st, f (.finish index st) = none)
    (hleave : ∀ index skipped, f (.leave index skipped) = none) (limits : Limits) :
    ∀ (sources : List Text) (index : Nat), (plan limits index sources).filterMap f =
      (Statement.executed limits sources).flatMap fun st =>
        (g st).toList ++ st.expression.actions.filterMap f
  | [], _ => rfl
  | source :: rest, index => by
    rw [plan, Statement.executed]
    cases Statement.parse limits source with
    | error r => rfl
    | ok st =>
      have hrest : List.filterMap f (if st.form = .result then [.leave index rest.length]
          else plan limits (index + 1) rest) =
          (if st.form = .result then [] else Statement.executed limits rest).flatMap fun st =>
            (g st).toList ++ st.expression.actions.filterMap f := by
        split
        · exact List.filterMap_cons_none (hleave index rest.length)
        · exact filterMap_plan hstart hfinish hleave limits rest (index + 1)
      simp only [List.filterMap_cons, List.filterMap_append, hstart, hfinish, hrest,
        List.flatMap_cons]
      cases g st <;> simp

theorem calls_plan (limits : Limits) (sources : List Text) (index : Nat) :
    Action.calls (plan limits index sources) =
      (Statement.executed limits sources).flatMap fun st => st.expression.calls := by
  rw [Action.calls, filterMap_plan (g := fun _ => none) (fun _ _ => rfl) (fun _ _ => rfl)
    (fun _ _ => rfl)]
  exact List.flatMap_congr fun st _ => Expr.calls_actions st.expression

variable (rules) in
/-- A run carries out its plan. It fails where that fails; and if nothing in the plan fails, it
leaves the same session, and its value is the last one. -/
theorem runFrom_eq_plan : ∀ (sources : List Text) (index : Nat) (last : Option Value)
    (stack : List Value) (s : Session), stack.head? = last →
    match Action.performAll rules (plan rules.limits index sources) stack s with
    | (.error f, t) => runFrom rules index last sources s = (.error f, t)
    | (.ok next, t) => (runFrom rules index last sources s).2 = t ∧
        ∀ v, (runFrom rules index last sources s).1 = .ok v → next.head? = some v
  | [], index, last, stack, s, hlast => by
    cases last with
    | none => exact ⟨rfl, fun v hv => by cases hv⟩
    | some w => exact ⟨rfl, fun v hv => hlast.trans (congrArg some (Except.ok.inj hv))⟩
  | source :: rest, index, last, stack, s, hlast => by
    cases hst : Statement.parse rules.limits source with
    | error r =>
      simp only [plan, hst]
      rw [runFrom_cons_of_error hst]
      exact ⟨rfl, fun v hv => by cases hv⟩
    | ok st =>
      let begun : Session :=
        { s.noted (.statementParsed index (st.expression.outline 0)) with source := st.source }
      have hstart : (Action.start index st).perform rules stack s = (.ok stack, begun) := rfl
      simp only [plan, hst]
      rw [runFrom_cons hst, execute_eq, Action.performAll, Evaluation.bind_apply, hstart]
      simp only
      rw [Expr.performAll_actions, Evaluation.bind_apply]
      rcases st.expression.evaluate rules begun with ⟨f | v, t⟩
      · rfl
      let done : Session :=
        { t with
          bindings := st.form.update v t.bindings
          journal := t.journal ++ [.statementEvaluated index st.form v.sort] }
      have hfinish : (Action.finish index st).perform rules (v :: stack) t =
          (.ok (v :: stack), done) := rfl
      simp only
      rw [Action.performAll, Evaluation.bind_apply, hfinish]
      by_cases hform : st.form = .result
      · simp only [if_pos hform]
        exact ⟨rfl, fun w hw => congrArg some (Except.ok.inj hw)⟩
      · simp only [if_neg hform]
        exact runFrom_eq_plan rest (index + 1) _ _ done rfl

end Session

/-- An expression that comes to a value called the functions in its statements up to the first that
returns. -/
theorem answer_called {t : Text} {s s' : Session} {a : Answer}
    (h : answer rules t s = (.ok a, s')) : s'.called =
      ((Statement.executed rules.limits t.sources).flatMap fun st => st.expression.calls).foldl
        addName s.called := by
  rw [answer, answerRunning, Evaluation.bind_apply] at h
  rcases Text.prepare_cases rules.limits t with hsources | ⟨r, hr, -⟩
  · rw [hsources] at h
    obtain ⟨v, u, hv, h⟩ := Evaluation.exists_of_bind h
    have hs' : s' = u := by
      split at h
      · cases h
      · exact (Prod.mk.inj h).2.symm
    have hrun := Session.runFrom_eq_plan rules t.sources 0 none [] s rfl
    rcases hplan : Action.performAll rules (Session.plan rules.limits 0 t.sources) [] s with
      ⟨f | next, w⟩
    · rw [hplan] at hrun
      cases hv.symm.trans hrun
    · rw [hplan] at hrun
      have hu : u = w := (congrArg Prod.snd hv).symm.trans hrun.1
      rw [← Session.calls_plan rules.limits t.sources 0, ← (Action.performAll_calls hplan).1, hs',
        hu]
  · rw [hr] at h
    cases h

/-- The statements of an expression that are executed if none of them fails. -/
def Text.executed (limits : Limits) (t : Text) : List Statement :=
  match t.prepare limits with
  | .error _ => []
  | .ok sources => Statement.executed limits sources

/-- The actions of an expression. -/
def Text.plan (limits : Limits) (t : Text) : List Action :=
  match t.prepare limits with
  | .error _ => []
  | .ok sources => Session.plan limits 0 sources

theorem Text.calls_plan (limits : Limits) (t : Text) : Action.calls (t.plan limits) =
    (t.executed limits).flatMap fun st => st.expression.calls := by
  unfold plan executed
  cases t.prepare limits with
  | error r => rfl
  | ok sources => exact Session.calls_plan limits sources 0

/-- An expression carries out its plan. -/
theorem evaluate_eq_plan (rules : Rules) (t : Text) :
    match Action.performAll rules (t.plan rules.limits) [] {} with
    | (.error f, s) => evaluate rules t = (.error f, s)
    | (.ok stack, s) => (evaluate rules t).2 = s ∧
        ∀ a, (evaluate rules t).1 = .ok a → stack.head? = some a.value := by
  rcases Text.prepare_cases rules.limits t with hsources | ⟨r, hr, -⟩
  · have hrun := Session.runFrom_eq_plan rules t.sources 0 none [] {} rfl
    have hvalue := fun (a : Answer) (ha : (evaluate rules t).1 = .ok a) => (run_of_evaluate ha).1
    simp only [Text.plan, hsources, evaluate_of_prepare hsources] at hvalue ⊢
    rcases hplan : Action.performAll rules (Session.plan rules.limits 0 t.sources) [] {} with
      ⟨f | stack, s⟩
    · rw [hplan] at hrun
      rw [Session.run, hrun]
      rfl
    · rw [hplan] at hrun
      exact ⟨hrun.1, fun a ha => hrun.2 a.value (hvalue a ha)⟩
  · have hfailure : evaluate rules t = (.error (.report r), {}) := by
      rw [evaluate, answer, answerRunning, Evaluation.bind_apply, hr]
      rfl
    simp only [Text.plan, hr, hfailure]
    exact ⟨rfl, fun a ha => by cases ha⟩

/-- An expression carries out all of its plan, or what is in front of the action that fails. -/
theorem exists_performed (rules : Rules) (t : Text) :
    let s := (evaluate rules t).2
    ∃ done rest stack, t.plan rules.limits = done ++ rest ∧
      Action.performAll rules done [] {} = (.ok stack, s) ∧
      (∀ a, (evaluate rules t).1 = .ok a → rest = [] ∧ stack.head? = some a.value) ∧
      ∀ f, (evaluate rules t).1 = .error f → rest = [] ∨
        ∃ a after, rest = a :: after ∧ a.perform rules stack s = (.error f, s) := by
  intro s
  have hplan := evaluate_eq_plan rules t
  rcases hall : Action.performAll rules (t.plan rules.limits) [] {} with ⟨f | stack, u⟩
  · rw [hall] at hplan
    obtain ⟨done, a, after, stack, hcut, hdone, ha⟩ := Action.exists_failing hall
    have hs : s = u := congrArg Prod.snd hplan
    have hf : (evaluate rules t).1 = .error f := congrArg Prod.fst hplan
    rw [← hs] at hdone ha
    refine ⟨done, a :: after, stack, hcut, hdone, fun b hb => ?_, fun g hg => ?_⟩
    · rw [hf] at hb
      cases hb
    · obtain rfl := Except.error.inj (hf.symm.trans hg)
      exact .inr ⟨a, after, rfl, ha⟩
  · rw [hall] at hplan
    refine ⟨t.plan rules.limits, [], stack, (List.append_nil _).symm, ?_, fun a ha =>
      ⟨rfl, hplan.2 a ha⟩, fun _ _ => .inl rfl⟩
    rw [hall, ← hplan.1]

/-- An expression carries out a first part of its plan, and what it has recorded in the end is what
that part says : the functions that were called, once each and in the order of their first calls,
and one draw for each call that takes one, the draw of the place that the call has among these
calls. If the expression comes to a value, the part is the whole plan. If it fails, the whole plan
was carried out, or the action behind the part is the one that fails. The calls of the plan are
those of the statements, in the order of the source and with the arguments of a call in front of
it. -/
theorem evaluate_plan (rules : Rules) (t : Text) :
    let C := (t.executed rules.limits).flatMap fun st => st.expression.calls
    let s := (evaluate rules t).2
    ∃ done rest stack, t.plan rules.limits = done ++ rest ∧
      C = Action.calls done ++ Action.calls rest ∧
      Action.performAll rules done [] {} = (.ok stack, s) ∧
      s.called = (Action.calls done).eraseDups ∧
      s.drawn = rules.functions.drawing (Action.calls done) ∧
      (∀ before n k p after, done = before ++ .call n k p :: after →
        rules.functions.lookup n = some .rand →
        ∃ below u, Action.performAll rules (before ++ [.call n k p]) [] {} =
          (.ok (.real (rules.draws
            (rules.functions.drawing (Action.calls before))).toDecimal :: below), u)) ∧
      (∀ a, (evaluate rules t).1 = .ok a → rest = [] ∧ s.called = C.eraseDups ∧
        s.drawn = rules.functions.drawing C ∧ stack.head? = some a.value) ∧
      ∀ f, (evaluate rules t).1 = .error f → rest = [] ∨
        ∃ a after, rest = a :: after ∧ a.perform rules stack s = (.error f, s) := by
  intro C s
  obtain ⟨done, rest, stack, hcut, hdone, hvalue, hfailure⟩ := exists_performed rules t
  obtain ⟨hcalled, hdrawn⟩ := Action.performAll_calls hdone
  rw [foldl_addName_nil] at hcalled
  rw [Nat.zero_add] at hdrawn
  have hC : C = Action.calls done ++ Action.calls rest := by
    rw [← Action.calls_append, ← hcut]
    exact (Text.calls_plan rules.limits t).symm
  refine ⟨done, rest, stack, hcut, hC, hdone, hcalled, hdrawn, ?_, fun a ha => ?_, hfailure⟩
  · rintro before n k p after rfl hn
    obtain ⟨below, u, h⟩ := Action.performAll_rand hn hdone
    rw [Nat.zero_add] at h
    exact ⟨below, u, h⟩
  · obtain ⟨rfl, hstack⟩ := hvalue a ha
    have hC' : C = Action.calls done := hC.trans (List.append_nil _)
    rw [hC']
    exact ⟨rfl, hcalled, hdrawn, hstack⟩

attribute [local instance] Library.rounded

/-- The third call that draws has an argument too many, and is neither recorded nor given a draw. -/
example :
    let functions : Registry := [("r", .rand), ("rand", .rand), ("sqrt", .sqrt)]
    let s := (evaluate ⟨.standard, {}, functions, fun _ => .one⟩ "sqrt(r())+rand(rand())*r()").2
    s.called = ["r", "sqrt", "rand"] ∧ s.drawn = 2 := by
  decide +kernel

end Reckon
