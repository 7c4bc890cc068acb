import Reckon.Proofs.Session.Actions

/-!
# Variables stand for their values

A variable stands for the expression that its value comes from : an expression has the same outcome
with the variable bound as with the expression in its place (`Expr.evaluate_substitute`). The
expression is then evaluated wherever the variable stands, and not at all if the variable stands
nowhere. It may not draw, for it would draw each time anew.

A tree that does not draw, and that has a value once, has this value in every session with the same
variables, and only the record of calls is changed by it (`Evaluation.Steady`). The two trees are
then evaluated in lockstep : in sessions that take the next draw alike and place failures alike, and
that differ in one variable (`Session.Beside`).
-/

namespace Reckon

/-! ## Trees with a tree in place of a variable -/

namespace Expr

mutual

/-- The tree with another in place of each variable of the name. -/
def substitute (x : Text) (replacement : Expr) : Expr → Expr
  | .number n p => .number n p
  | .string v p => .string v p
  | .variable n p => if n = x then replacement else .variable n p
  | .group inner p => .group (substitute x replacement inner) p
  | .binary op left right p =>
    .binary op (substitute x replacement left) (substitute x replacement right) p
  | .call n arguments p => .call n (substituteAll x replacement arguments) p

/-- The trees with another in place of each variable of the name. -/
def substituteAll (x : Text) (replacement : Expr) : List Expr → List Expr
  | [] => []
  | e :: rest => substitute x replacement e :: substituteAll x replacement rest

end

end Expr

/-! ## Values that do not depend on the session -/

/-- A function that does not draw does not depend on the draw. -/
theorem Registry.call_of_ne_rand {library : Library} {functions : Registry} {n : Text}
    (hn : functions.lookup n ≠ some .rand) (precision : Precision) (draw draw' : Double)
    (vs : List Value) :
    functions.call precision draw n vs = functions.call precision draw' n vs := by
  cases hb : functions.lookup n with
  | none => simp only [call, find, hb]
  | some b =>
    simp only [call, find, hb]
    by_cases hlength : vs.length = b.arity
    · rw [if_pos hlength, if_pos hlength]
      rcases vs with - | ⟨v, - | ⟨w, vs⟩⟩
      · -- Only the function that draws has no argument.
        cases b with
        | rand => exact (hn hb).elim
        | _ => cases hlength
      · rfl
      · rfl
    · rw [if_neg hlength, if_neg hlength]

namespace Evaluation

variable {α β : Type} {B : Environment} {a : α} {b : β}

/-- In every session with the variables the computation yields the value, and changes nothing but
the record of calls. -/
def Steady (B : Environment) (a : α) (x : Evaluation α) : Prop :=
  ∀ s : Session, s.bindings = B → ∃ called, x s = (.ok a, { s with called := called })

theorem steady_pure (B : Environment) (a : α) : Steady B a (Evaluation.pure a) :=
  fun s _ => ⟨s.called, rfl⟩

theorem steady_node {x : Except Trouble α} {p : Nat} {s t : Session}
    (h : node p x s = (.ok a, t)) : Steady B a (node p x) := by
  cases x with
  | error e => cases h
  | ok c =>
    obtain rfl := Except.ok.inj (Prod.mk.inj h).1
    exact fun s _ => ⟨s.called, rfl⟩

theorem Steady.bind {x : Evaluation α} {f : α → Evaluation β} (hx : Steady B a x)
    (hf : Steady B b (f a)) : Steady B b (x >>= f) := by
  intro s hs
  obtain ⟨called, hx⟩ := hx s hs
  rw [bind_apply, hx]
  obtain ⟨called', hf⟩ := hf { s with called := called } hs
  exact ⟨called', hf⟩

/-- What is steady is so wherever it is met. -/
theorem Steady.bindings {x : Evaluation α} (hx : Steady B a x) {c : α} {s t : Session}
    (hs : s.bindings = B) (h : x s = (.ok c, t)) : c = a ∧ t.bindings = B := by
  obtain ⟨called, hx⟩ := hx s hs
  obtain ⟨hc, rfl⟩ := Prod.mk.inj (h.symm.trans hx)
  exact ⟨Except.ok.inj hc, hs⟩

end Evaluation

open Evaluation

variable {rules : Rules} {B : Environment}

namespace Session

theorem read_steady {n : Text} {p : Nat} {v : Value} {s t : Session} (hs : s.bindings = B)
    (h : read n p s = (.ok v, t)) : Steady B v (read n p) := by
  intro u hu
  have hget : u.bindings.get? n = s.bindings.get? n := by rw [hu, hs]
  unfold read at h ⊢
  rw [hget]
  exact steady_node h u hu

theorem call_steady {n : Text} (hn : rules.functions.lookup n ≠ some .rand) {p : Nat}
    {vs : List Value} {v : Value} {s t : Session} (h : call rules n p vs s = (.ok v, t)) :
    Steady B v (call rules n p vs) := by
  intro u _
  unfold call at h ⊢
  split at h
  · cases h
  · rename_i w hw
    obtain rfl := Except.ok.inj (Prod.mk.inj h).1
    have hdraw : rules.call (rules.draws u.drawn) n vs = rules.call (rules.draws s.drawn) n vs :=
      Registry.call_of_ne_rand hn _ _ _ vs
    rw [hdraw, hw]
    exact ⟨(u.afterCall rules n).called, by simp only [afterCall, if_neg hn, Nat.add_zero]⟩

end Session

namespace Expr

mutual

/-- A tree that does not draw has the value that it has once in every session with the same
variables. -/
theorem evaluate_steady : ∀ (e : Expr) {v : Value} {s t : Session},
    (∀ n ∈ e.calls, rules.functions.lookup n ≠ some .rand) → s.bindings = B →
    e.evaluate rules s = (.ok v, t) → Steady B v (e.evaluate rules)
  | .number _ _, _, _, _, _, _, h => steady_node h
  | .string _ _, _, _, _, _, _, h => by
    obtain rfl := Except.ok.inj (Prod.mk.inj h).1
    exact steady_pure B _
  | .variable n p, _, _, _, _, hs, h => Session.read_steady hs h
  | .group inner _, _, _, _, hcalls, hs, h => evaluate_steady inner hcalls hs h
  | .binary op left right p, v, s, t, hcalls, hs, h => by
    obtain ⟨hl, hr⟩ := List.forall_mem_append.1 hcalls
    obtain ⟨x, u, hx, h⟩ := exists_of_bind h
    obtain ⟨y, w, hy, h⟩ := exists_of_bind h
    have hleft := evaluate_steady left hl hs hx
    have hright := evaluate_steady right hr (hleft.bindings hs hx).2 hy
    exact hleft.bind (hright.bind (steady_node h))
  | .call n arguments p, v, s, t, hcalls, hs, h => by
    obtain ⟨harguments, hn⟩ := List.forall_mem_append.1 hcalls
    obtain ⟨b, u, hb, h⟩ := exists_of_bind h
    obtain ⟨vs, w, hvs, h⟩ := exists_of_bind h
    have hfind : Steady B b (node p (rules.functions.find n)) := steady_node hb
    have hall := evaluateAll_steady arguments harguments (hfind.bindings hs hb).2 hvs
    exact hfind.bind (hall.bind (Session.call_steady (hn n List.mem_cons_self) h))

theorem evaluateAll_steady : ∀ (es : List Expr) {vs : List Value} {s t : Session},
    (∀ n ∈ callsOfAll es, rules.functions.lookup n ≠ some .rand) → s.bindings = B →
    evaluateAll rules es s = (.ok vs, t) → Steady B vs (evaluateAll rules es)
  | [], vs, s, t, _, _, h => by
    obtain rfl := Except.ok.inj (Prod.mk.inj h).1
    exact steady_pure B []
  | e :: rest, vs, s, t, hcalls, hs, h => by
    obtain ⟨he, hrest⟩ := List.forall_mem_append.1 hcalls
    obtain ⟨v, u, hv, h⟩ := exists_of_bind h
    obtain ⟨ws, w, hws, h⟩ := exists_of_bind h
    have hfirst := evaluate_steady e he hs hv
    have hothers := evaluateAll_steady rest hrest (hfirst.bindings hs hv).2 hws
    obtain rfl := Except.ok.inj (Prod.mk.inj h).1
    exact hfirst.bind (hothers.bind (steady_pure B _))

end

end Expr

/-! ## Trees in lockstep -/

namespace Evaluation

variable {α β : Type} {R : Session → Session → Prop}

/-- From related sessions the computations come to the same outcome and to related sessions. -/
def Lockstep (R : Session → Session → Prop) (x y : Evaluation α) : Prop :=
  ∀ s t, R s t → (x s).1 = (y t).1 ∧ R (x s).2 (y t).2

theorem lockstep_pure (a : α) : Lockstep R (Evaluation.pure a) (Evaluation.pure a) :=
  fun _ _ h => ⟨rfl, h⟩

/-- A node goes wrong alike in sessions with the same statement. -/
theorem lockstep_node (hR : ∀ s t, R s t → s.source = t.source) (p : Nat) (x : Except Trouble α) :
    Lockstep R (node p x) (node p x) := by
  intro s t h
  cases x with
  | ok a => exact ⟨rfl, h⟩
  | error e =>
    refine ⟨?_, h⟩
    simp only [node, hR s t h]

theorem Lockstep.bind {x y : Evaluation α} {f g : α → Evaluation β} (h : Lockstep R x y)
    (hf : ∀ a, Lockstep R (f a) (g a)) : Lockstep R (x >>= f) (y >>= g) := by
  intro s t hst
  obtain ⟨hxy, hR⟩ := h s t hst
  rw [bind_apply, bind_apply]
  rcases hx : x s with ⟨e | a, s'⟩ <;> rcases hy : y t with ⟨e' | a', t'⟩ <;> rw [hx, hy] at hxy hR
  · exact ⟨congrArg Except.error (Except.error.inj hxy), hR⟩
  · cases hxy
  · cases hxy
  · obtain rfl := Except.ok.inj hxy
    exact hf a s' t' hR

end Evaluation

namespace Session

/-- The first session has the variables, and the second has one more, or another value for it.
Draws and statements are the same. -/
structure Beside (x : Text) (v : Value) (B : Environment) (s t : Session) : Prop where
  /-- The variables of the first session. -/
  bindings : s.bindings = B
  /-- The variables of the second one. -/
  bound : t.bindings = B.bind x v
  /-- The next draw is the same. -/
  drawn : s.drawn = t.drawn
  /-- Failures belong to the same statement. -/
  source : s.source = t.source

variable {x : Text} {v : Value}

theorem read_lockstep {n : Text} (hn : n ≠ x) (p : Nat) :
    Lockstep (Beside x v B) (read n p) (read n p) := by
  intro s t h
  have hget : t.bindings.get? n = s.bindings.get? n := by
    rw [h.bound, h.bindings, Environment.get?_bind_of_ne _ _ hn]
  unfold read
  rw [hget]
  exact lockstep_node (fun _ _ h => h.source) p _ s t h

theorem call_lockstep (n : Text) (p : Nat) (vs : List Value) :
    Lockstep (Beside x v B) (call rules n p vs) (call rules n p vs) := by
  intro s t h
  unfold call
  rw [h.drawn, h.source]
  cases rules.call (rules.draws t.drawn) n vs with
  | error e => exact ⟨rfl, h⟩
  | ok w => exact ⟨rfl, h.bindings, h.bound, congrArg (· + _) h.drawn, h.source⟩

end Session

namespace Expr

variable {x : Text} {v : Value} {replacement : Expr}

mutual

/-- A tree with a steady one in place of a variable is in step with the tree itself, if the variable
is bound to the value. -/
theorem evaluate_lockstep (h : Steady B v (replacement.evaluate rules)) : ∀ e : Expr,
    Lockstep (Session.Beside x v B) ((substitute x replacement e).evaluate rules)
      (e.evaluate rules)
  | .number _ p => lockstep_node (fun _ _ h => h.source) p _
  | .string _ _ => lockstep_pure _
  | .variable n p => by
    by_cases hn : n = x
    · subst hn
      intro s t hst
      obtain ⟨called, hs⟩ := h s hst.bindings
      have hread : Session.read n p t = (.ok v, t) := by
        rw [Session.read, hst.bound, Environment.get?_bind_self]
        rfl
      rw [substitute, if_pos rfl, hs, evaluate, hread]
      exact ⟨rfl, hst.bindings, hst.bound, hst.drawn, hst.source⟩
    · rw [substitute, if_neg hn]
      exact Session.read_lockstep hn p
  | .group inner _ => evaluate_lockstep h inner
  | .binary op left right p =>
    (evaluate_lockstep h left).bind fun _ => (evaluate_lockstep h right).bind fun _ =>
      lockstep_node (fun _ _ h => h.source) p _
  | .call n arguments p =>
    (lockstep_node (fun _ _ h => h.source) p _).bind fun _ =>
      (evaluateAll_lockstep h arguments).bind fun vs => Session.call_lockstep n p vs

theorem evaluateAll_lockstep (h : Steady B v (replacement.evaluate rules)) : ∀ es : List Expr,
    Lockstep (Session.Beside x v B) (evaluateAll rules (substituteAll x replacement es))
      (evaluateAll rules es)
  | [] => lockstep_pure _
  | e :: rest => (evaluate_lockstep h e).bind fun _ => (evaluateAll_lockstep h rest).bind fun _ =>
      lockstep_pure _

end

/-- A variable stands for any expression that does not draw and has its value : in its place the
expression leaves the outcome as it is, a value or a failure, and the draws that are taken. What the
expression has in one session, it has in every session with the same variables. -/
theorem evaluate_substitute {s s₀ : Session} (hcalls : ∀ n ∈ replacement.calls,
      rules.functions.lookup n ≠ some .rand) (hs₀ : s₀.bindings = s.bindings)
    (h : (replacement.evaluate rules s₀).1 = .ok v) (x : Text) (e : Expr) :
    let replaced := (substitute x replacement e).evaluate rules s
    let bound := e.evaluate rules { s with bindings := s.bindings.bind x v }
    replaced.1 = bound.1 ∧ replaced.2.drawn = bound.2.drawn ∧
      replaced.2.bindings = s.bindings ∧ bound.2.bindings = s.bindings.bind x v := by
  intro replaced bound
  have hsteady : Steady s.bindings v (replacement.evaluate rules) :=
    evaluate_steady replacement hcalls hs₀ (Prod.ext h rfl)
  obtain ⟨houtcome, hbeside⟩ := evaluate_lockstep (x := x) hsteady e s
    { s with bindings := s.bindings.bind x v } ⟨rfl, rfl, rfl, rfl⟩
  exact ⟨houtcome, hbeside.drawn, hbeside.bindings, hbeside.bound⟩

attribute [local instance] Library.rounded

/-- A complex number for a variable that stands twice, with a draw between the two places. -/
theorem evaluate_substitute_twice :
    let rules : Rules := ⟨.standard, {}, .standard, fun _ => .one⟩
    let s : Session := { bindings := [("y", .number (.ofInt 1) none true)] }
    let replacement : Expr := .call "complex" [.variable "y" 8, .variable "y" 10] 0
    let v : Value := .number (.ofInt 1) (some (.ofInt 1)) false
    let e : Expr := .binary .plus (.call "im" [.variable "x" 3] 0)
      (.binary .times (.call "rand" [] 6) (.variable "x" 13) 12) 5
    let replaced := (substitute "x" replacement e).evaluate rules s
    let bound := e.evaluate rules { s with bindings := s.bindings.bind "x" v }
    (∀ n ∈ replacement.calls, rules.functions.lookup n ≠ some .rand) ∧
      (replacement.evaluate rules s).1 = .ok v ∧
      replaced.1 = bound.1 ∧ replaced.2.drawn = bound.2.drawn ∧
        replaced.2.bindings = s.bindings ∧ bound.2.bindings = s.bindings.bind "x" v := by
  intro rules s replacement v e
  have hcalls : ∀ n ∈ replacement.calls, rules.functions.lookup n ≠ some .rand := by
    decide +kernel
  have h : (replacement.evaluate rules s).1 = .ok v := by decide +kernel
  exact ⟨hcalls, h, evaluate_substitute hcalls rfl h "x" e⟩

end Expr

end Reckon
