import Reckon.Proofs.Grammar.Levels
import Reckon.Proofs.Session.Numerals
import Reckon.Proofs.Session.Sequel

/-!
# Runs on a stack

A run on a stack with room for so many levels goes as one with as much stack as it needs until it
comes to a statement with more levels, and there it ends (`Session.runWith_on`). So an expression
either exhausts the stack or comes to what it comes to without the bound (`answerOn_cases`). Short
statements do not exhaust the stack (`Text.not_exhausts`). But the limits do not keep an expression
from it : a sum of ones is within the limit on its length and exhausts the stack before its nodes are
compared with their bound (`Text.exhausts_sum`).
-/

namespace Reckon

/-! ## Computations -/

namespace Evaluation

variable {α β : Type}

/-- A computation exhausts the stack, and only if `p` holds, or it does what the other one does. -/
def GoesAs (p : Prop) (x y : Evaluation α) : Prop :=
  ∀ s, (p ∧ (x s).1 = .error (.signal .stackExhausted)) ∨ x s = y s

namespace GoesAs

variable {p q : Prop} {x y : Evaluation α}

theorem refl (p : Prop) (x : Evaluation α) : GoesAs p x x := fun _ => .inr rfl

theorem mono (h : GoesAs p x y) (hpq : p → q) : GoesAs q x y := fun s =>
  (h s).imp_left fun hx => ⟨hpq hx.1, hx.2⟩

/-- One computation after another. -/
theorem bind {f g : α → Evaluation β} (h : GoesAs p x y) (hf : ∀ a, GoesAs p (f a) (g a)) :
    GoesAs p (x >>= f) (y >>= g) := by
  intro s
  rw [bind_apply, bind_apply]
  rcases h s with ⟨hp, hx⟩ | hx
  · left
    rcases hs : x s with ⟨o, t⟩
    rw [hs] at hx
    obtain rfl : o = _ := hx
    exact ⟨hp, rfl⟩
  · rw [hx]
    rcases y s with ⟨e | a, t⟩
    · exact .inr rfl
    · exact hf a t

/-- A computation that enters some levels. -/
theorem within {room levels : ℕ} (h : GoesAs p x y) :
    GoesAs (room < levels ∨ p) (Evaluation.within room levels x) y := by
  intro s
  unfold Evaluation.within
  by_cases hlevels : room < levels
  · rw [if_pos hlevels]
    exact .inl ⟨.inl hlevels, rfl⟩
  · rw [if_neg hlevels]
    exact h.mono .inr s

end GoesAs

end Evaluation

open Evaluation

namespace Expr

variable (rules : Rules)

mutual

/-- An evaluation exhausts the stack only if it can enter more levels than there is room for. -/
theorem evaluateOn_goesAs : ∀ (e : Expr) (room : ℕ), GoesAs (room < e.evaluationLevels)
    (e.evaluateOn rules room) (e.evaluate rules)
  | .number n p, room => (GoesAs.refl False _).within.mono fun h => h.resolve_right id
  | .string v p, room => (GoesAs.refl False _).within.mono fun h => h.resolve_right id
  | .variable n p, room => (GoesAs.refl False _).within.mono fun h => h.resolve_right id
  | .group inner p, room => by
    have hlevels : (group inner p).evaluationLevels = 1 + inner.evaluationLevels := rfl
    rw [evaluateOn, evaluate]
    exact (evaluateOn_goesAs inner (room - 1)).within.mono fun h => by omega
  | .binary op left right p, room => by
    have hlevels : (binary op left right p).evaluationLevels =
        2 + max left.evaluationLevels right.evaluationLevels := rfl
    have hleft := (evaluateOn_goesAs left (room - 2)).mono
      (q := room - 2 < max left.evaluationLevels right.evaluationLevels) fun h => by omega
    have hright := (evaluateOn_goesAs right (room - 2)).mono
      (q := room - 2 < max left.evaluationLevels right.evaluationLevels) fun h => by omega
    rw [evaluateOn, evaluate]
    refine (hleft.bind fun x => hright.bind fun y => .refl _ _).within.mono fun h => by omega
  | .call n arguments p, room => by
    have hlevels : (call n arguments p).evaluationLevels = 3 + levelsOfAll 1 2 arguments := rfl
    have harguments := evaluateAllOn_goesAs arguments (room - 3)
    rw [evaluateOn, evaluate]
    exact ((GoesAs.refl _ _).bind fun _ => harguments.bind fun _ => .refl _ _).within.mono
      fun h => by omega

theorem evaluateAllOn_goesAs : ∀ (es : List Expr) (room : ℕ),
    GoesAs (room < levelsOfAll 1 2 es) (evaluateAllOn rules es room) (evaluateAll rules es)
  | [], room => by
    rw [evaluateAllOn, evaluateAll]
    exact .refl _ _
  | e :: rest, room => by
    have hlevels : levelsOfAll 1 2 (e :: rest) =
        max e.evaluationLevels (levelsOfAll 1 2 rest) := rfl
    have hfirst := (evaluateOn_goesAs e room).mono
      (q := room < levelsOfAll 1 2 (e :: rest)) fun h => by omega
    have hrest := (evaluateAllOn_goesAs rest room).mono
      (q := room < levelsOfAll 1 2 (e :: rest)) fun h => by omega
    rw [evaluateAllOn, evaluateAll]
    exact hfirst.bind fun v => hrest.bind fun vs => .refl _ _

end

end Expr

/-! ## Runs -/

/-- The reading of a statement or its evaluation can enter more levels than there is room for. -/
def Statement.Strains (stack : ℕ) (limits : Limits) (source : Text) : Prop :=
  stack < levels limits source ∨
    ∃ st, parse limits source = .ok st ∧ stack < st.expression.evaluationLevels

namespace Session

variable {rules : Rules}

theorem executeOn_goesAs (stack : ℕ) (rules : Rules) (index : ℕ) (st : Statement) :
    GoesAs (stack < st.expression.evaluationLevels) (executeOn stack rules index st)
      (execute rules index st) := by
  unfold executeOn execute settle evaluate ofStatement
  exact ((GoesAs.refl _ _).bind fun _ => Expr.evaluateOn_goesAs rules _ _).bind fun _ => .refl _ _

/-- A run that does not go on with the rest comes to nothing but its first statement. -/
theorem Reaches.eq_of_stop {index : ℕ} {source target : Text} {rest : List Text} {s : Session}
    (h : Reaches rules index (source :: rest) s target)
    (hstop : ∀ st v t, Statement.parse rules.limits source = .ok st →
      execute rules index st (s.noted (.statementParsed index (st.expression.outline 0))) =
        (.ok v, t) → st.form = .result) : target = source := by
  rcases h.cases with rfl | ⟨st, v, t, hst, hx, hform, -⟩
  · rfl
  · exact (hform (hstop st v t hst hx)).elim

/-- A run on a stack ends with the exhausted stack, and only if it comes to a statement that strains
it, or it goes as without the bound and comes to no statement whose reading exhausts the stack. -/
theorem runWith_on (stack : ℕ) (rules : Rules) :
    ∀ (sources : List Text) (index : ℕ) (last : Option Value) (s : Session),
    ((∃ source, Reaches rules index sources s source ∧
        Statement.Strains stack rules.limits source) ∧
      (runWith (parseOn stack rules) (executeOn stack rules) index last sources s).1 =
        .error (.signal .stackExhausted)) ∨
    ((∀ source, Reaches rules index sources s source →
        Statement.levels rules.limits source ≤ stack) ∧
      runWith (parseOn stack rules) (executeOn stack rules) index last sources s =
        runFrom rules index last sources s)
  | [], _, last, _ => .inr ⟨fun _ h => absurd h.mem List.not_mem_nil, by cases last <;> rfl⟩
  | source :: rest, index, last, s => by
    by_cases hlevels : stack < Statement.levels rules.limits source
    · have hread : parseOn stack rules source s = (.error (.signal .stackExhausted), s) := by
        rw [parseOn, Statement.parseOn, if_pos hlevels]
        rfl
      exact .inl ⟨⟨source, reaches_self, .inl hlevels⟩,
        congrArg Prod.fst (runWith_cons_of_error hread index last rest)⟩
    have hread : parseOn stack rules source = parse rules source := by
      rw [parseOn, Statement.parseOn, if_neg hlevels]
      rfl
    have hlevels := Nat.not_lt.1 hlevels
    cases hst : Statement.parse rules.limits source with
    | error r =>
      refine .inr ⟨fun target h => ?_, ?_⟩
      · rwa [h.eq_of_stop fun st _ _ hst' => by cases hst.symm.trans hst']
      rw [runFrom_cons_of_error hst,
        runWith_cons_of_error ((congrFun hread s).trans (parse_eq_error hst s))]
    | ok st =>
      let begun := s.noted (.statementParsed index (st.expression.outline 0))
      rw [runFrom_cons hst, runWith_cons ((congrFun hread s).trans (parse_eq_ok hst s))]
      rcases executeOn_goesAs stack rules index st begun with ⟨hstrains, hsignal⟩ | hgoesAs
      · refine .inl ⟨⟨source, reaches_self, .inr ⟨st, hst, hstrains⟩⟩, ?_⟩
        rcases hx : executeOn stack rules index st begun with ⟨o, t⟩
        rw [hx] at hsignal
        obtain rfl : o = _ := hsignal
        rfl
      rw [hgoesAs]
      rcases hx : execute rules index st begun with ⟨f | v, t⟩
      · refine .inr ⟨fun target h => ?_, rfl⟩
        rw [h.eq_of_stop fun st' v t hst' hx' => ?_]
        · exact hlevels
        obtain rfl := Except.ok.inj (hst.symm.trans hst')
        cases hx.symm.trans hx'
      by_cases hform : st.form = .result
      · simp only [if_pos hform]
        refine .inr ⟨fun target h => ?_, trivial⟩
        rw [h.eq_of_stop fun st' _ _ hst' _ => ?_]
        · exact hlevels
        obtain rfl := Except.ok.inj (hst.symm.trans hst')
        exact hform
      simp only [if_neg hform]
      rcases runWith_on stack rules rest (index + 1) (some v) t with
        ⟨⟨target, hreaches, htarget⟩, hrun⟩ | ⟨hfits, hrun⟩
      · exact .inl ⟨⟨target, hreaches.cons hst hx hform, htarget⟩, hrun⟩
      · refine .inr ⟨fun target h => ?_, hrun⟩
        rcases h.cases with rfl | ⟨st', v', t', hst', hx', -, h⟩
        · exact hlevels
        · obtain rfl := Except.ok.inj (hst.symm.trans hst')
          obtain ⟨-, rfl⟩ := Prod.mk.inj (hx.symm.trans hx')
          exact hfits target h

end Session

/-! ## Expressions -/

/-- The run of the expression in a session comes to the statement. -/
def Text.ComesTo (rules : Rules) (t : Text) (s : Session) (source : Text) : Prop :=
  t.prepare rules.limits = .ok t.sources ∧ Session.Reaches rules 0 t.sources s source

/-- The run of the expression comes to a statement whose reading exhausts the stack. -/
def Text.Exhausts (stack : ℕ) (rules : Rules) (t : Text) (s : Session) : Prop :=
  ∃ source, t.ComesTo rules s source ∧ stack < Statement.levels rules.limits source

/-- The run of the expression comes to a statement that strains the stack. -/
def Text.Strains (stack : ℕ) (rules : Rules) (t : Text) (s : Session) : Prop :=
  ∃ source, t.ComesTo rules s source ∧ Statement.Strains stack rules.limits source

variable {stack : ℕ} {rules : Rules} {t : Text} {s : Session}

/-- An expression exhausts the stack, and only if it strains it, or it comes to what it comes to
without the bound and no reading exhausts the stack. -/
theorem answerOn_cases (stack : ℕ) (rules : Rules) (t : Text) (s : Session) :
    (t.Strains stack rules s ∧
      (answerOn stack rules t s).1 = .error (.signal .stackExhausted)) ∨
    (¬t.Exhausts stack rules s ∧ answerOn stack rules t s = answer rules t s) := by
  rw [answerOn, answer, answerRunning, answerRunning, bind_apply, bind_apply]
  rcases Text.prepare_cases rules.limits t with hsources | ⟨r, hr, -⟩
  · rw [hsources]
    simp only [ofReport, bind_apply, Session.runOn, Session.run]
    rcases Session.runWith_on stack rules t.sources 0 none s with
      ⟨⟨source, hreaches, hstrains⟩, hrun⟩ | ⟨hfits, hrun⟩
    · refine .inl ⟨⟨source, ⟨hsources, hreaches⟩, hstrains⟩, ?_⟩
      generalize Session.runWith (Session.parseOn stack rules) _ 0 none t.sources s = outcome
        at hrun ⊢
      obtain ⟨o, u⟩ := outcome
      obtain rfl : o = _ := hrun
      rfl
    · refine .inr ⟨?_, by rw [hrun]⟩
      rintro ⟨source, ⟨-, hreaches⟩, hlt⟩
      exact (hfits source hreaches).not_gt hlt
  · refine .inr ⟨?_, by rw [hr]; rfl⟩
    rintro ⟨source, ⟨h, -⟩, -⟩
    cases hr.symm.trans h

/-- What is answered on a stack is answered without the bound. -/
theorem answer_of_answerOn {a : Answer} {u : Session} (h : answerOn stack rules t s = (.ok a, u)) :
    answer rules t s = (.ok a, u) := by
  rcases answerOn_cases stack rules t s with ⟨-, hsignal⟩ | ⟨-, heq⟩
  · rw [h] at hsignal
    cases hsignal
  · exact heq.symm.trans h

/-- With room for evaluating trees of so many nodes, a statement strains the stack only if its
reading exhausts it. -/
theorem Statement.Strains.lt_levels {source : Text} {limits : Limits}
    (h : Strains stack limits source) (hnodes : 3 * limits.nodes ≤ stack) :
    stack < levels limits source := by
  refine h.resolve_right ?_
  rintro ⟨st, hst, hlt⟩
  have := Statement.nodes_le_of_parse hst
  have := st.expression.evaluationLevels_le
  omega

/-- The same for an expression. -/
theorem Text.Strains.exhausts (h : t.Strains stack rules s)
    (hnodes : 3 * rules.limits.nodes ≤ stack) : t.Exhausts stack rules s :=
  h.imp fun _ ⟨hcomes, hstrains⟩ => ⟨hcomes, hstrains.lt_levels hnodes⟩

/-- If there is room for what the limits let pass, short statements do not exhaust the stack. -/
theorem Text.not_exhausts (hdepth : 0 ≤ rules.limits.depth)
    (hlevels : 5 * rules.limits.depth + 4 ≤ stack)
    (h : ∀ source ∈ t.sources, source.length ≤ stack) : ¬t.Exhausts stack rules s := by
  rintro ⟨source, ⟨-, hreaches⟩, hlt⟩
  have hle := Statement.levels_le hdepth source
  have hlength := h source hreaches.mem
  omega

/-- A sum of ones exhausts the stack if it is as long as the stack is high. -/
theorem Text.exhausts_sum {n : ℕ} (hn : stack ≤ n)
    (hlength : ((Text.sum n).length : Int) ≤ rules.limits.expressionLength)
    (hstatements : 1 ≤ rules.limits.statements) : (Text.sum n).Exhausts stack rules s := by
  have hsources : (Text.sum n).sources = [Text.sum n] := by
    have hone : ∀ c ∈ Text.ofString "1", c ∈ Numeral.marks := by decide
    have hmore : ∀ c ∈ Text.ofString "+1", c ∈ Numeral.marks := by decide
    refine Text.sources_of_marks (by simp [Text.sum, Text.ofString]) fun c hc => ?_
    simp only [Text.sum, List.mem_append, List.mem_flatten, List.mem_replicate] at hc
    rcases hc with hc | ⟨_, ⟨-, rfl⟩, hc⟩
    · exact hone c hc
    · exact hmore c hc
  refine ⟨Text.sum n, ⟨Text.prepare_eq_ok hlength (by simpa [hsources] using hstatements)
    (by simp [hsources]), ?_⟩, hn.trans_lt (Statement.lt_levels_sum hlength)⟩
  rw [hsources]
  exact Session.reaches_self

end Reckon
