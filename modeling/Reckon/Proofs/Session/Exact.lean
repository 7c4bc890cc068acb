import Reckon.Proofs.Grammar.Soundness
import Reckon.Proofs.Number.Faithful
import Reckon.Proofs.Number.Literal
import Reckon.Proofs.Session.Execution

/-!
# Exact computations are exact

A session of literals, variables, parentheses and `+ - * /` has a meaning in ordinary rational
arithmetic (`Expr.rational?`, `Session.rational?`). If every value on the way is a finite double,
nothing is lost at either precision : a result is rounded twice, to 80 digits and to a double, and
neither step moves a double, though a double may have more than 700 digits
(`Operator.onDecimals_exact`). So the session succeeds with the rational values
(`Session.run_exact`).
-/

namespace Reckon

/-! ## Rational arithmetic -/

/-- Rational numbers for the variables that are bound. -/
abbrev Rationals := Text → Option ℚ

/-- The operator in rational arithmetic. There is no quotient by zero, and `%` and `^` are left
out. -/
def Operator.rational? (op : Operator) (x y : ℚ) : Option ℚ :=
  match op with
  | .plus => some (x + y)
  | .minus => some (x - y)
  | .times => some (x * y)
  | .divide => if y = 0 then none else some (x / y)
  | .modulo | .power => none

namespace Expr

/-- The value of an expression in rational arithmetic. Strings and calls have none. -/
def rational? (V : Rationals) : Expr → Option ℚ
  | .number n _ => some n.written.value
  | .string .. | .call .. => none
  | .variable n _ => V n
  | .group inner _ => inner.rational? V
  | .binary op left right _ => do
    let x ← left.rational? V
    let y ← right.rational? V
    op.rational? x y

/-- The expression has a rational value that is a double. -/
def HasDouble (V : Rationals) (e : Expr) : Prop := ∃ q, e.rational? V = some q ∧ IsDouble q

/-- The expression and all its subexpressions have rational values that are doubles, and its
literals are moderate. -/
def Exact (V : Rationals) : Expr → Prop
  | .number n p => HasDouble V (.number n p) ∧ n.numeral.Moderate
  | .group inner p => HasDouble V (.group inner p) ∧ inner.Exact V
  | .binary op left right p =>
    HasDouble V (.binary op left right p) ∧ left.Exact V ∧ right.Exact V
  | e => HasDouble V e

end Expr

/-- What a statement of the form does to the rational values of the variables. -/
def Form.updateRationals : Form → ℚ → Rationals → Rationals
  | .binding target, q, V => fun n => if n = target then some q else V n
  | .bare, _, V => V
  | .result, _, V => V

namespace Session

/-- The last value and the variables of statements in rational arithmetic. `return` ends the
session. -/
def rational? : List Statement → Option ℚ → Rationals → Option (ℚ × Rationals)
  | [], last, V => last.map (·, V)
  | st :: rest, _, V => do
    let q ← st.expression.rational? V
    if st.form = .result then some (q, V)
    else rational? rest (some q) (st.form.updateRationals q V)

/-- The statements that are executed are exact, one after the other. -/
def Exact : List Statement → Rationals → Prop
  | [], _ => True
  | st :: rest, V => st.expression.Exact V ∧ ∀ q, st.expression.rational? V = some q →
      st.form ≠ .result → Exact rest (st.form.updateRationals q V)

end Session

/-! ## Values -/

/-- The value is the rational number : finite, and without an imaginary part. -/
def Value.Denotes (v : Value) (q : ℚ) : Prop :=
  ∃ s c e k, v = .number (.finite s c e) none k ∧ (Decimal.finite s c e).value = q

/-- The variables that are bound have their rational values, and no others are bound. -/
def Environment.Denotes (B : Environment) (V : Rationals) : Prop :=
  ∀ n, Option.Rel Value.Denotes (B.get? n) (V n)

theorem Environment.Denotes.update {B : Environment} {V : Rationals} (h : B.Denotes V)
    (form : Form) {v : Value} {q : ℚ} (hv : v.Denotes q) :
    (form.update v B).Denotes (form.updateRationals q V) := by
  cases form with
  | binding target =>
    intro n
    simp only [Form.update, Form.updateRationals]
    by_cases hn : n = target
    · subst hn
      rw [get?_bind_self, if_pos rfl]
      exact .some hv
    · rw [get?_bind_of_ne _ _ hn, if_neg hn]
      exact h n
  | bare => exact h
  | result => exact h

/-! ## Operators on doubles -/

theorem IsDouble.abs_le {q : ℚ} (h : IsDouble q) : |q| ≤ 10 ^ (311 : ℤ) := by
  obtain ⟨s, r, rfl⟩ := h
  rw [Double.value, Decimal.abs_withSign (Double.rankValue_nonneg r)]
  exact Double.rankValue_le r.isLt.le

/-- The result of a double is a finite decimal of its value. -/
theorem Double.ResultOf.value_eq {z : Double} {q : ℚ} (h : z.ResultOf q) (hq : IsDouble q) :
    ∃ s c e, z.toDecimal = .finite s c e ∧ (Decimal.finite s c e).value = q := by
  obtain ⟨s, r, rfl⟩ := hq
  have hdecimal : ∀ t, (Double.finite t r).value = (Double.finite s r).value →
      ∃ u c e, (Double.finite t r).toDecimal = .finite u c e ∧
        (Decimal.finite u c e).value = (Double.finite s r).value := by
    intro t ht
    obtain ⟨c, e, hfinite, hsize⟩ := exists_toDecimal t r
    exact ⟨t, c, e, hfinite, by rw [Decimal.value, hsize, ← ht]; rfl⟩
  rcases h.eq_of_value (by simp) rfl with rfl | ⟨hzero, rfl⟩
  · exact hdecimal s rfl
  · refine hdecimal (!s) ?_
    have hrank : rankValue r = 0 := by
      have := congrArg abs hzero
      rwa [Double.value, Decimal.abs_withSign (rankValue_nonneg r), abs_zero] at this
    rw [hzero, Double.value, hrank, withSign, neg_zero, ite_self]

/-- An operator on finite numbers, of which the exact result is a double, comes to that. -/
theorem Operator.onDecimals_exact (library : Library) (precision : Precision) {op : Operator}
    {s t : Bool} {c d : ℕ} {e f : ℤ} {q : ℚ}
    (h : op.rational? (Decimal.finite s c e).value (Decimal.finite t d f).value = some q)
    (hq : IsDouble q) : ∃ u m k,
      op.onDecimals precision (.finite s c e) (.finite t d f) = .ok (.finite u m k) ∧
        (Decimal.finite u m k).value = q := by
  have hx : op.Exact (.finite s c e) (.finite t d f) q := by
    refine ⟨trivial, trivial, ?_⟩
    cases op with
    | plus | minus | times => exact (Option.some.inj h).symm
    | divide =>
      obtain ⟨-, h⟩ | ⟨hne, h⟩ := ite_eq_iff.1 h
      · cases h
      · exact ⟨hne, (Option.some.inj h).symm⟩
    | modulo | power => cases h
  obtain ⟨y, hy, heq⟩ := onDecimals_settles precision hx
  obtain ⟨m, k, rfl, -⟩ := hy.exists_ok hq.abs_le (by decide) (by decide)
  obtain ⟨z, hz, hresult⟩ := rounded_resultOf hy (by simp [rounded])
  obtain ⟨u, m, k, hfinite, hvalue⟩ := hresult.value_eq hq
  exact ⟨u, m, k, by rw [heq, hz, hfinite], hvalue⟩

/-! ## Sessions -/

variable {rules : Rules} {V : Rationals}

/-- An exact expression comes to its rational value and leaves the session as it is. -/
theorem Expr.evaluate_exact {s : Session} (hs : s.bindings.Denotes V) : ∀ e : Expr, e.Exact V →
    ∃ v q, e.evaluate rules s = (.ok v, s) ∧ e.rational? V = some q ∧ v.Denotes q
  | .number n p, ⟨⟨q, hq, hdouble⟩, hmoderate⟩ => by
    obtain rfl := Option.some.inj hq
    obtain ⟨c, e, hread, hsize⟩ := SignedNumeral.exists_read rules.precision hmoderate hdouble
    refine ⟨_, _, by rw [evaluate, hread]; rfl, rfl, _, c, e, _, rfl, ?_⟩
    rw [SignedNumeral.written, Decimal.value, Decimal.value, hsize]
  | .variable n p, ⟨q, hq, _⟩ => by
    have h := hs n
    rw [show V n = some q from hq] at h
    generalize hx : s.bindings.get? n = x at h
    cases h with
    | @some v _ hv => exact ⟨v, q, by rw [evaluate, Session.read, hx]; rfl, hq, hv⟩
  | .group inner _, ⟨_, h⟩ => by
    rw [evaluate, rational?]
    exact evaluate_exact hs inner h
  | .binary op left right p, ⟨⟨q, hq, hdouble⟩, hleft, hright⟩ => by
    obtain ⟨_, x, hevaluate, hx, s₁, c, e, _, rfl, rfl⟩ := evaluate_exact hs left hleft
    obtain ⟨_, y, hevaluate', hy, t, d, f, _, rfl, rfl⟩ := evaluate_exact hs right hright
    rw [rational?, hx, hy] at hq
    obtain ⟨u, m, k, hresult, hvalue⟩ :=
      op.onDecimals_exact rules.library rules.precision hq hdouble
    refine ⟨.real (.finite u m k), q, ?_, by rw [rational?, hx, hy]; exact hq,
      u, m, k, false, rfl, hvalue⟩
    rw [evaluate]
    simp only [Evaluation.bind_apply, hevaluate, hevaluate', Rules.apply, Operator.apply, hresult]
    rfl
  | .string .., ⟨_, hq, _⟩ => by cases hq
  | .call .., ⟨_, hq, _⟩ => by cases hq

namespace Session

/-- An exact statement comes to its rational value and binds it. -/
theorem execute_exact (index : Nat) {st : Statement} {s : Session} (hs : s.bindings.Denotes V)
    (h : st.expression.Exact V) : ∃ v q t, execute rules index st s = (.ok v, t) ∧
      st.expression.rational? V = some q ∧ v.Denotes q ∧
        t.bindings.Denotes (st.form.updateRationals q V) := by
  have hstart : Environment.Denotes { s with source := st.source }.bindings V := hs
  obtain ⟨v, q, hevaluate, hq, hv⟩ := @Expr.evaluate_exact rules V _ hstart st.expression h
  rw [execute_eq, hevaluate]
  exact ⟨v, q, _, rfl, hq, hv, hs.update st.form hv⟩

/-- An exact run comes to its rational values, whatever value there was so far. -/
theorem runFrom_exact {sources : List Text} {sts : List Statement}
    (hread : List.Forall₂ (fun source st => Statement.parse rules.limits source = .ok st)
      sources sts) (index : Nat) {last : Option Value} {lastValue : Option ℚ} {s : Session}
    (hlast : Option.Rel Value.Denotes last lastValue) (hne : sts = [] → last ≠ none)
    (hs : s.bindings.Denotes V) (h : Exact sts V) : ∃ v t q V',
      runFrom rules index last sources s = (.ok v, t) ∧ rational? sts lastValue V = some (q, V') ∧
        v.Denotes q ∧ t.bindings.Denotes V' := by
  induction hread generalizing index last lastValue s V with
  | nil =>
    cases hlast with
    | none => exact absurd rfl (hne rfl)
    | @some v q hv => exact ⟨v, s, q, V, rfl, rfl, hv, hs⟩
  | @cons source st rest sts hst _ ih =>
    obtain ⟨hexact, hrest⟩ := h
    obtain ⟨v, q, t, hexecute, hq, hv, ht⟩ := @execute_exact rules V index _
      (s.noted (.statementParsed index (st.expression.outline 0))) hs hexact
    rw [runFrom_cons hst, hexecute, rational?, hq]
    by_cases hform : st.form = .result
    · rw [hform] at ht
      exact ⟨v, _, q, V, if_pos hform, if_pos hform, hv, ht⟩
    · obtain ⟨w, u, r, V', hrun, hr, hw, hu⟩ := ih (index + 1) (.some hv)
        (fun _ => Option.some_ne_none v) ht (hrest q hq hform)
      exact ⟨w, u, r, V', (if_neg hform).trans hrun, (if_neg hform).trans hr, hw, hu⟩

/-- A session of literals, variables, parentheses and `+ - * /`, in which every value on the way is
a double, succeeds at either precision. Its value and its variables are those of rational
arithmetic. -/
theorem run_exact (rules : Rules) {sources : List Text} {sts : List Statement}
    (hread : List.Forall₂ (fun source st => Statement.parse rules.limits source = .ok st)
      sources sts) (hne : sts ≠ []) (h : Exact sts fun _ => none) : ∃ v t q V,
      run rules sources {} = (.ok v, t) ∧ rational? sts none (fun _ => none) = some (q, V) ∧
        v.Denotes q ∧ t.bindings.Denotes V :=
  runFrom_exact hread 0 .none (fun hnil => absurd hnil hne) (fun _ => .none) h

attribute [local instance] Library.rounded

/-- The square of a negative half over the half is exact, whichever way the half is written. -/
theorem run_exact_half :
    let rules : Rules := ⟨.high, {}, .standard, fun _ => .one⟩
    let sts : List Statement := [
      ⟨.binding "x", .number ⟨some .minus, ⟨[0], some [5, 0], none⟩⟩ 3, "x:=-0.50"⟩,
      ⟨.result, .binary .divide (.group (.binary .times (.variable "x" 8) (.variable "x" 10) 9) 7)
        (.variable "x" 13) 12, "return (x*x)/x"⟩]
    ∃ v t q V, run rules ["x:=-0.50", "return (x*x)/x"] {} = (.ok v, t) ∧
      rational? sts none (fun _ => none) = some (q, V) ∧ v.Denotes q ∧ t.bindings.Denotes V := by
  intro rules sts
  have hfirst : Statement.parse {} "x:=-0.50" = .ok sts[0] :=
    Statement.parse_eq_ok_iff.2 ⟨[⟨.name "x", 0⟩, ⟨.define, 1⟩, ⟨.operator .minus, 3⟩,
      ⟨.number ⟨[0], some [5, 0], none⟩, 4⟩], by decide +kernel, rfl, rfl, rfl⟩
  have hsecond : Statement.parse {} "return (x*x)/x" = .ok sts[1] :=
    Statement.parse_eq_ok_iff.2 ⟨[⟨.result, 0⟩, ⟨.left, 7⟩, ⟨.name "x", 8⟩, ⟨.operator .times, 9⟩,
      ⟨.name "x", 10⟩, ⟨.right, 11⟩, ⟨.operator .divide, 12⟩, ⟨.name "x", 13⟩],
      by decide +kernel, rfl, rfl, rfl⟩
  have hvalue : (SignedNumeral.written ⟨some .minus, ⟨[0], some [5, 0], none⟩⟩).value = -1 / 2 := by
    norm_num [Decimal.value, SignedNumeral.written, SignedNumeral.negative, withSign,
      Numeral.coefficient, Numeral.exponent, digitsValue]
  have hhalf : IsDouble (-1 / 2) := by
    have h : (Double.finite true ⟨0x3FE0000000000000, by decide⟩).toDecimal =
        .finite true 5 (-1) := by decide +kernel
    convert isDouble_of_toDecimal h using 1
    norm_num [Decimal.value, withSign]
  have hquarter : IsDouble (1 / 4) := by
    have h : (Double.finite false ⟨0x3FD0000000000000, by decide⟩).toDecimal =
        .finite false 25 (-2) := by decide +kernel
    convert isDouble_of_toDecimal h using 1
    norm_num [Decimal.value, withSign]
  have h : Exact sts fun _ => none := by
    refine ⟨⟨⟨_, rfl, hvalue ▸ hhalf⟩, by decide, by decide⟩, fun q hq _ => ?_⟩
    obtain rfl := Option.some.inj hq
    have hx : Form.updateRationals (.binding "x")
        (SignedNumeral.written ⟨some .minus, ⟨[0], some [5, 0], none⟩⟩).value (fun _ => none) "x" =
          some (-1 / 2) := by
      simp only [Form.updateRationals, hvalue, if_true]
    generalize Form.updateRationals _ _ _ = V at hx ⊢
    have hsquare : Operator.rational? .times (-1 / 2) (-1 / 2) = some (1 / 4) := by
      norm_num [Operator.rational?]
    have hquotient : Operator.rational? .divide (1 / 4) (-1 / 2) = some (-1 / 2) := by
      norm_num [Operator.rational?]
    refine ⟨⟨⟨_, ?_, hhalf⟩, ⟨⟨_, ?_, hquarter⟩, ⟨_, ?_, hquarter⟩, ⟨_, hx, hhalf⟩,
      ⟨_, hx, hhalf⟩⟩, ⟨_, hx, hhalf⟩⟩, fun _ _ h => absurd rfl h⟩
    all_goals
      simp only [Expr.rational?, hx, hsquare, hquotient, Option.bind_eq_bind, Option.bind_some]
  exact run_exact rules (.cons hfirst (.cons hsecond .nil)) (by simp [sts]) h

end Session

end Reckon
