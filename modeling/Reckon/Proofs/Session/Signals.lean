import Reckon.Proofs.Number.Magnitude
import Reckon.Proofs.Session.Numbers
import Reckon.Proofs.Session.Stack
import Reckon.Proofs.Source.Length

/-!
# Evaluations end with a value or a report

Arithmetic signals only on numbers of enormous size, and no number of a session is that large
(`Decimal.closed_bounded`). At standard precision all numbers come from doubles and hashes. With
high precision literals keep their written size, and that is bounded by the length of the expression
and by the written exponents (`Expr.numerals_read`). So a failure is a report, unless the stack is
exhausted (`evaluateOn_reports`). The limits do not see to that : within the usual ones a sum of
ones is not reported (`exists_unreported`). The scanner accepts no number that the readers of numbers
refuse but for an enormous length or exponent.
-/

namespace Reckon

open Decimal

variable {precision : Precision} {k : ℕ}

/-- To be bounded is closed, and bounded numbers do not signal. -/
theorem Decimal.closed_bounded (hk : doubleDigits ≤ k) (hm : k ≤ moderate) :
    Closed precision (Bounded k) fun _ => False where
  double := bounded_toDecimal hk
  hash := bounded_hash hk
  operator _ _ _ ha hb := Operator.onDecimals_bounded precision _ hk hm ha hb
  operand d hd := by
    rw [toDouble, hd.isSignaling_eq]
    trivial
  root _ d hd := by
    obtain ⟨r, hr, hbounded⟩ := exists_squareRoot_of_bounded hd (le_trans (by decide) hk) hm
    rw [hr]
    exact hbounded

/-- The span of the numbers at a precision. -/
def Precision.span : Precision → ℕ
  | .standard => doubleDigits
  | .high => literalSpan

theorem Precision.doubleDigits_le_span (precision : Precision) :
    doubleDigits ≤ precision.span := by
  cases precision <;> decide

theorem Precision.span_le_moderate (precision : Precision) : precision.span ≤ moderate := by
  cases precision <;> decide

/-- A value with bounded numbers has a text. -/
theorem Value.exists_result {v : Value} (hv : v.All (Bounded precision.span)) :
    ∃ t, v.result precision = .ok t := by
  cases v with
  | string t => exact ⟨t, rfl⟩
  | number r i b =>
    cases precision with
    | standard =>
      rw [result, toDouble, hv.1.isSignaling_eq]
      exact ⟨_, rfl⟩
    | high => exact exists_fixed hv.1 (Precision.span_le_moderate .high)

/-- In the statements of an expression that can be read, the written exponents of the literals are
at most 100000 in size. -/
def Text.ModerateExponents (limits : Limits) (t : Text) : Prop :=
  ∀ source ∈ t.sources, ∀ st, Statement.parse limits source = .ok st →
    ∀ n ∈ st.expression.numerals, n.numeral.writtenExponent.natAbs ≤ 100000

instance Text.decidableModerateExponents (limits : Limits) (t : Text) :
    Decidable (t.ModerateExponents limits) :=
  decidable_of_iff (∀ source ∈ t.sources, ∀ st ∈ (Statement.parse limits source).toOption,
    ∀ n ∈ st.expression.numerals, n.numeral.writtenExponent.natAbs ≤ 100000) <|
  forall₂_congr fun source _ => by cases Statement.parse limits source <;> simp [Except.toOption]

/-- The bounds on an expression at high precision. -/
def Text.Moderate (rules : Rules) (t : Text) : Prop :=
  rules.precision = .high → t.length ≤ 4096 ∧ t.ModerateExponents rules.limits

variable {rules : Rules} {t : Text}

/-- The literals of an expression are read, as bounded numbers. -/
theorem Session.literalsEnd_bounded (h : t.Moderate rules) :
    LiteralsEnd rules (Bounded rules.precision.span) (fun _ => False) t.sources := by
  intro source hsource st hst n hn
  cases hprecision : rules.precision with
  | standard => exact bounded_toDecimal (le_refl doubleDigits) _
  | high =>
    obtain ⟨hlength, hexponents⟩ := h hprecision
    obtain ⟨hn', hdigits⟩ := Statement.numerals_of_parse hst hn
    have hsource' := Text.length_le_of_mem_sources hsource
    obtain ⟨hread, hbounded⟩ := SignedNumeral.decimal_bounded hn'
      (hexponents source hsource st hst n hn) (by omega)
    rw [SignedNumeral.read, hread]
    exact hbounded

/-- The run of an expression in a session without variables yields a value with bounded numbers, or
it fails with a report. -/
theorem Session.run_bounded (h : t.Moderate rules) {s : Session} (hs : s.bindings = []) :
    Ends (Value.All (Bounded rules.precision.span)) (Failure.SignalsOnly fun _ => False)
      (run rules t.sources s).1 := by
  refine runFrom_closed (closed_bounded rules.precision.doubleDigits_le_span
    rules.precision.span_le_moderate) t.sources (literalsEnd_bounded h) ?_ fun _ hw => by cases hw
  rw [hs]
  exact fun _ _ hv => by cases hv

/-- The same for the value with its text. -/
theorem answer_reports (h : t.Moderate rules) {s : Session} (hs : s.bindings = []) :
    Ends (fun _ => True) (Failure.SignalsOnly fun _ => False) (answer rules t s).1 := by
  rw [answer, answerRunning, Evaluation.bind_apply]
  rcases Text.prepare_cases rules.limits t with hsources | ⟨r, hr, -⟩
  · rw [hsources]
    simp only [Evaluation.ofReport, Evaluation.bind_apply]
    have hrun := Session.run_bounded h hs
    rcases hx : Session.run rules t.sources s with ⟨f | v, s'⟩
    · rw [hx] at hrun
      exact hrun
    · rw [hx] at hrun
      obtain ⟨u, hu⟩ := Value.exists_result hrun
      simp only [hu]
      trivial
  · rw [hr]
    trivial

/-! ## On a stack -/

/-- A literal as the readers of number texts read it. -/
def SignedNumeral.readText (precision : Precision) (n : SignedNumeral) : Except Signal Decimal :=
  match precision with
  | .standard => (Double.ofText n.text).map Double.toDecimal
  | .high => Decimal.ofText n.text

/-- A literal that is not too long for a double is read as its text is. -/
theorem SignedNumeral.readText_eq {n : SignedNumeral} (hn : n.numeral.WellFormed)
    (h : precision = .standard → n.numeral.digits.length ≤ Numeral.mostDoubleDigits) :
    n.readText precision = n.read precision := by
  cases precision with
  | standard =>
    rw [readText, Double.ofText_numeral hn (h rfl)]
    rfl
  | high => exact Decimal.ofText_numeral hn

/-- What comes of the evaluation of an expression on a stack. -/
structure Text.EndsOn (stack : ℕ) (rules : Rules) (t : Text) : Prop where
  /-- It comes to a value, or to a report, or it exhausts the stack. -/
  outcome : (∃ a, (evaluateOn stack rules t).1 = .ok a) ∨
    (∃ r, (evaluateOn stack rules t).1 = .error (.report r)) ∨
    (evaluateOn stack rules t).1 = .error (.signal .stackExhausted)
  /-- It exhausts the stack if its run comes to a statement whose reading exhausts it. -/
  exhausted : t.Exhausts stack rules {} →
    (evaluateOn stack rules t).1 = .error (.signal .stackExhausted)
  /-- It exhausts the stack only if its run comes to a statement that strains the stack. -/
  strained : (evaluateOn stack rules t).1 = .error (.signal .stackExhausted) →
    t.Strains stack rules {}
  /-- With room for the trees that the limit on the nodes lets pass, that is a statement whose
  reading exhausts the stack. -/
  nodes : 3 * rules.limits.nodes ≤ stack → t.Strains stack rules {} → t.Exhausts stack rules {}
  /-- With room for the depth that its limit allows, that is a statement that is longer than the
  stack is high. -/
  short : 0 ≤ rules.limits.depth → 5 * rules.limits.depth + 4 ≤ stack →
    (∀ source ∈ t.sources, source.length ≤ stack) → ¬t.Exhausts stack rules {}

theorem Text.endsOn (stack : ℕ) (h : t.Moderate rules) : t.EndsOn stack rules := by
  have hanswer : Ends _ _ (evaluate rules t).1 := answer_reports (s := {}) h rfl
  have hcases := answerOn_cases stack rules t {}
  refine ⟨?_, fun hexhausts => ?_, fun hsignal => ?_, fun hnodes hstrains => ?_, ?_⟩
  · rcases hcases with ⟨-, hsignal⟩ | ⟨-, heq⟩
    · exact .inr (.inr hsignal)
    rw [evaluateOn, heq]
    rcases hanswer.value_or_error with ⟨a, ha, -⟩ | ⟨r | s, hf, hs⟩
    · exact .inl ⟨a, ha⟩
    · exact .inr (.inl ⟨r, hf⟩)
    · exact hs.elim
  · rcases hcases with ⟨-, hsignal⟩ | ⟨hfits, -⟩
    · exact hsignal
    · exact (hfits hexhausts).elim
  · rcases hcases with ⟨hstrains, -⟩ | ⟨-, heq⟩
    · exact hstrains
    -- Without the bound there is no signal.
    rw [evaluateOn, heq] at hsignal
    rw [evaluate, hsignal] at hanswer
    exact hanswer.elim
  · exact hstrains.exhausts hnodes
  · exact Text.not_exhausts

/-- Whatever the limits are, an expression comes to a value or to a report, and not to a signal of
arithmetic; it may exhaust the stack (`Text.EndsOn`). At standard precision that takes statements
that are not too long for the reader of doubles, and with high precision moderate literals. All
literals are then read as their texts are. The numbers that the scanner accepts can be read, with
any sign in front of them : as doubles unless they are too long, and as decimals unless their
exponent is out of the range of decimals, which takes an enormous length or written exponent. -/
theorem evaluateOn_reports (stack : ℕ) (rules : Rules) (t : Text)
    (hstandard : rules.precision = .standard →
      ∀ source ∈ t.sources, source.length ≤ Numeral.mostDoubleDigits)
    (hhigh : rules.precision = .high → t.length ≤ 4096 ∧ t.ModerateExponents rules.limits) :
    t.EndsOn stack rules ∧
    (∀ source ∈ t.sources, ∀ st, Statement.parse rules.limits source = .ok st →
      ∀ n ∈ st.expression.numerals, ∃ d, n.readText rules.precision = .ok d ∧
        n.read rules.precision = .ok d) ∧
    ∀ (limits : Limits) (source : Text) (ts : List Token), tokens limits source = .ok ts →
      ∀ (s : Option Sign) (m : Numeral), .number m ∈ ts.map Token.lexeme →
        (source.length ≤ Numeral.mostDoubleDigits → Double.ofText (SignedNumeral.text ⟨s, m⟩) =
          .ok (Double.ofDecimal (SignedNumeral.written ⟨s, m⟩))) ∧
        (Decimal.ofText (SignedNumeral.text ⟨s, m⟩) = .ok (SignedNumeral.written ⟨s, m⟩) ∨
          Decimal.ofText (SignedNumeral.text ⟨s, m⟩) = .error .invalidOperation) ∧
        (source.length + m.writtenExponent.natAbs ≤ Numeral.mostDigits →
          Decimal.ofText (SignedNumeral.text ⟨s, m⟩) = .ok (SignedNumeral.written ⟨s, m⟩)) := by
  refine ⟨t.endsOn stack hhigh, fun source hsource st hst n hn => ?_,
    fun limits source ts hts s m hm => ?_⟩
  · obtain ⟨hwellFormed, hdigits⟩ := Statement.numerals_of_parse hst hn
    rw [SignedNumeral.readText_eq hwellFormed fun h => hdigits.trans (hstandard h source hsource)]
    rcases (Session.literalsEnd_bounded hhigh source hsource st hst n hn).value_or_error with
      ⟨d, hd, -⟩ | ⟨_, -, hfalse⟩
    · exact ⟨d, hd, hd⟩
    · exact hfalse.elim
  · obtain ⟨hwellFormed, hdigits⟩ := numeral_of_tokens hts hm
    have hdecimal := Decimal.ofText_numeral (n := ⟨s, m⟩) hwellFormed
    refine ⟨fun hlength => Double.ofText_numeral (n := ⟨s, m⟩) hwellFormed (hdigits.trans hlength),
      ?_, fun hlength => ?_⟩
    · rw [hdecimal]
      exact SignedNumeral.decimal_cases _
    · rw [hdecimal]
      exact SignedNumeral.decimal_eq_written (n := ⟨s, m⟩) hwellFormed
        ((Nat.add_le_add_right hdigits _).trans hlength)

attribute [local instance] Library.rounded

/-- The root of a huge number and a remainder by a tiny one, which is read with its sign. -/
theorem evaluateOn_reports_remainder :
    let rules : Rules := ⟨.high, {}, .standard, fun _ => .one⟩
    let t : Text := "sqrt(2e300)%-1.5e-99"
    let ts : List Token := [⟨.name "sqrt", 0⟩, ⟨.left, 4⟩,
      ⟨.number ⟨[2], none, some ⟨false, none, [3, 0, 0]⟩⟩, 5⟩, ⟨.right, 10⟩,
      ⟨.operator .modulo, 11⟩, ⟨.operator .minus, 12⟩,
      ⟨.number ⟨[1], some [5], some ⟨false, some .minus, [9, 9]⟩⟩, 13⟩]
    (t.length ≤ 4096 ∧ t.ModerateExponents rules.limits) ∧ tokens rules.limits t = .ok ts ∧
      t.EndsOn usualStack rules ∧
      Double.ofText "-1.5e-99" = .ok (Double.ofDecimal (.finite true 15 (-100))) ∧
      Decimal.ofText "-1.5e-99" = .ok (.finite true 15 (-100)) := by
  intro rules t ts
  have h : t.length ≤ 4096 ∧ t.ModerateExponents rules.limits := by decide +kernel
  have hts : tokens rules.limits t = .ok ts := by decide +kernel
  obtain ⟨hends, -, hread⟩ := evaluateOn_reports usualStack rules t (fun h => by cases h) fun _ => h
  obtain ⟨hdouble, -, hdecimal⟩ := hread rules.limits t ts hts (some .minus)
    ⟨[1], some [5], some ⟨false, some .minus, [9, 9]⟩⟩ (by decide)
  exact ⟨h, hts, hends, hdouble (by decide), hdecimal (by decide)⟩

/-- A sum of ones exhausts the usual stack within the usual limits, and is not reported. -/
theorem exists_unreported : ¬∀ (rules : Rules) (t : Text), rules.precision = .standard →
    (∃ a, (evaluateOn usualStack rules t).1 = .ok a) ∨
      ∃ r, (evaluateOn usualStack rules t).1 = .error (.report r) := by
  intro h
  let rules : Rules := ⟨.standard, {}, .standard, fun _ => .one⟩
  have hexhausts : (Text.sum 1000).Exhausts usualStack rules {} :=
    Text.exhausts_sum (by decide) (by rw [Text.length_sum]; decide) (by decide)
  have hmoderate : (Text.sum 1000).Moderate rules := fun h => by cases h
  have hsignal := ((Text.sum 1000).endsOn usualStack hmoderate).exhausted hexhausts
  rcases h rules (Text.sum 1000) rfl with ⟨a, ha⟩ | ⟨r, hr⟩
  · cases hsignal.symm.trans ha
  · cases hsignal.symm.trans hr

/-- A number of the scanner whose exponent is out of the range of decimals. -/
example : let m : Numeral := ⟨[1], none, some ⟨false, none, 1 :: List.replicate 18 0⟩⟩
    tokens {} "1e1000000000000000000" = .ok [⟨.number m, 0⟩] ∧
      Decimal.ofText "1e1000000000000000000" = .error .invalidOperation := by
  decide +kernel

end Reckon
