import Reckon.Proofs.Number.Notation
import Reckon.Proofs.Session.Numbers
import Reckon.Proofs.Session.Numerals

/-!
# The text of a result evaluates to itself

The text of a finite number that an expression comes to is itself an expression, and it comes to
a number with the same text (`evaluate_result`).

At standard precision that needs an invariant. A result is written as the nearest double, and this
is an infinity, which cannot be read, for a number of great size. But no expression comes to such a
number : literals and the results of operators and functions are doubles already, and a hash is a
word of 64 bits (`Decimal.InRange`). The property is closed (`Decimal.closed_inRange`), so the
values of a session have it (`Session.run_inRange`). With high precision no such bound is needed,
for what is written there is all that is left of a number.
-/

namespace Reckon

/-! ## Numbers in the range of doubles -/

/-- At standard precision the nearest double of a finite number is finite. -/
def Decimal.InRange (precision : Precision) (d : Decimal) : Prop :=
  precision = .standard → ∀ s c e, d = .finite s c e →
    ∃ t r, Double.ofDecimal d = .finite t r

/-- The numbers of the value are in range. -/
def Value.InRange (precision : Precision) : Value → Prop
  | .number r i _ => r.InRange precision ∧ ∀ d, i = some d → d.InRange precision
  | .string _ => True

variable {precision : Precision}

theorem Decimal.inRange_toDecimal (x : Double) : x.toDecimal.InRange precision := by
  rintro - s c e h
  rw [Double.ofDecimal_toDecimal]
  cases x with
  | finite t r => exact ⟨t, r, rfl⟩
  | infinite t => cases h
  | nan => cases h

theorem Decimal.inRange_hash (t : Text) : (ofInt t.hash).InRange precision := by
  rintro - - - - -
  have hrank : ((2 ^ 64 : ℕ) : ℚ) ≤ Double.rankValue 0x43F0000000000000 :=
    Double.natCast_le_rankValue (by decide +kernel)
  have hsize : (t.hash.natAbs : ℚ) * 10 ^ (0 : ℤ) ≤ Double.rankValue 0x43F0000000000000 := by
    rw [zpow_zero, mul_one]
    exact le_trans (Nat.cast_le.2 t.natAbs_hash_le) hrank
  obtain ⟨r, hr⟩ := Double.exists_finite _ (by decide) hsize
  exact ⟨_, r, hr⟩

namespace Operator

theorem onDoubles_inRange (f : Double → Double → Double) (a b : Decimal) :
    Ends (Decimal.InRange precision) (fun _ => True) (onDoubles f a b) := by
  unfold onDoubles
  split
  · trivial
  · trivial
  · exact Decimal.inRange_toDecimal _

theorem rounded_inRange (x : Except Signal Decimal) :
    Ends (Decimal.InRange precision) (fun _ => True) (rounded x) := by
  cases x with
  | error s => trivial
  | ok d => exact Decimal.inRange_toDecimal _

/-- Every result of an operator is a double. -/
theorem onDecimals_inRange [Library] (op : Operator) (a b : Decimal) :
    Ends (Decimal.InRange precision) (fun _ => True) (op.onDecimals precision a b) := by
  rcases op.onDecimals_cases precision a b with ⟨x, h⟩ | ⟨f, h⟩ | ⟨-, t, -, h⟩ <;> rw [h]
  · exact rounded_inRange x
  · exact onDoubles_inRange f a b
  · trivial

end Operator

/-- To be in range is closed, whatever the signals are. -/
theorem Decimal.closed_inRange : Closed precision (InRange precision) fun _ => True where
  double := inRange_toDecimal
  hash := inRange_hash
  operator op a b _ _ := (op.onDecimals_inRange a b).mono (fun _ h => h) fun t _ => by
    cases t <;> trivial
  operand d _ := by cases d.toDouble <;> trivial
  root hhigh d _ := by
    cases d.squareRoot with
    | error s => trivial
    | ok r => exact fun h => by cases hhigh.symm.trans h

variable {rules : Rules}

namespace Session

/-- The literals of all expressions are in range. -/
theorem literalsEnd_inRange (sources : List Text) :
    LiteralsEnd rules (Decimal.InRange rules.precision) (fun _ => True) sources := by
  intro source _ st _ n _
  cases hread : n.read rules.precision with
  | error s => trivial
  | ok d =>
    intro hstandard
    rw [hstandard] at hread
    obtain rfl := Except.ok.inj hread
    exact Decimal.inRange_toDecimal _ rfl

/-- A new session yields values in range. -/
theorem run_inRange {sources : List Text} {v : Value} (h : (run rules sources {}).1 = .ok v) :
    v.InRange rules.precision := by
  have hempty : Environment.All (Decimal.InRange rules.precision) [] := fun _ _ h => by cases h
  have hend : Ends _ _ (run rules sources {}).1 := runFrom_closed Decimal.closed_inRange sources
    (literalsEnd_inRange sources) hempty fun _ h => (by cases h)
  rw [h] at hend
  cases v <;> exact hend

end Session

/-! ## Results -/

/-- The text of a finite number in range is written as a numeral, and what the numeral denotes
has the same text. -/
theorem Value.exists_numeral {s : Bool} {c : ℕ} {x : ℤ} {i : Option Decimal} {k : Bool} {t : Text}
    (hrange : (Value.number (.finite s c x) i k).InRange precision)
    (hresult : (Value.number (.finite s c x) i k).result precision = .ok t)
    (ht : t.length ≤ 4096) :
    ∃ n : SignedNumeral, n.numeral.WellFormed ∧ n.text = t ∧ ∃ d, n.read precision = .ok d ∧
      ∀ b, (Value.number d none b).result precision = .ok t := by
  cases precision with
  | standard =>
    obtain ⟨u, r, hr⟩ := hrange.1 rfl s c x rfl
    obtain ⟨n, hn, htext, hread⟩ := Double.exists_numeral u r
    have htext' : Double.text (.finite u r) = t := by
      have hdouble : (Decimal.finite s c x).toDouble = .ok (.finite u r) := by
        rw [← hr]
        rfl
      rw [result, hdouble] at hresult
      exact Except.ok.inj hresult
    refine ⟨.ofSign u n, hn, htext.trans htext', _, rfl, fun b => ?_⟩
    rw [Decimal.toNearestDouble, hread, result, Decimal.toDouble, Decimal.isSignaling_toDecimal,
      Double.ofDecimal_toDecimal]
    exact congrArg _ htext'
  | high =>
    obtain ⟨n, hn, htext, hread, hfixed⟩ := Decimal.exists_numeral_fixed hresult ht
    exact ⟨.ofSign s n, hn, htext, _, hread, fun _ => hfixed⟩

/-- The text of a finite number that an expression comes to, if it is short enough, is itself an
expression that comes to a number with this text, whatever is drawn then. -/
theorem evaluate_result (hlimits : rules.limits = {}) {e t : Text} {s : Bool} {c : ℕ} {x : ℤ}
    {i : Option Decimal} {k : Bool}
    (h : (evaluate rules e).1 = .ok ⟨.number (.finite s c x) i k, t⟩)
    (ht : (t.length : Int) ≤ rules.limits.expressionLength) (draws : Nat → Double) :
    ∃ d b, (evaluate { rules with draws := draws } t).1 = .ok ⟨.number d none b, t⟩ := by
  obtain ⟨hrun, hresult⟩ := run_of_evaluate h
  have hrange := Session.run_inRange hrun
  have hnonnegative : rules.limits.Nonnegative := by
    rw [hlimits]
    intro l
    cases l <;> decide
  have hlength : (t.length : Int) ≤ 4096 := by
    rw [hlimits] at ht
    exact ht
  obtain ⟨n, hn, rfl, d, hread, hsame⟩ := Value.exists_numeral hrange hresult
    (by exact_mod_cast hlength)
  have hread' := @evaluate_numeral n { rules with draws := draws } hnonnegative hn ht
    (by rw [hlimits]; decide) (by rw [hlimits]; decide) d hread
  exact ⟨d, n.numeral.isInteger, by rw [hread', Value.answer, hsame]⟩

attribute [local instance] Library.rounded

/-- A negative product is written with a power of ten, and read again with its sign. -/
theorem evaluate_result_power :
    let rules : Rules := ⟨.standard, {}, .standard, fun _ => .one⟩
    let t : Text := "-1e+06"
    (evaluate rules "2e5*-5").1 = .ok ⟨.number (.finite true 1000000 0) none false, t⟩ ∧
      ∃ d b, (evaluate { rules with draws := fun _ => .nan } t).1 = .ok ⟨.number d none b, t⟩ := by
  intro rules t
  have h : (evaluate rules "2e5*-5").1 =
      .ok ⟨.number (.finite true 1000000 0) none false, t⟩ := by decide +kernel
  exact ⟨h, evaluate_result rfl h (by decide) _⟩

end Reckon
