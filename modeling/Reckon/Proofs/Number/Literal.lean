import Reckon.Proofs.Number.Digits
import Reckon.Proofs.Number.Working

/-!
# Which literals are read

A literal is read with high precision if its exponent is in the range of decimals, and that follows
from bounds on its written exponent and on its digits, if the number itself is not huge
(`SignedNumeral.decimal_eq`). A literal that denotes a double exactly is then read as that double
at either precision, as one decimal or another (`SignedNumeral.exists_read`).
-/

namespace Reckon

/-- The number is a finite double. -/
def IsDouble (q : ℚ) : Prop := ∃ s r, (Double.finite s r).value = q

/-- The decimal of a finite double has the value of a double. -/
theorem isDouble_of_toDecimal {s : Bool} {r : Fin infinityRank} {d : Decimal}
    (h : (Double.finite s r).toDecimal = d) : IsDouble d.value := by
  obtain ⟨c, e, hdecimal, hvalue⟩ := Double.exists_toDecimal s r
  exact ⟨s, r, by rw [← h, hdecimal, Decimal.value, hvalue, Double.value]⟩

namespace Numeral

variable (n : Numeral)

/-- The digits, those behind the point included. -/
def digits : List Digit := n.whole ++ n.fraction.getD []

/-- The exponent that is written; without one it is zero. -/
def writtenExponent : ℤ := (n.power.map Power.value).getD 0

/-- A decimal cannot have more digits than this. -/
def mostDigits : ℕ := 999999999999999999

/-- The written exponent is at most 100000 in size, and there are not more digits than a decimal
can have. -/
structure Moderate : Prop where
  /-- The bound on the written exponent. -/
  exponent : n.writtenExponent.natAbs ≤ 100000
  /-- The bound on the digits. -/
  digits : n.digits.length ≤ mostDigits

/-- The coefficient has at most as many digits as are written. -/
theorem digitCount_le (hn : 0 < n.digits.length) : digitCount n.coefficient ≤ n.digits.length :=
  Reckon.digitCount_le hn (digitsValue_lt n.digits)

/-- The last digit stands as many places behind the written exponent as there are digits behind the
point. -/
theorem exponent_bounds :
    n.writtenExponent - n.digits.length ≤ n.exponent ∧ n.exponent ≤ n.writtenExponent := by
  have hlength : (n.fraction.getD []).length ≤ n.digits.length := by
    rw [digits, List.length_append]
    exact Nat.le_add_left _ _
  have : n.exponent = n.writtenExponent - (n.fraction.getD []).length := rfl
  omega

end Numeral

namespace SignedNumeral

variable {n : SignedNumeral}

/-- A literal within bounds is read with high precision as it is written. A zero can be as long as
it likes. -/
theorem decimal_eq (hn : n.numeral.Moderate) (hsize : n.numeral.coefficient ≠ 0 →
      Decimal.adjusted n.numeral.coefficient n.numeral.exponent ≤ greatestExponent) :
    n.decimal = .ok n.written := by
  have hexponent := hn.exponent
  have hdigits := hn.digits
  obtain ⟨hle, hge⟩ := n.numeral.exponent_bounds
  unfold decimal
  simp only
  rw [if_pos]
  constructor
  · simp only [Numeral.mostDigits] at hdigits
    simp only [leastExponent]
    omega
  · split
    · simp only [greatestExponent]
      omega
    · exact hsize ‹_›

/-- With high precision a literal is read as it is written, or not at all. -/
theorem decimal_cases (n : SignedNumeral) :
    n.decimal = .ok n.written ∨ n.decimal = .error .invalidOperation := by
  unfold decimal
  exact ite_eq_or_eq _ _ _

/-- A literal whose digits and written exponent together do not exceed the range of decimals is read
with high precision as it is written. -/
theorem decimal_eq_written (hn : n.numeral.WellFormed)
    (h : n.numeral.digits.length + n.numeral.writtenExponent.natAbs ≤ Numeral.mostDigits) :
    n.decimal = .ok n.written := by
  obtain ⟨hle, hge⟩ := n.numeral.exponent_bounds
  have hcount := n.numeral.digitCount_le (List.length_pos_iff.2 hn.1)
  unfold Numeral.mostDigits at h
  unfold decimal
  simp only
  rw [if_pos]
  constructor
  · simp only [leastExponent]
    omega
  · split
    · simp only [greatestExponent]
      omega
    · simp only [greatestExponent, Decimal.adjusted]
      omega

/-- A literal that denotes a double exactly is read as a decimal of its sign and its value. -/
theorem exists_read (precision : Precision) (hn : n.numeral.Moderate)
    (hdouble : IsDouble n.written.value) : ∃ (c : ℕ) (e : ℤ),
      n.read precision = .ok (.finite n.negative c e) ∧
        (c : ℚ) * 10 ^ e = n.numeral.coefficient * 10 ^ n.numeral.exponent := by
  obtain ⟨s, r, hvalue⟩ := hdouble
  have hsize : n.numeral.coefficient * 10 ^ n.numeral.exponent = Double.rankValue r := by
    have habs := congrArg abs hvalue
    have hpos := Double.rankValue_nonneg r
    have hpos' : (0 : ℚ) ≤ n.numeral.coefficient * 10 ^ n.numeral.exponent := by positivity
    simp only [Double.value, Decimal.value, written] at habs
    rw [Decimal.abs_withSign hpos, Decimal.abs_withSign hpos'] at habs
    exact habs.symm
  cases precision with
  | standard =>
    have hround := Double.rounds_rankValue r.isLt.le
    rw [← hsize] at hround
    obtain ⟨c, e, hdecimal, hval⟩ := Double.exists_toDecimal n.negative r
    refine ⟨c, e, ?_, hval.trans hsize.symm⟩
    rw [read, Decimal.toNearestDouble, written, Double.ofDecimal_of_rounds _ hround,
      Double.ofRank_val, hdecimal]
  | high =>
    refine ⟨_, _, decimal_eq hn fun hc => ?_, rfl⟩
    have hlt := (Decimal.size_bounds (Nat.pos_of_ne_zero hc) n.numeral.exponent).1
    rw [hsize] at hlt
    have hle := hlt.trans (Double.rankValue_le r.isLt.le)
    have := (zpow_le_zpow_iff_right₀ (show (1 : ℚ) < 10 by norm_num)).1 hle
    simp only [greatestExponent]
    omega

end SignedNumeral

end Reckon
