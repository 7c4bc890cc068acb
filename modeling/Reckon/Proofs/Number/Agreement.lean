import Reckon.Proofs.Number.Faithful

/-!
# Decimals of one number

A number has many decimals : `0.5` and `0.500` differ as they are written, and not in value. Two
decimals agree (`Decimal.Agrees`) if they are finite with the same sign and the same value, the
same infinity, or both missing. A zero has its sign in both.

Arithmetic is blind to the difference. Decimals that agree are taken for the same double
(`Decimal.Agrees.ofDecimal_eq`), and as a settled result depends on the exact result and the sign
of a zero alone, an operator other than the remainder comes to the same double, or to the same
trouble, at either precision (`Operator.onDecimals_agrees`).
-/

namespace Reckon

namespace Decimal

/-- The exact result and the sign of a zero decide what a settled result comes to. -/
theorem Settles.rounded_eq {x : ℚ} {zero : Bool} {y y' : Except Signal Decimal}
    (h : Settles x zero y) (h' : Settles x zero y') : Operator.rounded y = Operator.rounded y' := by
  obtain ⟨c, e, hr, rfl⟩ := h
  obtain ⟨d, f, hr', rfl⟩ := h'
  have hsize := hr.unique hr'
  have hzero := eq_zero_iff_of_size_eq hsize
  have hover : (c ≠ 0 ∧ largestExponent < adjusted c e) ↔
      (d ≠ 0 ∧ largestExponent < adjusted d f) := by
    refine and_congr_right_iff.2 (fun hc => ?_) |>.trans (and_congr_left' (not_congr hzero))
    rw [adjusted_eq_of_size_eq (Nat.pos_of_ne_zero hc) hsize]
  by_cases ho : d ≠ 0 ∧ largestExponent < adjusted d f
  · rw [if_pos ho, if_pos (hover.2 ho)]
  · rw [if_neg ho, if_neg (mt hover.1 ho)]
    obtain ⟨r, hdouble, hround⟩ := Double.exists_ofDecimal (signOf x zero) c e
    simp only [Operator.rounded, toNearestDouble]
    rw [hdouble, Double.ofDecimal_of_rounds _ (hsize ▸ hround)]

/-! ## Agreement -/

/-- The decimals are one number : of the same sign and the same value, or both infinite with the
same sign, or both missing. -/
inductive Agrees : Decimal → Decimal → Prop
  | finite (s : Bool) {c d : ℕ} {e f : ℤ} (h : (c : ℚ) * 10 ^ e = d * 10 ^ f) :
      Agrees (.finite s c e) (.finite s d f)
  | infinite (s : Bool) : Agrees (.infinite s) (.infinite s)
  | missing : Agrees missing missing

theorem agrees_toDecimal (x : Double) : Agrees x.toDecimal x.toDecimal := by
  cases x with
  | nan => exact .missing
  | infinite s => exact .infinite s
  | finite s r =>
    obtain ⟨c, e, h, -⟩ := Double.exists_toDecimal s r
    rw [h]
    exact .finite s rfl

theorem agrees_ofInt (i : ℤ) : Agrees (ofInt i) (ofInt i) := .finite _ rfl

variable {a a' b b' : Decimal}

theorem Agrees.isSignaling_eq (h : a.Agrees a') :
    a.isSignaling = false ∧ a'.isSignaling = false := by
  cases h <;> exact ⟨rfl, rfl⟩

theorem Agrees.isZero_eq (h : a.Agrees a') : a.isZero = a'.isZero := by
  cases h with
  | finite s h =>
    rw [isZero, isZero, Bool.eq_iff_iff, beq_iff_eq, beq_iff_eq]
    exact eq_zero_iff_of_size_eq h
  | infinite s => rfl
  | missing => rfl

/-- Decimals that agree are taken for the same double. -/
theorem Agrees.ofDecimal_eq (h : a.Agrees a') : Double.ofDecimal a = Double.ofDecimal a' := by
  cases h with
  | @finite s c d e f h =>
    obtain ⟨r, hdouble, hr⟩ := Double.exists_ofDecimal s c e
    rw [hdouble, Double.ofDecimal_of_rounds s (h ▸ hr)]
  | infinite s => rfl
  | missing => rfl

theorem Agrees.toDouble_eq (h : a.Agrees a') : a.toDouble = a'.toDouble := by
  rw [toDouble, toDouble, h.isSignaling_eq.1, h.isSignaling_eq.2, h.ofDecimal_eq]

end Decimal

namespace Operator

open Decimal

variable {library : Library} {a a' b b' : Decimal}

theorem checkDivisor_agrees (h : b.Agrees b') : checkDivisor b = checkDivisor b' := by
  rw [checkDivisor, checkDivisor, h.isSignaling_eq.1, h.isSignaling_eq.2, h.isZero_eq]

theorem onDoubles_agrees (f : Double → Double → Double) (ha : a.Agrees a') (hb : b.Agrees b') :
    onDoubles f a b = onDoubles f a' b' := by
  rw [onDoubles, onDoubles, ha.toDouble_eq, hb.toDouble_eq]

/-- Every result of an operator is a double. -/
theorem onDecimals_double [Library] (precision : Precision) (op : Operator) (a b : Decimal) :
    Ends (fun d => ∃ x : Double, d = x.toDecimal) (fun _ => True)
      (op.onDecimals precision a b) := by
  rcases op.onDecimals_cases precision a b with ⟨x, h⟩ | ⟨f, h⟩ | ⟨-, t, -, h⟩ <;> rw [h]
  · cases x with
    | error s => trivial
    | ok d => exact ⟨_, rfl⟩
  · unfold onDoubles
    split
    · trivial
    · trivial
    · exact ⟨_, rfl⟩
  · trivial

/-- Where the operator has an exact result, only that counts. -/
theorem onDecimals_finite_agrees (precision precision' : Precision) {op : Operator} {s t : Bool}
    {c c' d d' : ℕ} {e e' f f' : ℤ} (hc : (c : ℚ) * 10 ^ e = c' * 10 ^ e')
    (hd : (d : ℚ) * 10 ^ f = d' * 10 ^ f') {x : ℚ}
    (hx : op.Exact (.finite s c e) (.finite t d f) x) :
    op.onDecimals precision (.finite s c e) (.finite t d f) =
      op.onDecimals precision' (.finite s c' e') (.finite t d' f') := by
  have hx' : op.Exact (.finite s c' e') (.finite t d' f') x := by
    have := hx.2.2
    simp only [Decimal.value, hc, hd] at this
    exact ⟨trivial, trivial, this⟩
  obtain ⟨y, hy, heq⟩ := onDecimals_settles precision hx
  obtain ⟨y', hy', heq'⟩ := onDecimals_settles precision' hx'
  rw [heq, heq', hy.rounded_eq hy']

/-- An operator other than the remainder comes to the same at either precision, whichever decimals
its operands are. -/
theorem onDecimals_agrees (precision precision' : Precision) {op : Operator} (hop : op ≠ .modulo)
    (ha : a.Agrees a') (hb : b.Agrees b') :
    op.onDecimals precision a b = op.onDecimals precision' a' b' := by
  cases op with
  | modulo => exact absurd rfl hop
  | power => exact onDoubles_agrees _ ha hb
  | plus =>
    cases ha <;> cases hb
    case finite.finite hc _ _ _ _ _ hd =>
      exact onDecimals_finite_agrees precision precision' hc hd ⟨trivial, trivial, rfl⟩
    all_goals rfl
  | minus =>
    cases ha <;> cases hb
    case finite.finite hc _ _ _ _ _ hd =>
      exact onDecimals_finite_agrees precision precision' hc hd ⟨trivial, trivial, rfl⟩
    all_goals rfl
  | times =>
    cases ha <;> cases hb
    case finite.finite hc _ _ _ _ _ hd =>
      exact onDecimals_finite_agrees precision precision' hc hd ⟨trivial, trivial, rfl⟩
    case finite.infinite hc _ => simp only [onDecimals, product, eq_zero_iff_of_size_eq hc]
    case infinite.finite hd => simp only [onDecimals, product, eq_zero_iff_of_size_eq hd]
    all_goals rfl
  | divide =>
    have hcheck := checkDivisor_agrees hb
    cases ha <;> cases hb
    case finite.finite s c c' e e' hc t d d' f f' hd =>
      by_cases hzero : (Decimal.finite t d f).value = 0
      · have hz : d = 0 := by
          have hf : (10 : ℚ) ^ f ≠ 0 := zpow_ne_zero f (by norm_num)
          cases t <;> simpa [Decimal.value, withSign, hf] using hzero
        have hrefuse : checkDivisor (.finite t d f) = .error (.fault .divisionByZero) := by
          simp [checkDivisor, isSignaling, isZero, hz]
        simp only [onDecimals, ← hcheck, hrefuse]
      · exact onDecimals_finite_agrees precision precision' hc hd ⟨trivial, trivial, hzero, rfl⟩
    case infinite.finite => simp only [onDecimals, hcheck, quotient]
    case missing.finite => simp only [onDecimals, hcheck, quotient, missing]
    all_goals rfl

end Operator

end Reckon
