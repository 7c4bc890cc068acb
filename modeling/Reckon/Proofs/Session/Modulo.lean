import Reckon.Proofs.Number.Integers
import Reckon.Proofs.Session.Exact

/-!
# The two remainders of whole numbers

At standard precision `%` is the remainder of two doubles, at high precision it is worked out in
steps at 80 digits. Of whole numbers up to `2 ^ 53` both are exact, and so they are two remainders
of one division : one has the sign of the dividend, the other that of the divisor
(`Operator.modulo_integers`).
-/

namespace Reckon

/-- The decimal is the whole number. -/
def Decimal.IsInt (d : Decimal) (i : ℤ) : Prop := d.IsFinite ∧ d.value = i

theorem Decimal.IsInt.exists_eq {d : Decimal} {i : ℤ} (h : d.IsInt i) :
    ∃ s c e, d = .finite s c e ∧ (Decimal.finite s c e).value = i := by
  obtain ⟨hfinite, hvalue⟩ := h
  cases d with
  | infinite | nan => exact hfinite.elim
  | finite s c e => exact ⟨s, c, e, rfl, hvalue⟩

namespace Operator

open Decimal

section

variable [Library] {a b : Decimal} {i j : ℤ}

/-- Of whole multiples of one power of ten the remainder is exact before it is rounded to a
double. -/
theorem exists_modulo_of_aligned {s t : Bool} {c d : ℕ} {e f : ℤ} {x y : ℚ}
    (hx : (Decimal.finite s c e).value = x) (hy : (Decimal.finite t d f).value = y) (hne : y ≠ 0)
    (h : Aligned x y) : ∃ z : Double,
      modulo.onDecimals .high (.finite s c e) (.finite t d f) = .ok z.toDecimal ∧
        z.ResultOf (exactRemainder x y) := by
  obtain ⟨hd, hcheck⟩ := checkDivisor_of_value (hy.trans_ne hne)
  have hover := h.flooredRemainder_ne hd hx.symm hy.symm hne
  rcases flooredRemainder_steps s t c e f hd hx.symm hy.symm with
    ⟨heq, -⟩ | ⟨q, p, _, hq, hp, hsettles⟩
  · exact absurd heq hover
  obtain ⟨z, hz, hresult⟩ := rounded_resultOf hsettles fun heq => hover (rounded_eq_overflow heq)
  refine ⟨z, by simp only [onDecimals, hcheck, hz], ?_⟩
  rw [h.floor_eq hne hq] at hp
  rw [hp.unique (settlesTo_self (h.holds_product hne))] at hresult
  exact hresult

/-- At high precision the remainder has the sign of the divisor. -/
theorem exists_modulo_high (ha : a.IsInt i) (hb : b.IsInt j) (hj : j ≠ 0)
    (hi : i.natAbs ≤ 2 ^ 53) (hj' : j.natAbs ≤ 2 ^ 53) :
    ∃ d, modulo.onDecimals .high a b = .ok d ∧ d.IsInt (i.fmod j) := by
  obtain ⟨s, c, e, rfl, hx⟩ := ha.exists_eq
  obtain ⟨t, d, f, rfl, hy⟩ := hb.exists_eq
  have hne : (j : ℚ) ≠ 0 := by exact_mod_cast hj
  have haligned : Aligned (i : ℚ) j :=
    ⟨i, j, 0, hi.trans (by decide), hj'.trans (by decide), by decide, by decide, by simp, by simp⟩
  obtain ⟨z, hz, hresult⟩ := exists_modulo_of_aligned hx hy hne haligned
  rw [exactRemainder_intCast] at hresult
  have hsmall : (i.fmod j).natAbs ≤ 2 ^ 53 := by
    have hlt := (isRemainder_fmod i hj).lt
    rw [Int.abs_eq_natAbs, Int.abs_eq_natAbs] at hlt
    omega
  obtain ⟨s', c', e', hfinite, hvalue⟩ := hresult.value_eq (isDouble_intCast hsmall)
  rw [hfinite] at hz
  exact ⟨_, hz, trivial, hvalue⟩

/-- At standard precision the remainder has the sign of the dividend. -/
theorem exists_modulo_standard (ha : a.IsInt i) (hb : b.IsInt j) (hj : j ≠ 0)
    (hi : i.natAbs ≤ 2 ^ 53) (hj' : j.natAbs ≤ 2 ^ 53) :
    ∃ d, modulo.onDecimals .standard a b = .ok d ∧ d.IsInt (i.tmod j) := by
  obtain ⟨s, c, e, rfl, hx⟩ := ha.exists_eq
  obtain ⟨t, d, f, rfl, hy⟩ := hb.exists_eq
  have hne : (Decimal.finite t d f).value ≠ 0 := by
    rw [hy]
    exact_mod_cast hj
  obtain ⟨r, hr, hri⟩ := exists_toDouble_intCast hx hi
  obtain ⟨q, hq, hqj⟩ := exists_toDouble_intCast hy hj'
  obtain ⟨m, hm, hvalue⟩ := Double.remainder_intCast hri hqj hj hj'
  obtain ⟨c', e', hdecimal, hsize⟩ := Double.exists_toDecimal s m
  refine ⟨.finite s c' e', ?_, trivial, ?_⟩
  · simp only [onDecimals, (checkDivisor_of_value hne).2, onDoubles, hr, hq, hm, hdecimal]
  · rw [← hvalue, Decimal.value, hsize, Double.value]

/-- Of whole numbers up to `2 ^ 53` both remainders are exact. That at standard precision has the
sign of the dividend, that at high precision has the sign of the divisor, and they differ by the
divisor unless the first has the sign of the second or is zero. -/
theorem modulo_integers (ha : a.IsInt i) (hb : b.IsInt j) (hj : j ≠ 0) (hi : |i| ≤ 2 ^ 53)
    (hj' : |j| ≤ 2 ^ 53) (limits : Limits) (p q : Option Decimal) (k l : Bool) : ∃ r t : ℤ,
      (∃ d, modulo.apply .standard limits (.number a p k) (.number b q l) = .ok (.real d) ∧
        d.IsInt r) ∧ IsRemainder i j i r ∧
      (∃ d, modulo.apply .high limits (.number a p k) (.number b q l) = .ok (.real d) ∧
        d.IsInt t) ∧ IsRemainder i j j t ∧
      t = if r = 0 ∨ r.sign = j.sign then r else r + j := by
  rw [Int.abs_eq_natAbs] at hi hj'
  have hi : i.natAbs ≤ 2 ^ 53 := by exact_mod_cast hi
  have hj' : j.natAbs ≤ 2 ^ 53 := by exact_mod_cast hj'
  obtain ⟨d, hd, hr⟩ := exists_modulo_standard ha hb hj hi hj'
  obtain ⟨h, hh, ht⟩ := exists_modulo_high ha hb hj hi hj'
  refine ⟨_, _, ⟨d, ?_, hr⟩, isRemainder_tmod i hj, ⟨h, ?_, ht⟩, isRemainder_fmod i hj,
    fmod_eq_ite i hj⟩
  · simp only [apply, hd]
  · simp only [apply, hh]

end

attribute [local instance] Library.rounded

/-- The largest such number by minus three : the remainders lie on both sides of zero. -/
theorem modulo_integers_largest :
    let a : Decimal := .finite false (2 ^ 53) 0
    let b : Decimal := .finite true 3 0
    (a.IsInt (2 ^ 53) ∧ b.IsInt (-3) ∧ (-3 : ℤ) ≠ 0 ∧ |(2 ^ 53 : ℤ)| ≤ 2 ^ 53 ∧
      |(-3 : ℤ)| ≤ 2 ^ 53) ∧ ∃ r t : ℤ,
      (∃ d, modulo.apply .standard {} (.number a none true) (.number b none true) = .ok (.real d) ∧
        d.IsInt r) ∧ IsRemainder (2 ^ 53) (-3) (2 ^ 53) r ∧
      (∃ d, modulo.apply .high {} (.number a none true) (.number b none true) = .ok (.real d) ∧
        d.IsInt t) ∧ IsRemainder (2 ^ 53) (-3) (-3) t ∧
      t = if r = 0 ∨ r.sign = (-3 : ℤ).sign then r else r + -3 := by
  intro a b
  have ha : a.IsInt (2 ^ 53) := ⟨trivial, by norm_num [a, Decimal.value, withSign]⟩
  have hb : b.IsInt (-3) := ⟨trivial, by norm_num [b, Decimal.value, withSign]⟩
  exact ⟨⟨ha, hb, by decide, by decide, by decide⟩,
    modulo_integers ha hb (by decide) (by decide) (by decide) {} none none true true⟩

end Operator

end Reckon
