import Mathlib.Data.Rat.Floor
import Reckon.Proofs.Number.Faithful

/-!
# Floored remainders

At high precision a remainder is worked out in steps : the quotient is settled and floored, the
floor is multiplied by the divisor, and the product is taken from the dividend. Each step is settled
at 80 digits (`Decimal.flooredRemainder_steps`), so the outcome is what is left of the dividend for
some whole number of divisors. That number is the floor of the exact quotient if settling does not
take the quotient to a whole number, and then the outcome lies between zero and the divisor if the
product has no more than 80 digits.

Both hold of all operands that are whole multiples of one power of ten, up to `10 ^ 79` of them
(`Decimal.Aligned.floor_eq`, `Decimal.Aligned.holds_product`) : unless the quotient is a whole
number, it is further from any than settling takes it. A quotient of more than 80 digits loses its
last ones, and what is left may then be larger than the divisor (`Operator.modulo_not_remainder`).
-/

namespace Reckon

namespace Decimal

/-! ## Floors -/

/-- Whole numbers apart, flooring divides the coefficient and rounds away from zero below it. -/
theorem floor_eq (s : Bool) (c : ℕ) {n : ℕ} (hn : 0 < n) :
    floor (.finite s c (-n)) =
      .finite s (if s then (c + 10 ^ n - 1) / 10 ^ n else c / 10 ^ n) 0 := by
  have hpos : 0 < 10 ^ n := Nat.pow_pos (by decide)
  simp only [floor, neg_neg, Int.toNat_natCast]
  rw [if_neg (by omega)]
  split
  · rename_i hfew
    have hlt : c < 10 ^ n := (lt_pow_digitCount c).trans (Nat.pow_lt_pow_right (by decide) hfew)
    rcases Nat.eq_zero_or_pos c with rfl | hc
    · rw [Nat.zero_div, Nat.zero_add, Nat.div_eq_of_lt (by omega)]
      simp
    · have hceil : (c + 10 ^ n - 1) / 10 ^ n = 1 :=
        Nat.div_eq_of_lt_le (by omega) (by omega)
      rw [hceil, Nat.div_eq_of_lt hlt]
      simp [hc.ne']
  · rfl

/-- The quotient of a negative whole number is rounded away from zero. -/
theorem signed_ediv (s : Bool) (c : ℕ) {u : ℕ} (hu : 0 < u) :
    signed s c / (u : ℤ) = signed s (if s then (c + u - 1) / u else c / u) := by
  cases s with
  | false => simp [signed]
  | true =>
    simp only [signed, if_true]
    rw [Int.ediv_eq_iff_of_pos (by omega)]
    have hle := Nat.div_mul_le_self (c + u - 1) u
    have hlt := Nat.lt_div_mul_add hu (a := c + u - 1)
    generalize (c + u - 1) / u = m at *
    have hbelow : (c : ℤ) ≤ m * u := by exact_mod_cast show c ≤ m * u by omega
    have habove : (m : ℤ) * u + 1 ≤ c + u := by
      exact_mod_cast show m * u + 1 ≤ c + u by omega
    constructor <;> linarith

theorem withSign_natCast (s : Bool) (n : ℕ) : withSign s (n : ℚ) = (signed s n : ℤ) := by
  cases s <;> simp [signed, withSign]

/-- The value of a floored number is the floor of its value. -/
theorem floor_value (s : Bool) (c : ℕ) (e : ℤ) : ∃ (m : ℕ) (k : ℤ),
    floor (.finite s c e) = .finite s m k ∧
      withSign s (m * 10 ^ k) = ⌊withSign s (c * (10 : ℚ) ^ e)⌋ := by
  rcases le_or_gt 0 e with he | he
  · obtain ⟨n, rfl⟩ := Int.eq_ofNat_of_zero_le he
    have hwhole : c * (10 : ℚ) ^ (n : ℤ) = (c * 10 ^ n : ℕ) := by
      rw [zpow_natCast]
      push_cast
      rfl
    refine ⟨c, n, by simp only [floor, if_pos he], ?_⟩
    rw [hwhole, withSign_natCast, Int.floor_intCast]
  · obtain ⟨n, hn⟩ := Int.eq_ofNat_of_zero_le (show 0 ≤ -e by omega)
    obtain rfl : e = -n := by omega
    refine ⟨_, 0, floor_eq s c (by omega), ?_⟩
    have hquotient : withSign s (c * (10 : ℚ) ^ (-n : ℤ)) =
        (signed s c : ℤ) / (10 ^ n : ℕ) := by
      rw [zpow_neg, zpow_natCast, ← withSign_natCast]
      cases s <;> simp [withSign, div_eq_mul_inv]
    rw [hquotient, Rat.floor_intCast_div_natCast, signed_ediv s c (Nat.pow_pos (by decide)),
      zpow_zero, mul_one, withSign_natCast]

/-! ## Steps -/

theorem withSign_decide (x : ℚ) : withSign (decide (x < 0)) |x| = x := by
  rcases lt_or_ge x 0 with hx | hx
  · rw [decide_eq_true hx, withSign, if_pos rfl, abs_of_neg hx, neg_neg]
  · rw [decide_eq_false hx.not_gt, withSign, if_neg Bool.false_ne_true, abs_of_nonneg hx]

/-- What is left of the number when it is settled at 80 digits. -/
def SettlesTo (x y : ℚ) : Prop :=
  ∃ q, Format.working.Rounds |x| q ∧ y = withSign (decide (x < 0)) q

variable {x y z : ℚ}

theorem SettlesTo.unique (h : SettlesTo x y) (h' : SettlesTo x z) : y = z := by
  obtain ⟨q, hq, rfl⟩ := h
  obtain ⟨q', hq', rfl⟩ := h'
  rw [hq.unique hq']

/-- A number of 80 digits or fewer is kept. -/
theorem settlesTo_self (h : Format.working.Holds |x|) : SettlesTo x x :=
  ⟨|x|, Format.rounds_self h, (withSign_decide x).symm⟩

/-- A settled result overflows or is what is left of the exact result. -/
theorem Settles.error_or_value {zero : Bool} {r : Except Signal Decimal} (h : Settles x zero r) :
    r = .error .overflow ∨
      ∃ s c e, r = .ok (.finite s c e) ∧ SettlesTo x (withSign s (c * 10 ^ e)) := by
  obtain ⟨c, e, hr, rfl⟩ := h
  split
  · exact .inl rfl
  · refine .inr ⟨_, c, e, rfl, _, hr, ?_⟩
    unfold signOf
    split
    · rename_i hx
      rw [hx, abs_zero] at hr
      rw [hr.unique (Format.rounds_self holds_zero)]
      simp [withSign]
    · rfl

theorem flooredRemainder_of_quotient {a b q : Decimal} (h : quotient a b = .ok q) :
    flooredRemainder a b = product q.floor b >>= fun p => difference a p := by
  rw [flooredRemainder, h]
  rfl

/-- A settled result that is not huge is no overflow. -/
theorem not_settles_overflow {zero : Bool} {k : ℤ} (hx : |x| ≤ 10 ^ k) (hl : tinyExponent ≤ k)
    (hk : k ≤ largestExponent) : ¬ Settles x zero (.error .overflow) := fun h => by
  obtain ⟨c, e, heq, -⟩ := h.exists_ok hx hl hk
  cases heq

/-- A remainder is settled in three steps, unless the quotient or the product overflows. -/
theorem flooredRemainder_steps (s t : Bool) (c : ℕ) {d : ℕ} (e f : ℤ) (hd : 0 < d)
    (hx : x = withSign s (c * 10 ^ e)) (hy : y = withSign t (d * 10 ^ f)) :
    flooredRemainder (.finite s c e) (.finite t d f) = .error .overflow ∧
      (∃ zero, Settles (x / y) zero (.error .overflow) ∨
        ∃ q, SettlesTo (x / y) q ∧ Settles (⌊q⌋ * y) zero (.error .overflow)) ∨
    ∃ q p zero, SettlesTo (x / y) q ∧ SettlesTo (⌊q⌋ * y) p ∧
      Settles (x - p) zero (flooredRemainder (.finite s c e) (.finite t d f)) := by
  have hquotient := settles_quotient s t c e f hd
  rw [← hx, ← hy] at hquotient
  rcases hquotient.error_or_value with h | ⟨s', c', e', hq, hvalue⟩
  · rw [h] at hquotient
    exact .inl ⟨by rw [flooredRemainder, h]; rfl, _, .inl hquotient⟩
  obtain ⟨m, k, hfloor, hm⟩ := floor_value s' c' e'
  rw [flooredRemainder_of_quotient hq, hfloor]
  have hproduct := settles_product s' t m d k f
  rw [hm, ← hy] at hproduct
  rcases hproduct.error_or_value with h | ⟨s'', c'', e'', hp, hvalue'⟩
  · rw [h] at hproduct
    exact .inl ⟨by rw [h]; rfl, _, .inr ⟨_, hvalue, hproduct⟩⟩
  have hnegate : withSign (!s'') (c'' * (10 : ℚ) ^ e'') = -withSign s'' (c'' * 10 ^ e'') := by
    cases s'' <;> simp [withSign]
  have hdifference := settles_sum s (!s'') c c'' e e''
  rw [hnegate, ← sub_eq_add_neg, ← hx] at hdifference
  exact .inr ⟨_, _, _, hvalue, hvalue', by rw [hp]; exact hdifference⟩

end Decimal

/-! ## Exact remainders -/

/-- What is left of `x` after taking `y` as often as the floor of the quotient says. -/
def exactRemainder (x y : ℚ) : ℚ := x - ⌊x / y⌋ * y

section

variable {x y : ℚ}

theorem exactRemainder_neg (x y : ℚ) : exactRemainder (-x) (-y) = -exactRemainder x y := by
  unfold exactRemainder
  rw [neg_div_neg_eq]
  ring

/-- The remainder lies between zero and the divisor. -/
theorem exactRemainder_bounds (hy : y ≠ 0) :
    0 ≤ y * exactRemainder x y ∧ |exactRemainder x y| < |y| := by
  have hpositive : ∀ {x y : ℚ}, 0 < y →
      0 ≤ y * exactRemainder x y ∧ |exactRemainder x y| < |y| := by
    intro x y hy
    have hnonneg : 0 ≤ exactRemainder x y := Int.sub_floor_div_mul_nonneg x hy
    have hlt : exactRemainder x y < y := Int.sub_floor_div_mul_lt x hy
    exact ⟨mul_nonneg hy.le hnonneg, by rwa [abs_of_nonneg hnonneg, abs_of_pos hy]⟩
  rcases hy.lt_or_gt with hneg | hpos
  · have h := hpositive (x := -x) (neg_pos.2 hneg)
    rwa [exactRemainder_neg, neg_mul_neg, abs_neg, abs_neg] at h
  · exact hpositive hpos

/-- The multiple of the divisor is larger than the dividend by less than the divisor. -/
theorem abs_floor_mul_le (hy : y ≠ 0) : |⌊x / y⌋ * y| ≤ |x| + |y| := by
  have hsub : ⌊x / y⌋ * y = x - exactRemainder x y := by
    unfold exactRemainder
    ring
  rw [hsub]
  exact (abs_sub _ _).trans (add_le_add_right (exactRemainder_bounds hy).2.le _)

end

/-! ## Multiples of one power of ten -/

namespace Decimal

/-- The number has 80 digits or fewer. -/
def IsShort (x : ℚ) : Prop := ∃ (c : ℕ) (e : ℤ), c < 10 ^ 80 ∧ |x| = c * 10 ^ e

/-- The numbers are whole multiples of one power of ten, of which neither takes more than
`10 ^ 79`. -/
def Aligned (x y : ℚ) : Prop :=
  ∃ i j e : ℤ, i.natAbs ≤ 10 ^ 79 ∧ j.natAbs ≤ 10 ^ 79 ∧ tinyExponent ≤ e ∧
    e + 80 ≤ largestExponent ∧ x = i * 10 ^ e ∧ y = j * 10 ^ e

section

variable {m n : ℕ} {q : ℚ}

/-- A quotient of whole numbers is not settled to a whole number unless it is one : if it is none,
it is further from any than settling takes it. -/
theorem eq_of_settled_eq (hm : m ≤ 10 ^ 79) (hn : 0 < n) (hn' : n ≤ 10 ^ 79) {k : ℕ}
    (h : Format.working.Rounds (m / n) k) : (m : ℚ) / n = k := by
  have hpos : (0 : ℚ) < n := by exact_mod_cast hn
  by_contra hne
  have hm' : 0 < m := by
    refine Nat.pos_of_ne_zero fun hzero => hne ?_
    rw [hzero, Nat.cast_zero, zero_div] at h ⊢
    exact (h.unique (Format.rounds_self holds_zero)).symm
  have hlarge :
      Format.working.place (Format.working.digits - 1 + Format.working.least) ≤ m / n := by
    calc Format.working.place (Format.working.digits - 1 + Format.working.least)
        ≤ 10 ^ (-(79 : ℕ) : ℤ) := by
          rw [Format.working_place]
          exact zpow_le_zpow_right₀ (by norm_num) (by decide)
      _ = ((10 ^ 79 : ℕ) : ℚ)⁻¹ := by rw [zpow_neg, zpow_natCast]; push_cast; rfl
      _ ≤ (n : ℚ)⁻¹ := inv_anti₀ hpos (by exact_mod_cast hn')
      _ ≤ m * (n : ℚ)⁻¹ := le_mul_of_one_le_left (by positivity) (by exact_mod_cast hm')
      _ = m / n := (div_eq_mul_inv _ _).symm
  have hmoved : 2 * |(m : ℚ) / n - k| * (10 ^ 79 : ℕ) ≤ m / n := h.near hlarge
  have hapart : (n : ℚ)⁻¹ ≤ |(m : ℚ) / n - k| := by
    have hk : ((k * n : ℕ) : ℚ) * (n : ℚ)⁻¹ = k := by
      push_cast
      field_simp
    rw [div_eq_mul_inv] at hne ⊢
    rw [← hk] at hne ⊢
    exact Format.le_abs_sub (inv_pos.2 hpos) hne
  have hbound : (m : ℚ) / n ≤ (10 ^ 79 : ℕ) * (n : ℚ)⁻¹ := by
    rw [div_eq_mul_inv]
    exact mul_le_mul_of_nonneg_right (by exact_mod_cast hm) (by positivity)
  have hinv : (0 : ℚ) < (10 ^ 79 : ℕ) * (n : ℚ)⁻¹ := by positivity
  nlinarith

theorem holds_natCast {k : ℕ} (hk : k ≤ 10 ^ 79) : Format.working.Holds k := by
  have h := holds_size (show k < 10 ^ workingDigits from hk.trans_lt (by decide))
    (show tinyExponent ≤ 0 by decide)
  rwa [zpow_zero, mul_one] at h

/-- A quotient of whole numbers lies on the same side of each whole number when it is settled. -/
theorem settled_le_iff (hm : m ≤ 10 ^ 79) (hn : 0 < n) (hn' : n ≤ 10 ^ 79)
    (h : Format.working.Rounds (m / n) q) (k : ℤ) :
    ((k : ℚ) ≤ q ↔ (k : ℚ) ≤ m / n) ∧ (q ≤ k ↔ (m : ℚ) / n ≤ k) := by
  have hnonneg : (0 : ℚ) ≤ m / n := by positivity
  have hzero : 0 ≤ q := h.holds.nonneg
  have hle : (m : ℚ) / n ≤ (10 ^ 79 : ℕ) :=
    (div_le_self (Nat.cast_nonneg m) (by exact_mod_cast hn)).trans (by exact_mod_cast hm)
  have hle' : q ≤ (10 ^ 79 : ℕ) := h.mono (Format.rounds_self (holds_natCast le_rfl)) hle
  rcases lt_or_ge k 0 with hk | hk
  · have hk : (k : ℚ) < 0 := by exact_mod_cast hk
    exact ⟨iff_of_true (by linarith) (by linarith), iff_of_false (by linarith) (by linarith)⟩
  obtain ⟨k, rfl⟩ := Int.eq_ofNat_of_zero_le hk
  rw [Int.cast_natCast]
  rcases Nat.lt_or_ge (10 ^ 79) k with hlt | hk
  · have hlt : ((10 ^ 79 : ℕ) : ℚ) < k := by exact_mod_cast hlt
    have hbelow := hle.trans_lt hlt
    have hbelow' := hle'.trans_lt hlt
    exact ⟨iff_of_false hbelow'.not_ge hbelow.not_ge, iff_of_true hbelow'.le hbelow.le⟩
  have hself := Format.rounds_self (holds_natCast hk)
  have heq : q = k → (m : ℚ) / n = k := fun hq => eq_of_settled_eq hm hn hn' (hq ▸ h)
  refine ⟨⟨fun hkq => ?_, hself.mono h⟩, ⟨fun hqk => ?_, fun hle => h.mono hself hle⟩⟩
  · by_contra hlt
    exact hlt (heq (le_antisymm (h.mono hself (not_le.1 hlt).le) hkq)).ge
  · by_contra hlt
    exact hlt (heq (le_antisymm hqk (hself.mono h (not_le.1 hlt).le))).le

theorem floor_settled (hm : m ≤ 10 ^ 79) (hn : 0 < n) (hn' : n ≤ 10 ^ 79)
    (h : Format.working.Rounds (m / n) q) (s : Bool) : ⌊withSign s q⌋ = ⌊withSign s (m / n)⌋ := by
  refine eq_of_forall_le_iff fun k => ?_
  rw [Int.le_floor, Int.le_floor]
  cases s with
  | false => exact (settled_le_iff hm hn hn' h k).1
  | true =>
    have hside := (settled_le_iff hm hn hn' h (-k)).2
    rw [Int.cast_neg] at hside
    simp only [withSign, if_true]
    rw [le_neg, hside, le_neg]

end

variable {x y : ℚ}

theorem abs_intCast_div (i j : ℤ) : |(i : ℚ) / j| = i.natAbs / j.natAbs := by
  rw [abs_div, Nat.cast_natAbs, Nat.cast_natAbs, Int.cast_abs, Int.cast_abs]

/-- The quotient of aligned numbers keeps its floor when it is settled. -/
theorem Aligned.floor_eq {q : ℚ} (h : Aligned x y) (hy : y ≠ 0) (hq : SettlesTo (x / y) q) :
    ⌊q⌋ = ⌊x / y⌋ := by
  obtain ⟨i, j, e, hi, hj, -, -, rfl, rfl⟩ := h
  have hj' : j ≠ 0 := by
    rintro rfl
    exact hy (by rw [Int.cast_zero, zero_mul])
  have hquotient : (i : ℚ) * 10 ^ e / (j * 10 ^ e) = i / j :=
    mul_div_mul_right _ _ (zpow_ne_zero e (by norm_num))
  rw [hquotient] at hq ⊢
  obtain ⟨r, hr, rfl⟩ := hq
  rw [abs_intCast_div] at hr
  rw [floor_settled hi (Int.natAbs_pos.2 hj') hj hr, ← abs_intCast_div,
    withSign_decide]

theorem abs_intCast_mul_pow (i e : ℤ) : |(i : ℚ) * 10 ^ e| = i.natAbs * 10 ^ e := by
  rw [abs_mul, abs_of_pos (zpow_pos (show (0 : ℚ) < 10 by norm_num) e), Nat.cast_natAbs,
    Int.cast_abs]

/-- The product of the divisor and the floor keeps all its digits. -/
theorem Aligned.holds_product (h : Aligned x y) (hy : y ≠ 0) :
    Format.working.Holds |⌊x / y⌋ * y| := by
  have hle := abs_floor_mul_le (x := x) hy
  obtain ⟨i, j, e, hi, hj, he, -, rfl, rfl⟩ := h
  generalize ⌊(i : ℚ) * 10 ^ e / (j * 10 ^ e)⌋ = n at *
  have hproduct : (n : ℚ) * (j * 10 ^ e) = (n * j : ℤ) * 10 ^ e := by
    push_cast
    ring
  rw [hproduct, abs_intCast_mul_pow] at hle ⊢
  rw [abs_intCast_mul_pow, abs_intCast_mul_pow, ← add_mul] at hle
  have hnat : (n * j).natAbs ≤ i.natAbs + j.natAbs := by
    exact_mod_cast le_of_mul_le_mul_right hle (zpow_pos (show (0 : ℚ) < 10 by norm_num) e)
  refine holds_size (lt_of_le_of_lt (hnat.trans (add_le_add hi hj)) (by decide)) he

/-- The remainder has no more digits than the divisor. -/
theorem Aligned.isShort_remainder (h : Aligned x y) (hy : y ≠ 0) :
    IsShort (exactRemainder x y) := by
  have hlt := (exactRemainder_bounds (x := x) hy).2
  unfold exactRemainder at *
  obtain ⟨i, j, e, hi, hj, he, -, rfl, rfl⟩ := h
  generalize ⌊(i : ℚ) * 10 ^ e / (j * 10 ^ e)⌋ = n at *
  have hrest : (i : ℚ) * 10 ^ e - n * (j * 10 ^ e) = (i - n * j : ℤ) * 10 ^ e := by
    push_cast
    ring
  rw [hrest, abs_intCast_mul_pow, abs_intCast_mul_pow] at hlt
  have hnat : (i - n * j).natAbs < j.natAbs := by
    exact_mod_cast lt_of_mul_lt_mul_right hlt (zpow_nonneg (show (0 : ℚ) ≤ 10 by norm_num) e)
  refine ⟨(i - n * j).natAbs, e, (hnat.trans_le hj).trans (by decide), ?_⟩
  rw [hrest, abs_intCast_mul_pow]

/-- Neither the quotient nor the product nor the remainder of aligned numbers is too large. -/
theorem Aligned.exists_bound (h : Aligned x y) (hy : y ≠ 0) :
    |x / y| ≤ 10 ^ (79 : ℤ) ∧ ∃ k : ℤ, tinyExponent ≤ k ∧ k ≤ largestExponent ∧
      |⌊x / y⌋ * y| ≤ 10 ^ k ∧ |exactRemainder x y| ≤ 10 ^ k := by
  have hproduct := abs_floor_mul_le (x := x) hy
  have hrest := (exactRemainder_bounds (x := x) hy).2.le
  obtain ⟨i, j, e, hi, hj, hl, hg, rfl, rfl⟩ := h
  have hj' : j ≠ 0 := by
    rintro rfl
    exact hy (by rw [Int.cast_zero, zero_mul])
  have hu : (0 : ℚ) < 10 ^ e := zpow_pos (by norm_num) e
  have hle : ∀ {k : ℤ}, k.natAbs ≤ 10 ^ 79 → |(k : ℚ) * 10 ^ e| ≤ 10 ^ 79 * 10 ^ e := by
    intro k hk
    rw [abs_intCast_mul_pow]
    exact mul_le_mul_of_nonneg_right (by exact_mod_cast hk) hu.le
  have hpow : (10 : ℚ) ^ (80 + e) = 10 * (10 ^ 79 * 10 ^ e) := by
    rw [zpow_add₀ (by norm_num)]
    norm_num
    ring
  have hpos : (0 : ℚ) < 10 ^ 79 * 10 ^ e := by positivity
  refine ⟨?_, 80 + e, by omega, by omega, ?_, ?_⟩
  · rw [mul_div_mul_right _ _ hu.ne', abs_intCast_div]
    calc (i.natAbs : ℚ) / j.natAbs ≤ i.natAbs :=
          div_le_self (Nat.cast_nonneg _) (by exact_mod_cast Int.natAbs_pos.2 hj')
      _ ≤ 10 ^ 79 := by exact_mod_cast hi
  · rw [hpow]
    linarith [hle hi, hle hj]
  · rw [hpow]
    linarith [hle hj]

/-- A remainder of aligned numbers does not overflow. -/
theorem Aligned.flooredRemainder_ne {s t : Bool} {c d : ℕ} {e f : ℤ} (hd : 0 < d)
    (hx : x = withSign s (c * 10 ^ e)) (hy : y = withSign t (d * 10 ^ f)) (hne : y ≠ 0)
    (h : Aligned x y) : flooredRemainder (.finite s c e) (.finite t d f) ≠ .error .overflow := by
  intro hover
  obtain ⟨hquotient, k, hl, hg, hproduct, hrest⟩ := h.exists_bound hne
  rcases flooredRemainder_steps s t c e f hd hx hy with
    ⟨-, _, hsettles | ⟨q, hq, hsettles⟩⟩ | ⟨q, p, _, hq, hp, hsettles⟩
  · exact not_settles_overflow hquotient (by decide) (by decide) hsettles
  · rw [h.floor_eq hne hq] at hsettles
    exact not_settles_overflow hproduct hl hg hsettles
  · rw [h.floor_eq hne hq] at hp
    rw [hover, hp.unique (settlesTo_self (h.holds_product hne))] at hsettles
    exact not_settles_overflow hrest hl hg hsettles

end Decimal

/-! ## The operator -/

namespace Double

/-- What is not larger than another number is not taken for a larger double, if one of the two has
80 digits or fewer. -/
theorem ResultOf.abs_value_le {z : Double} {x y : ℚ} (h : z.ResultOf x) {t : Bool} {d : ℕ} {f : ℤ}
    (hy : y = withSign t (d * 10 ^ f)) (hx : |x| ≤ |y|)
    (hshort : Decimal.IsShort x ∨ Decimal.IsShort y) :
    |z.value| ≤ |(ofDecimal (.finite t d f)).value| := by
  obtain ⟨s, q, r, hq, rfl, rfl, hr⟩ := h
  obtain ⟨r', hdouble, hr'⟩ := exists_ofDecimal t d f
  have hsize : |y| = d * 10 ^ f := by rw [hy, Decimal.abs_withSign (by positivity)]
  rw [Decimal.abs_withSign hq, hsize] at hx
  rw [hdouble, value_ofRank s hr.le, value_ofRank t hr'.le,
    Decimal.abs_withSign (rankValue_nonneg r), Decimal.abs_withSign (rankValue_nonneg r')]
  refine rankValue_strictMono.monotone ?_
  rcases hshort with ⟨c, e, hc, heq⟩ | ⟨c, e, hc, heq⟩
  · rw [Decimal.abs_withSign hq] at heq
    rw [heq] at hr hx
    exact (hr.rounds hc).mono hr' hx
  · rw [hsize] at heq
    rw [heq] at hr' hx
    obtain ⟨r'', h⟩ := exists_roundsTwice (hq.trans hx)
    rw [← (h.rounds hc).unique hr']
    exact hr.mono h hx

/-- No double of the opposite sign is the result of a number. -/
theorem ResultOf.mul_value_nonneg {z : Double} {x y : ℚ} (h : z.ResultOf x) (hx : 0 ≤ y * x) :
    0 ≤ y * z.value := by
  have hvalue : (ofRank false 0).value = 0 := by
    rw [value_ofRank false (Nat.zero_le _), rankValue_zero]
    rfl
  have hzero : (ofRank false 0).ResultOf 0 := by
    have hself := resultOf_value (ofRank_ne_nan false 0)
    rwa [hvalue] at hself
  rcases lt_trichotomy y 0 with hy | rfl | hy
  · have hle := h.mono hzero (nonpos_of_mul_nonneg_right hx hy)
    rw [hvalue] at hle
    exact mul_nonneg_of_nonpos_of_nonpos hy.le hle
  · rw [zero_mul]
  · have hle := hzero.mono h (nonneg_of_mul_nonneg_right hx hy)
    rw [hvalue] at hle
    exact mul_nonneg hy.le hle

theorem value_one : one.value = 1 := by
  have hunits : units 0x3FF0000000000000 = unitsOfOne := by decide +kernel
  show rankValue 0x3FF0000000000000 = 1
  rw [rankValue, hunits]
  exact div_self (by exact_mod_cast unitsOfOne_pos.ne')

end Double

namespace Operator

open Decimal

section

variable {library : Library} {a b : Decimal}

theorem rounded_eq_overflow {r : Except Signal Decimal}
    (h : rounded r = .error (.signal .overflow)) : r = .error .overflow := by
  cases r with
  | ok d => cases h
  | error s =>
    cases h
    rfl

/-- A remainder of finite numbers at high precision, by a divisor other than zero. If nothing
overflows, the quotient is settled at 80 digits and floored, its product with the divisor is
settled, and what is left of the dividend is rounded to a double. If settling changes neither the
floor of the quotient nor the product, this is the floored remainder : it is not on the other side
of zero than the divisor, and if it or the divisor has 80 digits or fewer, its size is at most that
of the divisor as a double. Nothing overflows or changes and the remainder has 80 digits or fewer if
dividend and divisor are whole multiples of one power of ten, up to `10 ^ 79` of them. -/
theorem modulo_remainder (ha : a.IsFinite) (hb : b.IsFinite) (hne : b.value ≠ 0) :
    let x := a.value
    let y := b.value
    let result := modulo.onDecimals .high a b
    (result ≠ .error (.signal .overflow) → ∃ (q p : ℚ) (z : Double),
      SettlesTo (x / y) q ∧ SettlesTo (⌊q⌋ * y) p ∧ result = .ok z.toDecimal ∧
        z.ResultOf (x - p) ∧
        (⌊q⌋ = ⌊x / y⌋ → p = ⌊q⌋ * y → z.Approximates (exactRemainder x y) ∧ 0 ≤ y * z.value ∧
          (IsShort (exactRemainder x y) ∨ IsShort y → |z.value| ≤ |(Double.ofDecimal b).value|))) ∧
    (Aligned x y → result ≠ .error (.signal .overflow) ∧ IsShort (exactRemainder x y) ∧
      ∀ q p, SettlesTo (x / y) q → SettlesTo (⌊q⌋ * y) p → ⌊q⌋ = ⌊x / y⌋ ∧ p = ⌊q⌋ * y) := by
  intro x y result
  cases a with
  | infinite s => exact ha.elim
  | nan s signaling d => exact ha.elim
  | finite s c e =>
  cases b with
  | infinite s => exact hb.elim
  | nan s signaling d => exact hb.elim
  | finite t d f =>
    obtain ⟨hd, hcheck⟩ := checkDivisor_of_value hne
    have hresult : result = rounded (flooredRemainder (.finite s c e) (.finite t d f)) := by
      simp only [result, onDecimals, hcheck]
    obtain ⟨hsign, hsize⟩ := exactRemainder_bounds (x := x) hne
    refine ⟨fun ho => ?_, fun h => ⟨fun ho => ?_, h.isShort_remainder hne, fun q p hq hp => ?_⟩⟩
    · rw [hresult] at ho
      rcases flooredRemainder_steps s t c e f hd (x := x) (y := y) rfl rfl with
        ⟨hover, -⟩ | ⟨q, p, _, hq, hp, hsettles⟩
      · exact absurd (by rw [hover]; rfl) ho
      obtain ⟨z, hz, hr⟩ := rounded_resultOf hsettles ho
      refine ⟨q, p, z, hq, hp, hresult.trans hz, hr, fun hfloor hproduct => ?_⟩
      rw [hproduct, hfloor] at hr
      exact ⟨hr.approximates, hr.mul_value_nonneg hsign, hr.abs_value_le rfl hsize.le⟩
    · rw [hresult] at ho
      exact h.flooredRemainder_ne hd rfl rfl hne (rounded_eq_overflow ho)
    · have hfloor := h.floor_eq hne hq
      refine ⟨hfloor, ?_⟩
      rw [hfloor] at hp ⊢
      exact hp.unique (settlesTo_self (h.holds_product hne))

end

attribute [local instance] Library.rounded

/-- Close to a whole quotient : the quotient is less than `-1` by about a part of `10 ^ 79`, and its
floor is `-2`. -/
theorem modulo_remainder_close :
    let a : Decimal := .finite false (10 ^ 79 - 1) 0
    let b : Decimal := .finite true (10 ^ 79 - 2) 0
    (a.IsFinite ∧ b.IsFinite ∧ b.value ≠ 0 ∧ Aligned a.value b.value) ∧ ∃ z : Double,
      modulo.onDecimals .high a b = .ok z.toDecimal ∧
        z.Approximates (exactRemainder a.value b.value) ∧ 0 ≤ b.value * z.value ∧
        |z.value| ≤ |(Double.ofDecimal b).value| := by
  intro a b
  have hne : b.value ≠ 0 := by
    simp only [b, Decimal.value, withSign, if_true]
    norm_num
  have haligned : Aligned a.value b.value := by
    refine ⟨10 ^ 79 - 1, -(10 ^ 79 - 2), 0, by decide, by decide, by decide, by decide, ?_, ?_⟩
    · simp only [a, Decimal.value, withSign, Bool.false_eq_true, if_false]
      norm_num
    · simp only [b, Decimal.value, withSign, if_true]
      norm_num
  obtain ⟨hsteps, hkept⟩ := modulo_remainder (a := a) (b := b) trivial trivial hne
  obtain ⟨hover, hshort, hexact⟩ := hkept haligned
  obtain ⟨q, p, z, hq, hp, hz, -, hresult⟩ := hsteps hover
  obtain ⟨hfloor, hproduct⟩ := hexact q p hq hp
  obtain ⟨happroximates, hsign, hsize⟩ := hresult hfloor hproduct
  exact ⟨⟨trivial, trivial, hne, haligned⟩, z, hz, happroximates, hsign, hsize (.inl hshort)⟩

/-- A quotient of 81 digits loses its last one. A third of `10 ^ 81` is settled to a whole number
that is too small, and `10` is left instead of `1`. -/
theorem modulo_not_remainder :
    ¬ ∀ a b : Decimal, a.IsFinite → b.IsFinite → b.value ≠ 0 →
      ∃ z : Double, modulo.onDecimals .high a b = .ok z.toDecimal ∧ ∀ w : Double, w ≠ .nan →
        |exactRemainder a.value b.value - z.value| ≤
          |exactRemainder a.value b.value - w.value| := by
  intro h
  have hb : (Decimal.finite false 3 0).value = 3 := by norm_num [Decimal.value, withSign]
  have ha : (Decimal.finite false 1 81).value = 10 ^ 81 := by
    simp [Decimal.value, withSign]
  obtain ⟨z, hz, hnearest⟩ := h (.finite false 1 81) (.finite false 3 0) trivial trivial
    (by rw [hb]; norm_num)
  have hfloor : ⌊(10 ^ 81 : ℚ) / 3⌋ = (10 ^ 81 - 1) / 3 := by
    rw [Int.floor_eq_iff]
    norm_num
  have hrest : exactRemainder (10 ^ 81) 3 = 1 := by
    rw [exactRemainder, hfloor]
    norm_num
  have hone := hnearest .one (by decide)
  rw [ha, hb, hrest, Double.value_one, sub_self, abs_zero, abs_nonpos_iff, sub_eq_zero] at hone
  have hten : modulo.onDecimals .high (.finite false 1 81) (.finite false 3 0) =
      .ok (.finite false 10 0) := by decide +kernel
  have hdecimal : z.toDecimal = .finite false 10 0 := Except.ok.inj (hz.symm.trans hten)
  have hne : z ≠ .nan := by
    rintro rfl
    cases hdecimal
  rcases Double.eq_or_negate_of_value_eq hne (by decide) (hone.symm.trans Double.value_one.symm)
    with rfl | ⟨hzero, -⟩
  · exact absurd hdecimal (by decide +kernel)
  · exact absurd (Double.value_one.symm.trans hzero) one_ne_zero

end Operator

end Reckon
