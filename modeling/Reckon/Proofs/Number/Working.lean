import Mathlib.Data.Nat.Cast.Field
import Reckon.Number.Working
import Reckon.Proofs.Number.Value

/-!
# Working arithmetic rounds exact results

The working format holds decimals of 80 digits. What is settled is rounded to it once, unless the
result is too large for any decimal (`Decimal.exists_settle_eq`), and though sums of numbers far
apart and inexact quotients are settled from a neighbour of the exact result, the neighbour rounds
alike : sums, differences, products and quotients of finite decimals are their exact results,
rounded once (`Decimal.Settles`). So only the exact result and the sign of a zero decide what an
operation comes to, and one that is not huge does not overflow (`Decimal.Settles.exists_ok`).
-/

namespace Reckon

/-- Decimals of working arithmetic. -/
def Format.working : Format where
  half := 5
  half_pos := by decide
  digits := Decimal.workingDigits
  digits_pos := by decide
  least := Decimal.tinyExponent

theorem Format.working_place (k : ℤ) : Format.working.place k = 10 ^ k := by
  rw [Format.place, show Format.working.base = 10 from rfl]
  norm_num

namespace Decimal

/-! ## Settling -/

theorem holds_size {c : ℕ} {e : ℤ} (hc : c < 10 ^ workingDigits) (he : tinyExponent ≤ e) :
    Format.working.Holds (c * 10 ^ e) :=
  ⟨c, e, hc, he, by rw [Format.working_place]⟩

theorem holds_zero : Format.working.Holds 0 :=
  ⟨0, tinyExponent, by decide, le_rfl, by simp⟩

/-- The last place of a number of whose digits some are dropped. -/
theorem scale_dropped {c : ℕ} (hc : 0 < c) {e : ℤ} {x : ℕ}
    (hx : (x : ℤ) = max ((digitCount c : ℤ) - workingDigits) (tinyExponent - e)) :
    Format.working.Scale (c * 10 ^ e) (e + x) := by
  obtain ⟨hle, hlt⟩ := size_bounds hc e
  have hdigits : (Format.working.digits : ℤ) = workingDigits := rfl
  refine ⟨show tinyExponent ≤ e + x by omega, hlt.trans_le ?_, ?_⟩
  · rw [Format.working_place]
    exact zpow_le_zpow_right₀ (by norm_num) (by unfold adjusted; omega)
  · rcases le_total ((digitCount c : ℤ) - workingDigits) (tinyExponent - e) with h | h
    · exact .inl (show e + x = tinyExponent by omega)
    · rw [Format.working_place]
      exact .inr ((zpow_le_zpow_right₀ (by norm_num) (by unfold adjusted; omega)).trans hle)

/-- Too small a number becomes zero. -/
theorem nearest_zero {c : ℕ} (hc : 0 < c) {e : ℤ} {x : ℕ} (hx : digitCount c < x) :
    Nearest (Format.working.place (e + x)) (c * 10 ^ e) 0 := by
  have hlt := (size_bounds hc e).2
  have hle : (10 : ℚ) ^ (adjusted c e + 1 + 1) ≤ 10 ^ (e + x) :=
    zpow_le_zpow_right₀ (by norm_num) (by unfold adjusted; omega)
  have hpos : (0 : ℚ) ≤ c * 10 ^ e := by positivity
  rw [zpow_add_one₀ (by norm_num)] at hle
  rw [Format.working_place]
  exact ⟨by push_cast; linarith, by push_cast; linarith, fun _ => rfl⟩

/-- Dropping digits with a rounding gives the nearest multiple of the place in front of them. -/
theorem nearest_dropped (c : ℕ) (e : ℤ) (x : ℕ) :
    Nearest (Format.working.place (e + x)) (c * 10 ^ e) (roundHalfEven c (10 ^ x)) := by
  have h := nearest_roundHalfEven (zpow_pos (show (0 : ℚ) < 10 by norm_num) e) c
    (Nat.pow_pos (show 0 < 10 by decide) (n := x))
  rwa [Nat.cast_pow, Nat.cast_ofNat, ← zpow_natCast, ← zpow_add₀ (by norm_num), add_comm,
    ← Format.working_place] at h

/-- If rounding up carries into one digit more, the last of them is a zero and is left out. -/
theorem carried_value {m : ℕ} (hm : m ≤ 10 ^ workingDigits) (k : ℤ) :
    ((if decide (10 ^ workingDigits ≤ m) then m / 10 else m : ℕ) : ℚ) *
      10 ^ (k + if decide (10 ^ workingDigits ≤ m) then 1 else 0) = m * 10 ^ k := by
  by_cases h : 10 ^ workingDigits ≤ m
  · obtain rfl := le_antisymm hm h
    have hten : ((10 ^ workingDigits / 10 : ℕ) : ℚ) * 10 = (10 ^ workingDigits : ℕ) := by
      exact_mod_cast Nat.div_mul_cancel (dvd_pow_self 10 (by decide))
    rw [decide_eq_true h, if_pos rfl, if_pos rfl, zpow_add_one₀ (by norm_num), ← hten]
    ring
  · rw [decide_eq_false h, if_neg Bool.false_ne_true, if_neg Bool.false_ne_true, add_zero]

/-- A number that is settled is rounded once and keeps its sign. Only if the first digit that is
left stands above the largest exponent is there an overflow. -/
theorem exists_settle_eq (s : Bool) (c : ℕ) (e : ℤ) : ∃ (c' : ℕ) (e' : ℤ),
    Format.working.Rounds (c * 10 ^ e) (c' * 10 ^ e') ∧
      settle s c e = if c' ≠ 0 ∧ largestExponent < adjusted c' e' then .error .overflow
        else .ok (.finite s c' e') := by
  unfold settle
  simp only
  split
  · rename_i hc
    exact ⟨0, e, by simpa [hc] using Format.rounds_self holds_zero, by simp⟩
  rename_i hc
  have hpos := Nat.pos_of_ne_zero hc
  rcases le_or_gt (max ((digitCount c : ℤ) - workingDigits) (tinyExponent - e)) 0 with hx | hx
  · -- All digits are kept.
    have hlt : c < 10 ^ workingDigits := Nat.lt_of_lt_of_le (lt_pow_digitCount c)
      (Nat.pow_le_pow_right (by decide) (by omega))
    rw [if_neg (by omega), Int.toNat_of_nonpos hx, Nat.pow_zero,
      show roundHalfEven c 1 = c by simpa using roundHalfEven_mul c Nat.one_pos]
    refine ⟨_, _, ?_, rfl⟩
    rw [carried_value hlt.le, Nat.cast_zero, add_zero]
    exact Format.rounds_self (holds_size hlt (by omega))
  · obtain ⟨x, hx'⟩ := Int.eq_ofNat_of_zero_le hx.le
    have hscale := scale_dropped hpos hx'.symm
    rw [hx', Int.toNat_natCast]
    split
    · rename_i hfar
      exact ⟨0, tinyExponent, ⟨_, _, hscale, nearest_zero hpos (by exact_mod_cast hfar), by simp⟩,
        by simp⟩
    have hnearest := nearest_dropped c e x
    have hm : _ ≤ 10 ^ workingDigits := (hscale.bounds hnearest).1
    exact ⟨_, _, ⟨_, _, hscale, hnearest, by rw [Format.working_place, carried_value hm]⟩, rfl⟩

/-! ## Exact results -/

/-- The sign of an exact result; that of a zero is given. -/
def signOf (x : ℚ) (zero : Bool) : Bool := if x = 0 then zero else decide (x < 0)

theorem signOf_withSign {s zero : Bool} {q : ℚ} (hq : 0 ≤ q) (h : q = 0 → zero = s) :
    signOf (withSign s q) zero = s := by
  unfold signOf
  rcases hq.eq_or_lt with rfl | hpos
  · cases s <;> simpa [withSign] using h rfl
  · cases s <;> simp [withSign, hpos, hpos.ne', hpos.le]

theorem abs_withSign {q : ℚ} (hq : 0 ≤ q) (s : Bool) : |withSign s q| = q := by
  cases s <;> simp [withSign, abs_of_nonneg hq]

theorem withSign_signOf (x : ℚ) (zero : Bool) : withSign (signOf x zero) |x| = x := by
  rcases lt_trichotomy x 0 with h | rfl | h
  · simp [signOf, withSign, h, h.ne, abs_of_neg h]
  · cases zero <;> simp [signOf, withSign]
  · simp [signOf, withSign, h.ne', h.le, abs_of_pos h]

/-- The outcome is the exact result `x`, rounded once to the working format. A zero has the given
sign, and only if the first digit that is left stands above the largest exponent is there an
overflow. -/
def Settles (x : ℚ) (zero : Bool) (r : Except Signal Decimal) : Prop :=
  ∃ (c : ℕ) (e : ℤ), Format.working.Rounds |x| (c * 10 ^ e) ∧
    r = if c ≠ 0 ∧ largestExponent < adjusted c e then .error .overflow
      else .ok (.finite (signOf x zero) c e)

theorem settles_settle (s : Bool) (c : ℕ) (e : ℤ) :
    Settles (withSign s (c * 10 ^ e)) s (settle s c e) := by
  have hsize : (0 : ℚ) ≤ c * 10 ^ e := by positivity
  obtain ⟨c', e', hr, heq⟩ := exists_settle_eq s c e
  exact ⟨c', e', by rwa [abs_withSign hsize], by rwa [signOf_withSign hsize fun _ => rfl]⟩

/-- A result is settled from a neighbour if no multiple of a place behind the last separates the
two. -/
theorem settles_between (s zero : Bool) {c : ℕ} {e : ℤ} {q : ℚ} {a : ℕ} {g : ℤ}
    (ha : 10 ^ workingDigits ≤ a)
    (hc : a * (10 : ℚ) ^ g < c * 10 ^ e ∧ c * (10 : ℚ) ^ e < (a + 1) * 10 ^ g)
    (hq : a * (10 : ℚ) ^ g < q ∧ q < (a + 1) * (10 : ℚ) ^ g) :
    Settles (withSign s q) zero (settle s c e) := by
  have hg : (0 : ℚ) < 10 ^ g := zpow_pos (by norm_num) g
  have hpos : 0 < q := lt_of_le_of_lt (by positivity) hq.1
  obtain ⟨c', e', hr, heq⟩ := exists_settle_eq s c e
  refine ⟨c', e', ?_, by rwa [signOf_withSign hpos.le fun h => absurd h hpos.ne']⟩
  rw [abs_withSign hpos.le]
  refine hr.congr (g := g) ?_ ?_
  · rw [Format.place_add, Format.place_natCast, Format.working_place]
    have : ((Format.working.base ^ Format.working.digits : ℕ) : ℚ) ≤ a := by exact_mod_cast ha
    exact (mul_le_mul_of_nonneg_right this hg.le).trans hc.1.le
  · rw [Format.working_place]
    exact comparesAlike_of_between hg a (by exact_mod_cast hc) (by exact_mod_cast hq)

/-- An exact result that is not huge is settled without an overflow, and what is left of it is not
larger than a power of ten above it. -/
theorem Settles.exists_ok {x : ℚ} {zero : Bool} {r : Except Signal Decimal} (h : Settles x zero r)
    {k : ℤ} (hx : |x| ≤ 10 ^ k) (hl : tinyExponent ≤ k) (hk : k ≤ largestExponent) :
    ∃ c e, r = .ok (.finite (signOf x zero) c e) ∧ Format.working.Rounds |x| (c * 10 ^ e) := by
  obtain ⟨c, e, hr, rfl⟩ := h
  refine ⟨c, e, if_neg ?_, hr⟩
  rintro ⟨hc, hover⟩
  have hle := hr.mono (Format.rounds_self (Format.holds_place hl))
    (by rwa [Format.working_place])
  rw [Format.working_place] at hle
  have hfirst := (size_bounds (Nat.pos_of_ne_zero hc) e).1.trans hle
  have := (zpow_le_zpow_iff_right₀ (show (1 : ℚ) < 10 by norm_num)).1 hfirst
  omega

theorem withSign_natAbs (i : ℤ) (u : ℚ) : withSign (decide (i < 0)) (i.natAbs * u) = i * u := by
  unfold withSign
  split <;> rename_i h <;> simp only [decide_eq_true_eq] at h
  · rw [Nat.cast_natAbs, abs_of_neg h]
    push_cast
    ring
  · rw [Nat.cast_natAbs, abs_of_nonneg (not_lt.1 h)]

theorem signed_mul (s : Bool) (n : ℕ) (u : ℚ) : (signed s n : ℤ) * u = withSign s (n * u) := by
  cases s <;> simp [signed, withSign]

theorem withSign_add (s : Bool) (a b : ℚ) : withSign s a + withSign s b = withSign s (a + b) := by
  cases s <;> simp [withSign]
  ring

theorem withSign_add_not (s : Bool) (a b : ℚ) :
    withSign s a + withSign (!s) b = withSign s (a - b) := by
  cases s <;> simp [withSign]
  all_goals ring

theorem withSign_mul (s t : Bool) (a b : ℚ) :
    withSign s a * withSign t b = withSign (s != t) (a * b) := by
  cases s <;> cases t <;> simp [withSign]

theorem withSign_div (s t : Bool) (a b : ℚ) :
    withSign s a / withSign t b = withSign (s != t) (a / b) := by
  cases s <;> cases t <;> simp [withSign, neg_div, div_neg]

/-- The power of ten 83 places below `e` as a unit. -/
theorem pow_far (e : ℤ) : (10 : ℚ) ^ e = 10 ^ 83 * 10 ^ (e - 83) ∧
    (10 : ℚ) ^ (e - 82) = 10 * 10 ^ (e - 83) := by
  constructor
  · rw [← zpow_natCast, ← zpow_add₀ (by norm_num)]
    congr 1
    push_cast
    ring
  · rw [show e - 82 = 1 + (e - 83) by ring, zpow_add₀ (by norm_num), zpow_one]

/-- A number far below the last digit that can matter is only seen by its sign. -/
theorem settles_far (s t zero : Bool) {c d : ℕ} {e f : ℤ} (hc : 0 < c) (hd : 0 < d)
    (hfar : (digitCount d : ℤ) + f + 83 ≤ e) :
    Settles (withSign s (c * 10 ^ e) + withSign t (d * 10 ^ f)) zero
      (settle (decide (signed s (c * 10 ^ 83) + signed t 1 < 0))
        (signed s (c * 10 ^ 83) + signed t 1).natAbs (e - 83)) := by
  have hu : (0 : ℚ) < 10 ^ (e - 83) := zpow_pos (by norm_num) _
  have hsmall : d * (10 : ℚ) ^ f < 10 ^ (e - 83) := (size_bounds hd f).2.trans_le
    (zpow_le_zpow_right₀ (by norm_num) (by unfold adjusted; omega))
  have hpos : 0 < d * (10 : ℚ) ^ f := by positivity
  obtain ⟨hsize, hw⟩ := pow_far e
  have hdigits : 10 ^ workingDigits ≤ c * 10 ^ 82 - 1 := by
    rw [workingDigits]
    omega
  by_cases hst : t = s
  · subst hst
    have htotal : signed t (c * 10 ^ 83) + signed t 1 = signed t (c * 10 ^ 83 + 1) := by
      cases t <;> simp [signed]
      omega
    rw [htotal, natAbs_signed, decide_signed_neg t (Nat.succ_pos _), withSign_add, hsize]
    refine settles_between t zero (a := c * 10 ^ 82) (g := e - 82) (by omega) ?_ ?_
    all_goals
      rw [hw]
      push_cast
      constructor <;> linarith
  · obtain rfl : t = !s := by cases s <;> cases t <;> simp_all
    have htotal : signed s (c * 10 ^ 83) + signed (!s) 1 = signed s (c * 10 ^ 83 - 1) := by
      cases s <;> simp [signed] <;> omega
    rw [htotal, natAbs_signed, decide_signed_neg s (by omega), withSign_add_not, hsize]
    have hnear : ((c * 10 ^ 82 - 1 : ℕ) : ℚ) = c * 10 ^ 82 - 1 := by
      rw [Nat.cast_pred (by omega), Nat.cast_mul, Nat.cast_pow, Nat.cast_ofNat]
    have hfine : ((c * 10 ^ 83 - 1 : ℕ) : ℚ) = c * 10 ^ 83 - 1 := by
      rw [Nat.cast_pred (by omega), Nat.cast_mul, Nat.cast_pow, Nat.cast_ofNat]
    refine settles_between s zero (a := c * 10 ^ 82 - 1) (g := e - 82) (by omega) ?_ ?_
    all_goals
      simp only [hw, hnear, hfine]
      constructor <;> linarith

/-- The sign of a zero counts only for a zero. -/
theorem Settles.congr_zero {x : ℚ} {zero zero' : Bool} {r : Except Signal Decimal}
    (h : Settles x zero r) (hz : x = 0 → zero = zero') : Settles x zero' r := by
  obtain ⟨c, e, hr, rfl⟩ := h
  refine ⟨c, e, hr, ?_⟩
  have : signOf x zero = signOf x zero' := by
    unfold signOf
    split
    · exact hz ‹_›
    · rfl
  rw [this]

/-- Two numbers other than zero have a zero sum only if their signs differ. -/
theorem sign_of_add_eq_zero {s t : Bool} {p q : ℚ} (hp : 0 < p) (hq : 0 < q)
    (h : withSign s p + withSign t q = 0) : (s && t) = false := by
  cases s <;> cases t <;> simp [withSign] at h ⊢
  linarith

/-- A sum with a second number that has not the larger exponent. -/
theorem settles_addLower (s t : Bool) {c d : ℕ} {e f : ℤ} (hc : 0 < c) (hd : 0 < d) (hfe : f ≤ e) :
    Settles (withSign s (c * 10 ^ e) + withSign t (d * 10 ^ f)) (s && t)
      (addLower s c e t d f) := by
  unfold addLower
  simp only
  by_cases hfar : (digitCount d : ℤ) + f + 83 ≤ e
  · rw [decide_eq_true hfar, if_pos rfl, if_pos rfl, show (e - (e - 83)).toNat = 83 by omega]
    exact settles_far s t _ hc hd hfar
  · rw [decide_eq_false hfar, if_neg Bool.false_ne_true, if_neg Bool.false_ne_true]
    obtain ⟨n, hn⟩ := Int.eq_ofNat_of_zero_le (sub_nonneg.2 hfe)
    obtain rfl : e = n + f := by omega
    rw [hn, Int.toNat_natCast]
    have hsum : withSign s (c * 10 ^ (n + f)) + withSign t (d * 10 ^ f) =
        ((signed s (c * 10 ^ n) + signed t d : ℤ) : ℚ) * 10 ^ f := by
      rw [Int.cast_add, add_mul, signed_mul, signed_mul, zpow_add₀ (by norm_num), zpow_natCast]
      push_cast
      ring_nf
    have h := settles_settle (decide (signed s (c * 10 ^ n) + signed t d < 0))
      (signed s (c * 10 ^ n) + signed t d).natAbs f
    rw [withSign_natAbs, ← hsum] at h
    refine h.congr_zero fun hzero => ?_
    rw [sign_of_add_eq_zero (by positivity) (by positivity) hzero]
    rw [hsum, mul_eq_zero, or_iff_left (zpow_ne_zero f (by norm_num))] at hzero
    rw [show signed s (c * 10 ^ n) + signed t d = 0 by exact_mod_cast hzero]
    rfl

/-- A sum of finite numbers is settled. A zero is negative only if both numbers are. -/
theorem settles_sum (s t : Bool) (c d : ℕ) (e f : ℤ) :
    Settles (withSign s (c * 10 ^ e) + withSign t (d * 10 ^ f)) (s && t)
      (sum (.finite s c e) (.finite t d f)) := by
  have hzero : ∀ (b : Bool) (k : ℤ), withSign b ((0 : ℕ) * 10 ^ k) = 0 := fun b k => by
    cases b <;> simp [withSign]
  have hne : ∀ (b : Bool) {n : ℕ} (k : ℤ), n ≠ 0 → withSign b (n * 10 ^ k) ≠ 0 := by
    intro b n k hn
    have hk : (10 : ℚ) ^ k ≠ 0 := zpow_ne_zero k (by norm_num)
    cases b <;> simp [withSign, hn, hk]
  simp only [sum]
  split
  · rename_i hcd
    refine ⟨0, min e f, ?_, ?_⟩
    · rw [hcd.1, hcd.2, hzero, hzero]
      simpa using Format.rounds_self holds_zero
    · simp [hcd.1, hcd.2, withSign, signOf]
  rename_i hcd
  split
  · rename_i hd
    rw [hd, hzero, add_zero]
    exact (settles_settle s c e).congr_zero fun h => absurd h (hne s e fun hc => hcd ⟨hc, hd⟩)
  rename_i hd
  split
  · rename_i hc
    rw [hc, hzero, zero_add]
    exact (settles_settle t d f).congr_zero fun h => absurd h (hne t f hd)
  rename_i hc
  split
  · exact settles_addLower s t (by omega) (by omega) ‹_›
  · rw [add_comm, Bool.and_comm]
    exact settles_addLower t s (by omega) (by omega) (by omega)

/-- A product of finite numbers is settled. -/
theorem settles_product (s t : Bool) (c d : ℕ) (e f : ℤ) :
    Settles (withSign s (c * 10 ^ e) * withSign t (d * 10 ^ f)) (s != t)
      (product (.finite s c e) (.finite t d f)) := by
  have hsize : (c : ℚ) * 10 ^ e * (d * 10 ^ f) = (c * d : ℕ) * 10 ^ (e + f) := by
    rw [zpow_add₀ (by norm_num)]
    push_cast
    ring
  rw [withSign_mul, hsize]
  exact settles_settle _ _ _

/-- A dividend with enough places leaves more digits in the quotient than working arithmetic
keeps. -/
theorem le_quotient {c d : ℕ} (hc : 0 < c) (hd : 0 < d) :
    10 ^ workingDigits ≤ c * 10 ^ (workingDigits + 2 + digitCount d - digitCount c) / d := by
  have hcount := digitCount_pos c
  rw [Nat.le_div_iff_mul_le hd]
  calc 10 ^ workingDigits * d ≤ 10 ^ workingDigits * 10 ^ digitCount d :=
        Nat.mul_le_mul_left _ (lt_pow_digitCount d).le
    _ = 10 ^ (workingDigits + digitCount d) := (Nat.pow_add ..).symm
    _ ≤ 10 ^ (digitCount c - 1 + (workingDigits + 2 + digitCount d - digitCount c)) :=
        Nat.pow_le_pow_right (by decide) (by omega)
    _ = 10 ^ (digitCount c - 1) * 10 ^ (workingDigits + 2 + digitCount d - digitCount c) :=
        Nat.pow_add ..
    _ ≤ _ := Nat.mul_le_mul_right _ (pow_digitCount_le hc)

/-- The quotient of two sizes, with places appended to the dividend. -/
theorem size_quotient (c : ℕ) {d : ℕ} (hd : (d : ℚ) ≠ 0) (e f : ℤ) (places : ℕ) :
    c * (10 : ℚ) ^ e / (d * 10 ^ f) = (c * 10 ^ places : ℕ) / d * 10 ^ (e - f - places) := by
  rw [zpow_sub₀ (by norm_num), zpow_sub₀ (by norm_num), zpow_natCast]
  push_cast
  field_simp

/-- A quotient by a finite number that is not zero is settled. -/
theorem settles_quotient (s t : Bool) (c : ℕ) {d : ℕ} (e f : ℤ) (hd : 0 < d) :
    Settles (withSign s (c * 10 ^ e) / withSign t (d * 10 ^ f)) (s != t)
      (quotient (.finite s c e) (.finite t d f)) := by
  simp only [quotient]
  have hdigits : 0 < c → _ := fun hc => le_quotient hc hd
  generalize workingDigits + 2 + digitCount d - digitCount c = places at hdigits ⊢
  have hd' : (0 : ℚ) < d := by exact_mod_cast hd
  rw [withSign_div, size_quotient c hd'.ne' e f places]
  split
  · rename_i hmod
    convert settles_settle (s != t) (c * 10 ^ places / d) (e - f - places) using 3
    rw [Nat.cast_div (Nat.dvd_of_mod_eq_zero hmod) hd'.ne']
  · rename_i hmod
    have hc : 0 < c := Nat.pos_of_ne_zero fun hc => hmod (by simp [hc])
    generalize c * 10 ^ places = n at *
    have hn := Nat.div_add_mod' n d
    have hr := Nat.mod_lt n hd
    have hg : (10 : ℚ) ^ (e - f - places) = 10 * 10 ^ (e - f - places - 1) := by
      rw [← zpow_one_add₀ (by norm_num)]
      congr 1
      ring
    have hu : (0 : ℚ) < 10 ^ (e - f - places - 1) := zpow_pos (by norm_num) _
    refine settles_between (s != t) _ (g := e - f - places) (hdigits hc) ?_ ⟨?_, ?_⟩
    · rw [hg]
      push_cast
      constructor <;> linarith
    · refine mul_lt_mul_of_pos_right ((lt_div_iff₀ hd').2 ?_) (zpow_pos (by norm_num) _)
      exact_mod_cast show n / d * d < n by omega
    · refine mul_lt_mul_of_pos_right ((div_lt_iff₀ hd').2 ?_) (zpow_pos (by norm_num) _)
      exact_mod_cast show n < (n / d + 1) * d by rw [add_mul]; omega

end Decimal

end Reckon
