import Mathlib.Data.Nat.Cast.Order.Field
import Reckon.Proofs.Number.Literal
import Reckon.Proofs.Number.Range
import Reckon.Value

/-!
# Numbers of bounded magnitude do not overflow

With high precision a number may have any number of digits, so what keeps it from an overflow is
the place of its first digit. A number is bounded (`Decimal.Bounded k`) if that lies at most `k`
places from the point. Doubles are bounded, and the operators and the square root keep numbers
bounded : a result is settled without an overflow, as its exact value is far below the largest
decimal (`Operator.onDecimals_bounded`, `Decimal.exists_squareRoot_of_bounded`). A bounded number
can be written with fixed places (`Decimal.exists_fixed`).
-/

namespace Reckon

namespace Decimal

/-! ## Sizes -/

/-- If the number is finite, its size is at most `q`. -/
def SizeLe (q : ℚ) : Decimal → Prop
  | .finite _ c e => c * 10 ^ e ≤ q
  | _ => True

variable {a b d : Decimal} {p q : ℚ} {k : ℤ}

theorem sizeLe_negate (h : a.SizeLe q) : a.negate.SizeLe q := by
  cases a with
  | finite s c e => exact h
  | infinite s => trivial
  | nan s t d => trivial

theorem SizeLe.mono (h : a.SizeLe p) (hpq : p ≤ q) : a.SizeLe q := by
  cases a with
  | finite s c e => exact le_trans h hpq
  | infinite s => trivial
  | nan s t d => trivial

/-- An exact result that is not huge is settled without an overflow, and rounding does not take it
above a power of ten. -/
theorem Settles.exists_sizeLe {x : ℚ} {zero : Bool} {r : Except Signal Decimal}
    (h : Settles x zero r) (hx : |x| ≤ 10 ^ k) (hl : tinyExponent ≤ k) (hk : k ≤ largestExponent) :
    ∃ d, r = .ok d ∧ d.SizeLe (10 ^ k) := by
  obtain ⟨c, e, hr, hround⟩ := h.exists_ok hx hl hk
  refine ⟨_, hr, ?_⟩
  rw [← Format.working_place] at hx
  have := hround.mono (Format.rounds_self (Format.holds_place hl)) hx
  rwa [Format.working_place] at this

theorem abs_value_le (s : Bool) {c : ℕ} {e : ℤ} (h : (Decimal.finite s c e).SizeLe q) :
    |withSign s (c * (10 : ℚ) ^ e)| ≤ q := by
  rwa [abs_withSign (by positivity)]

section

variable (hl : tinyExponent ≤ k) (hk : k ≤ largestExponent)

include hl hk

theorem exists_sum_of_sizeLe (ha : a.SizeLe p) (hb : b.SizeLe q) (h : p + q ≤ 10 ^ k) :
    ∃ d, sum a b = .ok d := by
  cases a with
  | nan s t d => exact ⟨_, rfl⟩
  | infinite s => cases b <;> exact ⟨_, rfl⟩
  | finite s c e =>
    cases b with
    | nan t u d => exact ⟨_, rfl⟩
    | infinite t => exact ⟨_, rfl⟩
    | finite t d f =>
      have hx := (abs_add_le _ _).trans (add_le_add (abs_value_le s ha) (abs_value_le t hb))
      obtain ⟨x, hx, -⟩ := (settles_sum s t c d e f).exists_sizeLe (hx.trans h) hl hk
      exact ⟨x, hx⟩

theorem exists_difference_of_sizeLe (ha : a.SizeLe p) (hb : b.SizeLe q) (h : p + q ≤ 10 ^ k) :
    ∃ d, difference a b = .ok d :=
  exists_sum_of_sizeLe hl hk ha (sizeLe_negate hb) h

theorem exists_product_of_sizeLe (ha : a.SizeLe p) (hb : b.SizeLe q) (hp : 0 ≤ p)
    (h : p * q ≤ 10 ^ k) : ∃ d, product a b = .ok d ∧ d.SizeLe (10 ^ k) := by
  cases a with
  | nan s t d => exact ⟨_, rfl, trivial⟩
  | infinite s =>
    cases b with
    | nan t u d => exact ⟨_, rfl, trivial⟩
    | infinite t => exact ⟨_, rfl, trivial⟩
    | finite t d f => exact ⟨_, rfl, by split <;> trivial⟩
  | finite s c e =>
    cases b with
    | nan t u d => exact ⟨_, rfl, trivial⟩
    | infinite t => exact ⟨_, rfl, by split <;> trivial⟩
    | finite t d f =>
      refine (settles_product s t c d e f).exists_sizeLe (le_trans ?_ h) hl hk
      rw [abs_mul]
      exact mul_le_mul (abs_value_le s ha) (abs_value_le t hb) (abs_nonneg _) hp

end

/-! ## The first digit -/

/-- Exponents not far beyond a moderate number of places are in the range of decimals. -/
theorem exponent_inRange {k : ℕ} (hk : k ≤ moderate) {j : ℤ} (hl : -(k : ℤ) ≤ j)
    (hg : j ≤ 3 * k + 4) : tinyExponent ≤ j ∧ j ≤ largestExponent := by
  have hk' : k ≤ 1000000 := hk
  unfold tinyExponent largestExponent
  constructor <;> omega

/-- The first digit stands at most `k` places from the point; a zero may stand as far behind it as
it likes. Infinities are bounded, and so is what is no number, unless it is signaling. -/
def Bounded (k : ℕ) : Decimal → Prop
  | .finite _ c e => adjusted c e ≤ k ∧ (c ≠ 0 → -(k : ℤ) ≤ adjusted c e)
  | .infinite _ => True
  | .nan _ signaling _ => signaling = false

variable {k : ℕ}

theorem adjusted_zero (e : ℤ) : adjusted 0 e = e := by
  simp [adjusted, digitCount, digitsOf_of_lt]

theorem bounded_zero (s : Bool) {e : ℤ} (h : e ≤ k) : Bounded k (.finite s 0 e) :=
  ⟨by rwa [adjusted_zero], fun h => absurd rfl h⟩

theorem Bounded.isSignaling_eq (h : a.Bounded k) : a.isSignaling = false := by
  cases a with
  | finite s c e => rfl
  | infinite s => rfl
  | nan s t d => exact h

theorem Bounded.sizeLe (h : a.Bounded k) : a.SizeLe (10 ^ (k + 1 : ℤ)) := by
  cases a with
  | infinite s => trivial
  | nan s t d => trivial
  | finite s c e =>
    rcases Nat.eq_zero_or_pos c with rfl | hc
    · simp [SizeLe]
      positivity
    · have hle : adjusted c e + 1 ≤ k + 1 := Int.add_le_add_right h.1 1
      exact (size_bounds hc e).2.le.trans (zpow_le_zpow_right₀ (by norm_num) hle)

theorem Bounded.le_size {s : Bool} {c : ℕ} {e : ℤ} (h : Bounded k (.finite s c e)) (hc : 0 < c) :
    (10 : ℚ) ^ (-(k : ℤ)) ≤ c * 10 ^ e :=
  (zpow_le_zpow_right₀ (by norm_num) (h.2 hc.ne')).trans (size_bounds hc e).1

/-- A number between two powers of ten is bounded. -/
theorem bounded_of_size (s : Bool) {c : ℕ} {e : ℤ} (hc : 0 < c)
    (hle : (10 : ℚ) ^ (-(k : ℤ)) ≤ c * 10 ^ e) (hge : c * (10 : ℚ) ^ e ≤ 10 ^ (k : ℤ)) :
    Bounded k (.finite s c e) := by
  have hone : (1 : ℚ) < 10 := by norm_num
  obtain ⟨hlow, hhigh⟩ := size_bounds hc e
  have hfirst := (zpow_le_zpow_iff_right₀ hone).1 (hlow.trans hge)
  have hlast := (zpow_lt_zpow_iff_right₀ hone).1 (hle.trans_lt hhigh)
  exact ⟨hfirst, fun _ => by omega⟩

/-- A settled number between two powers of ten is bounded. -/
theorem Settles.exists_bounded {x : ℚ} {zero : Bool} {r : Except Signal Decimal}
    (h : Settles x zero r) (hle : (10 : ℚ) ^ (-(k : ℤ)) ≤ |x|) (hge : |x| ≤ 10 ^ (k : ℤ))
    (hk : k ≤ moderate) : ∃ d, r = .ok d ∧ d.Bounded k := by
  have hleast : tinyExponent ≤ -(k : ℤ) := (exponent_inRange hk (by omega) (by omega)).1
  obtain ⟨htiny, hlarge⟩ := exponent_inRange hk (show -(k : ℤ) ≤ k by omega) (by omega)
  obtain ⟨c, e, hr, hround⟩ := h.exists_ok hge htiny hlarge
  have hlow := (Format.rounds_self (Format.holds_place hleast)).mono hround
    (by rwa [Format.working_place])
  have hhigh := hround.mono (Format.rounds_self (Format.holds_place htiny))
    (by rwa [Format.working_place])
  rw [Format.working_place] at hlow hhigh
  have hc : 0 < c := by
    refine Nat.pos_of_ne_zero fun hc => ?_
    have : (0 : ℚ) < 10 ^ (-(k : ℤ)) := zpow_pos (by norm_num) _
    rw [hc, Nat.cast_zero, zero_mul] at hlow
    linarith
  exact ⟨_, hr, bounded_of_size _ hc hlow hhigh⟩

/-! ## Quotients and remainders -/

theorem exists_quotient_of_bounded (ha : a.Bounded k) (hb : b.Bounded k) (hzero : b.isZero = false)
    (hk : k ≤ moderate) : ∃ d, quotient a b = .ok d ∧ d.SizeLe (10 ^ (2 * k + 1 : ℤ)) := by
  cases a with
  | nan s t d => exact ⟨_, rfl, trivial⟩
  | infinite s => cases b <;> exact ⟨_, rfl, trivial⟩
  | finite s c e =>
    cases b with
    | nan t u d => exact ⟨_, rfl, trivial⟩
    | infinite t =>
      refine ⟨_, rfl, ?_⟩
      simp [SizeLe]
      positivity
    | finite t d f =>
      have hd : 0 < d := Nat.pos_of_ne_zero fun h => by simp [isZero, h] at hzero
      have hsize := hb.le_size hd
      have hpos : (0 : ℚ) < 10 ^ (-(k : ℤ)) := zpow_pos (by norm_num) _
      obtain ⟨htiny, hlarge⟩ := exponent_inRange hk (show -(k : ℤ) ≤ 2 * k + 1 by omega) (by omega)
      refine (settles_quotient s t c e f hd).exists_sizeLe ?_ htiny hlarge
      rw [withSign_div, abs_withSign (by positivity)]
      calc (c : ℚ) * 10 ^ e / (d * 10 ^ f) ≤ 10 ^ (k + 1 : ℤ) / 10 ^ (-(k : ℤ)) :=
            div_le_div₀ (by positivity) ha.sizeLe hpos hsize
        _ = 10 ^ (2 * k + 1 : ℤ) := by
            rw [← zpow_sub₀ (by norm_num)]
            congr 1
            ring

/-- A quotient that is rounded up is above the whole quotient by at most one. -/
theorem ceil_le (s : Bool) (c : ℕ) {m : ℕ} (hm : 0 < m) :
    (if s = true then (c + m - 1) / m else c / m) ≤ c / m + 1 := by
  split
  · rw [← Nat.add_div_right c hm]
    exact Nat.div_le_div_right (Nat.sub_le _ _)
  · omega

/-- A floored number is larger by at most one. -/
theorem sizeLe_floor (h : a.SizeLe q) : a.floor.SizeLe (q + 1) := by
  cases a with
  | nan s t d => trivial
  | infinite s => trivial
  | finite s c e =>
    have hq : (0 : ℚ) ≤ c * 10 ^ e := by positivity
    have hle : (c : ℚ) * 10 ^ e ≤ q := h
    simp only [floor]
    split
    · exact hle.trans (by linarith)
    rename_i he
    split
    · have hone : ((if s = true ∧ c ≠ 0 then 1 else 0 : ℕ) : ℚ) ≤ 1 := by split <;> norm_num
      simp only [SizeLe, zpow_zero, mul_one]
      linarith
    · obtain ⟨n, hn⟩ := Int.eq_ofNat_of_zero_le (show 0 ≤ -e by omega)
      obtain rfl : e = -n := by omega
      have hten : (0 : ℚ) < (10 ^ n : ℕ) := by positivity
      have hquotient : ((c / 10 ^ n + 1 : ℕ) : ℚ) ≤ c * 10 ^ (-n : ℤ) + 1 := by
        rw [zpow_neg, zpow_natCast, ← div_eq_mul_inv, Nat.cast_add, Nat.cast_one]
        have := Nat.cast_div_le (α := ℚ) (m := c) (n := 10 ^ n)
        push_cast at this ⊢
        linarith
      have hceil : ((if s = true then (c + 10 ^ n - 1) / 10 ^ n else c / 10 ^ n : ℕ) : ℚ) ≤
          (c / 10 ^ n + 1 : ℕ) := by exact_mod_cast ceil_le s c (show 0 < 10 ^ n by positivity)
      simp only [neg_neg, Int.toNat_natCast, SizeLe, zpow_zero, mul_one]
      linarith

/-- The sum of two powers of ten is not above the next. -/
theorem pow_add_pow_le {i j : ℤ} (h : i ≤ j) : (10 : ℚ) ^ i + 10 ^ j ≤ 10 ^ (j + 1) := by
  have hle : (10 : ℚ) ^ i ≤ 10 ^ j := zpow_le_zpow_right₀ (by norm_num) h
  have hpos : (0 : ℚ) < 10 ^ j := zpow_pos (by norm_num) j
  rw [zpow_add_one₀ (by norm_num)]
  linarith

theorem exists_flooredRemainder_of_bounded (ha : a.Bounded k) (hb : b.Bounded k)
    (hzero : b.isZero = false) (hk : k ≤ moderate) : ∃ d, flooredRemainder a b = .ok d := by
  obtain ⟨x, hx, hsize⟩ := exists_quotient_of_bounded ha hb hzero hk
  have hfloor : x.floor.SizeLe (10 ^ (2 * k + 2 : ℤ)) := by
    refine (sizeLe_floor hsize).mono ?_
    have := pow_add_pow_le (show (0 : ℤ) ≤ 2 * k + 1 by omega)
    rw [zpow_zero, add_comm] at this
    exact this
  obtain ⟨htiny, hlarge⟩ := exponent_inRange hk (show -(k : ℤ) ≤ 3 * k + 3 by omega) (by omega)
  obtain ⟨y, hy, hysize⟩ := exists_product_of_sizeLe htiny hlarge hfloor hb.sizeLe (by positivity)
    (by
      rw [← zpow_add₀ (by norm_num)]
      exact zpow_le_zpow_right₀ (by norm_num) (by omega))
  obtain ⟨htiny', hlarge'⟩ :=
    exponent_inRange hk (show -(k : ℤ) ≤ 3 * k + 3 + 1 by omega) (by omega)
  obtain ⟨z, hz⟩ := exists_difference_of_sizeLe htiny' hlarge' ha.sizeLe hysize
    (pow_add_pow_le (by omega))
  refine ⟨z, ?_⟩
  rw [flooredRemainder, hx]
  show (product x.floor b >>= fun p => difference a p) = .ok z
  rw [hy]
  exact hz

/-! ## Roots -/

/-- A number with about the square root of a bounded size lies between the same powers of ten. -/
theorem root_bounds {x q : ℚ} (hx : 0 ≤ x) (hk : 2 ≤ k) (hle : (10 : ℚ) ^ (-(k : ℤ)) ≤ q)
    (hge : q ≤ 10 ^ (k + 1 : ℤ)) (hbelow : x ^ 2 ≤ 4 * q) (habove : q ≤ 4 * x ^ 2) :
    (10 : ℚ) ^ (-(k : ℤ)) ≤ x ∧ x ≤ 10 ^ (k : ℤ) := by
  have hsq : ∀ j : ℤ, ((10 : ℚ) ^ j) ^ 2 = 10 ^ (2 * j) := fun j => by
    rw [← zpow_natCast, ← zpow_mul, mul_comm]
    rfl
  have hten : ∀ j : ℤ, (10 : ℚ) ^ (j + 1) = 10 * 10 ^ j := fun j => by
    rw [zpow_add_one₀ (by norm_num), mul_comm]
  constructor
  · refine (pow_le_pow_iff_left₀ (by positivity) hx two_ne_zero).1 ?_
    have hpow : (10 : ℚ) ^ (2 * -(k : ℤ) + 1) ≤ 10 ^ (-(k : ℤ)) :=
      zpow_le_zpow_right₀ (by norm_num) (by omega)
    have hpos : (0 : ℚ) < 10 ^ (2 * -(k : ℤ)) := zpow_pos (by norm_num) _
    rw [hten] at hpow
    rw [hsq]
    linarith
  · refine (pow_le_pow_iff_left₀ hx (by positivity) two_ne_zero).1 ?_
    have hpow : (10 : ℚ) ^ (k + 1 + 1 : ℤ) ≤ 10 ^ (2 * (k : ℤ)) :=
      zpow_le_zpow_right₀ (by norm_num) (by omega)
    have hpos : (0 : ℚ) < 10 ^ (k + 1 : ℤ) := zpow_pos (by norm_num) _
    rw [hten] at hpow
    rw [hsq]
    linarith

/-- A number that is settled as the root of `q` or of a neighbour is bounded. -/
theorem exists_settle_root {c : ℕ} {e : ℤ} {q : ℚ} (hk : 2 ≤ k) (hm : k ≤ moderate)
    (hle : (10 : ℚ) ^ (-(k : ℤ)) ≤ q) (hge : q ≤ 10 ^ (k + 1 : ℤ))
    (hbelow : (c * (10 : ℚ) ^ e) ^ 2 ≤ 4 * q) (habove : q ≤ 4 * (c * (10 : ℚ) ^ e) ^ 2) :
    ∃ d, settle false c e = .ok d ∧ d.Bounded k := by
  obtain ⟨hlow, hhigh⟩ := root_bounds (by positivity) hk hle hge hbelow habove
  have hsettle := settles_settle false c e
  rw [withSign, if_neg Bool.false_ne_true] at hsettle
  rw [← abs_of_nonneg (show (0 : ℚ) ≤ c * 10 ^ e by positivity)] at hlow hhigh
  exact hsettle.exists_bounded hlow hhigh hm

/-- The whole part of a root and a digit behind it are about ten times the root. -/
theorem rootFloor_near {n : ℕ} (hn : 0 < n) :
    (10 * rootFloor n + 1) ^ 2 ≤ 400 * n ∧ 25 * n ≤ (10 * rootFloor n + 1) ^ 2 := by
  have hle := rootFloor_sq_le n
  have hlt := lt_succ_rootFloor_sq n
  generalize rootFloor n = r at *
  have hr : 1 ≤ r := by
    rcases Nat.eq_zero_or_pos r with rfl | hr
    · omega
    · exact hr
  constructor <;> nlinarith

/-- A size is a whole number times an even power of ten. -/
theorem size_eq_mul_square (c : ℕ) {e half : ℤ} (h : e = 2 * half + e % 2) :
    (c : ℚ) * 10 ^ e = ((if e % 2 = 0 then c else 10 * c : ℕ) : ℚ) * (10 ^ half) ^ 2 := by
  have hsquare : ((10 : ℚ) ^ half) ^ 2 = 10 ^ (2 * half) := by
    rw [← zpow_natCast, ← zpow_mul, mul_comm]
    rfl
  rw [hsquare]
  split
  · rw [show e = 2 * half by omega]
  · rw [show e = 2 * half + 1 by omega, zpow_add_one₀ (by norm_num)]
    push_cast
    ring

section

variable {n : ℕ} {half : ℤ} (hk : 2 ≤ k) (hm : k ≤ moderate)
  (hle : (10 : ℚ) ^ (-(k : ℤ)) ≤ n * (10 ^ half) ^ 2)
  (hge : n * ((10 : ℚ) ^ half) ^ 2 ≤ 10 ^ (k + 1 : ℤ))

include hk hm hle hge

/-- A root that is a whole number is bounded. -/
theorem exists_settle_wholeRoot (hroot : rootFloor n * rootFloor n = n) :
    ∃ d, settle false (rootFloor n) half = .ok d ∧ d.Bounded k := by
  have hsquare : ((rootFloor n : ℕ) * (10 : ℚ) ^ half) ^ 2 = n * (10 ^ half) ^ 2 := by
    rw [mul_pow, sq (rootFloor n : ℚ), ← Nat.cast_mul, hroot]
  have : (0 : ℚ) ≤ n * (10 ^ half) ^ 2 := by positivity
  exact exists_settle_root hk hm hle hge (by rw [hsquare]; linarith) (by rw [hsquare]; linarith)

/-- So is the whole part of a root to 82 more places, with a digit behind it. -/
theorem exists_settle_nearRoot (hn : 0 < n) : ∃ d,
    settle false (10 * rootFloor (n * 10 ^ 162) + 1) (half - 82) = .ok d ∧ d.Bounded k := by
  have hunit : (10 : ℚ) ^ half = 10 ^ 82 * 10 ^ (half - 82) := by
    rw [← zpow_natCast, ← zpow_add₀ (by norm_num)]
    congr 1
    push_cast
    ring
  obtain ⟨hbelow, habove⟩ := rootFloor_near (show 0 < n * 10 ^ 162 by positivity)
  generalize rootFloor (n * 10 ^ 162) = r at hbelow habove ⊢
  have hbelow' : ((10 * r + 1 : ℕ) : ℚ) ^ 2 ≤ 400 * (n * 10 ^ 162) := by exact_mod_cast hbelow
  have habove' : 25 * (n * 10 ^ 162) ≤ ((10 * r + 1 : ℕ) : ℚ) ^ 2 := by exact_mod_cast habove
  rw [hunit] at hle hge
  refine exists_settle_root hk hm hle hge ?_ ?_
  · calc _ = ((10 * r + 1 : ℕ) : ℚ) ^ 2 * (10 ^ (half - 82)) ^ 2 := mul_pow ..
      _ ≤ 400 * (n * 10 ^ 162) * (10 ^ (half - 82)) ^ 2 :=
          mul_le_mul_of_nonneg_right hbelow' (sq_nonneg _)
      _ = _ := by ring
  · calc _ = 4 * (25 * (n * 10 ^ 162) * ((10 : ℚ) ^ (half - 82)) ^ 2) := by ring
      _ ≤ 4 * (((10 * r + 1 : ℕ) : ℚ) ^ 2 * (10 ^ (half - 82)) ^ 2) :=
          mul_le_mul_of_nonneg_left (mul_le_mul_of_nonneg_right habove' (sq_nonneg _)) (by norm_num)
      _ = _ := by rw [mul_pow]

end

/-- The root of a bounded number is bounded. -/
theorem exists_squareRoot_of_bounded (h : a.Bounded k) (hk : 2 ≤ k) (hm : k ≤ moderate) :
    ∃ d, squareRoot a = .ok d ∧ d.Bounded k := by
  cases a with
  | nan s t d => exact ⟨_, rfl, rfl⟩
  | infinite s => exact ⟨_, rfl, by split <;> trivial⟩
  | finite s c e =>
    have hhalf : e = 2 * e.fdiv 2 + e % 2 := by
      rw [Int.fdiv_eq_ediv_of_nonneg e (by decide)]
      omega
    have hfirst : adjusted 0 e ≤ k → e.fdiv 2 ≤ k := fun he => by
      rw [adjusted_zero] at he
      omega
    simp only [squareRoot]
    generalize e.fdiv 2 = half at hhalf hfirst ⊢
    split
    · rename_i hc
      exact ⟨_, rfl, bounded_zero s (hfirst (by rw [hc] at h; exact h.1))⟩
    rename_i hc
    split
    · exact ⟨_, rfl, rfl⟩
    have hn : 0 < if e % 2 = 0 then c else 10 * c := by split <;> omega
    have hle := h.le_size (Nat.pos_of_ne_zero hc)
    have hge : c * (10 : ℚ) ^ e ≤ 10 ^ (k + 1 : ℤ) := h.sizeLe
    rw [size_eq_mul_square c hhalf] at hle hge
    generalize (if e % 2 = 0 then c else 10 * c) = n at hle hge hn ⊢
    split
    · exact exists_settle_wholeRoot hk hm hle hge ‹_›
    · exact exists_settle_nearRoot hk hm hle hge hn

/-! ## Notation -/

/-- A bounded number can be written with fixed places. -/
theorem exists_fixed (h : a.Bounded k) (hm : k ≤ moderate) :
    ∃ t, a.fixed resultPlaces = .ok t := by
  cases a with
  | nan s t d => exact ⟨_, rfl⟩
  | infinite s => exact ⟨_, rfl⟩
  | finite s c e =>
    have hm' : k ≤ 1000000 := hm
    have hfirst : adjusted c e ≤ k := h.1
    have hdigits : ¬(wholeDigits c e + 50 + 1 < 1 ∨
        999999999999999999 < wholeDigits c e + 50 + 1) := by
      unfold wholeDigits
      omega
    have hplace : lastPlace 50 = .ok (-50) := by decide
    unfold fixed resultPlaces
    simp only [if_neg hdigits, hplace]
    exact ⟨_, rfl⟩

/-! ## What a session starts from -/

theorem bounded_toDecimal (hk : doubleDigits ≤ k) (x : Double) : x.toDecimal.Bounded k := by
  have hk' : 2100 ≤ k := hk
  have hwithin := x.within_toDecimal
  cases x with
  | nan => rfl
  | infinite s => trivial
  | finite s r =>
    obtain ⟨c, e, hdecimal, hsize⟩ := Double.exists_toDecimal s r
    rw [hdecimal] at hwithin ⊢
    rcases Nat.eq_zero_or_pos c with rfl | hc
    · have he : e ≤ 2100 := hwithin.2.2
      exact bounded_zero s (by omega)
    have hr : 0 < r.val := by
      refine Nat.pos_of_ne_zero fun hr => ?_
      rw [hr, Double.rankValue_zero] at hsize
      have : (0 : ℚ) < c * 10 ^ e := by positivity
      linarith
    refine bounded_of_size s hc ?_ ?_
    · rw [hsize]
      exact (zpow_le_zpow_right₀ (by norm_num) (by omega)).trans (Double.le_rankValue hr)
    · rw [hsize]
      exact (Double.rankValue_le r.isLt.le).trans (zpow_le_zpow_right₀ (by norm_num) (by omega))

theorem bounded_hash (hk : doubleDigits ≤ k) (t : Text) : (ofInt t.hash).Bounded k := by
  have hk' : 2100 ≤ k := hk
  have hcount : digitCount t.hash.natAbs ≤ 20 := digitCount_le (by decide)
    (Nat.lt_of_le_of_lt t.natAbs_hash_le (by decide))
  have hpos := digitCount_pos t.hash.natAbs
  unfold ofInt Bounded adjusted
  constructor
  · omega
  · omega

end Decimal

/-- No literal of an expression of bounded length, and nothing that comes of it, has its first digit
further from the point. -/
def literalSpan : ℕ := 125000

/-- A literal with a moderate exponent and not too many digits is read as it is written. -/
theorem SignedNumeral.decimal_bounded {n : SignedNumeral} (hn : n.numeral.WellFormed)
    (hexponent : n.numeral.writtenExponent.natAbs ≤ 100000)
    (hdigits : n.numeral.digits.length ≤ 24576) :
    n.decimal = .ok n.written ∧ n.written.Bounded literalSpan := by
  obtain ⟨hle, hge⟩ := n.numeral.exponent_bounds
  have hcount := (n.numeral.digitCount_le (List.length_pos_iff.2 hn.1)).trans hdigits
  have hpos := digitCount_pos n.numeral.coefficient
  have hfirst : Decimal.adjusted n.numeral.coefficient n.numeral.exponent ≤ 125000 ∧
      -125000 ≤ Decimal.adjusted n.numeral.coefficient n.numeral.exponent := by
    unfold Decimal.adjusted
    constructor <;> omega
  have hread : n.numeral.digits.length + n.numeral.writtenExponent.natAbs ≤ Numeral.mostDigits :=
    (Nat.add_le_add hdigits hexponent).trans (by decide)
  exact ⟨decimal_eq_written hn hread, hfirst.1, fun _ => hfirst.2⟩

/-! ## Operators -/

namespace Operator

open Decimal

variable {library : Library} {precision : Precision} {a b : Decimal} {k : ℕ}

theorem rounded_bounded (hk : doubleDigits ≤ k) {x : Except Signal Decimal}
    (h : ∃ d, x = .ok d) : Ends (Bounded k) (Trouble.SignalsOnly fun _ => False) (rounded x) := by
  obtain ⟨d, rfl⟩ := h
  exact bounded_toDecimal hk _

theorem onDoubles_bounded (hk : doubleDigits ≤ k) (f : Double → Double → Double)
    (ha : a.Bounded k) (hb : b.Bounded k) :
    Ends (Bounded k) (Trouble.SignalsOnly fun _ => False) (onDoubles f a b) := by
  rw [onDoubles, toDouble, toDouble, ha.isSignaling_eq, hb.isSignaling_eq]
  exact bounded_toDecimal hk _

/-- A bounded divisor is refused because it is zero, or it is not zero. -/
theorem checkDivisor_bounded (hb : b.Bounded k) :
    Ends (fun _ => b.isZero = false) (Trouble.SignalsOnly fun _ => False) (checkDivisor b) := by
  rw [checkDivisor, hb.isSignaling_eq, if_neg Bool.false_ne_true]
  split
  · trivial
  · exact Bool.eq_false_of_not_eq_true ‹_›

/-- An operator on bounded numbers comes to a bounded number, or it refuses its divisor. -/
theorem onDecimals_bounded (precision : Precision) (op : Operator) (hk : doubleDigits ≤ k)
    (hm : k ≤ moderate) (ha : a.Bounded k) (hb : b.Bounded k) :
    Ends (Bounded k) (Trouble.SignalsOnly fun _ => False) (op.onDecimals precision a b) := by
  have hcheck := checkDivisor_bounded hb
  cases op with
  | plus =>
    obtain ⟨htiny, hlarge⟩ := exponent_inRange hm (show -(k : ℤ) ≤ k + 1 + 1 by omega) (by omega)
    exact rounded_bounded hk (exists_sum_of_sizeLe htiny hlarge ha.sizeLe hb.sizeLe
      (pow_add_pow_le le_rfl))
  | minus =>
    obtain ⟨htiny, hlarge⟩ := exponent_inRange hm (show -(k : ℤ) ≤ k + 1 + 1 by omega) (by omega)
    exact rounded_bounded hk (exists_difference_of_sizeLe htiny hlarge ha.sizeLe hb.sizeLe
      (pow_add_pow_le le_rfl))
  | times =>
    obtain ⟨htiny, hlarge⟩ := exponent_inRange hm (show -(k : ℤ) ≤ 2 * k + 2 by omega) (by omega)
    obtain ⟨d, hd, -⟩ := exists_product_of_sizeLe htiny hlarge ha.sizeLe hb.sizeLe (by positivity)
      (by
        rw [← zpow_add₀ (by norm_num)]
        exact zpow_le_zpow_right₀ (by norm_num) (by omega))
    exact rounded_bounded hk ⟨d, hd⟩
  | power => exact onDoubles_bounded hk _ ha hb
  | divide =>
    simp only [onDecimals]
    cases h : checkDivisor b with
    | error t =>
      rw [h] at hcheck
      exact hcheck
    | ok u =>
      rw [h] at hcheck
      obtain ⟨d, hd, -⟩ := exists_quotient_of_bounded ha hb hcheck hm
      exact rounded_bounded hk ⟨d, hd⟩
  | modulo =>
    simp only [onDecimals]
    cases h : checkDivisor b with
    | error t =>
      rw [h] at hcheck
      exact hcheck
    | ok u =>
      rw [h] at hcheck
      cases precision with
      | standard => exact onDoubles_bounded hk _ ha hb
      | high => exact rounded_bounded hk (exists_flooredRemainder_of_bounded ha hb hcheck hm)

end Operator

end Reckon
