import Mathlib.Algebra.Order.Field.Power
import Mathlib.Data.Int.Log
import Mathlib.Data.Rat.Floor
import Mathlib.Tactic.Linarith
import Mathlib.Tactic.LinearCombination
import Mathlib.Tactic.Positivity
import Mathlib.Tactic.Ring
import Reckon.Number.Rounding

/-!
# Formats and rounding to nearest

A format holds the numbers `m · base ^ k` with a bounded number of digits and a least exponent,
below which the last digits are lost one by one. `Format.Rounds q y` says that `y` is what the
format keeps of the number `q` : the nearest multiple of the last place that `q` has in the
format, and the even one of two (`Nearest`).

Rounding is monotone (`Format.Rounds.mono`), so it has at most one result; it keeps what the format
holds (`Format.rounds_self`), its result is held (`Format.Rounds.holds`) and nothing that is held
is nearer (`Format.Rounds.closest`). It moves a number by less than a fixed fraction of it
(`Format.Rounds.near`), and two numbers that held numbers lie from each other differ by more
(`Format.Holds.apart`). A number that compares in the same way with all multiples of a unit beyond
the last place rounds to the same result (`Format.Rounds.congr`), which is what a sticky digit is
for.
-/

namespace Reckon

/-! ## The nearest multiple -/

/-- Among the multiples of `u`, the `m`th is nearest to `q`, and `m` is even if there are two. -/
structure Nearest (u q : ℚ) (m : ℕ) : Prop where
  /-- The number is at most half a unit below. -/
  below : (2 * m - 1) * u ≤ 2 * q
  /-- The number is at most half a unit above. -/
  above : 2 * q ≤ (2 * m + 1) * u
  /-- Half a unit from an even multiple. -/
  even : 2 * q = (2 * m - 1) * u ∨ 2 * q = (2 * m + 1) * u → m % 2 = 0

namespace Nearest

variable {u q q' : ℚ} {m m' : ℕ}

theorem mul_self (u : ℚ) (hu : 0 < u) (m : ℕ) : Nearest u (m * u) m where
  below := by linarith
  above := by linarith
  even := by
    rintro (h | h) <;> linarith

theorem mono (hu : 0 < u) (h : Nearest u q m) (h' : Nearest u q' m') (hq : q ≤ q') : m ≤ m' := by
  by_contra hlt
  have hm : (m' : ℚ) + 1 ≤ m := by exact_mod_cast Nat.lt_of_not_le hlt
  have hle : (2 * (m' : ℚ) + 1) * u ≤ (2 * m - 1) * u :=
    mul_le_mul_of_nonneg_right (by linarith) hu.le
  -- The halfway point between two neighbours would round to both of them.
  have hbelow := h.below
  have habove := h'.above
  have heven := h.even (.inl (by linarith))
  have heven' := h'.even (.inr (by linarith))
  have hnext : (2 * (m' : ℚ) + 1) * u = (2 * m - 1) * u := by linarith
  have : 2 * (m' : ℚ) + 1 = 2 * m - 1 := mul_right_cancel₀ hu.ne' hnext
  have : m = m' + 1 := by
    have : (m : ℚ) = m' + 1 := by linarith
    exact_mod_cast this
  omega

theorem abs_sub_le (h : Nearest u q m) : 2 * |q - m * u| ≤ u := by
  have hbelow := h.below
  have habove := h.above
  rcases abs_cases (q - m * u) with ⟨e, -⟩ | ⟨e, -⟩ <;> rw [e] <;> linarith

/-- No multiple is nearer, and if another is as near, the nearest is even. -/
theorem closest (hu : 0 < u) (h : Nearest u q m) (n : ℤ) :
    |q - m * u| ≤ |q - n * u| ∧
      (|q - m * u| = |q - n * u| → n = m ∨ m % 2 = 0) := by
  have hbelow := h.below
  have habove := h.above
  rcases lt_trichotomy n m with hn | rfl | hn
  · have hn' : (n : ℚ) + 1 ≤ m := by exact_mod_cast hn
    have hle : (n + 1) * u ≤ m * u := mul_le_mul_of_nonneg_right hn' hu.le
    have habs : |q - n * u| = q - n * u := abs_of_nonneg (by linarith)
    rw [habs]
    refine ⟨abs_le.2 ⟨by linarith, by linarith⟩, fun e => .inr (h.even (.inl ?_))⟩
    rcases abs_cases (q - m * u) with ⟨ha, -⟩ | ⟨ha, -⟩ <;> rw [ha] at e <;> linarith
  · exact ⟨le_rfl, fun _ => .inl rfl⟩
  · have hn' : (m : ℚ) + 1 ≤ n := by exact_mod_cast hn
    have hle : (m + 1) * u ≤ n * u := mul_le_mul_of_nonneg_right hn' hu.le
    have habs : |q - n * u| = n * u - q := by
      rw [abs_of_nonpos (by linarith)]
      ring
    rw [habs]
    refine ⟨abs_le.2 ⟨by linarith, by linarith⟩, fun e => .inr (h.even (.inr ?_))⟩
    rcases abs_cases (q - m * u) with ⟨ha, -⟩ | ⟨ha, -⟩ <;> rw [ha] at e <;> linarith

end Nearest

/-- Rounding a quotient gives the nearest multiple of the divisor, in units of any size. -/
theorem nearest_roundHalfEven {v : ℚ} (hv : 0 < v) (n : ℕ) {d : ℕ} (hd : 0 < d) :
    Nearest (d * v) (n * v) (roundHalfEven n d) := by
  obtain ⟨hbelow, habove⟩ := roundHalfEven_near (n := n) hd
  have heven := roundHalfEven_even (n := n) hd
  generalize roundHalfEven n d = m at *
  have hbelow' : 2 * ((m : ℚ) * d) ≤ 2 * n + d := by exact_mod_cast hbelow
  have habove' : 2 * (n : ℚ) ≤ 2 * (m * d) + d := by exact_mod_cast habove
  refine ⟨?_, ?_, ?_⟩
  · calc (2 * (m : ℚ) - 1) * (d * v) = (2 * (m * d) - d) * v := by ring
      _ ≤ 2 * n * v := mul_le_mul_of_nonneg_right (by linarith) hv.le
      _ = 2 * (n * v) := by ring
  · calc 2 * ((n : ℚ) * v) = 2 * n * v := by ring
      _ ≤ (2 * (m * d) + d) * v := mul_le_mul_of_nonneg_right habove' hv.le
      _ = (2 * m + 1) * (d * v) := by ring
  · rintro (e | e)
    · have : 2 * (n : ℚ) + d = 2 * (m * d) :=
        mul_right_cancel₀ hv.ne' (by linear_combination e)
      exact heven (.inl (by exact_mod_cast this))
    · have : 2 * (n : ℚ) = 2 * (m * d) + d := mul_right_cancel₀ hv.ne' (by linear_combination e)
      exact heven (.inr (by exact_mod_cast this))

/-- A number from zero on is a quotient. -/
theorem exists_eq_quotient {q : ℚ} (hq : 0 ≤ q) : ∃ n d : ℕ, 0 < d ∧ q = n / d := by
  refine ⟨q.num.toNat, q.den, q.den_pos, ?_⟩
  have hnum : ((q.num.toNat : ℤ) : ℚ) = q.num := by rw [Int.toNat_of_nonneg (Rat.num_nonneg.2 hq)]
  rw [← Int.cast_natCast, hnum, Rat.num_div_den]

/-! ## Numbers that compare alike -/

/-- Two numbers compare in the same way with all multiples of `w`. -/
def ComparesAlike (w q q' : ℚ) : Prop :=
  ∀ n : ℤ, (n * w ≤ q ↔ n * w ≤ q') ∧ (q ≤ n * w ↔ q' ≤ n * w)

/-- Numbers between the same two neighbouring multiples compare alike. -/
theorem comparesAlike_of_between {w q q' : ℚ} (hw : 0 < w) (a : ℤ)
    (hq : a * w < q ∧ q < (a + 1) * w) (hq' : a * w < q' ∧ q' < (a + 1) * w) :
    ComparesAlike w q q' := by
  intro n
  rcases le_or_gt n a with hn | hn
  · have hn' : (n : ℚ) ≤ a := by exact_mod_cast hn
    have hle : n * w ≤ a * w := mul_le_mul_of_nonneg_right hn' hw.le
    exact ⟨iff_of_true (by linarith) (by linarith), iff_of_false (by linarith) (by linarith)⟩
  · have hn' : (a : ℚ) + 1 ≤ n := by exact_mod_cast hn
    have hle : (a + 1) * w ≤ n * w := mul_le_mul_of_nonneg_right hn' hw.le
    exact ⟨iff_of_false (by linarith) (by linarith), iff_of_true (by linarith) (by linarith)⟩

/-- Numbers that compare alike with all multiples of a part of half a unit have the same nearest
multiples of the unit. -/
theorem Nearest.congr {w u q q' : ℚ} {m : ℕ} {j : ℤ} (h : Nearest u q m) (hj : u = 2 * (j * w))
    (hq : ComparesAlike w q q') : Nearest u q' m := by
  have hlow : (2 * (m : ℚ) - 1) * u = 2 * (((2 * m - 1) * j : ℤ) * w) := by
    rw [hj]
    push_cast
    ring
  have hhigh : (2 * (m : ℚ) + 1) * u = 2 * (((2 * m + 1) * j : ℤ) * w) := by
    rw [hj]
    push_cast
    ring
  have halike := hq ((2 * m - 1) * j)
  have halike' := hq ((2 * m + 1) * j)
  obtain ⟨hbelow, habove, heven⟩ := h
  rw [hlow] at hbelow
  rw [hhigh] at habove
  rw [hlow, hhigh] at heven
  refine ⟨?_, ?_, ?_⟩
  · rw [hlow]
    linarith [halike.1.1 (by linarith)]
  · rw [hhigh]
    linarith [halike'.2.1 (by linarith)]
  · rw [hlow, hhigh]
    rintro (e | e)
    · exact heven (.inl (by linarith [halike.1.2 (by linarith), halike.2.2 (by linarith)]))
    · exact heven (.inr (by linarith [halike'.1.2 (by linarith), halike'.2.2 (by linarith)]))

/-! ## Formats -/

/-- The numbers with a bounded number of digits in an even base and a least exponent. -/
structure Format where
  /-- Half of the base. -/
  half : ℕ
  /-- The base is at least two. -/
  half_pos : 0 < half
  /-- The largest number of digits. -/
  digits : ℕ
  /-- There is a digit. -/
  digits_pos : 0 < digits
  /-- The least exponent of the last digit. -/
  least : ℤ

namespace Format

variable (F : Format)

/-- The base. -/
def base : ℕ := 2 * F.half

/-- The place with exponent `k`. -/
def place (k : ℤ) : ℚ := (F.base : ℚ) ^ k

/-- A number that needs no rounding. -/
def Holds (y : ℚ) : Prop :=
  ∃ (m : ℕ) (k : ℤ), m < F.base ^ F.digits ∧ F.least ≤ k ∧ y = m * F.place k

/-- The last place that a number has in the format : its digits from there on are as many as the
format has, or fewer at the least exponent. -/
structure Scale (q : ℚ) (k : ℤ) : Prop where
  least_le : F.least ≤ k
  lt : q < F.place (F.digits + k)
  le : k = F.least ∨ F.place (F.digits - 1 + k) ≤ q

/-- The number that the format keeps of `q`. -/
def Rounds (q y : ℚ) : Prop :=
  ∃ (k : ℤ) (m : ℕ), F.Scale q k ∧ Nearest (F.place k) q m ∧ y = m * F.place k

variable {F} {q q' y y' z : ℚ} {j k : ℤ}

theorem one_lt_base : 1 < (F.base : ℚ) := by
  have := F.half_pos
  exact_mod_cast (show 1 < F.base by unfold base; omega)

theorem base_pos : 0 < (F.base : ℚ) := zero_lt_one.trans one_lt_base

theorem place_pos (k : ℤ) : 0 < F.place k := zpow_pos base_pos k

theorem place_add (j k : ℤ) : F.place (j + k) = F.place j * F.place k :=
  zpow_add₀ base_pos.ne' j k

theorem place_natCast (n : ℕ) : F.place n = ((F.base ^ n : ℕ) : ℚ) := by
  rw [place, zpow_natCast, Nat.cast_pow]

theorem place_le (h : j ≤ k) : F.place j ≤ F.place k := zpow_le_zpow_right₀ one_lt_base.le h

theorem lt_of_place_lt (h : F.place j < F.place k) : j < k :=
  lt_of_not_ge fun hk => absurd (place_le hk) (not_le.2 h)

/-- A higher place is a whole number of times a lower one. -/
theorem exists_place_eq (h : j ≤ k) : ∃ n : ℕ, F.place k = n * F.place j := by
  obtain ⟨n, rfl⟩ := Int.exists_add_of_le h
  exact ⟨F.base ^ n, by rw [add_comm, place_add, place_natCast]⟩

/-- Half of a higher place is a whole number of times a lower one. -/
theorem exists_place_eq_two_mul (h : j < k) : ∃ n : ℤ, F.place k = 2 * (n * F.place j) := by
  obtain ⟨n, hn⟩ := exists_place_eq (F := F) (show j ≤ k - 1 by omega)
  refine ⟨F.half * n, ?_⟩
  rw [show k = 1 + (k - 1) by omega, place_add, hn, place, zpow_one, base]
  push_cast
  ring

/-- The first place as a multiple of the last. -/
theorem place_first (k : ℤ) :
    F.place (F.digits - 1 + k) = (F.base ^ (F.digits - 1) : ℕ) * F.place k := by
  have := F.digits_pos
  rw [place_add, ← place_natCast, show ((F.digits - 1 : ℕ) : ℤ) = F.digits - 1 by omega]

/-- A number with few enough digits fills the place above them at most. -/
theorem mul_place_lt {m : ℕ} (h : m < F.base ^ F.digits) (k : ℤ) :
    m * F.place k < F.place (F.digits + k) := by
  rw [place_add, place_natCast]
  exact mul_lt_mul_of_pos_right (by exact_mod_cast h) (place_pos k)

/-! ## Rounding -/

theorem Holds.nonneg (hy : F.Holds y) : 0 ≤ y := by
  obtain ⟨m, k, -, -, rfl⟩ := hy
  exact mul_nonneg (Nat.cast_nonneg m) (place_pos k).le

theorem holds_place (h : F.least ≤ k) : F.Holds (F.place k) :=
  ⟨1, k, Nat.one_lt_pow F.digits_pos.ne' (by exact_mod_cast one_lt_base (F := F)), h, by simp⟩

/-- Every number has a last place. -/
theorem exists_scale (F : Format) (q : ℚ) : ∃ k, F.Scale q k := by
  by_cases h : q < F.place (F.digits + F.least)
  · exact ⟨F.least, le_rfl, h, .inl rfl⟩
  have hpos : 0 < q := (place_pos _).trans_le (not_lt.1 h)
  have hbase : 1 < F.base := by exact_mod_cast one_lt_base (F := F)
  have hle : F.place (Int.log F.base q) ≤ q := Int.zpow_log_le_self hbase hpos
  have hlt : q < F.place (Int.log F.base q + 1) := Int.lt_zpow_succ_log_self hbase q
  refine ⟨Int.log F.base q + 1 - F.digits, ?_, ?_, .inr ?_⟩
  · have := lt_of_place_lt ((not_lt.1 h).trans_lt hlt)
    omega
  · rwa [show (F.digits : ℤ) + (Int.log F.base q + 1 - F.digits) = Int.log F.base q + 1 by ring]
  · rwa [show (F.digits : ℤ) - 1 + (Int.log F.base q + 1 - F.digits) = Int.log F.base q by ring]

/-- What is held is a whole number of times the last place of another number, unless it lies
below all numbers with that last place. -/
theorem Holds.exists_eq (hz : F.Holds z) (hk : F.Scale q k) :
    (∃ n : ℕ, z = n * F.place k) ∨
      z < F.place (F.digits - 1 + k) ∧ F.place (F.digits - 1 + k) ≤ q := by
  obtain ⟨m, j, hm, hj, rfl⟩ := hz
  rcases le_or_gt k j with hkj | hkj
  · obtain ⟨n, hn⟩ := exists_place_eq (F := F) hkj
    exact .inl ⟨m * n, by rw [hn]; push_cast; ring⟩
  · exact .inr ⟨(mul_place_lt hm j).trans_le (place_le (by omega)),
      hk.le.resolve_left (hj.trans_lt hkj).ne'⟩

/-- What is held is kept. -/
theorem rounds_self (hz : F.Holds z) : F.Rounds z z := by
  obtain ⟨k, hk⟩ := exists_scale F z
  rcases hz.exists_eq hk with ⟨n, hn⟩ | ⟨hlt, hle⟩
  · exact ⟨k, n, hk, by rw [hn]; exact Nearest.mul_self _ (place_pos k) n, hn⟩
  · exact absurd hle (not_le.2 hlt)

/-- The number of last places in a result has as many digits as the format has, or fewer at the
least exponent, or it is the next power of the base. -/
theorem Scale.bounds {m : ℕ} (hk : F.Scale q k) (hm : Nearest (F.place k) q m) :
    m ≤ F.base ^ F.digits ∧ (k = F.least ∨ F.base ^ (F.digits - 1) ≤ m) := by
  constructor
  · refine hm.mono (place_pos k) (Nearest.mul_self _ (place_pos k) _) ?_
    rw [← place_natCast, ← place_add]
    exact hk.lt.le
  · refine hk.le.imp_right fun hle => (Nearest.mul_self _ (place_pos k) _).mono (place_pos k) hm ?_
    rwa [← place_first]

/-- Every number from zero on has a result. -/
theorem exists_rounds (F : Format) (hq : 0 ≤ q) : ∃ y, F.Rounds q y := by
  obtain ⟨k, hk⟩ := exists_scale F q
  have hu := place_pos (F := F) k
  obtain ⟨n, d, hd, hnd⟩ := exists_eq_quotient (div_nonneg hq hu.le)
  have hd' : (0 : ℚ) < d := by exact_mod_cast hd
  have hnearest := nearest_roundHalfEven (div_pos hu hd') n hd
  rw [mul_div_cancel₀ _ hd'.ne', ← mul_div_assoc, mul_comm, mul_div_assoc, ← hnd,
    mul_div_cancel₀ _ hu.ne'] at hnearest
  exact ⟨_, k, _, hk, hnearest, rfl⟩

/-- Rounding keeps the order. -/
theorem Rounds.mono (h : F.Rounds q y) (h' : F.Rounds q' y') (hq : q ≤ q') : y ≤ y' := by
  obtain ⟨k, m, hk, hm, rfl⟩ := h
  obtain ⟨k', m', hk', hm', rfl⟩ := h'
  rcases lt_trichotomy k k' with hlt | rfl | hlt
  · -- The next power of the base lies between the two.
    have hm'le : F.base ^ (F.digits - 1) ≤ m' :=
      (hk'.bounds hm').2.resolve_left (hk.least_le.trans_lt hlt).ne'
    calc m * F.place k ≤ (F.base ^ F.digits : ℕ) * F.place k :=
          mul_le_mul_of_nonneg_right (by exact_mod_cast (hk.bounds hm).1) (place_pos k).le
      _ = F.place (F.digits + k) := by rw [place_add, place_natCast]
      _ ≤ F.place (F.digits - 1 + k') := place_le (by omega)
      _ = (F.base ^ (F.digits - 1) : ℕ) * F.place k' := place_first k'
      _ ≤ m' * F.place k' :=
          mul_le_mul_of_nonneg_right (by exact_mod_cast hm'le) (place_pos k').le
  · exact mul_le_mul_of_nonneg_right (by exact_mod_cast hm.mono (place_pos k) hm' hq)
      (place_pos k).le
  · -- The larger number would have a lower last place.
    have hle := hk.le.resolve_left (hk'.least_le.trans_lt hlt).ne'
    have := lt_of_place_lt (hle.trans_lt (hq.trans_lt hk'.lt))
    omega

/-- There is one result at most. -/
theorem Rounds.unique (h : F.Rounds q y) (h' : F.Rounds q y') : y = y' :=
  le_antisymm (h.mono h' le_rfl) (h'.mono h le_rfl)

/-- The result is held. -/
theorem Rounds.holds (h : F.Rounds q y) : F.Holds y := by
  obtain ⟨k, m, hk, hm, rfl⟩ := h
  rcases (hk.bounds hm).1.lt_or_eq with hlt | rfl
  · exact ⟨m, k, hlt, hk.least_le, rfl⟩
  · -- The next power of the base has one digit at a higher place.
    have := F.digits_pos
    refine ⟨F.base ^ (F.digits - 1), k + 1, ?_, by have := hk.least_le; omega, ?_⟩
    · exact Nat.pow_lt_pow_right (by exact_mod_cast one_lt_base (F := F)) (by omega)
    · rw [← place_natCast, ← place_natCast, ← place_add, ← place_add]
      congr 1
      omega

/-- The last digit is even. -/
def EndsEven (F : Format) (y : ℚ) : Prop :=
  ∃ (k : ℤ) (m : ℕ), F.least ≤ k ∧ m ≤ F.base ^ F.digits ∧
    (k = F.least ∨ F.base ^ (F.digits - 1) ≤ m) ∧ y = m * F.place k ∧ m % 2 = 0

/-- Nothing that is held is nearer than the result, and if something else is as near, the result
is even. -/
theorem Rounds.closest (h : F.Rounds q y) (hz : F.Holds z) :
    |q - y| ≤ |q - z| ∧ (|q - y| = |q - z| → z = y ∨ F.EndsEven y) := by
  obtain ⟨k, m, hk, hm, rfl⟩ := h
  rcases hz.exists_eq hk with ⟨n, rfl⟩ | ⟨hlt, hle⟩
  · obtain ⟨hnear, htie⟩ := hm.closest (place_pos k) n
    rw [Int.cast_natCast] at hnear htie
    refine ⟨hnear, fun e => (htie e).imp (fun h => ?_) fun heven => ?_⟩
    · rw [show n = m by exact_mod_cast h]
    · exact ⟨k, m, hk.least_le, (hk.bounds hm).1, (hk.bounds hm).2, rfl, heven⟩
  · -- The first number with the last place of `q` is nearer than what lies below it.
    have hnear := (hm.closest (place_pos k) (F.base ^ (F.digits - 1) : ℕ)).1
    rw [Int.cast_natCast, ← place_first, abs_of_nonneg (sub_nonneg.2 hle)] at hnear
    rw [abs_of_nonneg (show 0 ≤ q - z by linarith)]
    exact ⟨by linarith, fun e => by linarith⟩

/-- Rounding moves a number that has all its digits by a small part of it. -/
theorem Rounds.near (h : F.Rounds q y) (hq : F.place (F.digits - 1 + F.least) ≤ q) :
    2 * |q - y| * (F.base ^ (F.digits - 1) : ℕ) ≤ q := by
  obtain ⟨k, m, hk, hm, rfl⟩ := h
  have hle : F.place (F.digits - 1 + k) ≤ q := by
    rcases hk.le with rfl | hle
    · exact hq
    · exact hle
  calc 2 * |q - m * F.place k| * (F.base ^ (F.digits - 1) : ℕ)
      ≤ F.place k * (F.base ^ (F.digits - 1) : ℕ) :=
        mul_le_mul_of_nonneg_right hm.abs_sub_le (Nat.cast_nonneg _)
    _ = F.place (F.digits - 1 + k) := by rw [place_first, mul_comm]
    _ ≤ q := hle

/-- Two different multiples of a unit differ by a unit at least. -/
theorem le_abs_sub {u : ℚ} (hu : 0 < u) {m n : ℕ} (hne : m * u ≠ n * u) : u ≤ |m * u - n * u| := by
  have hmn : (m : ℤ) - n ≠ 0 := fun h => hne (by rw [show m = n by omega])
  have hone : (1 : ℚ) ≤ |(m : ℚ) - n| := by exact_mod_cast Int.one_le_abs hmn
  rw [← sub_mul, abs_mul, abs_of_pos hu]
  exact le_mul_of_one_le_left hu.le hone

/-- Two numbers that are held differ by a certain part of each at least. -/
theorem Holds.apart (hy : F.Holds y) (hz : F.Holds z) (hne : y ≠ z) :
    y ≤ |y - z| * (F.base ^ F.digits : ℕ) := by
  obtain ⟨m, j, hm, -, rfl⟩ := hy
  obtain ⟨n, i, hn, -, rfl⟩ := hz
  have hm' : (m : ℚ) ≤ (F.base ^ F.digits : ℕ) := by exact_mod_cast hm.le
  have hn' : (n : ℚ) + 1 ≤ (F.base ^ F.digits : ℕ) := by exact_mod_cast hn
  rcases le_total j i with hji | hij
  · obtain ⟨l, hl⟩ := exists_place_eq (F := F) hji
    have hz : n * F.place i = (n * l : ℕ) * F.place j := by
      rw [hl]
      push_cast
      ring
    rw [hz] at hne ⊢
    calc m * F.place j ≤ (F.base ^ F.digits : ℕ) * F.place j :=
          mul_le_mul_of_nonneg_right hm' (place_pos j).le
      _ ≤ (F.base ^ F.digits : ℕ) * |m * F.place j - (n * l : ℕ) * F.place j| :=
          mul_le_mul_of_nonneg_left (le_abs_sub (place_pos j) hne) (Nat.cast_nonneg _)
      _ = _ := mul_comm _ _
  · -- The digits of `z` end at a lower place, and `z` has not more of them than the format.
    obtain ⟨l, hl⟩ := exists_place_eq (F := F) hij
    have hy : m * F.place j = (m * l : ℕ) * F.place i := by
      rw [hl]
      push_cast
      ring
    rw [hy] at hne ⊢
    have hunit := le_abs_sub (place_pos i) hne
    have hdist := le_abs_self ((m * l : ℕ) * F.place i - n * F.place i)
    generalize |((m * l : ℕ) : ℚ) * F.place i - n * F.place i| = d at hunit hdist ⊢
    have hd : 0 ≤ d := (place_pos i).le.trans hunit
    have hzd : n * F.place i ≤ n * d := mul_le_mul_of_nonneg_left hunit (Nat.cast_nonneg n)
    calc ((m * l : ℕ) : ℚ) * F.place i ≤ n * d + d := by linarith
      _ = (n + 1) * d := by ring
      _ ≤ (F.base ^ F.digits : ℕ) * d := mul_le_mul_of_nonneg_right hn' hd
      _ = d * (F.base ^ F.digits : ℕ) := mul_comm _ _

/-- A number that compares alike with all multiples of a place behind the last is rounded to
the same result. -/
theorem Rounds.congr (h : F.Rounds q y) {g : ℤ} (hg : F.place (F.digits + g) ≤ q)
    (hq : ComparesAlike (F.place g) q q') : F.Rounds q' y := by
  obtain ⟨k, m, hk, hm, rfl⟩ := h
  have hgk : g < k := by
    have := lt_of_place_lt (hg.trans_lt hk.lt)
    omega
  obtain ⟨j, hj⟩ := exists_place_eq_two_mul (F := F) hgk
  refine ⟨k, m, ⟨hk.least_le, ?_, hk.le.imp_right fun hle => ?_⟩, hm.congr hj hq, rfl⟩
  · obtain ⟨n, hn⟩ := exists_place_eq (F := F) (show g ≤ F.digits + k by omega)
    have := (hq n).1
    rw [Int.cast_natCast, ← hn] at this
    exact lt_of_not_ge fun hge => absurd (this.2 hge) (not_le.2 hk.lt)
  · have := F.digits_pos
    obtain ⟨n, hn⟩ := exists_place_eq (F := F) (show g ≤ F.digits - 1 + k by omega)
    have := (hq n).1
    rw [Int.cast_natCast, ← hn] at this
    exact this.1 hle

end Format

end Reckon
