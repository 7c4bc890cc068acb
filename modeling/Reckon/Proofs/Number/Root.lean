import Mathlib.Analysis.Real.Sqrt
import Mathlib.NumberTheory.Real.Irrational
import Mathlib.Topology.Algebra.Order.Archimedean
import Reckon.Proofs.Number.Faithful
import Reckon.Proofs.Number.Magnitude

/-!
# Square roots

The root of a double is at most rarely a rational number. What a format keeps of a real number is
what is nearest to it (`Format.Keeps`), and at high precision a root is that of the working format,
at standard precision that of doubles.

Rounding the root to 80 digits first makes no difference to the double (`Builtin.sqrt_precisions`).
A root that is rational is itself a double, and then both steps keep it as they keep all doubles. An
irrational root stands apart from all numbers of 54 binary digits, in particular from the middles
between doubles, by about a part of `2 ^ 110` of it (`Double.exists_isolated`), and the first step
moves it by less than a part of `10 ^ 79`.
-/

namespace Reckon

/-! ## Real numbers in a format -/

namespace Format

/-- The number is what the format keeps of a real number : nothing that is held is nearer, and if
something else is as near, the number is even. -/
structure Keeps (F : Format) (x : ℝ) (y : ℚ) : Prop where
  /-- The number is held. -/
  holds : F.Holds y
  /-- No other number is nearer. -/
  closest : ∀ z, F.Holds z →
    |x - y| ≤ |x - z| ∧ (|x - y| = |x - z| → z = y ∨ F.EndsEven y)

/-- The real number lies between the `a`th multiple of a place and the next. -/
def Between (F : Format) (g : ℤ) (a : ℕ) (x : ℝ) : Prop :=
  a * F.place g < x ∧ x < (a + 1) * F.place g

variable {F : Format} {x x' : ℝ} {q q' y : ℚ} {g : ℤ} {a : ℕ}

/-- A rational number is rounded. -/
theorem Rounds.keeps (h : F.Rounds q y) : F.Keeps q y where
  holds := h.holds
  closest z hz := by exact_mod_cast h.closest hz

theorem between_ratCast : F.Between g a q ↔ a * F.place g < q ∧ q < (a + 1) * F.place g := by
  unfold Between
  exact_mod_cast Iff.rfl

/-- Numbers between the same multiples lie apart by a small part of them. -/
theorem Between.near (h : F.Between g a x) (h' : F.Between g a x') : |x' - x| * a ≤ x := by
  have hclose : |x' - x| ≤ F.place g := abs_le.2 ⟨by linarith [h.2, h'.1], by linarith [h.1, h'.2]⟩
  calc |x' - x| * a ≤ F.place g * a := mul_le_mul_of_nonneg_right hclose (Nat.cast_nonneg a)
    _ = a * F.place g := mul_comm _ _
    _ ≤ x := h.1.le

/-- Between multiples of a place behind the last, all rational numbers are rounded alike. -/
theorem Rounds.between (h : F.Rounds q y) (ha : F.base ^ F.digits ≤ a) (hq : F.Between g a q)
    (hq' : F.Between g a q') : F.Rounds q' y := by
  rw [between_ratCast] at hq hq'
  have hu := F.place_pos g
  refine h.congr (g := g) ?_ (comparesAlike_of_between hu a (by exact_mod_cast hq)
    (by exact_mod_cast hq'))
  rw [place_add, place_natCast]
  exact (mul_le_mul_of_nonneg_right (by exact_mod_cast ha) hu.le).trans hq.1.le

/-- What is nearest to all rational numbers around a real number is nearest to that. -/
theorem abs_sub_le_of_around {p p' : ℝ} {y z : ℚ} (hx : p < x ∧ x < p')
    (h : ∀ t : ℚ, p < t ∧ t < p' → |(t : ℝ) - y| ≤ |(t : ℝ) - z|) : |x - y| ≤ |x - z| := by
  by_contra hlt
  have hopen : IsOpen ({t : ℝ | |t - z| < |t - y|} ∩ Set.Ioo p p') :=
    (isOpen_lt (by fun_prop) (by fun_prop)).inter isOpen_Ioo
  obtain ⟨t, hnear, ht⟩ := Rat.denseRange_cast.exists_mem_open hopen ⟨x, not_le.1 hlt, hx⟩
  exact absurd (h t ht) (not_le.2 hnear)

/-- An irrational number is kept as any rational number between the same multiples. It lies in no
middle. -/
theorem Rounds.keeps_of_between (h : F.Rounds q y) (ha : F.base ^ F.digits ≤ a)
    (hq : F.Between g a q) (hx : F.Between g a x) (hirrational : Irrational x) : F.Keeps x y where
  holds := h.holds
  closest z hz := by
    refine ⟨abs_sub_le_of_around hx fun t ht => ?_, fun htie => .inl ?_⟩
    · exact_mod_cast ((h.between ha hq ht).closest hz).1
    · rcases abs_eq_abs.1 htie with heq | heq
      · exact_mod_cast (sub_right_inj.1 heq).symm
      · refine absurd ?_ (hirrational.ne_rat ((y + z) / 2))
        push_cast
        linarith

end Format

/-! ## Whole parts of roots -/

theorem le_rootFloor {n m : ℕ} (h : m * m ≤ n) : m ≤ rootFloor n := by
  have := Nat.mul_self_lt_mul_self_iff.1 (h.trans_lt (lt_succ_rootFloor_sq n))
  omega

theorem isSquare_iff_rootFloor {n : ℕ} : IsSquare n ↔ rootFloor n * rootFloor n = n := by
  refine ⟨?_, fun h => ⟨_, h.symm⟩⟩
  rintro ⟨m, rfl⟩
  have hle := Nat.mul_self_le_mul_self_iff.1 (rootFloor_sq_le (m * m))
  have hlt := Nat.mul_self_lt_mul_self_iff.1 (lt_succ_rootFloor_sq (m * m))
  rw [show rootFloor (m * m) = m by omega]

/-- A square as a factor does not count. -/
theorem isSquare_mul_sq_iff (n : ℕ) {u : ℚ} (hu : u ≠ 0) : IsSquare (n * u ^ 2) ↔ IsSquare n := by
  rw [← Rat.isSquare_natCast_iff]
  constructor
  · rintro ⟨q, hq⟩
    exact ⟨q / u, by field_simp; linarith⟩
  · rintro ⟨q, hq⟩
    exact ⟨q * u, by rw [hq]; ring⟩

/-- An irrational root lies between its whole part and the next whole number, in units of any
size. -/
theorem Format.between_sqrt {F : Format} {v : ℚ} {n : ℕ} {g : ℤ} (hv : v = n * F.place g ^ 2)
    (h : ¬ IsSquare v) : F.Between g (rootFloor n) √(v : ℝ) := by
  have hu : (0 : ℝ) < F.place g := by exact_mod_cast F.place_pos g
  rw [hv, isSquare_mul_sq_iff n (F.place_pos g).ne', isSquare_iff_rootFloor] at h
  have hle := lt_of_le_of_ne (rootFloor_sq_le n) h
  have hlt := lt_succ_rootFloor_sq n
  generalize rootFloor n = a at hle hlt
  have hroot : √(v : ℝ) = √(n : ℝ) * F.place g := by
    rw [hv]
    push_cast
    rw [Real.sqrt_mul (Nat.cast_nonneg n), Real.sqrt_sq hu.le]
  rw [hroot]
  constructor
  · refine mul_lt_mul_of_pos_right (Real.lt_sqrt_of_sq_lt ?_) hu
    exact_mod_cast (pow_two a).trans_lt hle
  · refine mul_lt_mul_of_pos_right ((Real.sqrt_lt' (by positivity)).2 ?_) hu
    exact_mod_cast hlt.trans_eq (pow_two (a + 1)).symm

/-- The number is the root, or the root is irrational and lies between the same multiples of a place
far behind the last. -/
def Format.StandsFor (F : Format) (v q : ℚ) : Prop :=
  0 ≤ q ∧ q ^ 2 = v ∨
    ¬ IsSquare v ∧ ∃ g a, 10 ^ 80 ≤ a ∧ F.Between g a q ∧ F.Between g a √(v : ℝ)

/-- A root is kept as what stands for it is rounded. -/
theorem Format.StandsFor.keeps {F : Format} {v q y : ℚ} (hF : F.base ^ F.digits ≤ 10 ^ 80)
    (h : F.StandsFor v q) (hy : F.Rounds q y) (hv : 0 ≤ v) : F.Keeps √(v : ℝ) y := by
  rcases h with ⟨hq, rfl⟩ | ⟨hsquare, g, a, ha, hbetween, hroot⟩
  · rw [Rat.cast_pow, Real.sqrt_sq (by exact_mod_cast hq)]
    exact hy.keeps
  · exact hy.keeps_of_between (hF.trans ha) hbetween hroot
      ((irrational_sqrt_ratCast_iff_of_nonneg hv).2 hsquare)

/-- What stands for a root is near to it. -/
theorem Format.StandsFor.near {F : Format} {v q : ℚ} (h : F.StandsFor v q) :
    |q - √(v : ℝ)| * 10 ^ 80 ≤ √(v : ℝ) := by
  rcases h with ⟨hq, rfl⟩ | ⟨-, g, a, ha, hbetween, hroot⟩
  · rw [Rat.cast_pow, Real.sqrt_sq (by exact_mod_cast hq), sub_self, abs_zero, zero_mul]
    exact_mod_cast hq
  · exact (mul_le_mul_of_nonneg_left (by exact_mod_cast ha) (abs_nonneg _)).trans
      (hroot.near hbetween)

namespace Decimal

/-- What is settled from it is still near. -/
theorem near_of_standsFor {v q y : ℚ} (h : Format.working.StandsFor v q)
    (hy : Format.working.Rounds q y) (hv : 10 ^ (-328 : ℤ) ≤ v) :
    |y - √(v : ℝ)| * 10 ^ 79 ≤ √(v : ℝ) := by
  have hnear := h.near
  have hroot : (10 : ℝ) ^ (-164 : ℤ) ≤ √(v : ℝ) := by
    have hcast : (((10 : ℚ) ^ (-328 : ℤ) : ℚ) : ℝ) ≤ v := Rat.cast_le.2 hv
    rw [Rat.cast_zpow, Rat.cast_ofNat] at hcast
    refine Real.le_sqrt_of_sq_le ?_
    rwa [← zpow_natCast, ← zpow_mul, show (-164 : ℤ) * (2 : ℕ) = -328 by norm_num]
  have hsmall : |q - √(v : ℝ)| ≤ √(v : ℝ) / 10 ^ 80 := by rwa [le_div_iff₀ (by norm_num)]
  obtain ⟨hle, hge⟩ := abs_le.1 hsmall
  have hq : Format.working.place (Format.working.digits - 1 + Format.working.least) ≤ q := by
    have hpos : (0 : ℝ) < 10 ^ (-164 : ℤ) := zpow_pos (by norm_num) _
    have hplace : (((10 : ℚ) ^ (-165 : ℤ) : ℚ) : ℝ) ≤ q := by
      rw [Rat.cast_zpow, Rat.cast_ofNat, show (-165 : ℤ) = -164 - 1 by norm_num,
        zpow_sub_one₀ (by norm_num)]
      generalize (10 : ℝ) ^ (-164 : ℤ) = p at hroot hpos
      linarith
    rw [Format.working_place]
    exact (zpow_le_zpow_right₀ (by norm_num) (by decide)).trans (Rat.cast_le.1 hplace)
  have hmoved : 2 * |(q : ℝ) - y| * 10 ^ 79 ≤ q := by exact_mod_cast hy.near hq
  have htriangle := abs_sub_le (y : ℝ) q √(v : ℝ)
  rw [abs_sub_comm (y : ℝ) q] at htriangle
  linarith

/-- A root is settled from what stands for it. -/
theorem exists_squareRoot_eq {c : ℕ} (hc : 0 < c) (e : ℤ) : ∃ (m : ℕ) (g : ℤ),
    Format.working.StandsFor (c * 10 ^ e) (m * 10 ^ g) ∧
      squareRoot (.finite false c e) = settle false m g := by
  have hhalf : e = 2 * e.fdiv 2 + e % 2 := by
    rw [Int.fdiv_eq_ediv_of_nonneg e (by decide)]
    omega
  simp only [squareRoot]
  generalize e.fdiv 2 = half at hhalf ⊢
  rw [if_neg hc.ne', if_neg Bool.false_ne_true, size_eq_mul_square c hhalf]
  have hn : 0 < if e % 2 = 0 then c else 10 * c := by split <;> omega
  generalize (if e % 2 = 0 then c else 10 * c) = n at hn ⊢
  have hunit : (10 : ℚ) ^ half ≠ 0 := zpow_ne_zero half (by norm_num)
  split
  · rename_i hsquare
    refine ⟨_, _, .inl ⟨by positivity, ?_⟩, rfl⟩
    rw [mul_pow, sq (rootFloor n : ℚ), ← Nat.cast_mul, hsquare]
  · rename_i hsquare
    rw [← isSquare_iff_rootFloor, ← isSquare_mul_sq_iff n hunit] at hsquare
    have hplaces : (10 : ℚ) ^ half = 10 ^ 81 * 10 ^ (half - 81) := by
      rw [← zpow_natCast, ← zpow_add₀ (by norm_num)]
      congr 1
      push_cast
      ring
    have hdigit : (10 : ℚ) ^ (half - 81) = 10 * 10 ^ (half - 82) := by
      rw [← zpow_one_add₀ (by norm_num)]
      congr 1
      ring
    have hpos : (0 : ℚ) < 10 ^ (half - 82) := zpow_pos (by norm_num) _
    refine ⟨_, _, .inr ⟨hsquare, half - 81, rootFloor (n * 10 ^ 162), ?_, ?_, ?_⟩, rfl⟩
    · exact le_rootFloor ((Nat.le_mul_of_pos_left (10 ^ 162) hn).trans' (by decide))
    · rw [Format.between_ratCast, Format.working_place, hdigit]
      push_cast
      constructor <;> linarith
    · refine Format.between_sqrt ?_ hsquare
      rw [Format.working_place, hplaces]
      push_cast
      ring

end Decimal

namespace Double

/-- The value of a rank as a number of squared units. -/
theorem rankValue_eq_mul_sq (r : ℕ) :
    rankValue r = (units r * unitsOfOne : ℕ) * Format.double.place (-1074) ^ 2 := by
  have hone : (unitsOfOne : ℚ) ≠ 0 := by exact_mod_cast unitsOfOne_pos.ne'
  rw [rankValue_eq, place_unit, Nat.cast_mul]
  field_simp

/-- The root of a positive double is rounded from what stands for it. -/
theorem exists_squareRoot_eq {r : Fin infinityRank} (hr : 0 < r.val) : ∃ (q : ℚ) (k : ℕ),
    Format.double.StandsFor (rankValue r) q ∧ Rounds q k ∧
      squareRoot (.finite false r) = ofRank false k := by
  have hunit := Format.place_pos (F := Format.double) (-1074)
  have hlarge : 10 ^ 80 * 10 ^ 80 ≤ units r * unitsOfOne := by
    have hunits : 0 < units r := (Nat.zero_le _).trans_lt (units_strictMono hr)
    have hone : 10 ^ 80 * 10 ^ 80 ≤ unitsOfOne := by decide +kernel
    exact hone.trans (Nat.le_mul_of_pos_left _ hunits)
  have hvalue := rankValue_eq_mul_sq r
  simp only [squareRoot]
  rw [if_neg hr.ne', if_neg Bool.false_ne_true]
  generalize units r * unitsOfOne = n at hlarge hvalue ⊢
  split
  · rename_i hsquare
    refine ⟨_, _, .inl ⟨?_, ?_⟩, rounds_nearestRank (rootFloor n) Nat.one_pos, rfl⟩
    · positivity
    · rw [hvalue, Nat.cast_one, div_one, mul_pow, sq (rootFloor n : ℚ), ← Nat.cast_mul, hsquare]
  · rename_i hsquare
    rw [← isSquare_iff_rootFloor, ← isSquare_mul_sq_iff n hunit.ne', ← hvalue] at hsquare
    refine ⟨_, _, .inr ⟨hsquare, -1074, rootFloor n, ?_, ?_, ?_⟩,
      rounds_nearestRank (2 * rootFloor n + 1) Nat.two_pos, rfl⟩
    · exact le_rootFloor hlarge
    · rw [Format.between_ratCast]
      push_cast
      constructor <;> linarith
    · exact Format.between_sqrt hvalue hsquare

/-- A positive double is a whole number of squared places, of any size that leaves room for its 53
digits. -/
theorem exists_eq_mul_sq {r p : ℕ} (hr : 0 < r) (hp : 26 ≤ p) (hp' : p ≤ 500) :
    ∃ (j : ℕ) (g : ℤ), Format.double.least ≤ g ∧ rankValue r = j * Format.double.place g ^ 2 ∧
      2 ^ (2 * p) ≤ j ∧ j < 2 ^ (2 * p + 2) := by
  obtain ⟨k, m, rfl, hm, hk⟩ := exists_rank_eq r
  have hm0 : m ≠ 0 := by omega
  have hlow := Nat.log2_self_le hm0
  have hhigh := Nat.lt_log2_self (n := m)
  have hb : m.log2 < 53 := (Nat.log2_lt hm0).2 hm
  rw [rankValue_eq_mul hm.le hk]
  generalize m.log2 = b at hlow hhigh hb
  obtain ⟨g, t, ht, hparity⟩ : ∃ (g : ℤ) (t : ℕ), (k : ℤ) - 1074 = t + (g + g) ∧
      (b + t = 2 * p ∨ b + t = 2 * p + 1) := by
    refine ⟨(b + k - 1074) / 2 - p, 2 * p - b + ((b + k - 1074 : ℤ) % 2).toNat, ?_, ?_⟩ <;> omega
  refine ⟨m * 2 ^ t, g, show -1074 ≤ g by omega, ?_, ?_, ?_⟩
  · rw [ht, Format.place_add, Format.place_add, Format.place_natCast]
    push_cast
    rw [show Format.double.base = 2 from rfl]
    push_cast
    ring
  · calc 2 ^ (2 * p) ≤ 2 ^ (b + t) := Nat.pow_le_pow_right (by decide) (by omega)
      _ = 2 ^ b * 2 ^ t := Nat.pow_add ..
      _ ≤ m * 2 ^ t := Nat.mul_le_mul_right _ hlow
  · calc m * 2 ^ t < 2 ^ (b + 1) * 2 ^ t := Nat.mul_lt_mul_of_pos_right hhigh (by positivity)
      _ = 2 ^ (b + 1 + t) := (Nat.pow_add ..).symm
      _ ≤ 2 ^ (2 * p + 2) := Nat.pow_le_pow_right (by decide) (by omega)

/-- A number whose square differs from that of another by a part of `2 ^ 108` lies apart from it. -/
theorem lt_abs_sub {x m w : ℝ} (hx : 0 < x) (hm : 0 ≤ m) (hle : m ≤ 2 * x)
    (hw : w ^ 2 ≤ |x ^ 2 - m ^ 2|) (hsize : x ^ 2 < 2 ^ 108 * w ^ 2) :
    x < |x - m| * 10 ^ 79 := by
  have hfactor : |x ^ 2 - m ^ 2| ≤ |x - m| * (3 * x) := by
    rw [show x ^ 2 - m ^ 2 = (x - m) * (x + m) by ring, abs_mul,
      abs_of_nonneg (show 0 ≤ x + m by linarith)]
    exact mul_le_mul_of_nonneg_left (by linarith) (abs_nonneg _)
  have hbound : x * x < |x - m| * 10 ^ 79 * x := by
    have hpos : 0 ≤ |x - m| * x := mul_nonneg (abs_nonneg _) hx.le
    calc x * x < 2 ^ 108 * (|x - m| * (3 * x)) := by linarith
      _ = 3 * 2 ^ 108 * (|x - m| * x) := by ring
      _ ≤ 10 ^ 79 * (|x - m| * x) := mul_le_mul_of_nonneg_right (by norm_num) hpos
      _ = |x - m| * 10 ^ 79 * x := by ring
  exact lt_of_mul_lt_mul_right hbound hx.le

/-- What is near to a root of fewer than `2 ^ 108` squares lies between the same multiples, if the
root is none of them. -/
theorem between_of_near {x root w : ℝ} {a j : ℕ} (hw : 0 < w) (ha : 0 < a) (hroot : 0 < root)
    (hsq : root ^ 2 = j * w ^ 2) (hlow : a * a < j) (hhigh : j < (a + 1) * (a + 1))
    (hsize : j < 2 ^ 108) (hbetween : a * w < root ∧ root < (a + 1) * w)
    (hx : |x - root| * 10 ^ 79 ≤ root) : a * w < x ∧ x < (a + 1) * w := by
  have hbelow : (a : ℝ) ^ 2 + 1 ≤ j := by exact_mod_cast show a ^ 2 + 1 ≤ j by rw [sq]; omega
  have habove : (j : ℝ) + 1 ≤ (a + 1) ^ 2 := by
    exact_mod_cast show j + 1 ≤ (a + 1) ^ 2 by rw [sq]; omega
  have hone : w ≤ a * w := le_mul_of_one_le_left hw.le (by exact_mod_cast ha)
  have hsquares : root ^ 2 < 2 ^ 108 * w ^ 2 := by
    rw [hsq]
    exact mul_lt_mul_of_pos_right (by exact_mod_cast hsize) (by positivity)
  -- The root is further from both multiples than `x` is from the root.
  have hlower := lt_abs_sub hroot (show 0 ≤ a * w by positivity) (by linarith)
    ((le_abs_self _).trans' (by
      rw [hsq, mul_pow, ← sub_mul]
      exact le_mul_of_one_le_left (sq_nonneg w) (by linarith))) hsquares
  have hupper := lt_abs_sub hroot (show 0 ≤ (a + 1) * w by positivity) (by linarith)
    ((neg_le_abs _).trans' (by
      rw [hsq, mul_pow, ← sub_mul, ← neg_mul]
      exact le_mul_of_one_le_left (sq_nonneg w) (by linarith))) hsquares
  rw [abs_of_pos (sub_pos.2 hbetween.1), ← div_lt_iff₀ (by norm_num)] at hlower
  rw [abs_of_neg (sub_neg.2 hbetween.2), ← div_lt_iff₀ (by norm_num)] at hupper
  rw [← le_div_iff₀ (by norm_num)] at hx
  obtain ⟨hle, hge⟩ := abs_le.1 hx
  constructor <;> linarith

/-- An irrational root of a double and all that is near to it lie between the same numbers of 54
binary digits. -/
theorem exists_isolated {r : ℕ} (hr : 0 < r) (h : ¬ IsSquare (rankValue r)) :
    ∃ g a, 2 ^ 53 ≤ a ∧ ∀ x : ℝ, |x - √(rankValue r : ℝ)| * 10 ^ 79 ≤ √(rankValue r : ℝ) →
      Format.double.Between g a x := by
  obtain ⟨j, g, -, hv, hlow, hhigh⟩ := exists_eq_mul_sq hr (show 26 ≤ 53 by decide) (by decide)
  have hbetween := Format.between_sqrt hv h
  have hnot := h
  rw [hv, isSquare_mul_sq_iff j (Format.place_pos g).ne', isSquare_iff_rootFloor] at hnot
  have ha : 2 ^ 53 ≤ rootFloor j := le_rootFloor hlow
  have hw : (0 : ℝ) < Format.double.place g := by exact_mod_cast Format.place_pos g
  have hroot : 0 < √(rankValue r : ℝ) := lt_of_le_of_lt (by positivity) hbetween.1
  have hsq : √(rankValue r : ℝ) ^ 2 = j * (Format.double.place g : ℝ) ^ 2 := by
    rw [Real.sq_sqrt (by exact_mod_cast rankValue_nonneg r), hv]
    push_cast
    rfl
  exact ⟨g, rootFloor j, ha, fun x hx => between_of_near hw (by omega) hroot hsq
    (lt_of_le_of_ne (rootFloor_sq_le j) hnot) (lt_succ_rootFloor_sq j) hhigh hbetween hx⟩

/-- A root that is rational is a double. -/
theorem holds_of_sq {r : ℕ} (hr : 0 < r) {q : ℚ} (hq : 0 ≤ q) (h : q ^ 2 = rankValue r) :
    Format.double.Holds q := by
  obtain ⟨j, g, hg, hv, -, hhigh⟩ := exists_eq_mul_sq hr (show 26 ≤ 52 by decide) (by decide)
  have hw := Format.place_pos (F := Format.double) g
  obtain ⟨a, rfl⟩ : IsSquare j := by
    rw [← isSquare_mul_sq_iff j hw.ne', ← hv, ← h]
    exact IsSquare.sq q
  refine ⟨a, g, Nat.mul_self_lt_mul_self_iff.1 hhigh, hg, ?_⟩
  rw [hv, Nat.cast_mul, ← sq, ← mul_pow] at h
  exact (sq_eq_sq₀ hq (by positivity)).1 h

/-- A root that is settled and taken for a double is the double that is kept of the root. -/
theorem rounds_of_standsFor {r k : ℕ} {q q' y : ℚ} (hr : 0 < r)
    (h : Format.working.StandsFor (rankValue r) q) (hy : Format.working.Rounds q y)
    (h' : Format.double.StandsFor (rankValue r) q') (hk : Format.double.Rounds q' (rankValue k))
    (hk' : k < infinityRank) : Rounds y k := by
  by_cases hsquare : IsSquare (rankValue r)
  · -- The root is a double, and a double is kept by both steps.
    obtain ⟨hq, hroot⟩ := h.resolve_right fun h => h.1 hsquare
    obtain ⟨hq', hroot'⟩ := h'.resolve_right fun h => h.1 hsquare
    obtain rfl := (sq_eq_sq₀ hq hq').1 (hroot.trans hroot'.symm)
    obtain rfl := hk.unique (Format.rounds_self (holds_of_sq hr hq hroot))
    obtain ⟨k', hround⟩ := exists_rounds hy.holds.nonneg
    rwa [RoundsTwice.eq_of_rankValue ⟨y, hy, hround⟩ hk'.le] at hround
  · obtain ⟨g, a, ha, hisolated⟩ := exists_isolated hr hsquare
    have hnear := Decimal.near_of_standsFor h hy (le_rankValue hr)
    have hnear' : |(q' : ℝ) - √(rankValue r : ℝ)| * 10 ^ 79 ≤ √(rankValue r : ℝ) :=
      (mul_le_mul_of_nonneg_left (by norm_num) (abs_nonneg _)).trans h'.near
    exact ⟨k, (Nat.min_eq_left hk'.le).symm,
      hk.between ha (hisolated q' hnear') (hisolated y hnear)⟩

/-- No root is taken for an infinity. -/
theorem lt_infinityRank_of_standsFor {r k : ℕ} {q : ℚ} (hr : r ≤ infinityRank)
    (h : Format.double.StandsFor (rankValue r) q) (hk : Rounds q k) : k < infinityRank := by
  have hnear := h.near
  have hroot : √(rankValue r : ℝ) ≤ 10 ^ 156 := by
    have hcast : (rankValue r : ℝ) ≤ ((10 ^ (311 : ℤ) : ℚ) : ℝ) := Rat.cast_le.2 (rankValue_le hr)
    rw [Rat.cast_zpow, Rat.cast_ofNat] at hcast
    refine Real.sqrt_le_iff.2 ⟨by positivity, hcast.trans ?_⟩
    rw [← pow_mul, ← zpow_natCast]
    exact zpow_le_zpow_right₀ (by norm_num) (by norm_num)
  have hq : q ≤ (10 ^ 157 : ℕ) := by
    rw [← le_div_iff₀ (by norm_num)] at hnear
    have hle : (q : ℝ) ≤ ((10 ^ 157 : ℕ) : ℚ) := by
      push_cast
      linarith [(abs_le.1 hnear).2]
    exact Rat.cast_le.1 hle
  have hlarge : ((10 ^ 157 : ℕ) : ℚ) ≤ rankValue 0x7FE0000000000000 :=
    natCast_le_rankValue (by decide +kernel)
  exact (hk.mono (rounds_rankValue (by decide)) (hq.trans hlarge)).trans_lt (by decide)

/-- The decimal is the root of the double, rounded once to a format. A zero is its own root, and a
negative number has none. -/
inductive HasRoot (F : Format) : Double → Decimal → Prop
  | zero (s : Bool) (e : ℤ) : HasRoot F (zero s) (.finite s 0 e)
  | positive {r : Fin infinityRank} {c : ℕ} {e : ℤ} (hr : 0 < r.val)
      (h : F.Keeps √(rankValue r : ℝ) (c * 10 ^ e)) :
      HasRoot F (.finite false r) (.finite false c e)
  | negative {r : Fin infinityRank} (hr : 0 < r.val) : HasRoot F (.finite true r) .missing
  | infinite : HasRoot F (.infinite false) (.infinite false)
  | negativeInfinite : HasRoot F (.infinite true) .missing
  | nan : HasRoot F .nan .missing

/-- A number that is not a zero has a coefficient. -/
theorem exists_toDecimal_of_pos (s : Bool) {r : Fin infinityRank} (hr : 0 < r.val) : ∃ c e,
    0 < c ∧ toDecimal (.finite s r) = .finite s c e ∧ (c : ℚ) * 10 ^ e = rankValue r := by
  obtain ⟨c, e, hdecimal, hvalue⟩ := exists_toDecimal s r
  refine ⟨c, e, Nat.pos_of_ne_zero fun hc => ?_, hdecimal, hvalue⟩
  have hpos := rankValue_strictMono hr
  rw [← hvalue, hc, Nat.cast_zero, zero_mul, rankValue_zero] at hpos
  exact lt_irrefl _ hpos

/-- At 80 digits the root of a positive number is settled from what stands for it. -/
theorem exists_root_working {r : Fin infinityRank} (hr : 0 < r.val) : ∃ (q : ℚ) (c : ℕ) (e : ℤ),
    (toDecimal (.finite false r)).squareRoot = .ok (.finite false c e) ∧
      Format.working.StandsFor (rankValue r) q ∧ Format.working.Rounds q (c * 10 ^ e) := by
  obtain ⟨d, hd, -⟩ := Decimal.exists_squareRoot_of_bounded
    (Decimal.bounded_toDecimal le_rfl (.finite false r)) (by decide) (by decide)
  obtain ⟨c, e, hc, hdecimal, hvalue⟩ := exists_toDecimal_of_pos false hr
  obtain ⟨m, g, hstands, hsettle⟩ := Decimal.exists_squareRoot_eq hc e
  obtain ⟨c', e', hround, heq⟩ := Decimal.exists_settle_eq false m g
  rw [hvalue] at hstands
  rw [hdecimal, hsettle, heq] at hd ⊢
  split at hd
  · cases hd
  · exact ⟨_, c', e', if_neg ‹_›, hstands, hround⟩

/-- The root of a positive double is a double, rounded from what stands for it. -/
theorem exists_root_double {r : Fin infinityRank} (hr : 0 < r.val) :
    ∃ (q : ℚ) (k : Fin infinityRank), squareRoot (.finite false r) = .finite false k ∧
      Format.double.StandsFor (rankValue r) q ∧ Format.double.Rounds q (rankValue k) := by
  obtain ⟨q, k, hstands, hround, hroot⟩ := exists_squareRoot_eq hr
  have hk := lt_infinityRank_of_standsFor r.isLt.le hstands hround
  obtain ⟨j, rfl, hround⟩ := hround
  have hj : j < infinityRank := (min_lt_iff.1 hk).resolve_right (lt_irrefl _)
  rw [min_eq_left hj.le, ofRank, dif_pos hj] at hroot
  exact ⟨q, ⟨j, hj⟩, hroot, hstands, hround⟩

/-- The root at 80 digits of a positive number is taken for its root as a double. -/
theorem exists_root_of_pos {r : Fin infinityRank} (hr : 0 < r.val) : ∃ d,
    (toDecimal (.finite false r)).squareRoot = .ok d ∧
      d.toNearestDouble = (squareRoot (.finite false r)).toDecimal ∧
      HasRoot Format.working (.finite false r) d ∧
      HasRoot Format.double (.finite false r) d.toNearestDouble := by
  obtain ⟨q, c, e, hroot, hstands, hround⟩ := exists_root_working hr
  obtain ⟨q', k, hroot', hstands', hround'⟩ := exists_root_double hr
  have hdouble : (Decimal.finite false c e).toNearestDouble = toDecimal (.finite false k) := by
    rw [Decimal.toNearestDouble, ofDecimal_of_rounds false
      (rounds_of_standsFor hr hstands hround hstands' hround' k.isLt), ofRank_val]
  have hpos := rankValue_nonneg r
  refine ⟨.finite false c e, hroot, by rw [hdouble, hroot'], .positive hr ?_, ?_⟩
  · exact_mod_cast hstands.keeps (by decide) hround hpos
  · obtain ⟨c', e', hdecimal, hvalue⟩ := exists_toDecimal false k
    have hkept := hstands'.keeps (by decide) hround' hpos
    rw [← hvalue] at hkept
    rw [hdouble, hdecimal]
    exact .positive hr (by exact_mod_cast hkept)

/-- Every double has a root at 80 digits, which is taken for its root as a double. -/
theorem exists_root (x : Double) : ∃ d, x.toDecimal.squareRoot = .ok d ∧
    d.toNearestDouble = x.squareRoot.toDecimal ∧ x.HasRoot Format.working d ∧
      x.HasRoot Format.double d.toNearestDouble := by
  cases x with
  | nan => exact ⟨.missing, rfl, rfl, .nan, .nan⟩
  | infinite s =>
    cases s with
    | false => exact ⟨.infinite false, rfl, rfl, .infinite, .infinite⟩
    | true => exact ⟨.missing, rfl, rfl, .negativeInfinite, .negativeInfinite⟩
  | finite s r =>
    rcases Nat.eq_zero_or_pos r.val with hr | hr
    · obtain rfl : r = ⟨0, by decide⟩ := Fin.ext hr
      exact ⟨.finite s 0 0, rfl, rfl, .zero s 0, .zero s 0⟩
    cases s with
    | false => exact exists_root_of_pos hr
    | true =>
      obtain ⟨c, e, hc, hdecimal, -⟩ := exists_toDecimal_of_pos true hr
      refine ⟨.missing, ?_, ?_, .negative hr, .negative hr⟩
      · simp only [hdecimal, Decimal.squareRoot, if_neg hc.ne', if_pos]
      · simp only [squareRoot, if_neg hr.ne', if_pos]
        rfl

end Double

/-- The root of a double at high precision, rounded to a double, is its root at standard
precision : both are the true root, rounded once. -/
theorem Builtin.sqrt_precisions {library : Library} (x : Double) (i : Option Decimal) (k : Bool)
    (draw : Double) :
    ∃ d, sqrt.apply .high draw [.number x.toDecimal i k] = .ok (.real d) ∧
      sqrt.apply .standard draw [.number x.toDecimal i k] = .ok (.real d.toNearestDouble) ∧
      x.HasRoot Format.working d ∧ x.HasRoot Format.double d.toNearestDouble := by
  obtain ⟨d, hroot, hdouble, hworking, hkept⟩ := x.exists_root
  refine ⟨d, ?_, ?_, hworking, hkept⟩
  · simp only [apply, realPart, ofReal, hroot]
  · simp only [apply, realPart, ofReal, onDouble, Decimal.toDouble, Decimal.isSignaling_toDecimal,
      Double.ofDecimal_toDecimal, hdouble]
    rfl

end Reckon
