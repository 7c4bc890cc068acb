import Reckon.Proofs.Number.Literal
import Reckon.Proofs.Number.Remainder

/-!
# Whole numbers as doubles

A double is a whole number if its units make up whole ones, and up to `2 ^ 53` every whole number is
a double (`isDouble_intCast`). The remainder of two such doubles is the remainder of the whole
numbers with the sign of the dividend (`Double.remainder_intCast`), and the remainder that flooring
leaves is that with the sign of the divisor (`exactRemainder_intCast`). They are remainders of the
same division (`IsRemainder`) and differ by the divisor if their signs differ.
-/

namespace Reckon

namespace Double

variable {s t : Bool} {r q : Fin infinityRank} {i j k : ℤ}

/-- The double is a finite number. -/
def IsFinite : Double → Prop
  | .finite .. => True
  | _ => False

theorem rankValue_of_value (h : (Double.finite s r).value = k) : rankValue r = k.natAbs := by
  rw [Nat.cast_natAbs, Int.cast_abs, ← h, value, Decimal.abs_withSign (rankValue_nonneg r)]

/-- A whole number counts as many units. -/
theorem units_of_value (h : (Double.finite s r).value = k) :
    units r = k.natAbs * unitsOfOne := by
  have hone : (unitsOfOne : ℚ) ≠ 0 := by exact_mod_cast unitsOfOne_pos.ne'
  have hunits := rankValue_of_value h
  rw [rankValue, div_eq_iff hone] at hunits
  exact_mod_cast hunits

/-- A finite double is a whole number if its units make up whole ones. -/
theorem isInteger_iff (y : Double) :
    y.isInteger = true ↔ y.IsFinite ∧ ∃ k : ℤ, y.value = k := by
  cases y with
  | nan | infinite => simp [isInteger, IsFinite]
  | finite s r =>
    rw [isInteger, beq_iff_eq, IsFinite, true_and]
    constructor
    · intro h
      have hone : (unitsOfOne : ℚ) ≠ 0 := by exact_mod_cast unitsOfOne_pos.ne'
      refine ⟨Decimal.signed s (units r / unitsOfOne), ?_⟩
      rw [← Decimal.withSign_natCast, value, rankValue,
        Nat.cast_div (Nat.dvd_of_mod_eq_zero h) hone]
    · rintro ⟨k, h⟩
      rw [units_of_value h, Nat.mul_mod_left]

/-- The test for odd numbers finds the odd whole numbers. -/
theorem isOddInteger_iff (y : Double) :
    y.isOddInteger = true ↔ y.IsFinite ∧ ∃ k : ℤ, y.value = k ∧ Odd k := by
  cases y with
  | nan | infinite => simp [isOddInteger, IsFinite]
  | finite s r =>
    have hodd {k : ℤ} (h : (Double.finite s r).value = k) :
        units r / unitsOfOne % 2 = 1 ↔ Odd k := by
      rw [units_of_value h, Nat.mul_div_cancel _ unitsOfOne_pos, ← Nat.odd_iff, Int.natAbs_odd]
    have hwhole : units r % unitsOfOne = 0 ↔ ∃ k : ℤ, (Double.finite s r).value = k := by
      simpa [isInteger, IsFinite] using isInteger_iff (.finite s r)
    rw [isOddInteger, Bool.and_eq_true, beq_iff_eq, beq_iff_eq, hwhole, IsFinite, true_and]
    constructor
    · rintro ⟨⟨k, h⟩, hbit⟩
      exact ⟨k, h, (hodd h).1 hbit⟩
    · rintro ⟨k, h, hk⟩
      exact ⟨⟨k, h⟩, (hodd h).2 hk⟩

/-- What the format holds below infinity is the value of a rank. -/
theorem exists_rankValue_eq {y : ℚ} (h : Format.double.Holds y) (hy : y < rankValue infinityRank) :
    ∃ r : Fin infinityRank, rankValue r = y := by
  obtain ⟨_, n, -, hround⟩ := exists_rounds h.nonneg
  obtain rfl := hround.unique (Format.rounds_self h)
  exact ⟨⟨n, rankValue_strictMono.lt_iff_lt.1 hy⟩, rfl⟩

/-- Up to `2 ^ 53` every natural number is the value of a rank. -/
theorem exists_rankValue_natCast {n : ℕ} (hn : n ≤ 2 ^ 53) :
    ∃ r : Fin infinityRank, rankValue r = n := by
  have hholds : Format.double.Holds n := by
    rcases hn.lt_or_eq with hlt | rfl
    · exact ⟨n, 0, hlt, by decide, by simp [Format.place]⟩
    · refine ⟨2 ^ 52, 1, by decide, by decide, ?_⟩
      norm_num [Format.place, Format.base, Format.double]
  refine exists_rankValue_eq hholds ?_
  calc (n : ℚ) ≤ (2 ^ 53 : ℕ) := by exact_mod_cast hn
    _ ≤ rankValue 0x7FE0000000000000 := natCast_le_rankValue (by decide +kernel)
    _ < rankValue infinityRank := rankValue_strictMono (by decide)

end Double

/-- Up to `2 ^ 53` every whole number is a double. -/
theorem isDouble_intCast {k : ℤ} (h : k.natAbs ≤ 2 ^ 53) : IsDouble k := by
  obtain ⟨r, hr⟩ := Double.exists_rankValue_natCast h
  refine ⟨decide (k < 0), r, ?_⟩
  rw [Double.value, hr, Nat.cast_natAbs, Int.cast_abs]
  simpa using Decimal.withSign_decide (k : ℚ)

/-- A whole number up to `2 ^ 53` is taken for the double that it is. -/
theorem Decimal.exists_toDouble_intCast {s : Bool} {c : ℕ} {e i : ℤ}
    (h : (Decimal.finite s c e).value = i) (hi : i.natAbs ≤ 2 ^ 53) :
    ∃ r : Fin infinityRank, (Decimal.finite s c e).toDouble = .ok (.finite s r) ∧
      (Double.finite s r).value = i := by
  obtain ⟨r, hr⟩ := Double.exists_rankValue_natCast hi
  have hsize : (c : ℚ) * 10 ^ e = Double.rankValue r := by
    rw [hr, Nat.cast_natAbs, Int.cast_abs, ← h, value, abs_withSign (by positivity)]
  refine ⟨r, ?_, by rw [Double.value, ← hsize, ← h, value]⟩
  have hrounds := Double.rounds_rankValue r.isLt.le
  rw [← hsize] at hrounds
  simp only [toDouble, isSignaling, Bool.false_eq_true, if_false]
  rw [Double.ofDecimal_of_rounds s hrounds, Double.ofRank_val]

/-! ## Remainders -/

/-- The remainder of the sizes, with the sign of the dividend. -/
theorem withSign_mod_natAbs {s : Bool} {i : ℤ} (h : withSign s i.natAbs = i) (j : ℤ) :
    withSign s (i.natAbs % j.natAbs : ℕ) = (i.tmod j : ℤ) := by
  have hsize (n : ℕ) : ((n % j.natAbs : ℕ) : ℤ) = (n : ℤ).tmod j := by
    rcases j.eq_nat_or_neg with ⟨m, rfl | rfl⟩
    · exact Int.ofNat_tmod n m
    · rw [Int.tmod_neg, Int.natAbs_neg]
      exact Int.ofNat_tmod n m
  cases s with
  | false =>
    have hi : (i : ℚ) = (i.natAbs : ℤ) := h.symm
    obtain ⟨n, rfl⟩ : ∃ n : ℕ, i = n := ⟨i.natAbs, Int.cast_injective hi⟩
    rw [← hsize]
    rfl
  | true =>
    have hi : (i : ℚ) = (-i.natAbs : ℤ) := by
      rw [Int.cast_neg, Int.cast_natCast]
      exact h.symm
    obtain ⟨n, rfl⟩ : ∃ n : ℕ, i = -n := ⟨i.natAbs, Int.cast_injective hi⟩
    rw [Int.neg_tmod, ← hsize, Int.natAbs_neg, Int.natAbs_natCast, Int.cast_neg]
    rfl

namespace Double

variable {s t : Bool} {r q : Fin infinityRank} {i j : ℤ}

/-- The remainder of doubles that are whole numbers has the sign of the dividend. -/
theorem remainder_intCast (hr : (Double.finite s r).value = i) (hq : (Double.finite t q).value = j)
    (hj : j ≠ 0) (hj' : j.natAbs ≤ 2 ^ 53) : ∃ m : Fin infinityRank,
      remainder (.finite s r) (.finite t q) = .finite s m ∧
        (Double.finite s m).value = (i.tmod j : ℤ) := by
  have hpos := Int.natAbs_pos.2 hj
  have hlt := Nat.mod_lt i.natAbs hpos
  obtain ⟨m, hm⟩ := exists_rankValue_natCast (hlt.le.trans hj')
  have hne : q.val ≠ 0 := by
    intro hzero
    rw [value, hzero, rankValue_zero] at hq
    exact hj (by cases t <;> simpa [withSign] using hq.symm)
  have hround := rounds_nearestRank (i.natAbs % j.natAbs * unitsOfOne) Nat.one_pos
  have hvalue : ((i.natAbs % j.natAbs * unitsOfOne : ℕ) : ℚ) / (1 : ℕ) *
      Format.double.place (-1074) = rankValue m := by
    have hone : (unitsOfOne : ℚ) ≠ 0 := by exact_mod_cast unitsOfOne_pos.ne'
    rw [hm, place_unit, Nat.cast_mul, Nat.cast_one, div_one, mul_assoc, mul_inv_cancel₀ hone,
      mul_one]
  rw [hvalue] at hround
  refine ⟨m, ?_, ?_⟩
  · rw [remainder, if_neg hne, units_of_value hr, units_of_value hq, Nat.mul_mod_mul_right,
      hround.unique (rounds_rankValue m.isLt.le), ofRank_val]
  · rw [value, hm]
    exact withSign_mod_natAbs (by rw [← rankValue_of_value hr]; exact hr) j

end Double

/-- The floor of a quotient of whole numbers. -/
theorem floor_intCast_div (i j : ℤ) : ⌊(i : ℚ) / j⌋ = i.fdiv j := by
  have hpositive (i : ℤ) (n : ℕ) : ⌊(i : ℚ) / n⌋ = i.fdiv n := by
    rw [Int.fdiv_eq_ediv_of_nonneg i (Int.natCast_nonneg n), Rat.floor_intCast_div_natCast]
  rcases j.eq_nat_or_neg with ⟨n, rfl | rfl⟩
  · exact hpositive i n
  · rw [← Int.neg_fdiv_neg, neg_neg, ← hpositive, Int.cast_neg, Int.cast_neg, Int.cast_natCast,
      div_neg, neg_div]

/-- Flooring leaves a whole number of a whole number. -/
theorem exactRemainder_intCast (i j : ℤ) : exactRemainder i j = (i.fmod j : ℤ) := by
  rw [exactRemainder, floor_intCast_div, Int.fmod_def]
  push_cast
  ring

/-- A remainder of `i` by `j`, with the sign of `like`. -/
structure IsRemainder (i j like r : ℤ) : Prop where
  /-- It is smaller than the divisor. -/
  lt : |r| < |j|
  /-- The rest is a multiple of the divisor. -/
  dvd : j ∣ i - r
  /-- It is zero or has the sign. -/
  sign : r = 0 ∨ r.sign = like.sign

theorem isRemainder_tmod (i : ℤ) {j : ℤ} (hj : j ≠ 0) : IsRemainder i j i (i.tmod j) where
  lt := by
    rw [Int.abs_eq_natAbs, Int.abs_eq_natAbs, Int.natAbs_tmod]
    exact_mod_cast Nat.mod_lt i.natAbs (Int.natAbs_pos.2 hj)
  dvd := Int.dvd_self_sub_tmod
  sign := by
    rw [Int.sign_tmod]
    split
    · exact .inl (Int.tmod_eq_zero_of_dvd ‹_›)
    · exact .inr rfl

theorem isRemainder_fmod (i : ℤ) {j : ℤ} (hj : j ≠ 0) : IsRemainder i j j (i.fmod j) := by
  obtain ⟨hsign, hlt⟩ := exactRemainder_bounds (x := i) (show (j : ℚ) ≠ 0 by exact_mod_cast hj)
  rw [exactRemainder_intCast] at hsign hlt
  refine ⟨by exact_mod_cast hlt, Int.dvd_self_sub_fmod, ?_⟩
  have hsign : 0 ≤ j * i.fmod j := by exact_mod_cast hsign
  generalize i.fmod j = r at hsign
  rcases lt_trichotomy r 0 with hr | rfl | hr
  · have hj : j < 0 := lt_of_le_of_ne (nonpos_of_mul_nonneg_left hsign hr) hj
    exact .inr (by rw [Int.sign_eq_neg_one_of_neg hr, Int.sign_eq_neg_one_of_neg hj])
  · exact .inl rfl
  · have hj : 0 < j := lt_of_le_of_ne (nonneg_of_mul_nonneg_left hsign hr) hj.symm
    exact .inr (by rw [Int.sign_eq_one_of_pos hr, Int.sign_eq_one_of_pos hj])

/-- The remainder with the sign of the divisor is the one with the sign of the dividend if that has
both, and otherwise it is larger by the divisor. -/
theorem fmod_eq_ite (i : ℤ) {j : ℤ} (hj : j ≠ 0) : i.fmod j =
    if i.tmod j = 0 ∨ (i.tmod j).sign = j.sign then i.tmod j else i.tmod j + j := by
  by_cases h : j ∣ i
  · rw [Int.fmod_eq_zero_of_dvd h, Int.tmod_eq_zero_of_dvd h, if_pos (.inl rfl)]
  have hi : i ≠ 0 := by
    rintro rfl
    exact h (dvd_zero j)
  have hne : i.tmod j ≠ 0 := mt Int.dvd_of_tmod_eq_zero h
  simp only [Int.fmod_eq_tmod, hne, Int.sign_tmod, if_neg h, false_or]
  rcases hi.lt_or_gt with hi | hi <;> rcases hj.lt_or_gt with hj | hj
  · rw [if_neg hi.not_ge, if_neg hj.not_ge, Int.sign_eq_neg_one_of_neg hi,
      Int.sign_eq_neg_one_of_neg hj]
    simp [hj.le]
  · rw [if_neg hi.not_ge, if_pos hj.le, Int.sign_eq_neg_one_of_neg hi, Int.sign_eq_one_of_pos hj]
    simp [hj.le]
  · rw [if_pos hi.le, if_neg hj.not_ge, Int.sign_eq_one_of_pos hi, Int.sign_eq_neg_one_of_neg hj]
    simp
  · rw [if_pos hi.le, if_pos hj.le, Int.sign_eq_one_of_pos hi, Int.sign_eq_one_of_pos hj]
    simp

end Reckon
