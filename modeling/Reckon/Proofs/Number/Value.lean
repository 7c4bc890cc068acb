import Mathlib.Data.Nat.Prime.Basic
import Reckon.Proofs.Number.Rank

/-!
# The values of decimals and doubles

A finite decimal and a double have a rational value, an infinite double that of the power of two
behind the largest double. The decimal of a double has its value (`Double.exists_toDecimal`), and a
decimal is taken for the double that is left of its value (`Double.exists_ofDecimal`). So writing
a double as a decimal and taking it for a double again changes nothing
(`Double.ofDecimal_toDecimal`).
-/

namespace Reckon

-- Powers are those of core, also where there are others.
attribute [local instance (high)] instPowNat

/-- A number from its sign and its size. -/
def withSign (negative : Bool) (size : ℚ) : ℚ := if negative then -size else size

/-- The value of a finite decimal. -/
def Decimal.value : Decimal → ℚ
  | .finite s c e => withSign s (c * 10 ^ e)
  | _ => 0

namespace Decimal

/-- The first digit gives the size of a number. -/
theorem size_bounds {c : ℕ} (hc : 0 < c) (e : ℤ) :
    (10 : ℚ) ^ adjusted c e ≤ c * 10 ^ e ∧ c * (10 : ℚ) ^ e < 10 ^ (adjusted c e + 1) := by
  have hpos := digitCount_pos c
  have h10 : (0 : ℚ) < 10 ^ e := zpow_pos (by norm_num) e
  have hle : ((10 ^ (digitCount c - 1) : ℕ) : ℚ) ≤ c := by exact_mod_cast pow_digitCount_le hc
  have hlt : (c : ℚ) < (10 ^ digitCount c : ℕ) := by exact_mod_cast lt_pow_digitCount c
  constructor
  · rw [show adjusted c e = (digitCount c - 1 : ℕ) + e by unfold adjusted; omega,
      zpow_add₀ (by norm_num), zpow_natCast]
    exact mul_le_mul_of_nonneg_right (by exact_mod_cast hle) h10.le
  · rw [show adjusted c e + 1 = (digitCount c : ℕ) + e by unfold adjusted; omega,
      zpow_add₀ (by norm_num), zpow_natCast]
    exact mul_lt_mul_of_pos_right (by exact_mod_cast hlt) h10

section

variable {c d : ℕ} {e f : ℤ}

theorem eq_zero_iff_of_size_eq (h : (c : ℚ) * 10 ^ e = d * 10 ^ f) : c = 0 ↔ d = 0 := by
  have he : (10 : ℚ) ^ e ≠ 0 := zpow_ne_zero e (by norm_num)
  have hf : (10 : ℚ) ^ f ≠ 0 := zpow_ne_zero f (by norm_num)
  constructor
  · rintro rfl
    simpa [hf] using h.symm
  · rintro rfl
    simpa [he] using h

/-- A first digit of a larger number does not stand lower. -/
theorem adjusted_le_of_size_le (hc : 0 < c) (hd : 0 < d) (h : (c : ℚ) * 10 ^ e ≤ d * 10 ^ f) :
    adjusted c e ≤ adjusted d f := by
  have hlt := ((size_bounds hc e).1.trans h).trans_lt (size_bounds hd f).2
  have := (zpow_lt_zpow_iff_right₀ (show (1 : ℚ) < 10 by norm_num)).1 hlt
  omega

/-- The first digit of a number stands where it stands, however the number is written. -/
theorem adjusted_eq_of_size_eq (hc : 0 < c) (h : (c : ℚ) * 10 ^ e = d * 10 ^ f) :
    adjusted c e = adjusted d f := by
  have hd : 0 < d := Nat.pos_of_ne_zero fun hd => hc.ne' ((eq_zero_iff_of_size_eq h).2 hd)
  exact le_antisymm (adjusted_le_of_size_le hc hd h.le) (adjusted_le_of_size_le hd hc h.ge)

/-- A number reaches a power of ten if its first digit stands as high. -/
theorem pow_le_size_iff (hc : 0 < c) (k : ℤ) : (10 : ℚ) ^ k ≤ c * 10 ^ e ↔ k ≤ adjusted c e := by
  obtain ⟨hle, hlt⟩ := size_bounds hc e
  constructor
  · intro h
    have := (zpow_lt_zpow_iff_right₀ (show (1 : ℚ) < 10 by norm_num)).1 (h.trans_lt hlt)
    omega
  · intro h
    exact (zpow_le_zpow_right₀ (by norm_num) h).trans hle

end

end Decimal

namespace Double

/-- The rank of a double; a missing number has that of zero. -/
def rank : Double → ℕ
  | .finite _ r => r
  | .infinite _ => infinityRank
  | .nan => 0

/-- The value of a double. Infinity is read as the power of two behind the largest double. -/
def value : Double → ℚ
  | .finite s r => withSign s (rankValue r)
  | .infinite s => withSign s (rankValue infinityRank)
  | .nan => 0

@[simp]
theorem ofRank_val (s : Bool) (r : Fin infinityRank) : ofRank s r = .finite s r :=
  dif_pos r.isLt

/-- Every number has a sign and a rank. -/
theorem exists_ofRank {x : Double} (h : x ≠ .nan) :
    ∃ s r, r ≤ infinityRank ∧ x = ofRank s r := by
  cases x with
  | finite s r => exact ⟨s, r, r.isLt.le, (ofRank_val s r).symm⟩
  | infinite s => exact ⟨s, infinityRank, le_rfl, by simp [ofRank]⟩
  | nan => exact absurd rfl h

theorem ofRank_ne_nan (s : Bool) (r : ℕ) : ofRank s r ≠ .nan := by
  unfold ofRank
  split <;> exact fun h => by cases h

theorem rank_ofRank (s : Bool) {r : ℕ} (h : r ≤ infinityRank) : (ofRank s r).rank = r := by
  unfold ofRank
  split
  · rfl
  · exact le_antisymm (not_lt.1 ‹_›) h

theorem value_ofRank (s : Bool) {r : ℕ} (h : r ≤ infinityRank) :
    (ofRank s r).value = withSign s (rankValue r) := by
  unfold ofRank
  split
  · rfl
  · rw [le_antisymm h (not_lt.1 ‹_›)]
    rfl

/-! ## The decimal of a double -/

/-- A divisor of a power of two is one. -/
theorem eq_two_pow_log2 {d n : ℕ} (h : d ∣ 2 ^ n) : d = 2 ^ d.log2 := by
  obtain ⟨k, -, rfl⟩ := (Nat.dvd_prime_pow Nat.prime_two).1 h
  rw [Nat.log2_two_pow]

/-- A quotient by a power of two in lowest terms is a decimal with as many places. -/
theorem lowest_terms {u : ℕ} (hu : 0 < u) (n : ℕ) :
    ((u / u.gcd (2 ^ n) * 5 ^ (2 ^ n / u.gcd (2 ^ n)).log2 : ℕ) : ℚ) *
      10 ^ (-((2 ^ n / u.gcd (2 ^ n)).log2 : ℤ)) = u / (2 ^ n : ℕ) := by
  have hpow := eq_two_pow_log2 (Nat.div_dvd_of_dvd (Nat.gcd_dvd_right u (2 ^ n)))
  have hone := Nat.mul_div_cancel' (Nat.gcd_dvd_right u (2 ^ n))
  have hunits := Nat.mul_div_cancel' (Nat.gcd_dvd_left u (2 ^ n))
  have hg : (u.gcd (2 ^ n) : ℚ) ≠ 0 := by exact_mod_cast (Nat.gcd_pos_of_pos_left _ hu).ne'
  generalize (2 ^ n / u.gcd (2 ^ n)).log2 = p at hpow ⊢
  generalize u / u.gcd (2 ^ n) = a at hunits ⊢
  generalize u.gcd (2 ^ n) = g at *
  rw [← hone, hpow, ← hunits, zpow_neg, zpow_natCast, show (10 : ℚ) = 5 * 2 by norm_num, mul_pow]
  push_cast
  field_simp

/-- Places behind the point are needed : the coefficient in lowest terms is odd. -/
theorem not_dvd_lowest_terms {u : ℕ} (hu : 0 < u) (n : ℕ)
    (hplaces : 0 < (2 ^ n / u.gcd (2 ^ n)).log2) :
    ¬ 10 ∣ u / u.gcd (2 ^ n) * 5 ^ (2 ^ n / u.gcd (2 ^ n)).log2 := by
  have hpow := eq_two_pow_log2 (Nat.div_dvd_of_dvd (Nat.gcd_dvd_right u (2 ^ n)))
  have hcoprime := Nat.coprime_div_gcd_div_gcd (Nat.gcd_pos_of_pos_left (2 ^ n) hu)
  have hodd : Nat.Coprime (u / u.gcd (2 ^ n)) 2 := by
    rw [hpow] at hcoprime
    exact Nat.Coprime.coprime_dvd_right (dvd_pow_self 2 hplaces.ne') hcoprime
  intro h
  have htwo : 2 ∣ u / u.gcd (2 ^ n) * 5 ^ (2 ^ n / u.gcd (2 ^ n)).log2 :=
    Dvd.dvd.trans (by decide) h
  rcases (Nat.Prime.dvd_mul Nat.prime_two).1 htwo with h | h
  · exact absurd (hodd.symm.eq_one_of_dvd h) (by decide)
  · exact absurd (Nat.prime_two.dvd_of_dvd_pow h) (by decide)

/-- The decimal of a finite double has its sign and its value. -/
theorem exists_toDecimal (s : Bool) (r : Fin infinityRank) :
    ∃ (c : ℕ) (e : ℤ), toDecimal (.finite s r) = .finite s c e ∧
      c * (10 : ℚ) ^ e = rankValue r := by
  simp only [toDecimal]
  split
  · rename_i h
    exact ⟨0, 0, rfl, by rw [rankValue, h, Nat.cast_zero, zero_mul, zero_div]⟩
  · refine ⟨_, _, rfl, ?_⟩
    rw [rankValue, unitsOfOne.eq_1]
    exact lowest_terms (by omega) 1074

/-- The decimal of a double has no more places than its value needs. -/
theorem places_toDecimal {x : Double} {s : Bool} {c : ℕ} {e : ℤ}
    (h : x.toDecimal = .finite s c e) : e ≤ 0 ∧ (e < 0 → ¬ 10 ∣ c) := by
  cases x with
  | nan | infinite => cases h
  | finite t r =>
    simp only [toDecimal] at h
    split at h
    · obtain ⟨-, -, rfl⟩ := Decimal.finite.inj h
      exact ⟨le_rfl, fun he => absurd he (lt_irrefl 0)⟩
    · rename_i hu
      obtain ⟨-, rfl, rfl⟩ := Decimal.finite.inj h
      rw [unitsOfOne.eq_1]
      exact ⟨by omega, fun he => not_dvd_lowest_terms (by omega) 1074 (by omega)⟩

/-! ## The double of a decimal -/

theorem unitsOfOne_pos : 0 < unitsOfOne := by
  rw [unitsOfOne]
  positivity

/-- The size of a decimal as a quotient of units. -/
theorem size_eq_quotient (c : ℕ) (e : ℤ) :
    (c : ℚ) * 10 ^ e = ((c * 10 ^ e.toNat * unitsOfOne : ℕ) : ℚ) / (10 ^ (-e).toNat : ℕ) *
      Format.double.place (-1074) := by
  have hone : (unitsOfOne : ℚ) ≠ 0 := by exact_mod_cast unitsOfOne_pos.ne'
  rw [place_unit]
  generalize unitsOfOne = one at hone
  obtain ⟨n, rfl | rfl⟩ := e.eq_nat_or_neg
  · simp [field]
  · simp [field]

/-- The size of a decimal leaves a double. -/
theorem rounds_size (c : ℕ) (e : ℤ) :
    Rounds (c * 10 ^ e) (nearestRank (c * 10 ^ e.toNat * unitsOfOne) (10 ^ (-e).toNat)) := by
  rw [size_eq_quotient]
  exact rounds_nearestRank _ (Nat.pow_pos (by decide))

theorem rankValue_le_pow {r n : ℕ} (h : units r ≤ 10 ^ n * unitsOfOne) :
    rankValue r ≤ 10 ^ (n : ℤ) := by
  rw [zpow_natCast, rankValue, div_le_iff₀ (by exact_mod_cast unitsOfOne_pos)]
  exact_mod_cast h

theorem natCast_le_rankValue {r n : ℕ} (h : n * unitsOfOne ≤ units r) : n ≤ rankValue r := by
  rw [rankValue, le_div_iff₀ (by exact_mod_cast unitsOfOne_pos)]
  exact_mod_cast h

/-- A rank reaches a power of ten if its units do. -/
theorem pow_le_rankValue_iff (r : ℕ) (k : ℤ) : (10 : ℚ) ^ k ≤ rankValue r ↔
    10 ^ k.toNat * unitsOfOne ≤ units r * 10 ^ (-k).toNat := by
  have hunit := Format.place_pos (F := Format.double) (-1074)
  have hpow : (0 : ℚ) < ((10 ^ (-k).toNat : ℕ) : ℚ) := by positivity
  have hsize := size_eq_quotient 1 k
  rw [Nat.cast_one, one_mul, Nat.one_mul] at hsize
  rw [hsize, rankValue_eq, mul_le_mul_iff_left₀ hunit, div_le_iff₀ hpow]
  exact_mod_cast Iff.rfl

/-- No double reaches `10 ^ 311`. -/
theorem rankValue_le {r : ℕ} (hr : r ≤ infinityRank) : rankValue r ≤ 10 ^ (311 : ℤ) :=
  (rankValue_strictMono.monotone hr).trans (rankValue_le_pow (n := 311) (by decide +kernel))

/-- The smallest double reaches `10 ^ -328`. -/
theorem le_rankValue {r : ℕ} (hr : 0 < r) : 10 ^ (-328 : ℤ) ≤ rankValue r :=
  ((pow_le_rankValue_iff 1 (-328)).2 (by decide +kernel)).trans (rankValue_strictMono.monotone hr)

/-- The double of a finite decimal has its sign and is what is left of its size. -/
theorem exists_ofDecimal (s : Bool) (c : ℕ) (e : ℤ) :
    ∃ r, ofDecimal (.finite s c e) = ofRank s r ∧ Rounds (c * 10 ^ e) r := by
  refine ⟨_, ?_, rounds_size c e⟩
  have hr := rounds_size c e
  have hsize : (0 : ℚ) ≤ c * 10 ^ e := by positivity
  simp only [ofDecimal]
  split
  · rename_i hc
    have hpos := rankValue_strictMono Nat.zero_lt_one
    rw [rankValue_zero] at hpos
    rw [hr.eq_zero hsize (by simpa [hc] using hpos)]
    rfl
  rename_i hc
  obtain ⟨hle, hlt⟩ := Decimal.size_bounds (Nat.pos_of_ne_zero hc) e
  split
  · rename_i hfirst
    have hpow : (10 : ℚ) ^ (311 : ℤ) ≤ 10 ^ Decimal.adjusted c e :=
      zpow_le_zpow_right₀ (by norm_num) (by omega)
    rw [hr.eq_infinityRank ((rankValue_le le_rfl).trans (hpow.trans hle))]
    rfl
  split
  · rename_i hfirst
    have hone := le_rankValue Nat.one_pos
    have hpow : (10 : ℚ) ^ (Decimal.adjusted c e + 2) ≤ 10 ^ (-328 : ℤ) :=
      zpow_le_zpow_right₀ (by norm_num) (by omega)
    rw [show Decimal.adjusted c e + 2 = Decimal.adjusted c e + 1 + 1 by ring,
      zpow_add_one₀ (by norm_num)] at hpow
    rw [hr.eq_zero hsize (by linarith)]
    rfl
  · rfl

theorem ofDecimal_of_rounds (s : Bool) {c r : ℕ} {e : ℤ} (h : Rounds (c * 10 ^ e) r) :
    ofDecimal (.finite s c e) = ofRank s r := by
  obtain ⟨k, hk, hround⟩ := exists_ofDecimal s c e
  rw [hk, hround.unique h]

/-- A decimal that is taken for a double leaves that double. -/
theorem rounds_of_ofDecimal {s t : Bool} {c : ℕ} {e : ℤ} {r : Fin infinityRank}
    (h : ofDecimal (.finite t c e) = .finite s r) : Rounds (c * 10 ^ e) r := by
  obtain ⟨k, hk, hround⟩ := exists_ofDecimal t c e
  have hrank := congrArg rank (hk.symm.trans h)
  rw [rank_ofRank t hround.le] at hrank
  change k = r at hrank
  rwa [hrank] at hround

/-- A decimal that leaves more than zero is not zero. -/
theorem Rounds.pos {c r : ℕ} {e : ℤ} (h : Rounds (c * 10 ^ e) r) (hr : r ≠ 0) : 0 < c := by
  refine Nat.pos_of_ne_zero ?_
  rintro rfl
  rw [Nat.cast_zero, zero_mul, ← rankValue_zero] at h
  exact hr (h.unique (rounds_rankValue (Nat.zero_le _)))

/-- A decimal that is not larger than a finite double has a finite double. -/
theorem exists_finite (s : Bool) {c : ℕ} {e : ℤ} {r : ℕ} (hr : r < infinityRank)
    (h : c * 10 ^ e ≤ rankValue r) : ∃ q, ofDecimal (.finite s c e) = .finite s q := by
  obtain ⟨q, hdouble, hq⟩ := exists_ofDecimal s c e
  have hlt := (hq.mono (rounds_rankValue hr.le) h).trans_lt hr
  exact ⟨⟨q, hlt⟩, by rw [hdouble, ofRank, dif_pos hlt]⟩

/-- A double is the double of its decimal. -/
theorem ofDecimal_toDecimal (x : Double) : ofDecimal x.toDecimal = x := by
  cases x with
  | nan => rfl
  | infinite s => rfl
  | finite s r =>
    obtain ⟨c, e, hdecimal, hvalue⟩ := exists_toDecimal s r
    rw [hdecimal, ofDecimal_of_rounds s (hvalue ▸ rounds_rankValue r.isLt.le), ofRank_val]

end Double

end Reckon
