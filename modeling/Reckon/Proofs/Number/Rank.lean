import Mathlib.Tactic.FieldSimp
import Reckon.Number.Double.Decimal
import Reckon.Proofs.Number.Format

/-!
# The ranks of doubles
-/

namespace Reckon

/-- Doubles without a largest one : 53 binary digits, the last of which stands at `2 ^ -1074` at
least. -/
def Format.double : Format where
  half := 1
  half_pos := by decide
  digits := 53
  digits_pos := by decide
  least := -1074

namespace Double

/-! ## Ranks -/

/-- The rank of `m` last places of the `k`th size. -/
theorem units_eq {k m : ℕ} (hm : m ≤ 2 ^ 53) (hk : k = 0 ∨ 2 ^ 52 ≤ m) :
    units (k * 2 ^ 52 + m) = m * 2 ^ k := by
  unfold units
  rcases Nat.lt_or_ge m (2 ^ 52) with hlt | hge
  · obtain rfl := hk.resolve_right (by omega)
    rw [if_pos (by omega)]
    simp
  rw [if_neg (by omega)]
  rcases hm.lt_or_eq with hlt | rfl
  · rw [show (k * 2 ^ 52 + m) % 2 ^ 52 = m - 2 ^ 52 by omega,
      show (k * 2 ^ 52 + m) / 2 ^ 52 - 1 = k by omega, Nat.add_sub_cancel' hge]
  · rw [show (k * 2 ^ 52 + 2 ^ 53) % 2 ^ 52 = 0 by omega,
      show (k * 2 ^ 52 + 2 ^ 53) / 2 ^ 52 - 1 = k + 1 by omega, Nat.add_zero, ← Nat.pow_add,
      ← Nat.pow_add]
    congr 1
    omega

/-- Every rank is of the form of `units_eq`. -/
theorem exists_rank_eq (r : ℕ) :
    ∃ k m, r = k * 2 ^ 52 + m ∧ m < 2 ^ 53 ∧ (k = 0 ∨ 2 ^ 52 ≤ m) := by
  rcases Nat.lt_or_ge r (2 ^ 52) with h | h
  · exact ⟨0, r, by omega, by omega, .inl rfl⟩
  · exact ⟨r / 2 ^ 52 - 1, 2 ^ 52 + r % 2 ^ 52, by omega, by omega, .inr (by omega)⟩

theorem units_strictMono : StrictMono units := by
  refine strictMono_nat_of_lt_succ fun r => ?_
  obtain ⟨k, m, rfl, hm, hk⟩ := exists_rank_eq r
  rw [units_eq hm.le hk, Nat.add_assoc, units_eq hm (hk.imp_right fun h => by omega)]
  exact Nat.mul_lt_mul_of_pos_right (Nat.lt_succ_self m) (Nat.pow_pos (by decide))

/-- The value of a rank. -/
def rankValue (r : ℕ) : ℚ := units r / unitsOfOne

/-- A place of doubles behind the point. -/
theorem place_neg (n : ℕ) : Format.double.place (-n) = ((2 ^ n : ℕ) : ℚ)⁻¹ := by
  rw [Format.place, zpow_neg, zpow_natCast, Nat.cast_pow]
  rfl

theorem place_unit : Format.double.place (-1074) = (unitsOfOne : ℚ)⁻¹ := by
  rw [show (-1074 : ℤ) = -(1074 : ℕ) from rfl, place_neg, unitsOfOne]

theorem rankValue_eq (r : ℕ) : rankValue r = units r * Format.double.place (-1074) := by
  rw [place_unit, rankValue, div_eq_mul_inv]

theorem rankValue_strictMono : StrictMono rankValue := fun _ _ h => by
  rw [rankValue_eq, rankValue_eq]
  exact mul_lt_mul_of_pos_right (by exact_mod_cast units_strictMono h) (Format.place_pos _)

theorem rankValue_nonneg (r : ℕ) : 0 ≤ rankValue r :=
  div_nonneg (Nat.cast_nonneg _) (Nat.cast_nonneg _)

theorem rankValue_zero : rankValue 0 = 0 := by
  rw [rankValue, units, if_pos (by decide), Nat.cast_zero, zero_div]

/-- A place of doubles as a number of units. -/
theorem place_units (n : ℕ) :
    Format.double.place (n - 1074) = (2 ^ n : ℕ) * Format.double.place (-1074) := by
  rw [sub_eq_add_neg, Format.place_add, Format.place_natCast]
  rfl

/-- The value of a rank as a number of last places. -/
theorem rankValue_eq_mul {k m : ℕ} (hm : m ≤ 2 ^ 53) (hk : k = 0 ∨ 2 ^ 52 ≤ m) :
    rankValue (k * 2 ^ 52 + m) = m * Format.double.place (k - 1074) := by
  rw [rankValue_eq, units_eq hm hk, place_units, Nat.cast_mul, mul_assoc]

/-- Every rank is held. -/
theorem holds_rankValue (r : ℕ) : Format.double.Holds (rankValue r) := by
  obtain ⟨k, m, rfl, hm, hk⟩ := exists_rank_eq r
  exact ⟨m, k - 1074, hm, show (-1074 : ℤ) ≤ k - 1074 by omega, rankValue_eq_mul hm.le hk⟩

/-- What ends with an even digit has an even rank. -/
theorem even_of_endsEven {r : ℕ} (h : Format.double.EndsEven (rankValue r)) : r % 2 = 0 := by
  obtain ⟨k, m, hk, hm, hfirst, hr, heven⟩ := h
  obtain ⟨j, rfl⟩ : ∃ j : ℕ, k = j - 1074 :=
    ⟨(k + 1074).toNat, by change -1074 ≤ k at hk; omega⟩
  have hj : j = 0 ∨ 2 ^ 52 ≤ m := hfirst.imp_left fun h => by
    change (j : ℤ) - 1074 = -1074 at h
    omega
  rw [← rankValue_eq_mul hm hj] at hr
  rw [rankValue_strictMono.injective hr]
  omega

/-! ## The nearest rank -/

/-- The double of rank `r` is what is left of the number `q`, and from the rank of infinity on it
is infinite. -/
def Rounds (q : ℚ) (r : ℕ) : Prop :=
  ∃ j, r = min j infinityRank ∧ Format.double.Rounds q (rankValue j)

variable {q q' : ℚ} {r r' : ℕ}

theorem Rounds.le (h : Rounds q r) : r ≤ infinityRank := by
  obtain ⟨j, rfl, -⟩ := h
  exact Nat.min_le_right _ _

theorem Rounds.mono (h : Rounds q r) (h' : Rounds q' r') (hq : q ≤ q') : r ≤ r' := by
  obtain ⟨j, rfl, hj⟩ := h
  obtain ⟨j', rfl, hj'⟩ := h'
  exact min_le_min_right _ (rankValue_strictMono.le_iff_le.1 (hj.mono hj' hq))

theorem Rounds.unique (h : Rounds q r) (h' : Rounds q r') : r = r' :=
  le_antisymm (h.mono h' le_rfl) (h'.mono h le_rfl)

/-- A double is left as it is. -/
theorem rounds_rankValue (hr : r ≤ infinityRank) : Rounds (rankValue r) r :=
  ⟨r, (Nat.min_eq_left hr).symm, Format.rounds_self (holds_rankValue r)⟩

/-- A number from infinity's value on becomes infinite. -/
theorem Rounds.eq_infinityRank (h : Rounds q r) (hq : rankValue infinityRank ≤ q) :
    r = infinityRank :=
  le_antisymm h.le ((rounds_rankValue le_rfl).mono h hq)

/-- No double is nearer, and if another is as near, the rank is even. -/
theorem Rounds.closest (h : Rounds q r) {s : ℕ} (hs : s ≤ infinityRank) :
    |q - rankValue r| ≤ |q - rankValue s| ∧
      (|q - rankValue r| = |q - rankValue s| → s = r ∨ r % 2 = 0) := by
  obtain ⟨j, rfl, hj⟩ := h
  rcases le_or_gt j infinityRank with hle | hgt
  · rw [min_eq_left hle]
    obtain ⟨hnear, htie⟩ := hj.closest (holds_rankValue s)
    exact ⟨hnear, fun e => (htie e).imp (fun h => rankValue_strictMono.injective h)
      even_of_endsEven⟩
  · -- All doubles lie below the number, infinity nearest to it.
    rw [min_eq_right hgt.le]
    have hq : rankValue infinityRank < q := lt_of_not_ge fun h => absurd
      (rankValue_strictMono.le_iff_le.1 (hj.mono (Format.rounds_self (holds_rankValue _)) h))
      (not_le.2 hgt)
    have hsq := rankValue_strictMono.monotone hs
    rw [abs_of_pos (sub_pos.2 hq), abs_of_pos (sub_pos.2 (hsq.trans_lt hq))]
    exact ⟨by linarith, fun _ => .inr (by decide)⟩

/-- Less than half of the smallest double becomes zero. -/
theorem Rounds.eq_zero (h : Rounds q r) (hq : 0 ≤ q) (hsmall : 2 * q < rankValue 1) : r = 0 := by
  have hnear := (h.closest (s := 0) (Nat.zero_le _)).1
  rw [rankValue_zero, sub_zero, abs_of_nonneg hq] at hnear
  have hlt : rankValue r < rankValue 1 := by linarith [(abs_le.1 hnear).1]
  have := rankValue_strictMono.lt_iff_lt.1 hlt
  omega

/-- The last place of a quotient of units. -/
theorem scale_quotient (n : ℕ) {d : ℕ} (hd : 0 < d) :
    Format.double.Scale (n / d * Format.double.place (-1074)) (((n / d).log2 - 52 : ℕ) - 1074) := by
  have hd' : (0 : ℚ) < d := by exact_mod_cast hd
  have hunit := Format.place_pos (F := Format.double) (-1074)
  generalize hk : (n / d).log2 - 52 = k
  have hlt : n < 2 ^ (53 + k) * d := by
    rw [← Nat.div_lt_iff_lt_mul hd]
    exact Nat.lt_of_lt_of_le Nat.lt_log2_self (Nat.pow_le_pow_right (by decide) (by omega))
  have hle : k = 0 ∨ 2 ^ (52 + k) * d ≤ n := by
    rcases Nat.eq_zero_or_pos k with rfl | hpos
    · exact .inl rfl
    · have hne : n / d ≠ 0 := by
        intro h
        simp [h] at hk
        omega
      rw [← Nat.le_div_iff_mul_le hd]
      exact .inr (Nat.le_trans (Nat.pow_le_pow_right (by decide) (by omega)) (Nat.log2_self_le hne))
  refine ⟨show (-1074 : ℤ) ≤ k - 1074 by omega, ?_, hle.imp (fun h => ?_) fun h => ?_⟩
  · rw [show (Format.double.digits : ℤ) + (k - 1074) = (53 + k : ℕ) - 1074 by
      rw [show Format.double.digits = 53 from rfl]; push_cast; ring, place_units]
    exact mul_lt_mul_of_pos_right ((div_lt_iff₀ hd').2 (by exact_mod_cast hlt)) hunit
  · rw [h]
    rfl
  · rw [show (Format.double.digits : ℤ) - 1 + (k - 1074) = (52 + k : ℕ) - 1074 by
      rw [show Format.double.digits = 53 from rfl]; push_cast; ring, place_units]
    exact mul_le_mul_of_nonneg_right ((le_div_iff₀ hd').2 (by exact_mod_cast h)) hunit.le

/-- The nearest rank of a quotient of units is the rank that is left of it. -/
theorem rounds_nearestRank (n : ℕ) {d : ℕ} (hd : 0 < d) :
    Rounds (n / d * Format.double.place (-1074)) (nearestRank n d) := by
  have hd' : (0 : ℚ) < d := by exact_mod_cast hd
  have hscale := scale_quotient n hd
  unfold nearestRank
  generalize (n / d).log2 - 52 = k at hscale ⊢
  have hnearest : Nearest (Format.double.place (k - 1074)) (n / d * Format.double.place (-1074))
      (roundHalfEven n (d * 2 ^ k)) := by
    have h := nearest_roundHalfEven
      (div_pos (Format.place_pos (F := Format.double) (-1074)) hd') n
      (Nat.mul_pos hd (Nat.pow_pos (show 0 < 2 by decide) (n := k)))
    rw [place_units]
    convert h using 1
    · push_cast
      field_simp
    · ring
  obtain ⟨hm, hfirst⟩ := hscale.bounds hnearest
  refine ⟨k * 2 ^ 52 + roundHalfEven n (d * 2 ^ k), rfl, k - 1074, _, hscale, hnearest, ?_⟩
  refine rankValue_eq_mul hm (hfirst.imp_left fun h => ?_)
  change (k : ℤ) - 1074 = -1074 at h
  omega

/-- Every number from zero on leaves a double. -/
theorem exists_rounds (hq : 0 ≤ q) : ∃ r, Rounds q r := by
  have hu := Format.place_pos (F := Format.double) (-1074)
  obtain ⟨n, d, hd, hnd⟩ := exists_eq_quotient (div_nonneg hq hu.le)
  obtain rfl := (div_eq_iff hu.ne').1 hnd
  exact ⟨_, rounds_nearestRank n hd⟩

/-- What lies between two numbers that leave the same double, leaves that double. -/
theorem Rounds.between {x : ℚ} (h : Rounds q r) (h' : Rounds q' r) (hx : 0 ≤ x) (hle : q ≤ x)
    (hge : x ≤ q') : Rounds x r := by
  obtain ⟨k, hk⟩ := exists_rounds hx
  rwa [le_antisymm (hk.mono h' hge) (h.mono hk hle)] at hk

end Double

end Reckon
