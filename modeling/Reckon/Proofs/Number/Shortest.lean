import Reckon.Proofs.Number.Digits
import Reckon.Proofs.Number.Value

/-!
# The fewest digits that read back

The digits that are written for a positive double are those of a decimal that reads back as the
double, and no decimal with fewer significant digits does (`Double.exists_shortest`). The search
tries only two numbers for every number of digits, the neighbours of the exact value. This is
enough, for no other number with as many digits lies between the two (`Decimal.le_or_ge_of_lt`), and
what lies between the exact value and a decimal that reads back, reads back, too
(`Double.Rounds.between`).
-/

namespace Reckon

namespace Decimal

/-- Between two neighbours with `n + 1` digits lies no number with as many digits or fewer. -/
theorem le_or_ge_of_lt {a low n : ℕ} {p q : ℤ} (ha : a < 10 ^ (n + 1)) (hlow : 10 ^ n ≤ low) :
    (a : ℚ) * 10 ^ p ≤ low * 10 ^ q ∨ ((low + 1 : ℕ) : ℚ) * 10 ^ q ≤ a * 10 ^ p := by
  have hq : (0 : ℚ) < 10 ^ q := by positivity
  rcases le_or_gt q p with hle | hlt
  · -- The number is a multiple of the place of the neighbours.
    obtain ⟨k, hk⟩ := Int.le.dest hle
    have hmultiple : (a : ℚ) * 10 ^ p = ((a * 10 ^ k : ℕ) : ℚ) * 10 ^ q := by
      rw [← hk, add_comm, zpow_add₀ (by norm_num), zpow_natCast, ← mul_assoc]
      push_cast
      rfl
    rw [hmultiple]
    rcases le_or_gt (a * 10 ^ k) low with h | h
    · exact .inl (mul_le_mul_of_nonneg_right (by exact_mod_cast h) hq.le)
    · exact .inr (mul_le_mul_of_nonneg_right (by exact_mod_cast h) hq.le)
  · -- The number lies below all that have `n + 1` digits at the place.
    refine .inl ?_
    have ha' : (a : ℚ) ≤ 10 ^ (n + 1 : ℕ) := by exact_mod_cast ha.le
    have hlow' : (10 : ℚ) ^ n ≤ low := by exact_mod_cast hlow
    calc (a : ℚ) * 10 ^ p ≤ 10 ^ (n + 1 : ℕ) * 10 ^ p :=
          mul_le_mul_of_nonneg_right ha' (by positivity)
      _ = 10 ^ n * 10 ^ (p + 1) := by
          rw [pow_succ, zpow_add_one₀ (by norm_num)]
          ring
      _ ≤ 10 ^ n * 10 ^ q :=
          mul_le_mul_of_nonneg_left (zpow_le_zpow_right₀ (by norm_num) hlt) (by positivity)
      _ ≤ low * 10 ^ q := mul_le_mul_of_nonneg_right hlow' hq.le

end Decimal

namespace Double

/-! ## The neighbours of the exact value -/

section

variable {r c n m : ℕ} {e first : ℤ}

/-- What is found on the grid of some number of digits reads back. -/
theorem ofDecimal_of_grid? (h : grid? r c first n = some m) :
    ofDecimal (.finite false m (first - n + 1)) = ofRank false r := by
  unfold grid? at h
  simp only [beq_iff_eq] at h
  generalize c / 10 ^ (digitCount c - n) = low at h
  have hparity := Nat.mod_two_eq_zero_or_one low
  split at h
  · rename_i hlow
    split at h
    · rename_i hnext
      split at h
      · obtain rfl := Option.some.inj h
        exact hlow
      split at h
      · obtain rfl := Option.some.inj h
        exact hnext
      · obtain rfl := Option.some.inj h
        rcases hparity with hp | hp <;> rw [hp]
        · exact hlow
        · exact hnext
    · obtain rfl := Option.some.inj h
      exact hlow
  · split at h
    · rename_i hnext
      obtain rfl := Option.some.inj h
      exact hnext
    · cases h

/-- It is the exact value cut to that many digits, or the next number. -/
theorem le_of_grid? (h : grid? r c first n = some m) : m ≤ c / 10 ^ (digitCount c - n) + 1 := by
  unfold grid? at h
  simp only [beq_iff_eq] at h
  generalize c / 10 ^ (digitCount c - n) = low at h ⊢
  have hparity := Nat.mod_lt low (show 0 < 2 by decide)
  split_ifs at h <;> (cases h; omega)

/-- Something is found if one of the two reads back. -/
theorem exists_grid? (h : ofDecimal (.finite false (c / 10 ^ (digitCount c - n)) (first - n + 1)) =
      ofRank false r ∨
    ofDecimal (.finite false (c / 10 ^ (digitCount c - n) + 1) (first - n + 1)) = ofRank false r) :
    ∃ m, grid? r c first n = some m := by
  unfold grid?
  simp only [beq_iff_eq]
  generalize c / 10 ^ (digitCount c - n) = low at h ⊢
  split_ifs
  any_goals exact ⟨_, rfl⟩
  exact absurd h (not_or.2 ⟨‹_›, ‹_›⟩)

/-- The exact value cut to `n` digits. -/
theorem cut_bounds (hc : 0 < c) (hn : 0 < n) (hcount : n ≤ digitCount c) :
    10 ^ (n - 1) ≤ c / 10 ^ (digitCount c - n) ∧ c / 10 ^ (digitCount c - n) < 10 ^ n := by
  have hunit : 0 < 10 ^ (digitCount c - n) := Nat.pow_pos (by decide)
  constructor
  · rw [Nat.le_div_iff_mul_le hunit, ← Nat.pow_add]
    exact (Nat.pow_le_pow_right (by decide) (by omega)).trans (pow_digitCount_le hc)
  · rw [Nat.div_lt_iff_lt_mul hunit, ← Nat.pow_add]
    exact (lt_pow_digitCount c).trans_le (Nat.pow_le_pow_right (by decide) (by omega))

/-- If a number with `n` digits becomes the double, something is found on the grid of `n` digits. -/
theorem exists_grid?_of_rounds (hc : 0 < c) (hr : Rounds (c * 10 ^ e) r) (hn : 0 < n)
    (hcount : n ≤ digitCount c) {a : ℕ} {p : ℤ} (ha : a < 10 ^ n) (hround : Rounds (a * 10 ^ p) r) :
    ∃ m, grid? r c (Decimal.adjusted c e) n = some m := by
  have hunit : 0 < 10 ^ (digitCount c - n) := Nat.pow_pos (by decide)
  obtain ⟨hlow, -⟩ := cut_bounds hc hn hcount
  have hdiv := Nat.div_mul_le_self c (10 ^ (digitCount c - n))
  have hmod := Nat.lt_div_mul_add hunit (a := c)
  refine exists_grid? ?_
  generalize c / 10 ^ (digitCount c - n) = low at hlow hdiv hmod ⊢
  have hplace : (10 : ℚ) ^ (Decimal.adjusted c e - n + 1) =
      ((10 ^ (digitCount c - n) : ℕ) : ℚ) * 10 ^ e := by
    rw [show Decimal.adjusted c e - n + 1 = (digitCount c - n : ℕ) + e by
      unfold Decimal.adjusted; omega, zpow_add₀ (by norm_num), zpow_natCast]
    push_cast
    rfl
  have he : (0 : ℚ) ≤ 10 ^ e := by positivity
  -- The exact value lies between its neighbours, and the number with `n` digits does not.
  have hbelow : (low : ℚ) * 10 ^ (Decimal.adjusted c e - n + 1) ≤ c * 10 ^ e := by
    rw [hplace, ← mul_assoc]
    exact mul_le_mul_of_nonneg_right (by exact_mod_cast hdiv) he
  have habove : (c : ℚ) * 10 ^ e ≤ (low + 1 : ℕ) * 10 ^ (Decimal.adjusted c e - n + 1) := by
    rw [hplace, ← mul_assoc]
    exact mul_le_mul_of_nonneg_right (by rw [← Nat.add_one_mul] at hmod; exact_mod_cast hmod.le) he
  obtain ⟨k, rfl⟩ := Nat.exists_eq_add_one.2 hn
  rcases Decimal.le_or_ge_of_lt ha hlow with h | h
  · exact .inl (ofDecimal_of_rounds false (hround.between hr (by positivity) h hbelow))
  · exact .inr (ofDecimal_of_rounds false (hr.between hround (by positivity) habove h))

end

/-! ## The search -/

/-- The first hit of a search in order. -/
theorem first_of_findSome?_range {α : Type} {f : ℕ → Option α} {n : ℕ} {x : α}
    (h : (List.range n).findSome? f = some x) : ∃ i < n, f i = some x ∧ ∀ j < i, f j = none := by
  obtain ⟨before, i, behind, hsplit, hi, hbefore⟩ := List.findSome?_eq_some_iff.1 h
  have hrange : i ∈ List.range n := hsplit ▸ by simp
  refine ⟨i, List.mem_range.1 hrange, hi, fun j hj => hbefore j ?_⟩
  have hmem : j ∈ List.range n := List.mem_range.2 (hj.trans (List.mem_range.1 hrange))
  have hsorted := List.pairwise_lt_range (n := n)
  rw [hsplit] at hmem hsorted
  have hbehind := (List.pairwise_cons.1 (List.pairwise_append.1 hsorted).2.1).1
  rcases List.mem_append.1 hmem with h | h
  · exact h
  · rcases List.mem_cons.1 h with rfl | h
    · exact absurd hj (lt_irrefl j)
    · exact absurd (hbehind j h) (by omega)

/-- The shortest digits of a positive double are those of a decimal that reads back as it, and none
that reads back has fewer significant digits. -/
theorem exists_shortest (r : Fin infinityRank) (hr : r.val ≠ 0) :
    ∃ (m : ℕ) (e : ℤ), 0 < m ∧ Rounds (m * 10 ^ e) r ∧
      shortest r = (significant (digitsOf m), Decimal.adjusted m e) ∧
      ∀ (d : ℕ) (f : ℤ), Rounds (d * 10 ^ f) r → significantDigits m ≤ significantDigits d := by
  obtain ⟨c, e, hdecimal, hvalue⟩ := exists_toDecimal false r
  have hexact : Rounds (c * 10 ^ e) r := hvalue ▸ rounds_rankValue r.isLt.le
  have hc := hexact.pos hr
  -- Some number of digits is enough, at the latest that of the exact value.
  have hhit : ∀ {d : ℕ} {f : ℤ} {k : ℕ}, Rounds (d * 10 ^ f) r → significantDigits d = k + 1 →
      k < digitCount c → ∃ m, grid? r c (Decimal.adjusted c e) (k + 1) = some m := by
    intro d f k hd hk hcount
    obtain ⟨a, p, ha, hap⟩ := (significantDigits_le_iff (Nat.succ_pos k) f).1 hk.le
    exact exists_grid?_of_rounds hc hexact (Nat.succ_pos k) hcount ha (hap ▸ hd)
  have hcount : significantDigits c ≤ digitCount c :=
    length_significant_le (List.ne_nil_of_length_pos (digitCount_pos c))
  simp only [shortest, hdecimal]
  cases hfound : (List.range (digitCount c)).findSome? fun i =>
      (grid? r c (Decimal.adjusted c e) (i + 1)).map fun m => (m, Decimal.adjusted c e - i) with
  | none =>
    obtain ⟨k, hk⟩ := Nat.exists_eq_add_one.2 (significantDigits_pos c)
    obtain ⟨m, hm⟩ := hhit hexact hk (by omega)
    have := List.findSome?_eq_none_iff.1 hfound k (List.mem_range.2 (by omega))
    rw [hm] at this
    cases this
  | some found =>
    obtain ⟨i, hi, hfirst, hnone⟩ := first_of_findSome?_range hfound
    obtain ⟨m, hm, rfl⟩ := Option.map_eq_some_iff.1 hfirst
    have hread := ofDecimal_of_grid? hm
    rw [show Decimal.adjusted c e - (i + 1 : ℕ) + 1 = Decimal.adjusted c e - i by push_cast; ring,
      ofRank_val] at hread
    have hround := rounds_of_ofDecimal hread
    refine ⟨m, Decimal.adjusted c e - i, hround.pos hr, hround, rfl, fun d f hd => ?_⟩
    have hle : m ≤ 10 ^ (i + 1) :=
      (le_of_grid? hm).trans (cut_bounds hc (Nat.succ_pos i) hi).2
    have hdigits : significantDigits m ≤ i + 1 := by
      rcases hle.lt_or_eq with hlt | rfl
      · simpa using significantDigits_mul_pow_le (Nat.succ_pos i) hlt 0
      · simpa using significantDigits_mul_pow_le (Nat.succ_pos i)
          (Nat.one_lt_pow (Nat.succ_ne_zero i) (by decide)) (i + 1)
    refine hdigits.trans (not_lt.1 fun hlt => ?_)
    obtain ⟨k, hk⟩ := Nat.exists_eq_add_one.2 (significantDigits_pos d)
    obtain ⟨m', hm'⟩ := hhit hd hk (by omega)
    have := hnone k (by omega)
    rw [hm'] at this
    cases this

end Double

end Reckon
