import Mathlib.Algebra.Order.Field.Power
import Mathlib.Data.List.Induction
import Mathlib.Data.List.TakeWhile
import Mathlib.Data.Rat.Cast.Order
import Mathlib.Tactic.Ring
import Reckon.Number.Double.Shortest

/-!
# Digits

What digits write if they are put in front of others or cut, and how many of the digits of a number
are significant (`significantDigits`) : all but the zeros at the end. That depends on the number
alone and not on the place of its last digit (`significantDigits_le_iff`).
-/

namespace Reckon

theorem digitsValue_append (ds es : List Digit) :
    digitsValue (ds ++ es) = digitsValue ds * 10 ^ es.length + digitsValue es := by
  induction es using List.reverseRecOn with
  | nil => simp [digitsValue]
  | append_singleton es e ih =>
    rw [← List.append_assoc, digitsValue_append_singleton, digitsValue_append_singleton, ih,
      List.length_append, List.length_singleton, Nat.pow_succ]
    ring

theorem digitsValue_zeros (k : ℕ) : digitsValue (List.replicate k 0) = 0 := by
  induction k with
  | zero => rfl
  | succ k ih => rw [List.replicate_succ', digitsValue_append_singleton, ih]; rfl

/-- Digits write a number below the power of ten with as many zeros. -/
theorem digitsValue_lt (ds : List Digit) : digitsValue ds < 10 ^ ds.length := by
  induction ds using List.reverseRecOn with
  | nil => decide
  | append_singleton ds d ih =>
    rw [digitsValue_append_singleton, List.length_append, List.length_singleton, Nat.pow_succ]
    omega

theorem digitsOf_zero : digitsOf 0 = [0] := digitsOf_of_lt (by decide)

/-- Behind a positive number, a power of ten writes its zeros. -/
theorem digitsOf_mul_pow {n : ℕ} (hn : 0 < n) (k : ℕ) :
    digitsOf (n * 10 ^ k) = digitsOf n ++ List.replicate k 0 := by
  induction k with
  | zero => simp
  | succ k ih =>
    have hlarge : 10 ≤ n * 10 ^ (k + 1) := by
      have := Nat.mul_pos hn (Nat.pow_pos (show 0 < 10 by decide) (n := k))
      rw [Nat.pow_succ, ← Nat.mul_assoc]
      omega
    have hdiv : n * 10 ^ (k + 1) / 10 = n * 10 ^ k := by
      rw [Nat.pow_succ, ← Nat.mul_assoc, Nat.mul_div_cancel _ (by decide)]
    have hlast : n * 10 ^ (k + 1) % 10 = 0 := by
      rw [Nat.pow_succ, ← Nat.mul_assoc, Nat.mul_mod_left]
    simp only [digitsOf_of_ge hlarge, hdiv, hlast, ih, List.append_assoc, List.replicate_succ']
    rfl

theorem take_digitsOf {k m : ℕ} (h : k < digitCount m) :
    (digitsOf m).take (digitCount m - k) = digitsOf (m / 10 ^ k) := by
  induction k generalizing m with
  | zero =>
    rw [Nat.sub_zero, pow_zero, Nat.div_one]
    exact List.take_length
  | succ k ih =>
    have hm : 10 ≤ m := by
      by_contra hm
      rw [digitCount, digitsOf_of_lt (not_le.1 hm), List.length_singleton] at h
      omega
    have hcount := digitCount_of_ge hm
    rw [digitsOf_of_ge hm, hcount, Nat.add_sub_add_right,
      List.take_append_of_le_length (by rw [← digitCount]; omega), ih (by omega),
      Nat.div_div_eq_div_mul, pow_succ']

/-! ## Significant digits -/

/-- The zeros at the end of a positive number are all that its significant digits leave out. -/
theorem Double.exists_significant {ds : List Digit} (h : 0 < digitsValue ds) :
    significant ds ≠ [] ∧ ∃ k, ds = significant ds ++ List.replicate k 0 := by
  have hsplit := List.takeWhile_append_dropWhile (p := (· == (0 : Digit))) (l := ds.reverse)
  have hzeros : ds.reverse.takeWhile (· == 0) =
      List.replicate (ds.reverse.takeWhile (· == 0)).length 0 :=
    List.eq_replicate_iff.2 ⟨rfl, fun d hd => by simpa using List.mem_takeWhile_imp hd⟩
  generalize (ds.reverse.takeWhile (· == 0)).length = k at hzeros
  rw [hzeros] at hsplit
  have hds : ds = (ds.reverse.dropWhile (· == 0)).reverse ++ List.replicate k 0 := by
    rw [← List.reverse_replicate, ← List.reverse_append, hsplit, List.reverse_reverse]
  unfold significant
  cases hrest : (ds.reverse.dropWhile (· == 0)).reverse with
  | nil =>
    rw [hrest, List.nil_append] at hds
    rw [hds, digitsValue_zeros] at h
    exact absurd h (Nat.lt_irrefl 0)
  | cons d rest =>
    rw [hrest] at hds
    exact ⟨List.cons_ne_nil _ _, k, hds⟩

/-- Zeros at the end are not significant. -/
theorem Double.significant_append_zeros (ds : List Digit) (k : ℕ) :
    significant (ds ++ List.replicate k 0) = significant ds := by
  have hzeros : (List.replicate k (0 : Digit)).dropWhile (· == 0) = [] :=
    List.dropWhile_eq_nil_iff.2 fun d hd => by simp [List.eq_of_mem_replicate hd]
  have hrest : (ds ++ List.replicate k 0).reverse.dropWhile (· == 0) =
      ds.reverse.dropWhile (· == 0) := by
    rw [List.reverse_append, List.reverse_replicate, List.dropWhile_append, hzeros]
    simp
  rw [significant, hrest, ← significant]

theorem Double.length_significant_le {ds : List Digit} (h : ds ≠ []) :
    (significant ds).length ≤ ds.length := by
  have hlength : (ds.reverse.dropWhile (· == 0)).reverse.length ≤ ds.length := by
    simpa using (List.dropWhile_sublist (· == (0 : Digit)) (l := ds.reverse)).length_le
  unfold significant
  split
  · exact List.length_pos_iff.2 h
  · rename_i hrest
    rwa [← hrest]

/-- The number of significant digits; zero has one. -/
def significantDigits (n : ℕ) : ℕ := (Double.significant (digitsOf n)).length

theorem significantDigits_zero : significantDigits 0 = 1 := by
  rw [significantDigits, digitsOf_zero]
  rfl

theorem significantDigits_pos (n : ℕ) : 0 < significantDigits n := by
  unfold significantDigits Double.significant
  split
  · exact Nat.one_pos
  · exact Nat.succ_pos _

/-- A number is its significant digits and zeros. -/
theorem exists_eq_mul_pow (n : ℕ) : ∃ a k, a < 10 ^ significantDigits n ∧ n = a * 10 ^ k := by
  rcases Nat.eq_zero_or_pos n with rfl | hn
  · exact ⟨0, 0, Nat.pow_pos (by decide), rfl⟩
  · have hvalue := digitsValue_digitsOf n
    obtain ⟨-, k, hk⟩ := Double.exists_significant (by omega : 0 < digitsValue (digitsOf n))
    refine ⟨digitsValue (Double.significant (digitsOf n)), k, digitsValue_lt _, ?_⟩
    rw [hk, digitsValue_append, digitsValue_zeros, List.length_replicate, Nat.add_zero] at hvalue
    exact hvalue.symm

theorem significantDigits_mul_pow_le {a k : ℕ} (hk : 0 < k) (ha : a < 10 ^ k) (j : ℕ) :
    significantDigits (a * 10 ^ j) ≤ k := by
  rcases Nat.eq_zero_or_pos a with rfl | hpos
  · rw [Nat.zero_mul, significantDigits_zero]
    exact hk
  · rw [significantDigits, digitsOf_mul_pow hpos, Double.significant_append_zeros]
    exact (Double.length_significant_le (List.ne_nil_of_length_pos (digitCount_pos a))).trans
      (digitCount_le hk ha)

/-- A number has at most `k` significant digits if and only if it is a number below `10 ^ k` at some
place. -/
theorem significantDigits_le_iff {n k : ℕ} (hk : 0 < k) (e : ℤ) :
    significantDigits n ≤ k ↔ ∃ (a : ℕ) (p : ℤ), a < 10 ^ k ∧ (n : ℚ) * 10 ^ e = a * 10 ^ p := by
  constructor
  · intro h
    obtain ⟨a, j, ha, hn⟩ := exists_eq_mul_pow n
    refine ⟨a, j + e, ha.trans_le (Nat.pow_le_pow_right (by decide) h), ?_⟩
    rw [zpow_add₀ (by norm_num), zpow_natCast, ← mul_assoc]
    congr 1
    exact_mod_cast hn
  · rintro ⟨a, p, ha, h⟩
    have he : (0 : ℚ) < 10 ^ e := by positivity
    rcases le_total e p with hle | hle
    · -- The digits of `a` stand above the last place of `n`.
      obtain ⟨j, hj⟩ := Int.le.dest hle
      rw [← hj, add_comm, zpow_add₀ (by norm_num), zpow_natCast, ← mul_assoc,
        mul_left_inj' he.ne'] at h
      obtain rfl : n = a * 10 ^ j := by exact_mod_cast h
      exact significantDigits_mul_pow_le hk ha j
    · -- The number `a` ends in zeros, and `n` is left without them.
      have hn : (n : ℚ) ≤ a := by
        have hpow : (10 : ℚ) ^ p ≤ 10 ^ e := zpow_le_zpow_right₀ (by norm_num) hle
        have : (n : ℚ) * 10 ^ e ≤ a * 10 ^ e :=
          h.trans_le (mul_le_mul_of_nonneg_left hpow (Nat.cast_nonneg a))
        exact le_of_mul_le_mul_right this he
      have hna : n ≤ a := by exact_mod_cast hn
      simpa using significantDigits_mul_pow_le hk (hna.trans_lt ha) 0

/-- The place of the last digit does not count. -/
theorem significantDigits_le_of_size_eq {m n : ℕ} {e f : ℤ}
    (h : (m : ℚ) * 10 ^ e = n * 10 ^ f) : significantDigits m ≤ significantDigits n := by
  rw [significantDigits_le_iff (significantDigits_pos n) e, h]
  exact (significantDigits_le_iff (significantDigits_pos n) f).1 le_rfl

end Reckon
