/-!
# Rounding to whole numbers

`roundHalfEven n d` is the whole number nearest to `n / d`, an exact half going to the
even neighbour (`roundHalfEven_even`). It moves `n / d` by at most a half (`roundHalfEven_near`)
and keeps whole quotients (`roundHalfEven_mul`). `rootFloor n` is the whole part of the square root
of `n` (`rootFloor_sq_le`, `lt_succ_rootFloor_sq`).
-/

namespace Reckon

/-- The whole number nearest to `n / d`, the even one of two. -/
def roundHalfEven (n d : Nat) : Nat :=
  let q := n / d
  let r := n % d
  if 2 * r < d then q else if d < 2 * r then q + 1 else q + q % 2

theorem roundHalfEven_mul {d : Nat} (m : Nat) (h : 0 < d) : roundHalfEven (m * d) d = m := by
  simp [roundHalfEven, h]

/-- The rounded quotient is `n / d` or one more. -/
theorem roundHalfEven_bounds (n d : Nat) :
    n / d ≤ roundHalfEven n d ∧ roundHalfEven n d ≤ n / d + 1 := by
  unfold roundHalfEven
  have := Nat.mod_lt (n / d) (show 0 < 2 by decide)
  constructor <;> (dsimp only; split <;> (try split) <;> omega)

/-- Rounding moves the quotient by at most a half. -/
theorem roundHalfEven_near {n d : Nat} (h : 0 < d) :
    2 * (roundHalfEven n d * d) ≤ 2 * n + d ∧ 2 * n ≤ 2 * (roundHalfEven n d * d) + d := by
  have hn := Nat.div_add_mod n d
  have hr := Nat.mod_lt n h
  have hq : n / d * d = d * (n / d) := Nat.mul_comm _ _
  have hq1 : (n / d + 1) * d = d * (n / d) + d := by rw [Nat.add_mul, hq, Nat.one_mul]
  unfold roundHalfEven
  dsimp only
  split
  · omega
  · split
    · rw [hq1]; omega
    · rcases Nat.mod_two_eq_zero_or_one (n / d) with h2 | h2 <;> rw [h2]
      · simp only [Nat.add_zero]; omega
      · rw [hq1]; omega

/-- A quotient halfway between two whole numbers is rounded to the even one. -/
theorem roundHalfEven_even {n d : Nat} (h : 0 < d) :
    2 * n + d = 2 * (roundHalfEven n d * d) ∨ 2 * n = 2 * (roundHalfEven n d * d) + d →
      roundHalfEven n d % 2 = 0 := by
  have hn := Nat.div_add_mod n d
  have hr := Nat.mod_lt n h
  have hq : n / d * d = d * (n / d) := Nat.mul_comm _ _
  have hq1 : (n / d + 1) * d = d * (n / d) + d := by rw [Nat.add_mul, hq, Nat.one_mul]
  unfold roundHalfEven
  dsimp only
  split
  · rw [hq]
    omega
  · split
    · rw [hq1]
      omega
    · omega

/-- The whole part of the square root. -/
def rootFloor (n : Nat) : Nat :=
  if h : n = 0 then 0
  else
    let r := 2 * rootFloor (n / 4)
    if (r + 1) * (r + 1) ≤ n then r + 1 else r
termination_by n
decreasing_by exact Nat.div_lt_self (by omega) (by decide)

theorem rootFloor_bounds (n : Nat) :
    rootFloor n * rootFloor n ≤ n ∧ n < (rootFloor n + 1) * (rootFloor n + 1) := by
  induction n using Nat.strongRecOn with
  | _ n ih =>
    rw [rootFloor]
    split
    · subst n; simp
    · rename_i h
      have ⟨h1, h2⟩ := ih (n / 4) (Nat.div_lt_self (by omega) (by decide))
      generalize rootFloor (n / 4) = s at h1 h2
      have e1 : 2 * s * (2 * s) = 4 * (s * s) := by
        rw [Nat.mul_mul_mul_comm]
      have e2 : (2 * s + 1 + 1) * (2 * s + 1 + 1) = 4 * ((s + 1) * (s + 1)) := by
        have : 2 * s + 1 + 1 = 2 * (s + 1) := by omega
        rw [this, Nat.mul_mul_mul_comm]
      dsimp only
      split
      · refine ⟨by assumption, ?_⟩
        rw [e2]; omega
      · refine ⟨?_, by omega⟩
        rw [e1]; omega

theorem rootFloor_sq_le (n : Nat) : rootFloor n * rootFloor n ≤ n := (rootFloor_bounds n).1

theorem lt_succ_rootFloor_sq (n : Nat) : n < (rootFloor n + 1) * (rootFloor n + 1) :=
  (rootFloor_bounds n).2

end Reckon
