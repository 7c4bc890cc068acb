import Reckon.Number.Elementary.Rounded
import Reckon.Proofs.Number.Integers

/-!
# Signs of powers

A power has a sign and a rank, and the rank is that of the power of the positive base
(`Double.powerWith_ofRank`), whether the library gives the power or it is put in its place. The sign
is that of the base for an odd exponent and positive for all others. This is proved for every
rounding of the library, so that nothing depends on how the rank is worked out.
-/

namespace Reckon

namespace Double

variable {s : Bool} {r : Fin infinityRank}

/-- Both tests for odd numbers agree. -/
theorem leavesOne_eq (y : Double) : leavesOne y = isOddInteger y := by
  cases y with
  | nan | infinite => rfl
  | finite s r =>
    have hpos := unitsOfOne_pos
    have hlt := Nat.mod_lt (units r) hpos
    have hbit : units r / unitsOfOne % 2 = 0 ∨ units r / unitsOfOne % 2 = 1 := by omega
    rw [Bool.eq_iff_iff, leavesOne, isOddInteger, beq_iff_eq, Bool.and_eq_true, beq_iff_eq,
      beq_iff_eq, Nat.mul_comm 2, Nat.mod_mul]
    rcases hbit with hbit | hbit <;> rw [hbit] <;> omega

theorem eq_zero_iff :
    Double.finite s r = zero false ∨ Double.finite s r = zero true ↔ r.val = 0 := by
  cases s <;> simp [zero, Fin.ext_iff]

theorem eq_one_iff : Double.finite s r = one ↔ s = false ∧ r.val = rankOfOne := by
  simp [one, Fin.ext_iff, rankOfOne]

theorem less_zero (hr : r.val ≠ 0) : (Double.finite s r).less (zero false) = s := by
  cases s with
  | false => simp [less, key, zero]
  | true => simp [less, key, zero, Nat.pos_of_ne_zero hr]

/-- A power that is out of range is put in its place with the sign of the library. -/
theorem handled_checked {x y : Double} {sign : Bool} (n : ℕ)
    (h : (x.less (zero false) && y.isOddInteger) = sign) :
    handled x y (checked sign n) = ofRank sign n := by
  unfold checked ofRank
  split
  · rfl
  · rw [handled, h]

/-- The power of one, and that to a zero. -/
theorem powerWith_eq_one (size : Sizes) {x y : Double}
    (h : y = zero false ∨ y = zero true ∨ x = one) : powerWith size x y = one := by
  rw [powerWith, libraryPower.eq_def, if_pos h, handled]

theorem not_special {x : Double} {t : Bool} {q : Fin infinityRank} (hq : q.val ≠ 0)
    (hx : x ≠ one) :
    ¬ (Double.finite t q = zero false ∨ Double.finite t q = zero true ∨ x = one) := by
  rw [← or_assoc, eq_zero_iff]
  exact not_or.2 ⟨hq, hx⟩

/-- The power of a zero is a zero or an infinity, also where the library refuses it. -/
theorem powerWith_zero (size : Sizes) {t : Bool} {q : Fin infinityRank} (hr : r.val = 0)
    (hq : q.val ≠ 0) : powerWith size (.finite s r) (.finite t q) =
      ofRank (s && isOddInteger (.finite t q)) (if t then infinityRank else 0) := by
  have hzero : Double.finite s r = zero false ∨ Double.finite s r = zero true := eq_zero_iff.2 hr
  have hone : ¬ Double.finite s r = one := by
    rw [eq_one_iff, hr]
    exact fun h => absurd h.2 (by decide)
  rw [powerWith, libraryPower.eq_def, if_neg (not_special hq hone)]
  simp only [leavesOne_eq, if_pos hr]
  cases t with
  | false => rfl
  | true =>
    simp only [if_true, handled, if_pos hzero, negative]
    cases s <;> cases isOddInteger (.finite true q) <;> rfl

/-- The power of a positive number, and of a negative one to a whole number, also where it
overflows. -/
theorem powerWith_finite (size : Sizes) {t : Bool} {q : Fin infinityRank} (hr : r.val ≠ 0)
    (hq : q.val ≠ 0) (h : s = true → isInteger (.finite t q) = true) :
    powerWith size (.finite s r) (.finite t q) = ofRank (s && isOddInteger (.finite t q))
      (if r.val = rankOfOne then rankOfOne else size r t q) := by
  by_cases hone : Double.finite s r = one
  · rw [powerWith_eq_one size (.inr (.inr hone))]
    rw [eq_one_iff] at hone
    rw [hone.1, if_pos hone.2]
    rfl
  have hinteger : ¬ (s && !isInteger (.finite t q)) = true := by
    cases s with
    | false => exact Bool.false_ne_true
    | true => simp [h rfl]
  rw [powerWith, libraryPower.eq_def, if_neg (not_special hq hone)]
  simp only [leavesOne_eq, if_neg hr, if_neg hinteger]
  exact handled_checked _ (by rw [less_zero hr])

/-- A negative number has no power between whole numbers. -/
theorem powerWith_fractional (size : Sizes) {t : Bool} {q : Fin infinityRank} (hr : r.val ≠ 0)
    (h : isInteger (.finite t q) = false) :
    powerWith size (.finite true r) (.finite t q) = .nan := by
  have hzero : ¬ (Double.finite true r = zero false ∨ Double.finite true r = zero true) :=
    mt eq_zero_iff.1 hr
  have hone : ¬ Double.finite true r = one := by simp [eq_one_iff]
  have hq : q.val ≠ 0 := by
    intro hq
    simp [isInteger, hq, units] at h
  rw [powerWith, libraryPower.eq_def, if_neg (not_special hq hone)]
  simp only [if_neg hr, h, Bool.not_false, Bool.and_self, if_true, handled, if_neg hzero]

/-- The power of an infinity. -/
theorem powerWith_infinite (size : Sizes) {t : Bool} {q : Fin infinityRank} (hq : q.val ≠ 0) :
    powerWith size (.infinite s) (.finite t q) =
      ofRank (s && isOddInteger (.finite t q)) (if t then 0 else infinityRank) := by
  rw [powerWith, libraryPower.eq_def, if_neg (not_special hq (by simp [one]))]
  simp only [leavesOne_eq, handled]
  cases t <;> rfl

/-- The power to an infinity does not depend on the sign of the base. -/
theorem powerWith_to_infinite (size : Sizes) (s t : Bool) {n : ℕ} (hn : n ≤ infinityRank) :
    powerWith size (ofRank s n) (.infinite t) =
      ofRank false (if n = rankOfOne then rankOfOne
        else if decide (rankOfOne < n) = t then 0 else infinityRank) := by
  by_cases hone : ofRank s n = one
  · rw [powerWith_eq_one size (.inr (.inr hone)), if_pos]
    · rfl
    · rw [← rank_ofRank s hn, hone]
      rfl
  have hne : ¬ (Double.infinite t = zero false ∨ Double.infinite t = zero true ∨
      ofRank s n = one) := by
    simp [zero, hone]
  rw [powerWith, libraryPower.eq_def, if_neg hne]
  rcases hn.lt_or_eq with hlt | rfl
  · rw [ofRank, dif_pos hlt]
    by_cases hrank : n = rankOfOne
    · rw [if_pos hrank]
      simp only [if_pos hrank, handled]
      rfl
    · rw [if_neg hrank]
      simp only [if_neg hrank, handled, beq_iff_eq]
      split <;> rfl
  · cases t <;> rfl

/-- The rank of the power of a base that is not negative. -/
def sizeWith (size : Sizes) (base : ℕ) : Double → ℕ
  | .nan => 0
  | .infinite t =>
    if base = rankOfOne then rankOfOne
    else if decide (rankOfOne < base) = t then 0 else infinityRank
  | .finite t q =>
    if q.val = 0 then rankOfOne
    else if base = 0 then (if t then infinityRank else 0)
    else if base = infinityRank then (if t then 0 else infinityRank)
    else if base = rankOfOne then rankOfOne
    else size base t q

/-- The power has the sign of an odd power, and the rank of the power of the positive base. -/
theorem powerWith_ofRank (size : Sizes) {n : ℕ} (hn : n ≤ infinityRank) {y : Double}
    (hy : y ≠ .nan) (h : s = true → 0 < n → n < infinityRank → y.IsFinite → y.isInteger = true) :
    powerWith size (ofRank s n) y = ofRank (s && y.isOddInteger) (sizeWith size n y) := by
  cases y with
  | nan => exact absurd rfl hy
  | infinite t =>
    rw [powerWith_to_infinite size s t hn, show isOddInteger (.infinite t) = false from rfl,
      Bool.and_false, sizeWith]
  | finite t q =>
    simp only [sizeWith]
    split
    · rename_i hq
      rw [powerWith_eq_one size (or_assoc.1 (.inl (eq_zero_iff.2 hq)))]
      rw [show isOddInteger (.finite t q) = false by simp [isOddInteger, hq, units], Bool.and_false]
      rfl
    rename_i hq
    rcases hn.lt_or_eq with hlt | rfl
    · rw [ofRank, dif_pos hlt]
      split
      · exact powerWith_zero size ‹_› hq
      · rename_i hzero
        rw [if_neg hlt.ne]
        exact powerWith_finite size hzero hq fun hs => h hs (Nat.pos_of_ne_zero hzero) hlt trivial
    · rw [ofRank, dif_neg (lt_irrefl _), if_pos rfl, if_neg (by decide)]
      exact powerWith_infinite size hq

theorem negate_ofRank (s : Bool) (n : ℕ) : (ofRank s n).negate = ofRank (!s) n := by
  unfold ofRank
  split <;> rfl

theorem negative_ofRank (s : Bool) (n : ℕ) : (ofRank s n).negative = s := by
  unfold ofRank
  split <;> rfl

theorem isFinite_ofRank (s : Bool) (n : ℕ) : (ofRank s n).IsFinite ↔ n < infinityRank := by
  unfold ofRank
  split <;> simp [IsFinite, *]

/-- What the powers `p` and `m` of a base that is not negative and of its negation have to do with
each other. -/
structure SignLaw (x y p m : Double) : Prop where
  /-- The power of a base that is not negative is a number. -/
  isNumber : p ≠ .nan
  /-- It is not negative. -/
  nonnegative : p.negative = false
  /-- An odd power has the sign of the base. -/
  odd : (y.IsFinite ∧ ∃ k : ℤ, y.value = k ∧ Odd k) → m = p.negate
  /-- An even power does not depend on it. -/
  even : (y.IsFinite ∧ ∃ k : ℤ, y.value = k ∧ Even k) → m = p
  /-- A power to an infinity does not either. -/
  infinite : ¬ y.IsFinite → m = p
  /-- Nor does a power of zero or of infinity that is not odd. -/
  limit : x.value = 0 ∨ ¬ x.IsFinite →
    ¬ (y.IsFinite ∧ ∃ k : ℤ, y.value = k ∧ Odd k) → m = p
  /-- Other negative numbers have no power between whole numbers. -/
  fractional : (y.IsFinite ∧ ∀ k : ℤ, y.value ≠ k) → x.IsFinite → x.value ≠ 0 → m = .nan

/-- The sign law of powers, for every rounding; `power` has that of the library. -/
theorem powerWith_negate (size : Sizes) {x y : Double} (hx : x ≠ .nan) (hs : x.negative = false)
    (hy : y ≠ .nan) : SignLaw x y (powerWith size x y) (powerWith size x.negate y) := by
  obtain ⟨s, n, hn, rfl⟩ := exists_ofRank hx
  obtain rfl : s = false := by rwa [negative_ofRank] at hs
  have hpositive := powerWith_ofRank (s := false) size hn hy fun h => absurd h Bool.false_ne_true
  have hnegative := powerWith_ofRank (s := true) size hn hy
  rw [Bool.false_and] at hpositive
  rw [Bool.true_and] at hnegative
  rw [negate_ofRank, Bool.not_false, hpositive]
  -- Without an odd exponent the sign of the base is lost, where there is a power.
  have hsame (h : 0 < n → n < infinityRank → y.IsFinite → y.isInteger = true)
      (hodd : ¬ (y.IsFinite ∧ ∃ k : ℤ, y.value = k ∧ Odd k)) :
      powerWith size (ofRank true n) y = ofRank false (sizeWith size n y) := by
    rw [← isOddInteger_iff, Bool.not_eq_true] at hodd
    rw [hnegative fun _ => h, hodd]
  constructor
  case isNumber => exact ofRank_ne_nan _ _
  case nonnegative => exact negative_ofRank _ _
  case odd =>
    rintro ⟨hfinite, k, hk, hodd⟩
    rw [hnegative fun _ _ _ _ => (isInteger_iff y).2 ⟨hfinite, k, hk⟩,
      (isOddInteger_iff y).2 ⟨hfinite, k, hk, hodd⟩, negate_ofRank, Bool.not_false]
  case even =>
    rintro ⟨hfinite, k, hk, heven⟩
    refine hsame (fun _ _ _ => (isInteger_iff y).2 ⟨hfinite, k, hk⟩) ?_
    rintro ⟨-, j, hj, hodd⟩
    obtain rfl : j = k := by exact_mod_cast hj.symm.trans hk
    exact Int.not_even_iff_odd.2 hodd heven
  case infinite =>
    exact fun hy => hsame (fun _ _ hfinite => absurd hfinite hy) fun hodd => hy hodd.1
  case limit =>
    intro hx
    refine hsame fun hpos hlt => ?_
    have hzero := hx.resolve_right (not_not.2 ((isFinite_ofRank false n).2 hlt))
    rw [value_ofRank _ hn, ← rankValue_zero] at hzero
    exact absurd (rankValue_strictMono.injective hzero) hpos.ne'
  case fractional =>
    rintro ⟨hfinite, hwhole⟩ hx hzero
    rw [isFinite_ofRank] at hx
    have hn0 : n ≠ 0 := by
      rintro rfl
      rw [value_ofRank _ hn, rankValue_zero] at hzero
      exact hzero rfl
    have hinteger : y.isInteger = false := by
      rw [← Bool.not_eq_true, isInteger_iff]
      exact fun h => h.2.elim hwhole
    cases y with
    | nan | infinite => exact hfinite.elim
    | finite t q =>
      rw [ofRank, dif_pos hx]
      exact powerWith_fractional size hn0 hinteger

/-- Zero to the power of minus three is an infinity with the sign of the zero. -/
theorem powerWith_negate_zero :
    let y : Double := .finite true ⟨0x4008000000000000, by decide⟩
    (zero false ≠ .nan ∧ (zero false).negative = false ∧ y ≠ .nan) ∧
      SignLaw (zero false) y (.infinite false) (.infinite true) := by
  intro y
  have hlaw := powerWith_negate powerRank (x := zero false) (y := y) (by decide) rfl (by decide)
  have hpositive : powerWith powerRank (zero false) y = .infinite false := by decide +kernel
  have hnegative : powerWith powerRank (zero false).negate y = .infinite true := by decide +kernel
  rw [hpositive, hnegative] at hlaw
  exact ⟨by decide, hlaw⟩

end Double

end Reckon
