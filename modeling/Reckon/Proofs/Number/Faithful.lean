import Reckon.Number.Elementary.Rounded
import Reckon.Operation
import Reckon.Proofs.Number.Range
import Reckon.Proofs.Number.Working

/-!
# Arithmetic is faithful

The operators round twice : an exact result is settled at 80 decimal digits and then taken for a
double. This is not always the nearest double, but little is lost (`Operator.onDecimals_faithful`).
A double is reached if it is the exact result, else one of the two doubles around it; an exact
result of 80 digits or fewer is rounded to the nearest double; and a larger exact result has no
smaller double.

The two steps together are monotone (`Double.RoundsTwice.mono`) and keep doubles, since the first
step moves a number by far less than doubles lie apart (`Double.RoundsTwice.eq_of_rankValue`). The
rest follows from that.
-/

namespace Reckon

namespace Double

variable {q q' x x' : ℚ} {r r' : ℕ}

/-! ## Rounding twice -/

/-- The number is settled and then taken for a double. -/
def RoundsTwice (q : ℚ) (r : ℕ) : Prop :=
  ∃ y, Format.working.Rounds q y ∧ Rounds y r

theorem RoundsTwice.le (h : RoundsTwice q r) : r ≤ infinityRank := by
  obtain ⟨y, -, hr⟩ := h
  exact hr.le

theorem RoundsTwice.mono (h : RoundsTwice q r) (h' : RoundsTwice q' r') (hq : q ≤ q') :
    r ≤ r' := by
  obtain ⟨y, hy, hr⟩ := h
  obtain ⟨y', hy', hr'⟩ := h'
  exact hr.mono hr' (hy.mono hy' hq)

/-- The smallest double is far above the least numbers of the working format. -/
theorem two_mul_place_lt :
    2 * Format.working.place (Format.working.digits + Format.working.least) < rankValue 1 := by
  have hone := le_rankValue Nat.one_pos
  have hplace : Format.working.place (Format.working.digits + Format.working.least) ≤
      10 ^ (-329 : ℤ) := by
    rw [Format.working_place]
    exact zpow_le_zpow_right₀ (by norm_num) (by decide)
  have hnext : (10 : ℚ) ^ (-328 : ℤ) = 10 * 10 ^ (-329 : ℤ) := by
    rw [show (-328 : ℤ) = 1 + -329 by norm_num, zpow_one_add₀ (by norm_num)]
  have hpos : (0 : ℚ) < 10 ^ (-329 : ℤ) := zpow_pos (by norm_num) _
  linarith

/-- A double is kept. -/
theorem RoundsTwice.eq_of_rankValue (h : RoundsTwice (rankValue r) r') (hr : r ≤ infinityRank) :
    r' = r := by
  obtain ⟨y, hy, hr'⟩ := h
  rcases Nat.eq_zero_or_pos r with rfl | hpos
  · rw [rankValue_zero] at hy
    rw [hy.unique (Format.rounds_self Decimal.holds_zero), ← rankValue_zero] at hr'
    exact hr'.unique (rounds_rankValue hr)
  by_contra hne
  have hone : rankValue 1 ≤ rankValue r := rankValue_strictMono.monotone hpos
  have hlarge : Format.working.place (Format.working.digits - 1 + Format.working.least) ≤
      rankValue r := by
    have hle : Format.working.place (Format.working.digits - 1 + Format.working.least) ≤
        Format.working.place (Format.working.digits + Format.working.least) :=
      Format.place_le (by omega)
    linarith [two_mul_place_lt, Format.place_pos (F := Format.working)
      (Format.working.digits + Format.working.least)]
  -- The first step moves the double by a part of `10 ^ 79`, the second not further back.
  have hfirst : 2 * |rankValue r - y| * (10 ^ 79 : ℕ) ≤ rankValue r := hy.near hlarge
  have hsecond := (hr'.closest hr).1
  have hmoved : |rankValue r - rankValue r'| ≤ 2 * |rankValue r - y| := by
    have := abs_sub_le (rankValue r) y (rankValue r')
    rw [abs_sub_comm y (rankValue r)] at hsecond
    linarith
  -- Doubles lie apart by a part of `2 ^ 53` at least.
  have hapart : rankValue r ≤ |rankValue r - rankValue r'| * (2 ^ 53 : ℕ) :=
    (holds_rankValue r).apart (holds_rankValue r') fun h =>
      hne (rankValue_strictMono.injective h).symm
  have hpositive : 0 < rankValue r := by
    have := rankValue_strictMono hpos
    rwa [rankValue_zero] at this
  push_cast at hfirst hapart
  linarith

theorem exists_roundsTwice (hq : 0 ≤ q) : ∃ r, RoundsTwice q r := by
  obtain ⟨y, hy⟩ := Format.exists_rounds Format.working hq
  obtain ⟨r, hr⟩ := exists_rounds hy.holds.nonneg
  exact ⟨r, y, hy, hr⟩

theorem roundsTwice_rankValue (hr : r ≤ infinityRank) : RoundsTwice (rankValue r) r := by
  obtain ⟨r', h⟩ := exists_roundsTwice (rankValue_nonneg r)
  rwa [h.eq_of_rankValue hr] at h

/-- A number of 80 digits or fewer is rounded once only. -/
theorem RoundsTwice.rounds {c : ℕ} {e : ℤ} (hc : c < 10 ^ Decimal.workingDigits)
    (h : RoundsTwice (c * 10 ^ e) r) : Rounds (c * 10 ^ e) r := by
  obtain ⟨y, hy, hr⟩ := h
  rcases le_or_gt Decimal.tinyExponent e with he | he
  · rwa [hy.unique (Format.rounds_self (Decimal.holds_size hc he))] at hr
  · -- Below the least exponent both ways lead to zero.
    have hsmall : c * (10 : ℚ) ^ e ≤
        Format.working.place (Format.working.digits + Format.working.least) := by
      have := (Format.mul_place_lt (F := Format.working) hc e).le
      rw [Format.working_place e] at this
      exact this.trans (Format.place_le (Int.add_le_add_left he.le _))
    have hy' := hy.mono (Format.rounds_self (Format.holds_place (by omega))) hsmall
    rw [hr.eq_zero hy.holds.nonneg (by linarith [two_mul_place_lt])]
    have hzero := rounds_size c e
    rwa [hzero.eq_zero (by positivity) (by linarith [two_mul_place_lt])] at hzero

/-! ## Results -/

/-- The double is what is left of the number when it is rounded twice. -/
def ResultOf (z : Double) (x : ℚ) : Prop :=
  ∃ (s : Bool) (q : ℚ) (r : ℕ), 0 ≤ q ∧ x = withSign s q ∧ z = ofRank s r ∧ RoundsTwice q r

variable {z z' : Double}

theorem resultOf_value (h : z ≠ .nan) : z.ResultOf z.value := by
  obtain ⟨s, r, hr, rfl⟩ := exists_ofRank h
  exact ⟨s, rankValue r, r, rankValue_nonneg r, value_ofRank s hr, rfl, roundsTwice_rankValue hr⟩

theorem ResultOf.mono (h : z.ResultOf x) (h' : z'.ResultOf x') (hx : x ≤ x') :
    z.value ≤ z'.value := by
  obtain ⟨s, q, r, hq, rfl, rfl, hr⟩ := h
  obtain ⟨s', q', r', hq', rfl, rfl, hr'⟩ := h'
  rw [value_ofRank s hr.le, value_ofRank s' hr'.le]
  have hpos := rankValue_nonneg r
  have hpos' := rankValue_nonneg r'
  cases s <;> cases s' <;> simp only [withSign, if_true, Bool.false_eq_true, if_false] at hx ⊢
  · exact rankValue_strictMono.monotone (hr.mono hr' hx)
  · -- Both numbers are zero.
    obtain rfl : q = rankValue 0 := by rw [rankValue_zero]; linarith
    obtain rfl : q' = rankValue 0 := by rw [rankValue_zero]; linarith
    rw [hr.eq_of_rankValue (Nat.zero_le _), hr'.eq_of_rankValue (Nat.zero_le _), rankValue_zero]
    simp
  · linarith
  · linarith [rankValue_strictMono.monotone (hr'.mono hr (by linarith))]

/-- What a double keeps of a number, infinity being read as the power of two behind the largest
double. -/
structure Approximates (z : Double) (x : ℚ) : Prop where
  /-- The double is a number. -/
  ne_nan : z ≠ .nan
  /-- A number that is a double is kept, up to the sign of a zero. -/
  kept : ∀ w : Double, w ≠ .nan → w.value = x → z = w ∨ x = 0 ∧ z = w.negate
  /-- No double lies between the number and the double. -/
  enclosing : ∀ w : Double, w ≠ .nan →
    (w.value ≤ x → w.value ≤ z.value) ∧ (x ≤ w.value → z.value ≤ w.value)
  /-- If the number has 80 digits or fewer, no double is nearer, and of two the even one is
  taken. -/
  nearest : ∀ (c : ℕ) (e : ℤ), c < 10 ^ 80 → |x| = c * 10 ^ e → ∀ w : Double, w ≠ .nan →
    |x - z.value| ≤ |x - w.value| ∧
      (|x - z.value| = |x - w.value| → w.value = z.value ∨ z.rank % 2 = 0)

/-- Two doubles of one value are the same or the two zeros. -/
theorem eq_or_negate_of_value_eq (hz : z ≠ .nan) (hz' : z' ≠ .nan) (h : z.value = z'.value) :
    z = z' ∨ z'.value = 0 ∧ z = z'.negate := by
  obtain ⟨s, r, hr, rfl⟩ := exists_ofRank hz
  obtain ⟨s', r', hr', rfl⟩ := exists_ofRank hz'
  rw [value_ofRank s hr, value_ofRank s' hr'] at h
  rw [value_ofRank s' hr']
  have hpos := rankValue_nonneg r
  have hpos' := rankValue_nonneg r'
  by_cases hs : s = s'
  · subst hs
    have : rankValue r = rankValue r' := by cases s <;> simpa [withSign] using h
    rw [rankValue_strictMono.injective this]
    exact .inl rfl
  · have hzero : rankValue r = 0 ∧ rankValue r' = 0 := by
      cases s <;> cases s' <;> simp [withSign] at hs h <;> constructor <;> linarith
    rw [← rankValue_zero] at hzero
    obtain rfl := rankValue_strictMono.injective hzero.1
    obtain rfl := rankValue_strictMono.injective hzero.2
    refine .inr ⟨by cases s' <;> simp [withSign, rankValue_zero], ?_⟩
    cases s <;> cases s' <;> simp at hs <;> rfl

theorem ResultOf.ne_nan (h : z.ResultOf x) : z ≠ .nan := by
  obtain ⟨s, q, r, -, -, rfl, -⟩ := h
  exact ofRank_ne_nan s r

/-- A double is its own result, up to the sign of a zero. -/
theorem ResultOf.eq_of_value (h : z.ResultOf x) (hz' : z' ≠ .nan) (hx : z'.value = x) :
    z = z' ∨ x = 0 ∧ z = z'.negate := by
  subst hx
  have hself := resultOf_value hz'
  exact eq_or_negate_of_value_eq h.ne_nan hz'
    (le_antisymm (h.mono hself le_rfl) (hself.mono h le_rfl))

theorem abs_withSign_sub (s : Bool) (a b : ℚ) : |withSign s a - withSign s b| = |a - b| := by
  cases s
  · rfl
  · simp only [withSign, if_true]
    rw [neg_sub_neg, abs_sub_comm]

theorem abs_withSign_sub_of_ne {s t : Bool} (h : t ≠ s) {a b : ℚ} (ha : 0 ≤ a) (hb : 0 ≤ b) :
    |withSign s a - withSign t b| = a + b := by
  obtain rfl : t = !s := by cases s <;> cases t <;> simp_all
  cases s <;> simp only [withSign, if_true, Bool.not_false, Bool.not_true, Bool.false_eq_true,
    if_false]
  · rw [sub_neg_eq_add, abs_of_nonneg (by linarith)]
  · rw [abs_of_nonpos (by linarith)]
    ring

/-- The result of a number of 80 digits or fewer is the nearest double, the even one of two. -/
theorem ResultOf.closest (h : z.ResultOf x) {c : ℕ} {e : ℤ} (hc : c < 10 ^ Decimal.workingDigits)
    (hx : |x| = c * 10 ^ e) (hz' : z' ≠ .nan) : |x - z.value| ≤ |x - z'.value| ∧
      (|x - z.value| = |x - z'.value| → z'.value = z.value ∨ z.rank % 2 = 0) := by
  obtain ⟨s, q, r, hq, rfl, rfl, hr⟩ := h
  obtain ⟨s', r', hr', rfl⟩ := exists_ofRank hz'
  obtain rfl : q = c * 10 ^ e := by
    rw [← hx]
    cases s <;> simp [withSign, abs_of_nonneg hq]
  have hround := hr.rounds hc
  rw [value_ofRank s hr.le, value_ofRank s' hr', rank_ofRank s hr.le, abs_withSign_sub]
  by_cases hs : s' = s
  · rw [hs, abs_withSign_sub]
    obtain ⟨hnear, htie⟩ := hround.closest hr'
    exact ⟨hnear, fun e => (htie e).imp_left fun h => by rw [h]⟩
  · -- Zero is as near as a double of the other sign.
    obtain ⟨hnear, htie⟩ := hround.closest (Nat.zero_le infinityRank)
    rw [rankValue_zero, sub_zero, abs_of_nonneg hq] at hnear htie
    have hpos := rankValue_nonneg r'
    rw [abs_withSign_sub_of_ne hs hq hpos]
    exact ⟨by linarith, fun e => .inr ((htie (by linarith)).elim (fun h => by rw [← h]) id)⟩

theorem ResultOf.approximates (h : z.ResultOf x) : z.Approximates x where
  ne_nan := h.ne_nan
  kept _ hw hx := h.eq_of_value hw hx
  enclosing _ hw := ⟨(resultOf_value hw).mono h, h.mono (resultOf_value hw)⟩
  nearest _ _ hc hx _ hw := h.closest hc hx hw

end Double

/-! ## The operators -/

namespace Decimal

/-- The decimal is neither infinite nor missing. -/
def IsFinite : Decimal → Prop
  | .finite .. => True
  | _ => False

end Decimal

namespace Operator

section

variable {library : Library} {precision : Precision} {a b d : Decimal} {x : ℚ}

/-- The exact result of an operator on two finite numbers. -/
def Exact (op : Operator) (a b : Decimal) (x : ℚ) : Prop :=
  a.IsFinite ∧ b.IsFinite ∧
    match op with
    | .plus => x = a.value + b.value
    | .minus => x = a.value - b.value
    | .times => x = a.value * b.value
    | .divide => b.value ≠ 0 ∧ x = a.value / b.value
    | _ => False

/-- What is settled without an overflow is rounded to the double of the exact result. -/
theorem rounded_resultOf {zero : Bool} {y : Except Signal Decimal}
    (h : Decimal.Settles x zero y) (ho : rounded y ≠ .error (.signal .overflow)) :
    ∃ z : Double, rounded y = .ok z.toDecimal ∧ z.ResultOf x := by
  obtain ⟨c, e, hr, rfl⟩ := h
  split at ho
  · exact absurd rfl ho
  rename_i hover
  obtain ⟨r, hdouble, hr'⟩ := Double.exists_ofDecimal (Decimal.signOf x zero) c e
  rw [if_neg hover]
  exact ⟨_, rfl, Decimal.signOf x zero, |x|, r, abs_nonneg x, (Decimal.withSign_signOf x zero).symm,
    hdouble, _, hr, hr'⟩

/-- A divisor that is finite and not zero is accepted. -/
theorem checkDivisor_of_value {s : Bool} {c : ℕ} {e : ℤ}
    (h : (Decimal.finite s c e).value ≠ 0) : 0 < c ∧ checkDivisor (.finite s c e) = .ok () := by
  have hc : c ≠ 0 := by
    rintro rfl
    exact h (by cases s <;> simp [Decimal.value, withSign])
  exact ⟨Nat.pos_of_ne_zero hc, by simp [checkDivisor, Decimal.isSignaling, Decimal.isZero, hc]⟩

/-- The sign of a zero that the operator comes to, from the signs of the operands. -/
def zeroSign (op : Operator) (s t : Bool) : Bool :=
  match op with
  | .plus => s && t
  | .minus => s && !t
  | _ => s != t

/-- An operator rounds the settled exact result to a double. -/
theorem onDecimals_settles (precision : Precision) {op : Operator} {s t : Bool} {c d : ℕ} {e f : ℤ}
    (hx : op.Exact (.finite s c e) (.finite t d f) x) : ∃ y,
      Decimal.Settles x (op.zeroSign s t) y ∧
        op.onDecimals precision (.finite s c e) (.finite t d f) = rounded y := by
  obtain ⟨-, -, hx⟩ := hx
  cases op with
  | plus =>
    obtain rfl := hx
    exact ⟨_, Decimal.settles_sum s t c d e f, rfl⟩
  | minus =>
    obtain rfl := hx
    have hdifference : (Decimal.finite s c e).value - (Decimal.finite t d f).value =
        withSign s (c * 10 ^ e) + withSign (!t) (d * 10 ^ f) := by
      cases t <;> simp [Decimal.value, withSign, sub_eq_add_neg]
    rw [hdifference]
    exact ⟨_, Decimal.settles_sum s (!t) c d e f, rfl⟩
  | times =>
    obtain rfl := hx
    exact ⟨_, Decimal.settles_product s t c d e f, rfl⟩
  | divide =>
    obtain ⟨hne, rfl⟩ := hx
    obtain ⟨hd, hcheck⟩ := checkDivisor_of_value hne
    exact ⟨_, Decimal.settles_quotient s t c e f hd, by simp only [onDecimals, hcheck]⟩
  | modulo => exact hx.elim
  | power => exact hx.elim

/-- An operator that does not overflow gives the double of the exact result. -/
theorem onDecimals_resultOf {op : Operator} (hx : op.Exact a b x)
    (ho : op.onDecimals precision a b ≠ .error (.signal .overflow)) :
    ∃ z : Double, op.onDecimals precision a b = .ok z.toDecimal ∧ z.ResultOf x := by
  cases a with
  | infinite s => exact hx.1.elim
  | nan s signaling d => exact hx.1.elim
  | finite s c e =>
  cases b with
  | infinite s => exact hx.2.1.elim
  | nan s signaling d => exact hx.2.1.elim
  | finite t d f =>
    obtain ⟨y, hy, heq⟩ := onDecimals_settles precision hx
    rw [heq] at ho ⊢
    exact rounded_resultOf hy ho

/-- An operator on finite numbers that does not overflow gives the double that is the exact result
if there is one, and else one of the two doubles around it : the nearest one, if the exact result
has 80 digits or fewer. A larger exact result has no smaller double. -/
theorem onDecimals_faithful {op : Operator} (hx : op.Exact a b x)
    (ho : op.onDecimals precision a b ≠ .error (.signal .overflow)) :
    ∃ z : Double, op.onDecimals precision a b = .ok z.toDecimal ∧ z.Approximates x ∧
      ∀ (op' : Operator) (precision' : Precision) (a' b' : Decimal) (x' : ℚ) (z' : Double),
        op'.Exact a' b' x' → op'.onDecimals precision' a' b' = .ok z'.toDecimal → x ≤ x' →
          z.value ≤ z'.value := by
  obtain ⟨z, hz, hr⟩ := onDecimals_resultOf hx ho
  refine ⟨z, hz, hr.approximates, fun op' precision' a' b' x' z' hx' hz' hle => ?_⟩
  have ho' : op'.onDecimals precision' a' b' ≠ .error (.signal .overflow) := by
    rw [hz']
    exact fun h => by cases h
  obtain ⟨w, hw, hr'⟩ := onDecimals_resultOf hx' ho'
  obtain rfl : w = z' := by
    have := congrArg Double.ofDecimal (Except.ok.inj (hw.symm.trans hz'))
    rwa [Double.ofDecimal_toDecimal, Double.ofDecimal_toDecimal] at this
  exact hr.mono hr' hle

end

attribute [local instance] Library.rounded

/-- A sum just above the middle of two doubles. The first step rounds it to the middle and the
second to the lower double, which is not the nearest. -/
theorem onDecimals_faithful_middle :
    let a : Decimal := .finite false 1 0
    let b : Decimal := .finite false (5 ^ 53 * 10 ^ 147 + 1) (-200)
    let x : ℚ := a.value + b.value
    plus.Exact a b x ∧ plus.onDecimals .standard a b = .ok Double.one.toDecimal ∧
      ∃ z : Double, plus.onDecimals .standard a b = .ok z.toDecimal ∧ z.Approximates x ∧
        ∀ (op' : Operator) (precision' : Precision) (a' b' : Decimal) (x' : ℚ) (z' : Double),
          op'.Exact a' b' x' → op'.onDecimals precision' a' b' = .ok z'.toDecimal → x ≤ x' →
            z.value ≤ z'.value := by
  intro a b x
  have hx : plus.Exact a b x := ⟨trivial, trivial, rfl⟩
  have hone : plus.onDecimals .standard a b = .ok Double.one.toDecimal := by decide +kernel
  exact ⟨hx, hone, onDecimals_faithful hx (by rw [hone]; simp)⟩

end Operator

end Reckon
