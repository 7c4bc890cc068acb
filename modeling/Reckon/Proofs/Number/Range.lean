import Mathlib.Tactic.Common
import Reckon.Builtin

/-!
# Which numbers can signal

The only signal of working arithmetic is the overflow (`Decimal.settle_cases`), and
numbers of moderate size do not reach it : if two numbers lie within `10 ^ k`
(`Decimal.Within`), the sum, the product and the quotient are settled without a signal. Every
double lies within `10 ^ doubleDigits` (`Double.within_toDecimal`), and so does every hash of
a text.

So with standard precision, where all numbers are doubles or hashes, no operation signals. A
number is calm (`Decimal.Calm`) if it is not signaling and, with standard precision, within
the bound of the doubles; operations and functions keep numbers calm, and what goes wrong on
the way is a division by zero or, with high precision only, a signal of decimal arithmetic
(`Trouble.Allowed`).
-/

namespace Reckon

-- Powers are those of core, also where there are others, and so exponents need their type.
attribute [local instance (high)] instPowNat

/-- The outcome has a property if it is a value, and another if it is an error. -/
def Ends {ε α : Type} (P : α → Prop) (F : ε → Prop) : Except ε α → Prop
  | .ok a => P a
  | .error e => F e

theorem Ends.mono {ε α : Type} {P Q : α → Prop} {F G : ε → Prop} {x : Except ε α}
    (h : Ends P F x) (hP : ∀ a, P a → Q a) (hF : ∀ e, F e → G e) : Ends Q G x := by
  cases x with
  | ok a => exact hP a h
  | error e => exact hF e h

theorem Ends.any {ε α : Type} (x : Except ε α) : Ends (fun _ => True) (fun _ => True) x := by
  cases x <;> trivial

theorem Ends.bind {ε α β : Type} {P : α → Prop} {Q : β → Prop} {F : ε → Prop} {x : Except ε α}
    {f : α → Except ε β} (h : Ends P F x) (hf : ∀ a, P a → Ends Q F (f a)) :
    Ends Q F (x >>= f) := by
  cases x with
  | ok a => exact hf a h
  | error e => exact h

/-- The outcome is a value with the one property or an error with the other. -/
theorem Ends.value_or_error {ε α : Type} {P : α → Prop} {F : ε → Prop} {x : Except ε α}
    (h : Ends P F x) : (∃ a, x = .ok a ∧ P a) ∨ ∃ e, x = .error e ∧ F e := by
  cases x with
  | ok a => exact .inl ⟨a, rfl, h⟩
  | error e => exact .inr ⟨e, rfl, h⟩

namespace Decimal

/-! ## Settling -/

/-- Settling overflows or gives a finite number; there is no third way. -/
theorem settle_cases (s : Bool) (c : Nat) (e : Int) :
    settle s c e = .error .overflow ∨ ∃ c' e', settle s c e = .ok (.finite s c' e') := by
  unfold settle
  simp only
  repeat' split
  all_goals first | exact .inl rfl | exact .inr ⟨_, _, rfl⟩

theorem settle_ends (s : Bool) (c : Nat) (e : Int) :
    Ends (fun d => d.isSignaling = false) (· = .overflow) (settle s c e) := by
  rcases settle_cases s c e with h | ⟨c', e', h⟩ <;> rw [h] <;> rfl

theorem sum_ends (a b : Decimal) :
    Ends (fun d => d.isSignaling = false) (· = .overflow) (sum a b) := by
  unfold sum
  split
  · rfl
  · rfl
  · split <;> rfl
  · rfl
  · rfl
  · repeat' split
    · rfl
    all_goals exact settle_ends _ _ _

theorem product_ends (a b : Decimal) :
    Ends (fun d => d.isSignaling = false) (· = .overflow) (product a b) := by
  unfold product
  split
  · rfl
  · rfl
  · rfl
  · split <;> rfl
  · split <;> rfl
  · exact settle_ends _ _ _

theorem quotient_ends (a b : Decimal) :
    Ends (fun d => d.isSignaling = false) (· = .overflow) (quotient a b) := by
  unfold quotient
  split
  · rfl
  · rfl
  · rfl
  · rfl
  · rfl
  · simp only
    split <;> exact settle_ends _ _ _

theorem flooredRemainder_ends (a b : Decimal) :
    Ends (fun d => d.isSignaling = false) (· = .overflow) (flooredRemainder a b) :=
  (quotient_ends a b).bind fun q _ =>
    (product_ends q.floor b).bind fun p _ => sum_ends a p.negate

theorem squareRoot_ends (a : Decimal) :
    Ends (fun d => d.isSignaling = false) (· = .overflow) (squareRoot a) := by
  unfold squareRoot
  split
  · rfl
  · split <;> rfl
  · simp only
    repeat' split
    · rfl
    · rfl
    all_goals exact settle_ends _ _ _

/-- Sizes up to this one are far from the largest exponent. -/
def moderate : Nat := 1000000

/-- A coefficient and an exponent of moderate size are settled. -/
theorem exists_settle {k : Nat} (hk : 0 < k) (hm : k ≤ moderate) (s : Bool) {c : Nat} {e : Int}
    (hc : c < 10 ^ k) (hl : -(k : Int) ≤ e) (hh : e ≤ k) : ∃ d, settle s c e = .ok d := by
  have hm' : k ≤ 1000000 := hm
  have hcount := digitCount_le hk hc
  unfold settle
  simp only
  split
  · exact ⟨_, rfl⟩
  split
  · exact ⟨_, rfl⟩
  rw [if_neg]
  · exact ⟨_, rfl⟩
  rintro ⟨-, hover⟩
  generalize hx : (max ((digitCount c : Int) - workingDigits) (tinyExponent - e)).toNat = dropped
    at hover
  have hdropped : dropped ≤ k := by
    simp only [workingDigits, tinyExponent] at hx
    omega
  -- Dropping digits and rounding leaves at most one digit more than there were.
  have hrounded : roundHalfEven c (10 ^ dropped) < 10 ^ (k + 1) := by
    have hr := (roundHalfEven_bounds c (10 ^ dropped)).2
    have hq := Nat.div_le_self c (10 ^ dropped)
    have hpow : 10 ^ k < 10 ^ (k + 1) := Nat.pow_lt_pow_right (by decide) (Nat.lt_succ_self k)
    omega
  have hdigits : ∀ b : Bool, digitCount (if b then roundHalfEven c (10 ^ dropped) / 10
      else roundHalfEven c (10 ^ dropped)) ≤ k + 1 := by
    intro b
    refine digitCount_le (Nat.succ_pos k) ?_
    cases b
    · exact hrounded
    · exact Nat.lt_of_le_of_lt (Nat.div_le_self _ _) hrounded
  have hcarried := hdigits (decide (10 ^ workingDigits ≤ roundHalfEven c (10 ^ dropped)))
  simp only [adjusted, largestExponent] at hover
  have hone : (if decide (10 ^ workingDigits ≤ roundHalfEven c (10 ^ dropped)) then (1 : Int)
      else 0) ≤ 1 := by
    split <;> decide
  omega

/-! ## Numbers of moderate size -/

/-- A finite number has a coefficient below `10 ^ k` and an exponent up to `k` in size. -/
def Within (k : Nat) : Decimal → Prop
  | .finite _ c e => c < 10 ^ k ∧ -(k : Int) ≤ e ∧ e ≤ k
  | _ => True

theorem within_negate {k : Nat} {a : Decimal} (h : a.Within k) : a.negate.Within k := by
  cases a with
  | finite s c e => exact h
  | infinite s => trivial
  | nan s t d => trivial

theorem pow_le_pow_ten {j k : Nat} (h : j ≤ k) : 10 ^ j ≤ 10 ^ k :=
  Nat.pow_le_pow_right (by decide) h

/-- A product of numbers below powers of ten is below the power of the sum. -/
theorem mul_lt_pow_ten {a b j k : Nat} (ha : a < 10 ^ j) (hb : b ≤ 10 ^ k) :
    a * b < 10 ^ (j + k) := by
  rw [Nat.pow_add]
  calc a * b ≤ a * 10 ^ k := Nat.mul_le_mul_left a hb
    _ < 10 ^ j * 10 ^ k := Nat.mul_lt_mul_of_pos_right ha (Nat.pow_pos (by decide))

variable {k : Nat} (hk : 0 < k) (hm : 3 * k + 84 ≤ moderate)

include hk hm

theorem exists_addLower (s t : Bool) {c d : Nat} {e f : Int} (hc : c < 10 ^ k) (hd : d < 10 ^ k)
    (he : -(k : Int) ≤ e ∧ e ≤ k) (hf : -(k : Int) ≤ f ∧ f ≤ k) (hfe : f ≤ e) :
    ∃ x, addLower s c e t d f = .ok x := by
  unfold addLower
  simp only
  generalize hfar : decide ((digitCount d : Int) + f + 83 ≤ e) = far
  have hlow : ∀ b : Bool, (if b then e - 83 else f) ≤ e ∧
      -((k : Int) + 83) ≤ (if b then e - 83 else f) := by
    intro b
    cases b <;> simp <;> omega
  have hd' : (if far then 1 else d) < 10 ^ (k + 83 + k + k) := by
    have h1 : 1 < 10 ^ k := Nat.one_lt_pow (by omega) (by decide)
    have h2 := pow_le_pow_ten (show k ≤ k + 83 + k + k by omega)
    split <;> omega
  obtain ⟨hle, hge⟩ := hlow far
  generalize (if far = true then 1 else d) = d' at hd' ⊢
  generalize (if far = true then e - 83 else f) = f' at hle hge ⊢
  refine exists_settle (k := 3 * k + 84) (by omega) hm _ ?_ (by omega) (by omega)
  have hscaled : c * 10 ^ (e - f').toNat < 10 ^ (k + (k + 83 + k)) :=
    mul_lt_pow_ten hc (pow_le_pow_ten (by omega))
  have habs := Int.natAbs_add_le (signed s (c * 10 ^ (e - f').toNat)) (signed t d')
  rw [natAbs_signed, natAbs_signed] at habs
  have hpow : 10 ^ (3 * k + 84) = 10 * 10 ^ (k + 83 + k + k) := by
    rw [show 3 * k + 84 = k + 83 + k + k + 1 by omega, Nat.pow_succ, Nat.mul_comm]
  rw [show k + (k + 83 + k) = k + 83 + k + k by omega] at hscaled
  omega

theorem exists_sum {a b : Decimal} (ha : a.Within k) (hb : b.Within k) : ∃ d, sum a b = .ok d := by
  unfold sum
  split
  · exact ⟨_, rfl⟩
  · exact ⟨_, rfl⟩
  · exact ⟨_, rfl⟩
  · exact ⟨_, rfl⟩
  · exact ⟨_, rfl⟩
  · split
    · exact ⟨_, rfl⟩
    split
    · exact exists_settle hk (by omega) _ ha.1 ha.2.1 ha.2.2
    split
    · exact exists_settle hk (by omega) _ hb.1 hb.2.1 hb.2.2
    split
    · rename_i hfe
      exact exists_addLower hk hm _ _ ha.1 hb.1 ha.2 hb.2 hfe
    · exact exists_addLower hk hm _ _ hb.1 ha.1 hb.2 ha.2 (by omega)

theorem exists_difference {a b : Decimal} (ha : a.Within k) (hb : b.Within k) :
    ∃ d, difference a b = .ok d :=
  exists_sum hk hm ha (within_negate hb)

theorem exists_product {a b : Decimal} (ha : a.Within k) (hb : b.Within k) :
    ∃ d, product a b = .ok d := by
  unfold product
  split
  · exact ⟨_, rfl⟩
  · exact ⟨_, rfl⟩
  · exact ⟨_, rfl⟩
  · exact ⟨_, rfl⟩
  · exact ⟨_, rfl⟩
  · have hc := mul_lt_pow_ten ha.1 (Nat.le_of_lt hb.1)
    have he := ha.2
    have hf := hb.2
    exact exists_settle (k := k + k) (by omega) (by omega) _ hc (by omega) (by omega)

theorem exists_quotient {a b : Decimal} (ha : a.Within k) (hb : b.Within k) :
    ∃ d, quotient a b = .ok d := by
  unfold quotient
  split
  · exact ⟨_, rfl⟩
  · exact ⟨_, rfl⟩
  · exact ⟨_, rfl⟩
  · exact ⟨_, rfl⟩
  · exact ⟨_, rfl⟩
  · rename_i s c e t d f
    have he := ha.2
    have hf := hb.2
    have hcount := digitCount_le hk hb.1
    simp only
    generalize hp : workingDigits + 2 + digitCount d - digitCount c = places
    have hplaces : places ≤ k + 82 := by
      simp only [workingDigits] at hp
      omega
    have hn : c * 10 ^ places < 10 ^ (k + (k + 82)) :=
      mul_lt_pow_ten ha.1 (pow_le_pow_ten hplaces)
    have hq := Nat.div_le_self (c * 10 ^ places) d
    have hpow : 10 ^ (3 * k + 84) = 10 ^ (k + 2) * 10 ^ (k + (k + 82)) := by
      rw [← Nat.pow_add]
      congr 1
      omega
    have hhundred : 100 * 10 ^ (k + (k + 82)) ≤ 10 ^ (k + 2) * 10 ^ (k + (k + 82)) := by
      refine Nat.mul_le_mul_right _ ?_
      have := pow_le_pow_ten (show 2 ≤ k + 2 by omega)
      omega
    split
    · exact exists_settle (k := 3 * k + 84) (by omega) hm _ (by omega) (by omega) (by omega)
    · exact exists_settle (k := 3 * k + 84) (by omega) hm _ (by omega) (by omega) (by omega)

end Decimal

/-! ## Doubles -/

/-- An exact decimal of a double has fewer digits than this. -/
def doubleDigits : Nat := 2100

namespace Double

/-- A finite double has at most `2 ^ 2098` units. -/
theorem units_le (r : Fin infinityRank) {k : Nat} (hk : 2098 ≤ k) : units r ≤ 2 ^ k := by
  have hr : r.val / 2 ^ 52 ≤ 2046 := by
    have := r.isLt
    simp only [infinityRank] at this
    omega
  have hm : r.val % 2 ^ 52 < 2 ^ 52 := Nat.mod_lt _ (by decide)
  unfold units
  split
  · rename_i h
    exact Nat.le_trans (Nat.le_of_lt h) (Nat.pow_le_pow_right (by decide) (by omega))
  · calc (2 ^ 52 + r.val % 2 ^ 52) * 2 ^ (r.val / 2 ^ 52 - 1)
        ≤ 2 ^ 53 * 2 ^ (k - 53) :=
          Nat.mul_le_mul (by omega) (Nat.pow_le_pow_right (by decide) (by omega))
      _ = 2 ^ k := by
          rw [← Nat.pow_add]
          congr 1
          omega

theorem log2_le {n k : Nat} (h : n ≤ 2 ^ k) : n.log2 ≤ k := by
  rcases Nat.eq_zero_or_pos n with rfl | hn
  · simp
  · have hlt : n < 2 ^ (k + 1) := Nat.lt_of_le_of_lt h (Nat.pow_lt_pow_succ (by decide))
    have := (Nat.log2_lt (Nat.ne_of_gt hn)).2 hlt
    omega

theorem mul_five_pow_le {u places j k : Nat} (hu : u ≤ 2 ^ j) (hp : places ≤ k) :
    u * 5 ^ places ≤ 2 ^ j * 5 ^ k :=
  Nat.mul_le_mul hu (Nat.pow_le_pow_right (by decide) hp)

theorem within_toDecimal (x : Double) : x.toDecimal.Within doubleDigits := by
  cases x with
  | nan => trivial
  | infinite s => trivial
  | finite s r =>
    simp only [toDecimal]
    split
    · exact ⟨Nat.pow_pos (by decide), by decide, by decide⟩
    · have hplaces : (unitsOfOne / (units r).gcd unitsOfOne).log2 ≤ 1074 :=
        log2_le (Nat.le_trans (Nat.div_le_self _ _) (Nat.le_of_eq unitsOfOne.eq_1))
      generalize (unitsOfOne / (units r).gcd unitsOfOne).log2 = places at hplaces
      refine ⟨?_, ?_, ?_⟩
      · have hsize : (2 : ℕ) ^ (2098 : ℕ) * 5 ^ (1074 : ℕ) < 10 ^ doubleDigits := by
          decide +kernel
        have hunits := Nat.le_trans (Nat.div_le_self (units r) ((units r).gcd unitsOfOne))
          (units_le r (Nat.le_refl _))
        exact Nat.lt_of_le_of_lt (mul_five_pow_le hunits hplaces) hsize
      · simp only [doubleDigits]
        omega
      · simp only [doubleDigits]
        omega

end Double

/-! ## Calm numbers -/

/-- A hash is a signed word of 64 bits. -/
theorem Text.hash_bounds (t : Text) : -2 ^ (63 : ℕ) ≤ t.hash ∧ t.hash < 2 ^ (63 : ℕ) := by
  have hword : ∀ (t : Text) (h : Nat), h < 2 ^ 64 →
      t.foldl (fun h c => (h * 31 + c.val) % 2 ^ 64) h < 2 ^ 64 := by
    intro t
    induction t with
    | nil => exact fun h hh => hh
    | cons c t ih => exact fun h _ => ih _ (Nat.mod_lt _ (by decide))
  have hlt := hword t 0 (by decide)
  unfold hash
  simp only
  split <;> omega

theorem Text.natAbs_hash_le (t : Text) : t.hash.natAbs ≤ 2 ^ (64 : ℕ) := by
  have hbounds := t.hash_bounds
  omega

theorem Text.within_hash (t : Text) : (Decimal.ofInt t.hash).Within doubleDigits := by
  have hsize : 2 ^ 64 < 10 ^ doubleDigits := by decide +kernel
  exact ⟨Nat.lt_of_le_of_lt t.natAbs_hash_le hsize, by decide, by decide⟩

namespace Decimal

/-- The number is not signaling, and at standard precision not larger than the doubles. -/
def Calm (precision : Precision) (d : Decimal) : Prop :=
  d.isSignaling = false ∧ (precision = .standard → d.Within doubleDigits)

theorem calm_toDecimal (precision : Precision) (x : Double) : x.toDecimal.Calm precision :=
  ⟨isSignaling_toDecimal x, fun _ => x.within_toDecimal⟩

theorem calm_hash (precision : Precision) (t : Text) : (ofInt t.hash).Calm precision :=
  ⟨rfl, fun _ => t.within_hash⟩

/-- A calm number is an operand of operations on doubles. -/
theorem Calm.toDouble {precision : Precision} {d : Decimal} (h : d.Calm precision) :
    d.toDouble = .ok (Double.ofDecimal d) := by
  rw [Decimal.toDouble, h.1]
  rfl

end Decimal

/-- What can go wrong where the kinds are right : a division by zero, a string that becomes
too long, and with high precision a signal of decimal arithmetic. -/
def Trouble.Allowed (precision : Precision) : Trouble → Prop
  | .fault f => f = .divisionByZero
  | .exceeded e => e.limit = .stringLength
  | .signal s => precision = .high ∧ (s = .overflow ∨ s = .invalidOperation)

/-- A signal that goes wrong is one of these; a fault or an exceeded limit may be any. -/
def Trouble.SignalsOnly (S : Signal → Prop) : Trouble → Prop
  | .signal s => S s
  | _ => True

namespace Operator

variable {precision : Precision} {a b : Decimal}

/-- An operator rounds what working arithmetic comes to, or computes in doubles, or it refuses
its divisor. -/
theorem onDecimals_cases [Library] (precision : Precision) (op : Operator) (a b : Decimal) :
    (∃ x, op.onDecimals precision a b = rounded x) ∨
      (∃ f, op.onDecimals precision a b = onDoubles f a b) ∨
      (op = .divide ∨ op = .modulo) ∧
        ∃ t, checkDivisor b = .error t ∧ op.onDecimals precision a b = .error t := by
  cases op with
  | plus | minus | times => exact .inl ⟨_, rfl⟩
  | power => exact .inr (.inl ⟨_, rfl⟩)
  | divide =>
    cases hb : checkDivisor b with
    | error t => exact .inr (.inr ⟨.inl rfl, t, rfl, by simp only [onDecimals, hb]⟩)
    | ok u => exact .inl ⟨a.quotient b, by simp only [onDecimals, hb]⟩
  | modulo =>
    cases hb : checkDivisor b with
    | error t => exact .inr (.inr ⟨.inr rfl, t, rfl, by simp only [onDecimals, hb]⟩)
    | ok u =>
      cases precision with
      | standard => exact .inr (.inl ⟨Double.remainder, by simp only [onDecimals, hb]⟩)
      | high => exact .inl ⟨a.flooredRemainder b, by simp only [onDecimals, hb]⟩

/-- A result that can only overflow, and does not overflow at standard precision, is rounded
to a calm number. -/
theorem rounded_ends {x : Except Signal Decimal}
    (h : Ends (fun d => d.isSignaling = false) (· = .overflow) x)
    (hx : precision = .standard → ∃ d, x = .ok d) :
    Ends (Decimal.Calm precision) (Trouble.Allowed precision) (rounded x) := by
  cases x with
  | ok d => exact Decimal.calm_toDecimal precision _
  | error s =>
    obtain rfl : s = .overflow := h
    cases precision with
    | standard =>
      obtain ⟨d, hd⟩ := hx rfl
      cases hd
    | high => exact ⟨rfl, .inl rfl⟩

theorem onDoubles_ends (f : Double → Double → Double) (ha : a.Calm precision)
    (hb : b.Calm precision) :
    Ends (Decimal.Calm precision) (Trouble.Allowed precision) (onDoubles f a b) := by
  rw [onDoubles, ha.toDouble, hb.toDouble]
  exact Decimal.calm_toDecimal precision _

/-- A calm divisor is refused only if it is zero. -/
theorem checkDivisor_ends (hb : b.Calm precision) :
    Ends (fun _ => True) (· = .fault .divisionByZero) (checkDivisor b) := by
  unfold checkDivisor
  rw [if_neg (by simp [hb.1])]
  split
  · rfl
  · trivial

/-- An operator keeps numbers calm. -/
theorem onDecimals_ends [Library] (op : Operator) (ha : a.Calm precision)
    (hb : b.Calm precision) :
    Ends (Decimal.Calm precision) (Trouble.Allowed precision) (op.onDecimals precision a b) := by
  have hk : 0 < doubleDigits := by decide
  have hm : 3 * doubleDigits + 84 ≤ Decimal.moderate := by decide
  have hdivisor := (checkDivisor_ends hb).value_or_error
  cases op with
  | plus =>
    exact rounded_ends (Decimal.sum_ends a b) fun h => Decimal.exists_sum hk hm (ha.2 h) (hb.2 h)
  | minus =>
    exact rounded_ends (Decimal.sum_ends a b.negate) fun h =>
      Decimal.exists_difference hk hm (ha.2 h) (hb.2 h)
  | times =>
    exact rounded_ends (Decimal.product_ends a b) fun h =>
      Decimal.exists_product hk hm (ha.2 h) (hb.2 h)
  | divide =>
    rcases hdivisor with ⟨_, hc, -⟩ | ⟨_, hc, rfl⟩
    · simp only [onDecimals, hc]
      exact rounded_ends (Decimal.quotient_ends a b) fun h =>
        Decimal.exists_quotient hk hm (ha.2 h) (hb.2 h)
    · simp only [onDecimals, hc]
      rfl
  | modulo =>
    rcases hdivisor with ⟨_, hc, -⟩ | ⟨_, hc, rfl⟩
    · simp only [onDecimals, hc]
      cases precision with
      | standard => exact onDoubles_ends _ ha hb
      | high => exact rounded_ends (Decimal.flooredRemainder_ends a b) fun h => by cases h
    · simp only [onDecimals, hc]
      rfl
  | power => exact onDoubles_ends _ ha hb

end Operator

namespace SignedNumeral

/-- A literal is read as a calm number. -/
theorem read_ends (precision : Precision) (n : SignedNumeral) :
    Ends (Decimal.Calm precision) (fun s => precision = .high ∧ s = .invalidOperation)
      (n.read precision) := by
  cases precision with
  | standard => exact Decimal.calm_toDecimal _ _
  | high =>
    have hread : n.decimal = .ok n.written ∨ n.decimal = .error .invalidOperation :=
      ite_eq_or_eq _ _ _
    rw [read]
    rcases hread with h | h <;> rw [h]
    · exact ⟨rfl, fun h => by cases h⟩
    · exact ⟨rfl, rfl⟩

end SignedNumeral

end Reckon
