import Reckon.Text.Basic

/-!
# Decimal digits

`digitsOf` writes a natural number in base ten, most significant digit first, and
`digitsValue` reads such a list back (`digitsValue_digitsOf`). Zero has the one digit
`0`; no other number starts with one. The number of digits tells the powers of ten that a number
lies between (`pow_digitCount_le`, `lt_pow_digitCount`).
-/

namespace Reckon

-- Powers are those of core, also where there are others.
attribute [local instance (high)] instPowNat

/-- A digit of base ten. -/
abbrev Digit := Fin 10

/-- There is a digit zero. -/
instance Digit.neZero : @NeZero Nat Zero.ofOfNat0 10 := ⟨by decide⟩

namespace Digit

/-- The ASCII digit. -/
def codePoint (d : Digit) : CodePoint := ⟨48 + d.val, by omega⟩

/-- The digit that an ASCII digit stands for. -/
def ofCodePoint? (c : CodePoint) : Option Digit :=
  if h : 48 ≤ c.val ∧ c.val ≤ 57 then some ⟨c.val - 48, by omega⟩ else none

theorem ofCodePoint?_codePoint (d : Digit) : ofCodePoint? d.codePoint = some d := by
  have h : 48 ≤ d.codePoint.val ∧ d.codePoint.val ≤ 57 := by
    unfold codePoint
    constructor
    · simp
    · simp
      omega
  unfold ofCodePoint?
  rw [dif_pos h]
  simp [codePoint]

theorem codePoint_of_ofCodePoint? {c : CodePoint} {d : Digit} (h : ofCodePoint? c = some d) :
    d.codePoint = c := by
  unfold ofCodePoint? at h
  split at h
  · obtain rfl := Option.some.inj h
    cases c
    simp only [codePoint, CodePoint.mk.injEq]
    simp_all
  · simp at h

end Digit

/-- The number that digits write, most significant first. -/
def digitsValue (ds : List Digit) : Nat := ds.foldl (fun n d => 10 * n + d.val) 0

/-- The digits of `n` in front of `rest`. -/
def digitsOnto (n : Nat) (rest : List Digit) : List Digit :=
  if h : n < 10 then ⟨n, h⟩ :: rest
  else digitsOnto (n / 10) (⟨n % 10, Nat.mod_lt _ (by decide)⟩ :: rest)

/-- The digits of `n`, most significant first. -/
def digitsOf (n : Nat) : List Digit := digitsOnto n []

/-- The number of digits of `n`; zero has one. -/
def digitCount (n : Nat) : Nat := (digitsOf n).length

theorem digitsOnto_eq (n : Nat) (rest : List Digit) : digitsOnto n rest = digitsOf n ++ rest := by
  induction n using Nat.strongRecOn generalizing rest with
  | _ n ih =>
    by_cases h : n < 10
    · simp [digitsOf, digitsOnto.eq_1 n, h]
    · have hlt : n / 10 < n := Nat.div_lt_self (by omega) (by decide)
      rw [digitsOf, digitsOnto.eq_1 n rest, digitsOnto.eq_1 n []]
      simp only [h, dif_neg, not_false_eq_true]
      rw [ih _ hlt, ih (n / 10) hlt [_]]
      simp

theorem digitsOf_of_lt {n : Nat} (h : n < 10) : digitsOf n = [⟨n, h⟩] := by
  rw [digitsOf, digitsOnto]
  simp [h]

theorem digitsOf_of_ge {n : Nat} (h : 10 ≤ n) :
    digitsOf n = digitsOf (n / 10) ++ [⟨n % 10, Nat.mod_lt _ (by decide)⟩] := by
  rw [digitsOf, digitsOnto]
  simp only [show ¬n < 10 by omega, dif_neg, not_false_eq_true]
  exact digitsOnto_eq _ _

theorem digitsValue_append_singleton (ds : List Digit) (d : Digit) :
    digitsValue (ds ++ [d]) = 10 * digitsValue ds + d.val := by
  simp [digitsValue]

/-- Writing a number and reading it back changes nothing. -/
theorem digitsValue_digitsOf (n : Nat) : digitsValue (digitsOf n) = n := by
  induction n using Nat.strongRecOn with
  | _ n ih =>
    by_cases h : n < 10
    · simp [digitsOf_of_lt h, digitsValue]
    · rw [digitsOf_of_ge (by omega), digitsValue_append_singleton,
        ih _ (Nat.div_lt_self (by omega) (by decide))]
      exact Nat.div_add_mod n 10

theorem digitCount_of_ge {n : Nat} (h : 10 ≤ n) : digitCount n = digitCount (n / 10) + 1 := by
  simp [digitCount, digitsOf_of_ge h]

/-- A number below a power of ten has at most as many digits as the power has zeros. -/
theorem digitCount_le : ∀ {k n : Nat}, 0 < k → n < 10 ^ k → digitCount n ≤ k
  | 0, _, hk, _ => absurd hk (by decide)
  | k + 1, n, _, hn => by
    by_cases h : n < 10
    · simp [digitCount, digitsOf_of_lt h]
    · rw [Nat.pow_succ] at hn
      have hk : 0 < k := by
        rcases Nat.eq_zero_or_pos k with rfl | hk
        · omega
        · exact hk
      have := digitCount_le hk (show n / 10 < 10 ^ k by omega)
      rw [digitCount_of_ge (by omega)]
      omega

theorem digitCount_pos (n : Nat) : 0 < digitCount n := by
  by_cases h : n < 10
  · simp [digitCount, digitsOf_of_lt h]
  · rw [digitCount_of_ge (by omega)]
    exact Nat.succ_pos _

/-- A number lies below the power of ten with as many zeros as it has digits. -/
theorem lt_pow_digitCount (n : Nat) : n < 10 ^ digitCount n := by
  induction n using Nat.strongRecOn with
  | _ n ih =>
    by_cases h : n < 10
    · simpa [digitCount, digitsOf_of_lt h] using h
    · have := ih (n / 10) (Nat.div_lt_self (by omega) (by decide))
      rw [digitCount_of_ge (by omega), Nat.pow_succ]
      omega

/-- A positive number lies from the power of ten on that has one zero less than it has digits. -/
theorem pow_digitCount_le {n : Nat} (h : 0 < n) : 10 ^ (digitCount n - 1) ≤ n := by
  induction n using Nat.strongRecOn with
  | _ n ih =>
    by_cases hn : n < 10
    · simp only [digitCount, digitsOf_of_lt hn]
      exact h
    · have := ih (n / 10) (Nat.div_lt_self h (by decide)) (by omega)
      have hpos := digitCount_pos (n / 10)
      rw [digitCount_of_ge (by omega),
        show digitCount (n / 10) + 1 - 1 = digitCount (n / 10) - 1 + 1 by omega, Nat.pow_succ]
      omega

namespace Text

/-- Digits as text. -/
def ofDigits (ds : List Digit) : Text := ds.map Digit.codePoint

/-- A natural number in base ten. -/
def ofNat (n : Nat) : Text := ofDigits (digitsOf n)

/-- An integer in base ten, with a minus sign if it is negative. -/
def ofInt : Int → Text
  | .ofNat n => ofNat n
  | .negSucc n => CodePoint.ofChar '-' :: ofNat (n + 1)

end Text

end Reckon
