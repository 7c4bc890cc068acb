import Reckon.Number.Fixed
import Reckon.Proofs.Number.Notation
import Reckon.Proofs.Number.Working

/-!
# Numbers with a fixed number of places

A finite decimal with a fixed number of places is its sign, a whole part and the digits of the
places; the number that is written is the multiple of the last place nearest to the decimal, and
the even one of two (`Decimal.fixed_places`). The sign is kept also where the number is rounded to
zero.

The unit of the last place is itself a decimal, whose exponent has a range of its own : places
behind the 1000026th are left out, and from 2000055 places on there is no such unit.
-/

namespace Reckon

namespace Decimal

/-- A whole part and the digits behind the point, if there are any. -/
def wholeAndPlaces (whole : ℕ) (places : List Digit) : Text :=
  Text.ofNat whole ++ if places = [] then [] else CodePoint.ofChar '.' :: Text.ofDigits places

/-- The digits of a number with a point in front of the last `k`. -/
theorem exists_pointed (m k : ℕ) : ∃ (whole : ℕ) (places : List Digit), places.length = k ∧
    pointed (digitsOf m) (digitCount m - k) = wholeAndPlaces whole places ∧
    digitsValue (digitsOf whole ++ places) = m := by
  have hdigits : digitsOf m ≠ [] := List.ne_nil_of_length_pos (digitCount_pos m)
  rcases lt_or_ge k (digitCount m) with hk | hk
  · have htake := take_digitsOf hk
    have hwhole : ((digitCount m : ℤ) - k).toNat = digitCount m - k := by omega
    refine ⟨m / 10 ^ k, (digitsOf m).drop (digitCount m - k), ?_, ?_, ?_⟩
    · rw [List.length_drop, ← digitCount]
      omega
    · rw [pointed, if_neg (by omega), hwhole, wholeAndPlaces, Text.ofNat, ← htake]
      rcases Nat.eq_zero_or_pos k with rfl | hpos
      · simp [digitCount]
      · rw [if_neg (by rw [← digitCount]; omega), if_neg]
        rw [List.drop_eq_nil_iff, ← digitCount]
        omega
    · rw [← htake, List.take_append_drop, digitsValue_digitsOf]
  · -- There are no more digits than places, and zeros fill the others.
    refine ⟨0, List.replicate (k - digitCount m) 0 ++ digitsOf m, ?_, ?_, ?_⟩
    · rw [List.length_append, List.length_replicate, ← digitCount]
      omega
    · have hzeros : (-((digitCount m : ℤ) - k)).toNat = k - digitCount m := by omega
      rw [pointed, if_pos (by omega), hzeros, wholeAndPlaces, if_neg (by simp [hdigits]),
        Text.ofNat, digitsOf_zero]
    · rw [digitsValue_append, digitsValue_append, digitsValue_zeros, digitsValue_digitsOf,
        digitsValue_digitsOf]
      simp

/-! ## Rounding to a place -/

/-- The units of a place are those nearest to the number. -/
theorem nearest_unitsAt (place : ℤ) (c : ℕ) (e : ℤ) :
    Nearest (10 ^ place) (c * 10 ^ e) (unitsAt place c e) := by
  have hunit : (0 : ℚ) < 10 ^ place := zpow_pos (by norm_num) place
  unfold unitsAt
  split
  · rename_i hc
    simpa [hc] using Nearest.mul_self _ hunit 0
  rename_i hc
  split
  · rename_i hplace
    have hsize : (c : ℚ) * 10 ^ e = (c * 10 ^ (e - place).toNat : ℕ) * 10 ^ place := by
      rw [Nat.cast_mul, Nat.cast_pow, Nat.cast_ofNat, mul_assoc, ← zpow_natCast,
        ← zpow_add₀ (by norm_num), Int.toNat_of_nonneg (by omega)]
      congr 2
      ring
    rw [hsize]
    exact Nearest.mul_self _ hunit _
  · rename_i hplace
    obtain ⟨x, rfl⟩ : ∃ x : ℕ, place = e + x := ⟨(place - e).toNat, by omega⟩
    rw [show (e + x - e : ℤ) = x by ring, Int.toNat_natCast, ← Format.working_place]
    split
    · rename_i hfar
      exact nearest_zero (Nat.pos_of_ne_zero hc) (by omega)
    · exact nearest_dropped c e x

/-- The last of `n` places. -/
theorem lastPlace_natCast (n : ℕ) : lastPlace n =
    if 2000054 < n then .error .invalidOperation else .ok (-(min n 1000026 : ℕ)) := by
  unfold lastPlace
  by_cases hn : 2000054 < n
  · rw [if_pos (.inl (by omega)), if_pos hn]
  · rw [if_neg (by omega), if_neg (by omega), if_neg hn]
    congr 1
    omega

/-- A finite decimal whose digits can be counted is written with its sign, a whole part and as many
places as are asked for, up to 1000026; the number that is written is the nearest with these places.
From 2000055 places on there is a signal. -/
theorem fixed_places (s : Bool) (c : ℕ) (e : ℤ) {n : ℕ}
    (h : wholeDigits c e + n + 1 ≤ 999999999999999999) :
    (n ≤ 2000054 → ∃ (whole : ℕ) (places : List Digit), places.length = min n 1000026 ∧
      fixed (.finite s c e) n = .ok (signText s ++ wholeAndPlaces whole places) ∧
      Nearest (10 ^ (-(places.length : ℤ))) (c * 10 ^ e)
        (digitsValue (digitsOf whole ++ places))) ∧
    (2000054 < n → fixed (.finite s c e) n = .error .invalidOperation) := by
  have hdigits : ¬(wholeDigits c e + n + 1 < 1 ∨ 999999999999999999 < wholeDigits c e + n + 1) := by
    unfold wholeDigits at h ⊢
    omega
  constructor
  · intro hn
    generalize hk : min n 1000026 = k
    have hplace : lastPlace n = .ok (-(k : ℤ)) := by
      rw [lastPlace_natCast, if_neg (by omega), hk]
    obtain ⟨whole, places, hlength, htext, hvalue⟩ := exists_pointed (unitsAt (-k) c e) k
    refine ⟨whole, places, hlength, ?_, ?_⟩
    · simp only [fixed, bind, Except.bind, pure, Except.pure, if_neg hdigits, hplace]
      rw [← htext]
      split
      · -- Without places a zero is its one digit.
        rename_i hzero
        obtain ⟨hm, hk0⟩ := hzero
        obtain rfl : k = 0 := by omega
        rw [hm, digitCount, digitsOf_zero]
        rfl
      · rfl
    · rw [hlength, hvalue]
      exact nearest_unitsAt _ c e
  · intro hn
    have hplace : lastPlace n = .error .invalidOperation := by rw [lastPlace_natCast, if_pos hn]
    simp only [fixed, bind, Except.bind, if_neg hdigits, hplace]

/-- A negative number halfway between two neighbours, where rounding to the even one carries into a
new digit in front. -/
theorem fixed_places_carry :
    wholeDigits 9995 (-3) + (2 : ℕ) + 1 ≤ 999999999999999999 ∧ 2 ≤ 2000054 ∧
      fixed (.finite true 9995 (-3)) (2 : ℕ) = .ok "-10.00" ∧
      ∃ (whole : ℕ) (places : List Digit), places.length = min 2 1000026 ∧
        fixed (.finite true 9995 (-3)) (2 : ℕ) =
          .ok (signText true ++ wholeAndPlaces whole places) ∧
        Nearest (10 ^ (-(places.length : ℤ))) ((9995 : ℕ) * 10 ^ (-3 : ℤ))
          (digitsValue (digitsOf whole ++ places)) := by
  have h : wholeDigits 9995 (-3) + (2 : ℕ) + 1 ≤ 999999999999999999 := by decide +kernel
  exact ⟨h, by decide, by decide +kernel, (fixed_places true 9995 (-3) h).1 (by decide)⟩

/-- Not every number of places that can be counted is written : one has no unit for its 2000055th
place. -/
theorem not_fixed_of_places : ¬∀ (s : Bool) (c : ℕ) (e : ℤ) (n : ℕ),
    wholeDigits c e + n + 1 ≤ 999999999999999999 →
      fixed (.finite s c e) n ≠ .error .invalidOperation := fun h =>
  h false 1 0 2000055 (by decide +kernel) (by decide +kernel)

end Decimal

end Reckon
