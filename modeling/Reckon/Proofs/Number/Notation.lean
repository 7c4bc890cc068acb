import Reckon.Number.Fixed
import Reckon.Proofs.Number.Shortest

/-!
# Results are written as numerals

What is written for a finite double is a numeral behind its sign, and the double nearest to the
number that the numeral denotes is the double that was written (`Double.exists_numeral`). This
holds of every layout of the shortest digits, because each denotes the number of the digits at
the place of the last one (`Double.size_ofLayout`), and the digits are those of a decimal that
reads back (`Double.exists_shortest`).

A number with the places of a result is written as units of its last place
(`Decimal.exists_units`). Those are a numeral too, and units have no digits behind the last place
that could be rounded away (`Decimal.exists_numeral_fixed`).
-/

namespace Reckon

namespace Numeral

/-- Digits with a point after the first `whole` of them, as a numeral. -/
def ofPointed (ds : List Digit) (whole : Int) : Numeral :=
  if whole ≤ 0 then ⟨[0], some (List.replicate (-whole).toNat 0 ++ ds), none⟩
  else if ds.length ≤ whole.toNat then
    ⟨ds ++ List.replicate (whole.toNat - ds.length) 0, none, none⟩
  else ⟨ds.take whole.toNat, some (ds.drop whole.toNat), none⟩

variable (ds : List Digit) (whole : Int)

theorem text_ofPointed : (ofPointed ds whole).text = Decimal.pointed ds whole := by
  unfold ofPointed Decimal.pointed
  split
  · simp [text, fractionText]
  split
  · simp [text, fractionText]
  · simp [text, fractionText]

theorem wellFormed_ofPointed (h : ds ≠ []) : (ofPointed ds whole).WellFormed := by
  unfold ofPointed
  split
  · exact ⟨by simp, fun _ h => (by cases h)⟩
  split
  · exact ⟨by simp [h], fun _ h => (by cases h)⟩
  · exact ⟨by simp [h], fun _ h => (by cases h)⟩

theorem power_ofPointed : (ofPointed ds whole).power = none := by
  unfold ofPointed
  split
  · rfl
  split <;> rfl

/-- Inside its digits, or in front of them, a point leaves the number of the digits. -/
theorem ofPointed_of_lt (h : whole < ds.length) :
    (ofPointed ds whole).coefficient = digitsValue ds ∧
      (ofPointed ds whole).exponent = whole - ds.length := by
  unfold ofPointed
  split
  · have hzeros : [0] ++ (List.replicate (-whole).toNat 0 ++ ds) =
        List.replicate ((-whole).toNat + 1) (0 : Digit) ++ ds := by
      rw [← List.append_assoc, List.singleton_append, ← List.replicate_succ]
    constructor
    · rw [coefficient, Option.getD_some, hzeros, digitsValue_append, digitsValue_zeros, zero_mul,
        zero_add]
    · simp [exponent]
      omega
  · rw [if_neg (by omega)]
    constructor
    · rw [coefficient, Option.getD_some, List.take_append_drop]
    · simp [exponent]
      omega

/-- Digits with a point denote the number of the digits at the place of the last. -/
theorem size_ofPointed (hds : ds ≠ []) :
    ((ofPointed ds whole).coefficient : ℚ) * 10 ^ (ofPointed ds whole).exponent =
      digitsValue ds * 10 ^ (whole - ds.length) := by
  rcases lt_or_ge whole ds.length with h | h
  · obtain ⟨hcoefficient, hexponent⟩ := ofPointed_of_lt ds whole h
    rw [hcoefficient, hexponent]
  · -- Zeros are written up to the point.
    have hlength := List.length_pos_iff.2 hds
    have hzeros : whole - ds.length = (whole.toNat - ds.length : ℕ) := by omega
    unfold ofPointed
    rw [if_neg (by omega), if_pos (by omega), hzeros, zpow_natCast]
    simp [coefficient, exponent, digitsValue_append, digitsValue_zeros]

/-- A power of ten behind a numeral that has none. -/
theorem size_withPower {n : Numeral} (hn : n.power = none) (p : Power) :
    let m : Numeral := { n with power := some p }
    (m.coefficient : ℚ) * 10 ^ m.exponent = n.coefficient * 10 ^ n.exponent * 10 ^ p.value := by
  intro m
  have hexponent : m.exponent = n.exponent + p.value := by
    simp only [m, exponent, hn, Option.map_some, Option.map_none, Option.getD_some,
      Option.getD_none]
    ring
  rw [hexponent, zpow_add₀ (by norm_num), ← mul_assoc]
  rfl

end Numeral

/-! ## Doubles -/

namespace Double

/-- The digits of a number, at least two. -/
def twoDigits (n : ℕ) : List Digit :=
  if (digitsOf n).length < 2 then 0 :: digitsOf n else digitsOf n

/-- A power of ten as it is written behind the digits of a double. -/
def writtenPower (exponent : Int) : Power :=
  ⟨false, some (if exponent < 0 then .minus else .plus), twoDigits exponent.natAbs⟩

theorem digitsValue_twoDigits (n : ℕ) : digitsValue (twoDigits n) = n := by
  unfold twoDigits
  split
  · rw [show (0 : Digit) :: digitsOf n = [0] ++ digitsOf n from rfl, digitsValue_append,
      digitsValue_digitsOf]
    simp [digitsValue]
  · exact digitsValue_digitsOf n

theorem text_writtenPower (exponent : Int) : (writtenPower exponent).text = powerText exponent := by
  have hdigits : Text.ofDigits (twoDigits exponent.natAbs) =
      if (Text.ofNat exponent.natAbs).length < 2 then
        CodePoint.ofChar '0' :: Text.ofNat exponent.natAbs
      else Text.ofNat exponent.natAbs := by
    simp only [twoDigits, Text.ofNat, Text.ofDigits, List.length_map]
    split <;> rfl
  rw [powerText, ← hdigits, writtenPower, Power.text]
  split <;> rfl

theorem value_writtenPower (exponent : Int) : (writtenPower exponent).value = exponent := by
  unfold Power.value writtenPower
  rw [digitsValue_twoDigits]
  by_cases h : exponent < 0
  · rw [if_pos h, if_pos rfl]
    omega
  · rw [if_neg h, if_neg (fun hs : some Sign.plus = some Sign.minus => by cases hs)]
    omega

/-- The layout of digits as a numeral. -/
def ofLayout (ds : List Digit) (exponent : Int) : Numeral :=
  if exponent < powerBelow ∨ powerFrom ≤ exponent then
    { Numeral.ofPointed ds 1 with power := some (writtenPower exponent) }
  else Numeral.ofPointed ds (exponent + 1)

variable (ds : List Digit) (exponent : Int)

theorem text_ofLayout : (ofLayout ds exponent).text = layout ds exponent := by
  unfold ofLayout layout
  split
  · rw [← text_writtenPower, ← Numeral.text_ofPointed]
    simp [Numeral.text, Numeral.power_ofPointed]
  · exact Numeral.text_ofPointed _ _

theorem wellFormed_ofLayout (h : ds ≠ []) : (ofLayout ds exponent).WellFormed := by
  unfold ofLayout
  split
  · refine ⟨(Numeral.wellFormed_ofPointed ds 1 h).1, fun p hp => ?_⟩
    obtain rfl := Option.some.inj hp
    simp only [writtenPower, twoDigits]
    split
    · simp
    · rename_i hlength
      exact List.ne_nil_of_length_pos (by omega)
  · exact Numeral.wellFormed_ofPointed _ _ h

/-- A layout denotes the number of the digits at the place of the last. -/
theorem size_ofLayout (h : ds ≠ []) :
    ((ofLayout ds exponent).coefficient : ℚ) * 10 ^ (ofLayout ds exponent).exponent =
      digitsValue ds * 10 ^ (exponent + 1 - ds.length) := by
  unfold ofLayout
  split
  · rw [Numeral.size_withPower (Numeral.power_ofPointed ds 1), Numeral.size_ofPointed ds 1 h,
      value_writtenPower, mul_assoc, ← zpow_add₀ (by norm_num)]
    congr 2
    ring
  · exact Numeral.size_ofPointed _ _ h

end Double

/-! ## Results -/

namespace SignedNumeral

/-- A numeral with a minus sign or none. -/
def ofSign (negative : Bool) (n : Numeral) : SignedNumeral :=
  ⟨if negative then some .minus else none, n⟩

variable (s : Bool) (n : Numeral)

theorem text_ofSign : (ofSign s n).text = Decimal.signText s ++ n.text := by
  cases s <;> rfl

theorem written_ofSign : (ofSign s n).written = .finite s n.coefficient n.exponent := by
  cases s <;> rfl

end SignedNumeral

namespace Double

/-- The significant digits of a decimal, laid out, denote it. -/
theorem size_layout {m : ℕ} (hm : 0 < m) (e : ℤ) :
    let n := ofLayout (significant (digitsOf m)) (Decimal.adjusted m e)
    significant (digitsOf m) ≠ [] ∧ (n.coefficient : ℚ) * 10 ^ n.exponent = m * 10 ^ e := by
  intro n
  have hvalue := digitsValue_digitsOf m
  obtain ⟨hne, k, hk⟩ := exists_significant (by omega : 0 < digitsValue (digitsOf m))
  refine ⟨hne, ?_⟩
  rw [size_ofLayout _ _ hne]
  have hcount : digitCount m = (significant (digitsOf m)).length + k := by
    have := congrArg List.length hk
    rwa [List.length_append, List.length_replicate] at this
  rw [hk, digitsValue_append, digitsValue_zeros, List.length_replicate, Nat.add_zero] at hvalue
  have hplace : Decimal.adjusted m e + 1 - (significant (digitsOf m)).length = k + e := by
    rw [Decimal.adjusted, hcount]
    push_cast
    ring
  rw [hplace, zpow_add₀ (by norm_num), zpow_natCast, ← mul_assoc]
  congr 1
  exact_mod_cast hvalue

/-- The numeral that is written for a finite double. -/
def numeral (r : Fin infinityRank) : Numeral :=
  if r.val = 0 then ⟨[0], none, none⟩ else ofLayout (shortest r).1 (shortest r).2

variable (s : Bool) (r : Fin infinityRank)

theorem text_ofSign_numeral : (SignedNumeral.ofSign s (numeral r)).text = text (.finite s r) := by
  rw [SignedNumeral.text_ofSign, text, numeral]
  split
  · rfl
  · rw [text_ofLayout]

/-- The numeral has the shortest digits of the double of rank `r`, at their place. -/
structure HasShortest (n : Numeral) (r : Fin infinityRank) : Prop where
  /-- The numeral is one that can be read. -/
  wellFormed : n.WellFormed
  /-- It reads back. -/
  rounds : Rounds (n.coefficient * 10 ^ n.exponent) r
  /-- Its first digit stands where that of the shortest digits does. -/
  first : Decimal.adjusted n.coefficient n.exponent = (shortest r).2
  /-- No decimal that reads back has fewer significant digits. -/
  fewest : ∀ (d : ℕ) (f : ℤ), Rounds (d * 10 ^ f) r →
    significantDigits n.coefficient ≤ significantDigits d

theorem hasShortest_numeral (hr : r.val ≠ 0) : HasShortest (numeral r) r := by
  obtain ⟨m, e, hm, hround, hshortest, hfewest⟩ := exists_shortest r hr
  obtain ⟨hne, hsize⟩ := size_layout hm e
  have hfirst := (Decimal.adjusted_eq_of_size_eq hm hsize.symm).symm
  rw [numeral, if_neg hr, hshortest]
  exact {
    wellFormed := wellFormed_ofLayout _ _ hne
    rounds := hsize ▸ hround
    first := hfirst.trans (congrArg Prod.snd hshortest).symm
    fewest := fun d f hd => (significantDigits_le_of_size_eq hsize).trans (hfewest d f hd) }

theorem wellFormed_numeral : (numeral r).WellFormed := by
  by_cases hr : r.val = 0
  · rw [numeral, if_pos hr]
    exact ⟨by simp, fun _ h => (by cases h)⟩
  · exact (hasShortest_numeral r hr).wellFormed

/-- The numeral reads back. -/
theorem ofDecimal_numeral :
    ofDecimal (.finite s (numeral r).coefficient (numeral r).exponent) = .finite s r := by
  by_cases hr : r.val = 0
  · rw [numeral, if_pos hr]
    obtain rfl : r = ⟨0, by decide⟩ := Fin.ext hr
    rfl
  · rw [ofDecimal_of_rounds s (hasShortest_numeral r hr).rounds, ofRank_val]

/-- Every finite double is written as a numeral, which reads back as it. -/
theorem exists_numeral :
    ∃ n : Numeral, n.WellFormed ∧ (SignedNumeral.ofSign s n).text = text (.finite s r) ∧
      ofDecimal (SignedNumeral.ofSign s n).written = .finite s r :=
  ⟨numeral r, wellFormed_numeral r, text_ofSign_numeral s r,
    (SignedNumeral.written_ofSign s _).symm ▸ ofDecimal_numeral s r⟩

end Double

namespace Decimal

theorem length_le_pointed (ds : List Digit) (whole : Int) :
    ds.length ≤ (pointed ds whole).length := by
  unfold pointed
  split
  · simp [Text.ofDigits]
    omega
  split
  · simp [Text.ofDigits]
  · simp [Text.ofDigits]
    omega

theorem unitsAt_self (place : Int) (n : ℕ) : unitsAt place n place = n := by
  unfold unitsAt
  split
  · omega
  · rw [if_pos le_rfl, Int.sub_self, Int.toNat_zero, pow_zero, Nat.mul_one]

/-- A finite number with the places of a result is a sign and some units of the last place. -/
theorem exists_units {s : Bool} {c : ℕ} {e : ℤ} {t : Text}
    (h : fixed (.finite s c e) resultPlaces = .ok t) :
    ∃ n, t = signText s ++ pointed (digitsOf n) (digitCount n - resultPlaces) := by
  have hplace : lastPlace resultPlaces = .ok (-resultPlaces) := by decide
  simp only [fixed, hplace, bind, Except.bind, pure, Except.pure] at h
  split at h
  · cases h
  · refine ⟨unitsAt (-resultPlaces) c e, ?_⟩
    rw [if_neg (fun hn => absurd hn.2 (by decide))] at h
    exact (Except.ok.inj h).symm

/-- Units of the last place are written with it, if they have few digits. -/
theorem fixed_units (s : Bool) {n : ℕ} (hn : digitCount n ≤ 4096) :
    fixed (.finite s n (-resultPlaces)) resultPlaces =
      .ok (signText s ++ pointed (digitsOf n) (digitCount n - resultPlaces)) := by
  have hplace : lastPlace resultPlaces = .ok (-resultPlaces) := by decide
  have hdigits : ¬(wholeDigits n (-resultPlaces) + resultPlaces + 1 < 1 ∨
      999999999999999999 < wholeDigits n (-resultPlaces) + resultPlaces + 1) := by
    simp only [wholeDigits, adjusted, resultPlaces]
    omega
  simp only [fixed, hplace, bind, Except.bind, pure, Except.pure]
  rw [if_neg hdigits, unitsAt_self, if_neg (fun h => absurd h.2 (by decide))]
  rfl

/-- A finite number in fixed-point notation is written as a numeral, which has the same
notation. -/
theorem exists_numeral_fixed {s : Bool} {c : ℕ} {e : ℤ} {t : Text}
    (h : fixed (.finite s c e) resultPlaces = .ok t) (ht : t.length ≤ 4096) :
    ∃ n : Numeral, n.WellFormed ∧ (SignedNumeral.ofSign s n).text = t ∧
      (SignedNumeral.ofSign s n).decimal = .ok (SignedNumeral.ofSign s n).written ∧
      (SignedNumeral.ofSign s n).written.fixed resultPlaces = .ok t := by
  obtain ⟨n, rfl⟩ := exists_units h
  have hcount : digitCount n ≤ 4096 := by
    refine le_trans (length_le_pointed (digitsOf n) (digitCount n - resultPlaces)) (le_trans ?_ ht)
    rw [List.length_append]
    exact Nat.le_add_left _ _
  obtain ⟨hcoefficient, hexponent⟩ := Numeral.ofPointed_of_lt (digitsOf n)
    (digitCount n - resultPlaces) (Int.sub_lt_self _ (by decide))
  rw [digitsValue_digitsOf] at hcoefficient
  rw [show (digitCount n : ℤ) - resultPlaces - (digitsOf n).length = -resultPlaces by
    rw [digitCount]; ring] at hexponent
  refine ⟨Numeral.ofPointed (digitsOf n) (digitCount n - resultPlaces),
    Numeral.wellFormed_ofPointed _ _ (List.ne_nil_of_length_pos (digitCount_pos n)), ?_, ?_, ?_⟩
  · rw [SignedNumeral.text_ofSign, Numeral.text_ofPointed]
  · have hlow : SignedNumeral.leastExponent ≤ -resultPlaces := by decide
    have hhigh : (if n = 0 then -resultPlaces else adjusted n (-resultPlaces)) ≤
        SignedNumeral.greatestExponent := by
      simp only [adjusted, resultPlaces, SignedNumeral.greatestExponent]
      split <;> omega
    exact if_pos (by simpa only [SignedNumeral.ofSign, hcoefficient, hexponent] using ⟨hlow, hhigh⟩)
  · rw [SignedNumeral.written_ofSign, hcoefficient, hexponent]
    exact fixed_units s hcount

end Decimal

end Reckon
