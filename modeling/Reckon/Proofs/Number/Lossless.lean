import Reckon.Proofs.Grammar.Literals
import Reckon.Proofs.Number.Notation
import Reckon.Proofs.Number.Range

/-!
# Doubles are written without loss

What is written for a finite double is its sign and a numeral, it reads back as the double, and no
decimal that reads back has fewer significant digits (`Double.text_lossless`). The numeral has a
power of ten if and only if the double is not zero and the first digit that is written stands below
the fourth place behind the point or above the sixth place in front of it. As the doubles nearest
to these powers of ten are written as the powers (`Double.Landmark`), this is so if and only if the
double itself is below `10 ^ -4` or from `10 ^ 6` on.
-/

namespace Reckon

/-- A numeral is a single token. -/
theorem Scan.tokensFrom_numeral {n : Numeral} (hn : n.WellFormed) (limits : Limits)
    (position : ℕ) : tokensFrom limits position n.text = .ok [⟨.number n, position⟩] := by
  obtain ⟨c, tail, htext, hgap, -, hscan⟩ :=
    scan_written (l := .number n) hn [] fun _ c hc => by cases hc
  change n.text = c :: tail at htext
  rw [List.append_nil] at hscan
  rw [htext, tokensFrom, if_neg (by simp [hgap]), hscan]
  simp only [checkString, Nat.add_sub_cancel, List.drop_length, tokensFrom]

/-! ## Digits -/

theorem Numeral.length_digits_ofPointed (ds : List Digit) (whole : Int) :
    (ofPointed ds whole).digits.length ≤ ds.length + whole.natAbs + 1 := by
  unfold ofPointed digits
  split
  · simp only [Option.getD_some, List.length_append, List.length_replicate, List.length_singleton]
    omega
  split
  · simp only [Option.getD_none, List.length_append, List.length_replicate, List.length_nil]
    omega
  · rw [Option.getD_some, List.take_append_drop]
    omega

namespace Double

theorem length_digits_ofLayout (ds : List Digit) (exponent : Int) :
    (ofLayout ds exponent).digits.length ≤ ds.length + 7 := by
  unfold ofLayout
  split
  · exact (Numeral.length_digits_ofPointed ds 1).trans (by omega)
  · rename_i h
    unfold powerBelow powerFrom at h
    exact (Numeral.length_digits_ofPointed ds (exponent + 1)).trans (by omega)

/-! ## Powers of ten -/

theorem two_le_length_twoDigits (n : ℕ) : 2 ≤ (twoDigits n).length := by
  have hpos := digitCount_pos n
  unfold twoDigits
  split
  · exact Nat.succ_le_succ hpos
  · exact not_lt.1 ‹_›

theorem power_ofLayout (ds : List Digit) (exponent : ℤ) : (ofLayout ds exponent).power =
    if exponent < powerBelow ∨ powerFrom ≤ exponent then some (writtenPower exponent)
    else none := by
  unfold ofLayout
  split
  · rfl
  · exact Numeral.power_ofPointed _ _

theorem power_numeral (r : Fin infinityRank) : (numeral r).power =
    if r.val ≠ 0 ∧ ((shortest r).2 < -4 ∨ 6 ≤ (shortest r).2) then
      some (writtenPower (shortest r).2)
    else none := by
  by_cases hr : r.val = 0
  · rw [numeral, if_pos hr, if_neg (fun h => h.1 hr)]
  · rw [numeral, if_neg hr, power_ofLayout]
    simp only [hr, ne_eq, not_false_eq_true, true_and]
    rfl

/-! ## Where the first digit stands -/

/-- The double of rank `q` is the nearest to a power of ten, the first that reaches the power, and
written as the power. -/
structure Landmark (k : ℤ) (q : Fin infinityRank) : Prop where
  /-- No double is nearer to the power. -/
  nearest : nearestRank (1 * 10 ^ k.toNat * unitsOfOne) (10 ^ (-k).toNat) = q
  /-- The double reaches the power. -/
  reaches : 10 ^ k.toNat * unitsOfOne ≤ units q * 10 ^ (-k).toNat
  /-- The double before it does not. -/
  first : units (q - 1) * 10 ^ (-k).toNat < 10 ^ k.toNat * unitsOfOne
  /-- The first digit that is written stands at the power. -/
  written : (shortest q).2 = k

theorem landmark_six : Landmark 6 ⟨0x412E848000000000, by decide⟩ :=
  ⟨by decide +kernel, by decide +kernel, by decide +kernel, by decide +kernel⟩

theorem landmark_neg_four : Landmark (-4) ⟨0x3F1A36E2EB1C432D, by decide⟩ :=
  ⟨by decide +kernel, by decide +kernel, by decide +kernel, by decide +kernel⟩

/-- Beside a landmark, the first digit that is written stands at the power or above if and only if
the double reaches the power. -/
theorem Landmark.le_first_iff {k : ℤ} {q r : Fin infinityRank} (h : Landmark k q)
    (hr : r.val ≠ 0) : k ≤ (shortest r).2 ↔ 10 ^ k ≤ rankValue r := by
  obtain ⟨m, e, hm, hround, hshortest, -⟩ := exists_shortest r hr
  have hpower : Rounds ((1 : ℕ) * 10 ^ k) q := h.nearest ▸ rounds_size 1 k
  rw [Nat.cast_one, one_mul] at hpower
  have hreaches := (pow_le_rankValue_iff q k).2 h.reaches
  have hbefore : rankValue (q - 1) < 10 ^ k :=
    not_le.1 fun hle => absurd ((pow_le_rankValue_iff _ k).1 hle) (not_le.2 h.first)
  rw [show (shortest r).2 = Decimal.adjusted m e by rw [hshortest], ← Decimal.pow_le_size_iff hm k]
  constructor
  · intro hle
    exact hreaches.trans (rankValue_strictMono.monotone (hpower.mono hround hle))
  · intro hle
    by_contra hlt
    -- What is written for `r` lies below the power, so `r` could only be the landmark itself.
    have hrq := hround.mono hpower (not_le.1 hlt).le
    have hqr := rankValue_strictMono.lt_iff_lt.1 (hbefore.trans_le hle)
    obtain rfl : r = q := Fin.ext (by omega)
    have hfirst := h.written
    rw [hshortest] at hfirst
    exact hlt ((Decimal.pow_le_size_iff hm k).2 hfirst.ge)

end Double

/-! ## What is written -/

/-- The numeral `n` is the notation of the double `x` behind its sign. -/
structure Numeral.IsNotation (n : Numeral) (x : Double) : Prop where
  /-- The numeral is a single token. -/
  token : ∀ limits position,
    Scan.tokensFrom limits position n.text = .ok [⟨.number n, position⟩]
  /-- A power of ten is written if the first digit that is written stands far from the point. -/
  power_iff_first : n.power.isSome ↔ x.value ≠ 0 ∧
    (Decimal.adjusted n.coefficient n.exponent < -4 ∨
      6 ≤ Decimal.adjusted n.coefficient n.exponent)
  /-- A power of ten is written if the first digit of the double stands far from the point. -/
  power_iff_value : n.power.isSome ↔ x.value ≠ 0 ∧ (|x.value| < 10 ^ (-4 : ℤ) ∨ 10 ^ 6 ≤ |x.value|)
  /-- The power has a sign and at least two digits. -/
  power : ∀ p, n.power = some p → p.sign.isSome ∧ 2 ≤ p.digits.length
  /-- No decimal that is taken for the double has fewer significant digits. -/
  fewest : ∀ (t : Bool) (c : ℕ) (e : ℤ), Double.ofDecimal (.finite t c e) = x →
    significantDigits n.coefficient ≤ significantDigits c

namespace Double

variable (s : Bool) (r : Fin infinityRank)

theorem value_finite_ne_zero_iff : (finite s r).value ≠ 0 ↔ r.val ≠ 0 := by
  have habs := Decimal.abs_withSign (rankValue_nonneg r) s
  rw [value, ← abs_pos, habs, ← rankValue_zero, rankValue_strictMono.lt_iff_lt]
  exact Nat.pos_iff_ne_zero

theorem isNotation_numeral : (numeral r).IsNotation (.finite s r) where
  token := Scan.tokensFrom_numeral (wellFormed_numeral r)
  power_iff_first := by
    rw [power_numeral, value_finite_ne_zero_iff, Option.isSome_ite]
    by_cases hr : r.val = 0
    · simp [hr]
    · rw [(hasShortest_numeral r hr).first]
  power_iff_value := by
    rw [power_numeral, value_finite_ne_zero_iff, Option.isSome_ite]
    refine and_congr_right fun hr => ?_
    rw [value, Decimal.abs_withSign (rankValue_nonneg r) s, ← not_le, ← not_le,
      landmark_neg_four.le_first_iff hr, landmark_six.le_first_iff hr]
    rfl
  power p hp := by
    rw [power_numeral] at hp
    split at hp
    · obtain rfl := Option.some.inj hp
      exact ⟨rfl, two_le_length_twoDigits _⟩
    · cases hp
  fewest t c e h := by
    by_cases hr : r.val = 0
    · have hzero : (Numeral.mk [0] none none).coefficient = 0 := rfl
      rw [numeral, if_pos hr, hzero, significantDigits_zero]
      exact significantDigits_pos c
    · exact (hasShortest_numeral r hr).fewest c e (rounds_of_ofDecimal h)

/-- A double is written with few digits : no more than its exact value has, and zeros up to the
point. -/
theorem length_digits_numeral : (numeral r).digits.length ≤ doubleDigits + 7 := by
  by_cases hr : r.val = 0
  · rw [numeral, if_pos hr]
    decide
  · obtain ⟨m, e, -, -, hshortest, hfewest⟩ := exists_shortest r hr
    obtain ⟨c, f, hdecimal, hvalue⟩ := exists_toDecimal false r
    have hwithin := (finite false r).within_toDecimal
    rw [hdecimal] at hwithin
    have hlength := length_digits_ofLayout (significant (digitsOf m)) (Decimal.adjusted m e)
    rw [numeral, if_neg hr, hshortest]
    calc _ ≤ significantDigits m + 7 := hlength
      _ ≤ significantDigits c + 7 :=
          Nat.add_le_add_right (hfewest c f (hvalue ▸ rounds_rankValue r.isLt.le)) 7
      _ ≤ digitCount c + 7 := Nat.add_le_add_right
          (length_significant_le (List.ne_nil_of_length_pos (digitCount_pos c))) 7
      _ ≤ doubleDigits + 7 := Nat.add_le_add_right (digitCount_le (by decide) hwithin.1) 7

/-- Every finite double is written as a numeral behind its sign, and the text reads back as the
double, the sign of a zero included. -/
theorem text_lossless :
    ofText (text (.finite s r)) = .ok (.finite s r) ∧
      ∃ n : Numeral, text (.finite s r) = Decimal.signText s ++ n.text ∧
        n.IsNotation (.finite s r) := by
  have htext := text_ofSign_numeral s r
  refine ⟨?_, numeral r, ?_, isNotation_numeral s r⟩
  · have hlength : (numeral r).digits.length ≤ Numeral.mostDoubleDigits :=
      (length_digits_numeral r).trans (by decide)
    rw [← htext, ofText_numeral (wellFormed_numeral r) hlength, SignedNumeral.written_ofSign,
      ofDecimal_numeral]
  · rw [← htext, SignedNumeral.text_ofSign]

/-- The smallest double has one significant digit. -/
example : text (.finite true ⟨1, by decide⟩) = "-5e-324" := by decide +kernel

end Double

end Reckon
