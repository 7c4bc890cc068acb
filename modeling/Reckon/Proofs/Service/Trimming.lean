import Mathlib.Data.List.DropRight
import Reckon.Proofs.Grammar.Literals
import Reckon.Proofs.Number.Notation
import Reckon.Service.Calculator

/-!
# Trimmed results

A text in fixed-point notation is a sign or none, digits, a point and more digits
(`Text.FixedPoint`), and trimming takes the zeros at its end, and the point if nothing else is
behind it (`Text.FixedPoint.trimmed_eq`). Every other text stays.

What is trimmed from a written numeral is trimmed from its fraction
(`SignedNumeral.trimmed_withPlaces`), so the number stays the same. The numeral that is written for
a double has no zeros at the end of its fraction (`Double.isConcise_numeral`).
-/

namespace Reckon

/-! ## The end of a list -/

/-- Every list is one that does not end in `a`, and copies of `a`. -/
theorem exists_append_replicate {α : Type*} [DecidableEq α] (a : α) (l : List α) :
    ∃ kept k, l = kept ++ List.replicate k a ∧ kept.getLast? ≠ some a := by
  induction l using List.reverseRecOn with
  | nil => exact ⟨[], 0, rfl, by simp⟩
  | append_singleton l b ih =>
    by_cases hb : b = a
    · obtain ⟨kept, k, rfl, hlast⟩ := ih
      exact ⟨kept, k + 1, by rw [hb, List.append_assoc, List.replicate_succ'], hlast⟩
    · exact ⟨l ++ [b], 0, by simp, by simpa using hb⟩

theorem stripEnd_append_replicate {c : CodePoint} {t : Text} (h : t.getLast? ≠ some c) (k : ℕ) :
    stripEnd c (t ++ List.replicate k c) = t := by
  have hzeros : ∀ k, (t ++ List.replicate k c).rdropWhile (· == c) = t.rdropWhile (· == c) := by
    intro k
    induction k with
    | zero => simp
    | succ k ih =>
      rw [List.replicate_succ', ← List.append_assoc, List.rdropWhile_concat_pos _ _ _ (by simp), ih]
  change (t ++ List.replicate k c).rdropWhile (· == c) = t
  rw [hzeros, List.rdropWhile_eq_self_iff]
  intro hne
  rw [List.getLast?_eq_some_getLast hne] at h
  simpa using h

namespace Text

/-- The point. -/
abbrev point : CodePoint := CodePoint.ofChar '.'

/-- The text is a sign or none, digits of any script, a point and more digits. -/
structure FixedPoint (t sign whole places : Text) : Prop where
  /-- The parts of the text. -/
  eq : t = sign ++ (whole ++ point :: places)
  /-- The sign is a minus. -/
  sign : sign = [] ∨ sign = [CodePoint.ofChar '-']
  /-- There is a digit in front of the point. -/
  whole_ne : whole ≠ []
  /-- All code points in front of it are digits. -/
  whole : ∀ c ∈ whole, c.isDecimalDigit = true
  /-- All code points behind it are digits. -/
  places : ∀ c ∈ places, c.isDecimalDigit = true

variable {t sign whole places kept : Text}

theorem isDecimalDigit_point : point.isDecimalDigit = false := by decide +kernel

theorem isDecimalDigit_minus : (CodePoint.ofChar '-').isDecimalDigit = false := by decide +kernel

/-- The text has no other marks. -/
theorem FixedPoint.mem (h : t.FixedPoint sign whole places) {c : CodePoint} (hc : c ∈ t) :
    c = CodePoint.ofChar '-' ∨ c = point ∨ c.isDecimalDigit = true := by
  rw [h.eq, List.mem_append, List.mem_append, List.mem_cons] at hc
  rcases hc with hc | hc | rfl | hc
  · rcases h.sign with hsign | hsign <;> rw [hsign] at hc
    · cases hc
    · exact .inl (List.mem_singleton.1 hc)
  · exact .inr (.inr (h.whole c hc))
  · exact .inr (.inl rfl)
  · exact .inr (.inr (h.places c hc))

theorem exists_of_isFixedPoint (h : isFixedPoint t = true) :
    ∃ sign whole places, t.FixedPoint sign whole places := by
  obtain ⟨sign, u, ht, hsign, hu⟩ : ∃ sign u, t = sign ++ u ∧
      (sign = [] ∨ sign = [CodePoint.ofChar '-']) ∧
        (if t.head? = some (CodePoint.ofChar '-') then t.drop 1 else t) = u := by
    split
    · rename_i hminus
      obtain ⟨u, rfl⟩ := List.head?_eq_some_iff.1 hminus
      exact ⟨_, u, rfl, .inr rfl, rfl⟩
    · exact ⟨[], t, rfl, .inl rfl, rfl⟩
  have hsplit := List.takeWhile_append_dropWhile (p := CodePoint.isDecimalDigit) (l := u)
  simp only [isFixedPoint, hu] at h
  split at h
  · cases h
  · rename_i c places hplaces
    simp only [Bool.and_eq_true, Bool.not_eq_true', List.isEmpty_eq_false_iff, beq_iff_eq,
      List.all_eq_true] at h
    obtain ⟨⟨hwhole, rfl⟩, hdigits⟩ := h
    rw [hplaces] at hsplit
    exact ⟨sign, _, places, by rw [ht, point, hsplit], hsign, hwhole,
      fun c hc => List.mem_takeWhile_imp hc, hdigits⟩

theorem FixedPoint.isFixedPoint (h : t.FixedPoint sign whole places) : isFixedPoint t = true := by
  obtain ⟨ht, hsign, hne, hwhole, hplaces⟩ := h
  have hu : (if t.head? = some (CodePoint.ofChar '-') then t.drop 1 else t) =
      whole ++ point :: places := by
    rcases hsign with rfl | rfl
    · rw [ht, List.nil_append, if_neg]
      intro hminus
      obtain ⟨c, rest, rfl⟩ := List.exists_cons_of_ne_nil hne
      obtain rfl := Option.some.inj hminus
      exact absurd (hwhole _ List.mem_cons_self) (by rw [isDecimalDigit_minus]; decide)
    · rw [ht]
      rfl
  simp only [Reckon.isFixedPoint, hu, List.takeWhile_append_of_pos hwhole,
    List.dropWhile_append_of_pos hwhole]
  rw [List.takeWhile_cons_of_neg (by simp [isDecimalDigit_point]),
    List.dropWhile_cons_of_neg (by simp [isDecimalDigit_point])]
  simpa [hne, point] using hplaces

/-- Digits do not end in a point. -/
theorem getLast?_ne_point {u : Text} (h : ∀ c ∈ u, c.isDecimalDigit = true) :
    u.getLast? ≠ some point := fun hlast => by
  have hdigit := h point (List.mem_of_getLast? hlast)
  rw [isDecimalDigit_point] at hdigit
  exact Bool.false_ne_true hdigit

theorem getLast?_append_point (t kept : Text) :
    (t ++ point :: kept).getLast? = some (kept.getLast?.getD point) := by
  rw [List.getLast?_append, List.getLast?_cons, Option.some_or]

/-- The zeros at the end are taken away, and the point if nothing else is behind it. -/
theorem FixedPoint.trimmed_eq {k : ℕ}
    (h : t.FixedPoint sign whole (kept ++ List.replicate k (CodePoint.ofChar '0')))
    (hkept : kept.getLast? ≠ some (CodePoint.ofChar '0')) :
    trimmed t = sign ++ (whole ++ if kept = [] then [] else point :: kept) := by
  have hzeros : stripEnd (CodePoint.ofChar '0') t = sign ++ (whole ++ point :: kept) := by
    have hlast : (sign ++ (whole ++ point :: kept)).getLast? ≠ some (CodePoint.ofChar '0') := by
      rw [← List.append_assoc, getLast?_append_point]
      cases hend : kept.getLast? with
      | none => decide
      | some c => rwa [Option.getD_some, ← hend]
    rw [← stripEnd_append_replicate hlast k, h.eq]
    simp
  rw [trimmed, if_pos h.isFixedPoint, hzeros]
  split
  · rename_i hnone
    have hlast : (sign ++ whole).getLast? ≠ some point := by
      rw [List.getLast?_append_of_ne_nil _ h.whole_ne]
      exact getLast?_ne_point h.whole
    rw [hnone, ← List.append_assoc, List.append_nil]
    exact stripEnd_append_replicate hlast 1
  · rename_i hsome
    have hlast : (sign ++ (whole ++ point :: kept)).getLast? ≠ some point := by
      rw [← List.append_assoc, List.getLast?_append_of_ne_nil _ (List.cons_ne_nil _ _),
        List.getLast?_cons_of_ne_nil hsome]
      exact getLast?_ne_point fun c hc => h.places c (List.mem_append_left _ hc)
    simpa using stripEnd_append_replicate hlast 0

/-- Trimming leaves a text or takes the zeros at the end of one in fixed-point notation. -/
theorem trimmed_cases (t : Text) : trimmed t = t ∨ ∃ sign whole kept k,
    t.FixedPoint sign whole (kept ++ List.replicate k (CodePoint.ofChar '0')) ∧
      kept.getLast? ≠ some (CodePoint.ofChar '0') := by
  by_cases h : Reckon.isFixedPoint t = true
  · obtain ⟨sign, whole, places, hfixed⟩ := exists_of_isFixedPoint h
    obtain ⟨kept, k, rfl, hlast⟩ := exists_append_replicate (CodePoint.ofChar '0') places
    exact .inr ⟨sign, whole, kept, k, hfixed, hlast⟩
  · exact .inl (by rw [trimmed, if_neg h])

/-- Without a point nothing is trimmed. -/
theorem trimmed_eq_self (h : point ∉ t) : trimmed t = t := by
  refine (trimmed_cases t).resolve_right ?_
  rintro ⟨sign, whole, kept, k, hfixed, -⟩
  exact h (by rw [hfixed.eq]; simp)

/-- A trimmed text is not trimmed again. -/
theorem trimmed_trimmed (t : Text) : trimmed (trimmed t) = trimmed t := by
  rcases trimmed_cases t with h | ⟨sign, whole, kept, k, h, hlast⟩
  · rw [h, h]
  rw [h.trimmed_eq hlast]
  split
  · refine trimmed_eq_self fun hpoint => ?_
    rw [List.append_nil, List.mem_append] at hpoint
    rcases hpoint with hpoint | hpoint
    · rcases h.sign with hsign | hsign <;> rw [hsign] at hpoint
      · cases hpoint
      · exact absurd hpoint (by decide)
    · have hdigit := h.whole _ hpoint
      rw [isDecimalDigit_point] at hdigit
      exact Bool.false_ne_true hdigit
  · rename_i hne
    have hkept : (sign ++ (whole ++ point :: kept)).FixedPoint sign whole
        (kept ++ List.replicate 0 (CodePoint.ofChar '0')) :=
      ⟨by simp, h.sign, h.whole_ne, h.whole, fun c hc => h.places c (by simp_all)⟩
    rw [hkept.trimmed_eq hlast, if_neg hne]

/-- Trimming takes away an end of the text. -/
theorem trimmed_prefix (t : Text) : trimmed t <+: t := by
  unfold trimmed
  split
  · exact (List.rdropWhile_prefix _ _).trans (List.rdropWhile_prefix _ _)
  · exact List.prefix_rfl

end Text

/-! ## Numerals -/

namespace Numeral

variable {n : Numeral} {kept : List Digit}

/-- Behind a point there are digits, and the last of them is not zero. -/
def IsConcise (n : Numeral) : Prop :=
  ∀ ds, n.fraction = some ds → ∃ d, ds.getLast? = some d ∧ d ≠ 0

/-- The numeral with other digits behind the point, and without a point if there are none. -/
def withPlaces (n : Numeral) (kept : List Digit) : Numeral :=
  { n with fraction := if kept = [] then none else some kept }

theorem getD_withPlaces (n : Numeral) (kept : List Digit) :
    (n.withPlaces kept).fraction.getD [] = kept := by
  unfold withPlaces
  split
  · rename_i h
    exact h.symm
  · rfl

theorem wellFormed_withPlaces (h : n.WellFormed) (hwhole : n.whole ≠ []) :
    (n.withPlaces kept).WellFormed :=
  ⟨List.append_ne_nil_of_left_ne_nil hwhole _, h.2⟩

/-- Zeros at the end of the fraction do not count. -/
theorem size_withPlaces (hpower : n.power = none) {k : ℕ}
    (hfraction : n.fraction = some (kept ++ List.replicate k 0)) :
    ((n.withPlaces kept).coefficient : ℚ) * 10 ^ (n.withPlaces kept).exponent =
      n.coefficient * 10 ^ n.exponent := by
  have hcoefficient : n.coefficient = (n.withPlaces kept).coefficient * 10 ^ k := by
    rw [coefficient, coefficient, getD_withPlaces, hfraction, Option.getD_some,
      ← List.append_assoc, digitsValue_append, digitsValue_zeros, List.length_replicate, add_zero]
    rfl
  have hexponent : (n.withPlaces kept).exponent = k + n.exponent := by
    rw [exponent, exponent, getD_withPlaces, hfraction, Option.getD_some, List.length_append,
      List.length_replicate, withPlaces, hpower]
    simp
  rw [hcoefficient, hexponent, zpow_add₀ (by norm_num), zpow_natCast]
  push_cast
  ring

end Numeral

namespace SignedNumeral

open Text

variable {n : Numeral} {s : Bool}

theorem isDecimalDigit_codePoint (d : Digit) : (Digit.codePoint d).isDecimalDigit = true := by
  revert d
  decide +kernel

theorem isDecimalDigit_ofDigits {ds : List Digit} : ∀ c ∈ Text.ofDigits ds,
    c.isDecimalDigit = true := by
  intro c hc
  obtain ⟨d, -, rfl⟩ := List.mem_map.1 hc
  exact isDecimalDigit_codePoint d

theorem getLast?_ofDigits (ds : List Digit) :
    (Text.ofDigits ds).getLast? = ds.getLast?.map Digit.codePoint := List.getLast?_map ..

theorem ofDigits_append_zeros (ds : List Digit) (k : ℕ) :
    Text.ofDigits (ds ++ List.replicate k 0) =
      Text.ofDigits ds ++ List.replicate k (CodePoint.ofChar '0') := by
  rw [Text.ofDigits, List.map_append, List.map_replicate]
  rfl

/-- What is trimmed from a written numeral is trimmed from its fraction. -/
theorem trimmed_withPlaces (hpower : n.power = none) (hwhole : n.whole ≠ []) {kept : List Digit}
    {k : ℕ} (hfraction : n.fraction = some (kept ++ List.replicate k 0))
    (hkept : kept.getLast? ≠ some 0) :
    trimmed (ofSign s n).text = (ofSign s (n.withPlaces kept)).text := by
  have hfixed : (ofSign s n).text.FixedPoint (Decimal.signText s) (Text.ofDigits n.whole)
      (Text.ofDigits kept ++ List.replicate k (CodePoint.ofChar '0')) := by
    rw [← ofDigits_append_zeros]
    refine ⟨?_, ?_, by simpa [Text.ofDigits] using hwhole, isDecimalDigit_ofDigits,
      isDecimalDigit_ofDigits⟩
    · simp [text_ofSign, Numeral.text, hfraction, hpower, Numeral.fractionText]
    · cases s
      · exact .inl rfl
      · exact .inr rfl
  have hlast : (Text.ofDigits kept).getLast? ≠ some (CodePoint.ofChar '0') := by
    rw [getLast?_ofDigits]
    cases hend : kept.getLast? with
    | none => simp
    | some d =>
      have hne : ∀ d : Digit, d ≠ 0 → some d.codePoint ≠ some (CodePoint.ofChar '0') := by decide
      exact hne d fun h => hkept (h ▸ hend)
  rw [hfixed.trimmed_eq hlast, text_ofSign, Numeral.text]
  by_cases hnone : kept = []
  · simp [hnone, Numeral.withPlaces, hpower, Numeral.fractionText, Text.ofDigits]
  · simp [hnone, Numeral.withPlaces, hpower, Numeral.fractionText, Text.ofDigits]

/-- A numeral without a fraction, or with a power of ten, is left as it is. -/
theorem trimmed_text (h : n.power = none → n.fraction = none) :
    trimmed (ofSign s n).text = (ofSign s n).text := by
  refine (trimmed_cases _).resolve_right ?_
  rintro ⟨sign, whole, kept, k, hfixed, -⟩
  rw [text_ofSign] at hfixed
  cases hpower : n.power with
  | some p =>
    -- The letter of the power is no mark of a fixed point.
    have hletter : CodePoint.ofChar (if p.capital then 'E' else 'e') ∈
        Decimal.signText s ++ n.text := by
      simp [Numeral.text, hpower, Power.text]
    have hmark := hfixed.mem hletter
    revert hmark
    generalize p.capital = capital
    revert capital
    decide +kernel
  | none =>
    have hpoint : point ∈ Decimal.signText s ++ n.text := by
      rw [hfixed.eq]
      simp
    rw [Numeral.text, hpower, h hpower, Numeral.fractionText, List.append_nil, Option.map_none,
      Option.getD_none, List.append_nil, List.mem_append] at hpoint
    rcases hpoint with hpoint | hpoint
    · cases s <;> revert hpoint <;> decide
    · exact absurd (isDecimalDigit_ofDigits _ hpoint) (by rw [isDecimalDigit_point]; decide)

/-- A text is one signed numeral at most. -/
theorem eq_of_text_eq {n m : SignedNumeral} (hn : n.numeral.WellFormed) (hm : m.numeral.WellFormed)
    (h : n.text = m.text) : n = m := by
  obtain ⟨s, n⟩ := n
  obtain ⟨t, m⟩ := m
  have hsign := NumberText.sign_text hn s
  rw [h, NumberText.sign_text hm t] at hsign
  obtain ⟨rfl, htext⟩ := Prod.mk.inj hsign
  have hnumeral := NumberText.numeral?_text hn
  rw [← htext, NumberText.numeral?_text hm] at hnumeral
  exact congrArg _ (Option.some.inj hnumeral).symm

/-- Digits end in a digit. -/
theorem exists_getLast?_ofDigits {ds : List Digit} (h : ds ≠ []) :
    ∃ d : Digit, (Text.ofDigits ds).getLast? = some d.codePoint :=
  ⟨ds.getLast h, by rw [getLast?_ofDigits, List.getLast?_eq_some_getLast h, Option.map_some]⟩

/-- A numeral with digits on both sides of its point ends in a digit. -/
theorem exists_getLast?_text (hn : n.WellFormed) (hwhole : n.whole ≠ [])
    (hfraction : ∀ ds, n.fraction = some ds → ds ≠ []) :
    ∃ d : Digit, (ofSign s n).text.getLast? = some d.codePoint := by
  have hend : ∃ (start : Text) (ds : List Digit),
      ds ≠ [] ∧ (ofSign s n).text = start ++ Text.ofDigits ds := by
    rw [text_ofSign, Numeral.text]
    cases hpower : n.power with
    | some p =>
      refine ⟨Decimal.signText s ++ (Text.ofDigits n.whole ++ Numeral.fractionText n.fraction ++
        CodePoint.ofChar (if p.capital then 'E' else 'e') :: Sign.optionText p.sign), p.digits,
        hn.2 p hpower, ?_⟩
      simp [Power.text]
    | none =>
      cases hplaces : n.fraction with
      | some ds =>
        refine ⟨Decimal.signText s ++ (Text.ofDigits n.whole ++ [point]), ds,
          hfraction ds hplaces, ?_⟩
        simp [Numeral.fractionText]
      | none => exact ⟨Decimal.signText s, n.whole, hwhole, by simp [Numeral.fractionText]⟩
  obtain ⟨start, ds, hne, htext⟩ := hend
  rw [htext, List.getLast?_append_of_ne_nil _ (by simpa [Text.ofDigits] using hne)]
  exact exists_getLast?_ofDigits hne

end SignedNumeral

/-! ## Numbers of texts -/

/-- The text is a numeral with a sign or none, and this is the number that it denotes. -/
def Text.Denotes (t : Text) (d : Decimal) : Prop :=
  ∃ n : SignedNumeral, n.numeral.WellFormed ∧ n.text = t ∧ n.written = d

/-- A text denotes one number at most. -/
theorem Text.Denotes.unique {t : Text} {d d' : Decimal} (h : t.Denotes d) (h' : t.Denotes d') :
    d = d' := by
  obtain ⟨n, hn, rfl, rfl⟩ := h
  obtain ⟨m, hm, htext, rfl⟩ := h'
  rw [SignedNumeral.eq_of_text_eq hm hn htext]

/-- The text `u` is the number that `t` is, without needless zeros. -/
structure Text.IsTrimmed (t u : Text) : Prop where
  /-- The number is the same, and its sign. -/
  number : ∃ s c e c' e', t.Denotes (.finite s c e) ∧ u.Denotes (.finite s c' e') ∧
    (c : ℚ) * 10 ^ e = c' * 10 ^ e'
  /-- The text ends in a digit : it is not empty, no sign alone, and does not end in a point. -/
  last : ∃ d : Digit, u.getLast? = some d.codePoint
  /-- The digits behind a point do not end in zero. -/
  fraction : ∀ n : SignedNumeral, n.numeral.WellFormed → n.text = u → n.numeral.IsConcise
  /-- Nothing more is trimmed. -/
  again : trimmed u = u

namespace SignedNumeral

open Text

variable {n : Numeral} {s : Bool}

/-- What is trimmed to another numeral of the same size. -/
theorem isTrimmed_of_eq {m : Numeral} (hn : n.WellFormed) (hm : m.WellFormed)
    (hwhole : m.whole ≠ []) (hfraction : m.IsConcise)
    (hsize : (n.coefficient : ℚ) * 10 ^ n.exponent = m.coefficient * 10 ^ m.exponent)
    (h : trimmed (ofSign s n).text = (ofSign s m).text) :
    (ofSign s n).text.IsTrimmed (trimmed (ofSign s n).text) where
  number := ⟨s, _, _, _, _, ⟨_, hn, rfl, written_ofSign s n⟩,
    ⟨_, hm, h.symm, written_ofSign s m⟩, hsize⟩
  last := by
    rw [h]
    refine exists_getLast?_text hm hwhole fun ds hds hnil => ?_
    obtain ⟨d, hlast, -⟩ := hfraction ds hds
    rw [hnil] at hlast
    cases hlast
  fraction k hk htext := by
    obtain rfl := eq_of_text_eq (m := ofSign s m) hk hm (htext.trans h)
    exact hfraction
  again := trimmed_trimmed _

/-- A numeral whose fraction does not end in zero is left as it is. -/
theorem trimmed_of_isConcise (hwhole : n.whole ≠ []) (hfraction : n.IsConcise) :
    trimmed (ofSign s n).text = (ofSign s n).text := by
  cases hpower : n.power with
  | some p => exact trimmed_text fun h => by rw [hpower] at h; cases h
  | none =>
    cases hplaces : n.fraction with
    | none => exact trimmed_text fun _ => hplaces
    | some ds =>
      obtain ⟨d, hlast, hd⟩ := hfraction ds hplaces
      have hne : ds ≠ [] := by
        rintro rfl
        cases hlast
      have hkeep : n.withPlaces ds = n := by
        rw [Numeral.withPlaces, if_neg hne, ← hplaces]
      rw [trimmed_withPlaces (k := 0) hpower hwhole (by simpa using hplaces), hkeep]
      rw [hlast]
      exact fun h => hd (Option.some.inj h)

/-- A numeral without a power is trimmed to one whose fraction does not end in zero. -/
theorem isTrimmed_of_power (hn : n.WellFormed) (hwhole : n.whole ≠ []) (hpower : n.power = none) :
    (ofSign s n).text.IsTrimmed (trimmed (ofSign s n).text) := by
  cases hplaces : n.fraction with
  | none =>
    exact isTrimmed_of_eq hn hn hwhole (fun ds h => by rw [hplaces] at h; cases h) rfl
      (trimmed_text fun _ => hplaces)
  | some ds =>
    obtain ⟨kept, k, rfl, hlast⟩ := exists_append_replicate (0 : Digit) ds
    refine isTrimmed_of_eq hn (Numeral.wellFormed_withPlaces hn hwhole) hwhole ?_
      (Numeral.size_withPlaces hpower hplaces).symm (trimmed_withPlaces hpower hwhole hplaces hlast)
    intro ds hds
    have hkept : kept ≠ [] ∧ kept = ds := by
      simpa [Numeral.withPlaces] using hds
    obtain ⟨hne, rfl⟩ := hkept
    refine ⟨kept.getLast hne, List.getLast?_eq_some_getLast hne, fun h => hlast ?_⟩
    rw [List.getLast?_eq_some_getLast hne, h]

end SignedNumeral

namespace Numeral

variable {ds : List Digit} {whole : ℤ}

theorem whole_ofPointed_ne_nil (h : ds ≠ []) : (ofPointed ds whole).whole ≠ [] := by
  unfold ofPointed
  split
  · exact List.cons_ne_nil _ _
  split
  · exact List.append_ne_nil_of_left_ne_nil h _
  · simp only [ne_eq, List.take_eq_nil_iff, h, or_false]
    omega

/-- Digits behind a point end as all the digits do. -/
theorem getLast?_fraction_ofPointed {places : List Digit}
    (h : (ofPointed ds whole).fraction = some places) (hds : ds ≠ []) :
    places.getLast? = ds.getLast? := by
  unfold ofPointed at h
  split at h
  · obtain rfl := Option.some.inj h
    exact List.getLast?_append_of_ne_nil _ hds
  split at h
  · cases h
  · obtain rfl := Option.some.inj h
    rw [List.getLast?_drop, if_neg (by omega)]

end Numeral

namespace Double

/-- Significant digits of a positive number do not end in zero. -/
theorem exists_getLast?_significant {ds : List Digit} (h : 0 < digitsValue ds) :
    ∃ d, (significant ds).getLast? = some d ∧ d ≠ 0 := by
  obtain ⟨kept, k, rfl, hlast⟩ := exists_append_replicate (0 : Digit) ds
  have hne : kept ≠ [] := by
    rintro rfl
    rw [List.nil_append, digitsValue_zeros] at h
    exact absurd h (lt_irrefl 0)
  have hd : kept.getLast hne ≠ 0 := fun hd => hlast (by
    rw [List.getLast?_eq_some_getLast hne, hd])
  have hself : (kept.reverse.dropWhile (· == 0)).reverse = kept :=
    List.rdropWhile_eq_self_iff.2 fun _ => by simpa using hd
  have hsignificant : significant kept = kept := by
    rw [significant, hself]
    cases kept with
    | nil => exact absurd rfl hne
    | cons d rest => rfl
  rw [significant_append_zeros, hsignificant]
  exact ⟨_, List.getLast?_eq_some_getLast hne, hd⟩

/-- The numeral that is written for a double does not end in zeros. -/
theorem isConcise_numeral (r : Fin infinityRank) :
    (numeral r).whole ≠ [] ∧ (numeral r).IsConcise := by
  by_cases hr : r.val = 0
  · rw [numeral, if_pos hr]
    exact ⟨List.cons_ne_nil _ _, fun ds h => by cases h⟩
  obtain ⟨m, e, hm, -, hshortest, -⟩ := exists_shortest r hr
  have hvalue : 0 < digitsValue (digitsOf m) := by rwa [digitsValue_digitsOf]
  obtain ⟨hne, -⟩ := exists_significant hvalue
  rw [numeral, if_neg hr, hshortest, ofLayout]
  constructor
  · split <;> exact Numeral.whole_ofPointed_ne_nil hne
  · intro ds hds
    have hlast : ds.getLast? = (significant (digitsOf m)).getLast? := by
      split at hds <;> exact Numeral.getLast?_fraction_ofPointed hds hne
    rw [hlast]
    exact exists_getLast?_significant hvalue

end Double

/-! ## Results -/

/-- At high precision a result is trimmed to a numeral of the same size. -/
theorem Decimal.isTrimmed_of_fixed {s : Bool} {c : ℕ} {e : ℤ} {t : Text}
    (h : fixed (.finite s c e) resultPlaces = .ok t) : t.IsTrimmed (trimmed t) := by
  obtain ⟨n, rfl⟩ := exists_units h
  have hne : digitsOf n ≠ [] := List.ne_nil_of_length_pos (digitCount_pos n)
  rw [← Numeral.text_ofPointed, ← SignedNumeral.text_ofSign]
  exact SignedNumeral.isTrimmed_of_power (Numeral.wellFormed_ofPointed _ _ hne)
    (Numeral.whole_ofPointed_ne_nil hne) (Numeral.power_ofPointed _ _)

/-- At standard precision a result is trimmed already. -/
theorem Double.isTrimmed_text (s : Bool) (r : Fin infinityRank) :
    (text (.finite s r)).IsTrimmed (trimmed (text (.finite s r))) ∧
      trimmed (text (.finite s r)) = text (.finite s r) := by
  obtain ⟨hwhole, hfraction⟩ := isConcise_numeral r
  have hkeep := SignedNumeral.trimmed_of_isConcise (s := s) hwhole hfraction
  rw [← text_ofSign_numeral]
  exact ⟨SignedNumeral.isTrimmed_of_eq (wellFormed_numeral r) (wellFormed_numeral r) hwhole
    hfraction rfl hkeep, hkeep⟩

/-- Trimming a result never changes the number. The text of a number that is neither infinite nor
missing is trimmed to a text of the same number and sign, without zeros at the end of a fraction,
and at standard precision there is nothing to trim. Whatever the text, trimming again changes
nothing, and what is trimmed is an end of a text in fixed-point notation. -/
theorem trimmed_result :
    (∀ (precision : Precision) (r : Decimal) (i : Option Decimal) (k : Bool) (t : Text),
      (Value.number r i k).result precision = .ok t → t ≠ "+Inf" → t ≠ "-Inf" → t ≠ "NaN" →
        t.IsTrimmed (trimmed t) ∧ (precision = .standard → trimmed t = t)) ∧
    ∀ t : Text, trimmed (trimmed t) = trimmed t ∧ trimmed t <+: t ∧
      (trimmed t ≠ t → ∃ sign whole places, t.FixedPoint sign whole places) := by
  constructor
  · intro precision r i k t h hinfinite hnegative hnan
    cases precision with
    | standard =>
      cases hdouble : r.toDouble with
      | error s => simp [Value.result, hdouble] at h
      | ok x =>
        simp only [Value.result, hdouble, Except.ok.injEq] at h
        subst h
        cases x with
        | nan => exact absurd rfl hnan
        | infinite s =>
          cases s
          · exact absurd rfl hinfinite
          · exact absurd rfl hnegative
        | finite s x =>
          obtain ⟨htrimmed, hkeep⟩ := Double.isTrimmed_text s x
          exact ⟨htrimmed, fun _ => hkeep⟩
    | high =>
      refine ⟨?_, fun h => by cases h⟩
      simp only [Value.result] at h
      cases r with
      | nan => exact absurd (Except.ok.inj h).symm hnan
      | infinite s =>
        cases s
        · exact absurd (Except.ok.inj h).symm hinfinite
        · exact absurd (Except.ok.inj h).symm hnegative
      | finite s c e => exact Decimal.isTrimmed_of_fixed h
  · intro t
    refine ⟨Text.trimmed_trimmed t, Text.trimmed_prefix t, fun h => ?_⟩
    obtain ⟨sign, whole, kept, k, hfixed, -⟩ := (Text.trimmed_cases t).resolve_left h
    exact ⟨sign, whole, _, hfixed⟩

/-- A negative number that rounds to zero keeps its sign and loses all its places. -/
theorem trimmed_result_zero :
    let v : Value := .number (.finite true 1 (-60)) none false
    let t : Text := Text.ofString "-0." ++ List.replicate 50 (CodePoint.ofChar '0')
    (v.result .high = .ok t ∧ t ≠ "+Inf" ∧ t ≠ "-Inf" ∧ t ≠ "NaN") ∧ t.IsTrimmed "-0" := by
  intro v t
  have hresult : v.result .high = .ok t := by decide +kernel
  have hinfinite : t ≠ "+Inf" ∧ t ≠ "-Inf" ∧ t ≠ "NaN" := by decide +kernel
  obtain ⟨hpositive, hnegative, hnan⟩ := hinfinite
  have htrimmed : trimmed t = "-0" := by decide +kernel
  refine ⟨⟨hresult, hpositive, hnegative, hnan⟩, ?_⟩
  rw [← htrimmed]
  exact (trimmed_result.1 .high _ none false t hresult hpositive hnegative hnan).1

end Reckon
