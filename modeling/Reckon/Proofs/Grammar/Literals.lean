import Reckon.Grammar.NumberText
import Reckon.Proofs.Grammar.Positions
import Reckon.Proofs.Number.Literal
import Reckon.Proofs.Source.Quoting

/-!
# Literals

The numerals of a statement that is read are well-formed, and have no more digits than the statement
has code points (`Statement.numerals_of_parse`).

The scanner and the two readers of number texts agree on what a number is. A well-formed numeral,
with a sign in front of it or without one, is the text of a number, of a double
(`Double.ofText_numeral`) as well as of a decimal (`Decimal.ofText_numeral`), and the readers find
in it what the literal denotes.
-/

namespace Reckon

/-! ## Scanned numerals -/

theorem Numeral.length_digits_le (m : Numeral) : m.digits.length ≤ m.text.length := by
  obtain ⟨whole, f, p⟩ := m
  cases f with
  | none => simp [digits, text, Text.ofDigits]
  | some ds =>
    simp only [digits, text, Text.ofDigits, fractionText, Option.getD_some, List.length_append,
      List.length_map, List.length_cons]
    omega

/-- A numeral among the tokens of a statement is well-formed, and not longer than it. -/
theorem numeral_of_tokens {limits : Limits} {source : Text} {ts : List Token} {m : Numeral}
    (h : tokens limits source = .ok ts) (hm : .number m ∈ ts.map Token.lexeme) :
    m.WellFormed ∧ m.digits.length ≤ source.length := by
  obtain ⟨t, ht, hlexeme⟩ := List.mem_map.1 hm
  obtain ⟨c, rest, n, hdrop, hscan⟩ := Statement.exists_scan_of_tokens h t ht
  rw [hlexeme] at hscan
  refine ⟨Scan.scan_wellFormed hscan, m.length_digits_le.trans ?_⟩
  have hprefix := Scan.scan_prefix hscan fun v hv => by cases hv
  have hlength := Scan.lt_length_of_drop hdrop
  exact hprefix.length_le.trans (by omega)

/-! ## The literals of a tree -/

namespace Expr

mutual

/-- The literals of an expression, from left to right. -/
def numerals : Expr → List SignedNumeral
  | .number n _ => [n]
  | .string .. => []
  | .variable .. => []
  | .group inner _ => inner.numerals
  | .binary _ left right _ => left.numerals ++ right.numerals
  | .call _ arguments _ => numeralsOfAll arguments

/-- The literals of several expressions. -/
def numeralsOfAll : List Expr → List SignedNumeral
  | [] => []
  | e :: rest => e.numerals ++ numeralsOfAll rest

end

mutual

/-- The numeral of a literal is a lexeme of the tree. -/
theorem mem_lexemes_of_mem_numerals {n : SignedNumeral} : ∀ {e : Expr}, n ∈ e.numerals →
    .number n.numeral ∈ e.lexemes
  | .number m _, h => by
    obtain rfl := List.mem_singleton.1 h
    exact List.mem_append_right _ (List.mem_singleton_self _)
  | .group inner _, h =>
    List.mem_append_left _ (List.mem_cons_of_mem _ (mem_lexemes_of_mem_numerals (e := inner) h))
  | .binary _ left right _, h =>
    List.mem_append.2 ((List.mem_append.1 h).imp mem_lexemes_of_mem_numerals
      fun h => List.mem_cons_of_mem _ (mem_lexemes_of_mem_numerals h))
  | .call _ arguments _, h =>
    List.mem_append_left _ (List.mem_cons_of_mem _ (List.mem_cons_of_mem _
      (mem_lexemesOfAll_of_mem_numerals h)))

theorem mem_lexemesOfAll_of_mem_numerals {n : SignedNumeral} : ∀ {es : List Expr},
    n ∈ numeralsOfAll es → .number n.numeral ∈ lexemesOfAll es
  | [e], h =>
    mem_lexemes_of_mem_numerals (e := e) ((List.mem_append.1 h).resolve_right List.not_mem_nil)
  | _ :: _ :: _, h =>
    List.mem_append.2 ((List.mem_append.1 h).imp mem_lexemes_of_mem_numerals
      fun h => List.mem_cons_of_mem _ (mem_lexemesOfAll_of_mem_numerals h))

end

end Expr

/-- The literals of a statement that is read are well-formed, and not longer than it. -/
theorem Statement.numerals_of_parse {limits : Limits} {source : Text} {st : Statement}
    (h : parse limits source = .ok st) {n : SignedNumeral} (hn : n ∈ st.expression.numerals) :
    n.numeral.WellFormed ∧ n.numeral.digits.length ≤ source.length := by
  obtain ⟨ts, hts, ⟨us, vs, rfl, -, he⟩, -⟩ := spelled_of_parse h
  refine numeral_of_tokens hts ?_
  rw [List.map_append, he.map_lexeme]
  exact List.mem_append_right _ (Expr.mem_lexemes_of_mem_numerals hn)

/-! ## Literals as texts of numbers -/

theorem SignedNumeral.mem_marks {n : SignedNumeral} {c : CodePoint} (h : c ∈ n.text) :
    c ∈ Numeral.marks :=
  (List.mem_append.1 h).elim Place.mem_marks_of_optionText Place.mem_marks_of_text

/-- A text without margins stays as it is. -/
theorem Text.withoutMargins_eq_self {t : Text} (h : ∀ c ∈ t, c.isMargin = false) :
    t.withoutMargins = t := by
  have hdrop : ∀ {u : Text}, (∀ c ∈ u, c.isMargin = false) →
      u.dropWhile CodePoint.isMargin = u := by
    intro u hu
    cases u with
    | nil => rfl
    | cons c u => rw [List.dropWhile_cons_of_neg (by simp [hu c List.mem_cons_self])]
  rw [withoutMargins, hdrop h, hdrop fun c hc => h c (List.mem_reverse.1 hc), List.reverse_reverse]

namespace NumberText

theorem plainDigits_eq_self {t : Text} (h : ∀ c ∈ t, c ∈ Numeral.marks) : plainDigits t = t := by
  have hmark : ∀ c ∈ Numeral.marks, ((Digit.ofAnyScript? c).map Digit.codePoint).getD c = c := by
    decide +kernel
  exact (List.map_congr_left fun c hc => hmark c (h c hc)).trans t.map_id'

theorem groupsDigits_of_not_mem : ∀ {t : Text}, CodePoint.lowLine ∉ t → groupsDigits t = true
  | [], _ => rfl
  | [_], _ => rfl
  | c :: d :: rest, h => by
    have hrest : CodePoint.lowLine ∉ d :: rest := fun hd => h (List.mem_cons_of_mem _ hd)
    have hd : (d != CodePoint.lowLine) = true :=
      bne_iff_ne.2 fun hd => hrest (hd ▸ List.mem_cons_self)
    rw [groupsDigits, hd, Bool.true_or, Bool.true_and, groupsDigits_of_not_mem hrest]

/-- The low lines are no part of a literal. -/
theorem filter_lowLine (n : SignedNumeral) :
    n.text.filter (· != CodePoint.lowLine) = n.text := by
  refine List.filter_eq_self.2 fun c hc => bne_iff_ne.2 ?_
  rintro rfl
  exact absurd (SignedNumeral.mem_marks hc) (by decide)

/-- A numeral starts with a digit or a point : not with a sign, and not as a word does. -/
theorem exists_cons_text {m : Numeral} (hm : m.WellFormed) : ∃ c tail, m.text = c :: tail ∧
    Sign.ofCodePoint? c = none ∧
      ∀ d ∈ [CodePoint.ofChar 'i', CodePoint.ofChar 'n', CodePoint.ofChar 's'], c.toLower ≠ d := by
  obtain ⟨c, tail, htext, -, hname, -, -, hmark, -⟩ := Scan.startsNumber_text hm []
  have hmem : c ∈ Numeral.marks := Place.mem_marks_of_text (n := m) (htext ▸ List.mem_cons_self)
  have hall : ∀ c ∈ Numeral.marks, c.startsName = false → Scan.mark? c = none →
      Sign.ofCodePoint? c = none ∧
        ∀ d ∈ [CodePoint.ofChar 'i', CodePoint.ofChar 'n', CodePoint.ofChar 's'],
          c.toLower ≠ d := by decide +kernel
  exact ⟨c, tail, htext, hall c hmem hname hmark⟩

section

variable {m : Numeral} (hm : m.WellFormed)

include hm

theorem sign_text (s : Option Sign) : Scan.sign (SignedNumeral.text ⟨s, m⟩) = (s, m.text) := by
  obtain ⟨c, tail, htext, hsign, -⟩ := exists_cons_text hm
  rw [SignedNumeral.text, htext]
  cases s with
  | none => simp only [Sign.optionText, List.nil_append, Scan.sign, hsign]
  | some s => cases s <;> rfl

theorem isInfinity_text : isInfinity m.text = false := by
  obtain ⟨c, tail, htext, -, hletter⟩ := exists_cons_text hm
  have hi := hletter (CodePoint.ofChar 'i') (by simp)
  have hne : ∀ word : Text, Text.toLower (c :: tail) ≠ CodePoint.ofChar 'i' :: word :=
    fun word h => hi (List.cons.inj h).1
  rw [isInfinity, htext, Bool.or_eq_false_iff, beq_eq_false_iff_ne, beq_eq_false_iff_ne]
  exact ⟨hne _, hne _⟩

theorem toLower_text_ne_nan : m.text.toLower ≠ Text.ofString "nan" := by
  obtain ⟨c, tail, htext, -, hletter⟩ := exists_cons_text hm
  rw [htext]
  exact fun h => hletter (CodePoint.ofChar 'n') (by simp) (List.cons.inj h).1

theorem missing?_text : missing? m.text = none := by
  obtain ⟨c, tail, htext, -, hletter⟩ := exists_cons_text hm
  have hn := hletter (CodePoint.ofChar 'n') (by simp)
  have hs : (some c.toLower == some (CodePoint.ofChar 's')) = false :=
    beq_eq_false_iff_ne.2 fun h => hletter (CodePoint.ofChar 's') (by simp) (Option.some.inj h)
  have hword : (c.toLower :: List.map CodePoint.toLower tail).take 3 ≠ Text.ofString "nan" :=
    fun h => hn (List.cons.inj h).1
  simp only [missing?, htext, Text.toLower, List.map_cons, List.head?_cons, hs,
    Bool.false_eq_true, if_false, List.drop_zero, if_neg hword]

theorem numeral?_text : numeral? m.text = some m := by
  have hend : Text.EndsWord [] := fun c hc => by cases hc
  have hscan := Scan.numeral_text hm hend
  rw [List.append_nil] at hscan
  rw [numeral?, hscan]
  exact if_neg hm.1

end

end NumberText

/-- All digits of a numeral count at most. -/
theorem Numeral.fitsDouble_of_length_le {n : Numeral}
    (h : n.digits.length ≤ mostDoubleDigits) : n.fitsDouble = true := by
  have hdrop := (List.dropWhile_suffix (p := (· == 0)) (l := n.digits)).length_le
  have hfraction : (n.fraction.getD []).length ≤ n.digits.length := by
    rw [digits, List.length_append]
    exact Nat.le_add_left _ _
  rw [fitsDouble, Bool.and_eq_true, decide_eq_true_iff, decide_eq_true_iff]
  exact ⟨hdrop.trans h, hfraction.trans h⟩

section

variable {n : SignedNumeral} (hn : n.numeral.WellFormed)

include hn

/-- The text of a literal is read as a decimal like the literal. -/
theorem Decimal.ofText_numeral : ofText n.text = n.decimal := by
  obtain ⟨s, m⟩ := n
  have htrim : Text.trim (SignedNumeral.text ⟨s, m⟩) = SignedNumeral.text ⟨s, m⟩ := by
    have hblank : ∀ c ∈ Numeral.marks, c.isBlank = false := by decide
    exact Text.trim_eq_self
      (fun c hc => hblank c (SignedNumeral.mem_marks (List.mem_of_mem_head? hc)))
      fun c hc => hblank c (SignedNumeral.mem_marks (List.mem_of_mem_getLast? hc))
  rw [ofText, htrim, NumberText.filter_lowLine, NumberText.plainDigits_eq_self
    fun c hc => SignedNumeral.mem_marks hc, NumberText.decimal]
  simp only [NumberText.sign_text hn, NumberText.isInfinity_text hn, NumberText.missing?_text hn,
    NumberText.numeral?_text hn, Bool.false_eq_true, if_false]

/-- The text of a literal that is not too long is read as a double, as the one nearest to the
literal. -/
theorem Double.ofText_numeral (hdigits : n.numeral.digits.length ≤ Numeral.mostDoubleDigits) :
    ofText n.text = .ok (ofDecimal n.written) := by
  have hfits := Numeral.fitsDouble_of_length_le hdigits
  obtain ⟨s, m⟩ := n
  have hmargins : Text.withoutMargins (SignedNumeral.text ⟨s, m⟩) = SignedNumeral.text ⟨s, m⟩ := by
    have hmargin : ∀ c ∈ Numeral.marks, c.isMargin = false := by decide
    exact Text.withoutMargins_eq_self fun c hc => hmargin c (SignedNumeral.mem_marks hc)
  have hlow : CodePoint.lowLine ∉ SignedNumeral.text ⟨s, m⟩ := fun h =>
    absurd (SignedNumeral.mem_marks h) (by decide)
  have hhead : (SignedNumeral.text ⟨s, m⟩).head? ≠ some CodePoint.lowLine := fun h =>
    hlow (List.mem_of_mem_head? h)
  rw [ofText, hmargins, NumberText.plainDigits_eq_self fun c hc => SignedNumeral.mem_marks hc,
    NumberText.groupsDigits_of_not_mem hlow, bne_iff_ne.2 hhead, NumberText.filter_lowLine]
  simp only [NumberText.double?, NumberText.sign_text hn, NumberText.isInfinity_text hn,
    NumberText.toLower_text_ne_nan hn, NumberText.numeral?_text hn, hfits, Bool.false_eq_true,
    if_false, Bool.and_self, if_true]

end

end Reckon
