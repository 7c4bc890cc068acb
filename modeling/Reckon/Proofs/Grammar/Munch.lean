import Mathlib.Data.List.Basic
import Mathlib.Tactic.Common
import Reckon.Grammar.Scan
import Reckon.Source.Literal

/-!
# Written lexemes are scanned back

A lexeme is written as its text, a string as a literal (`Lexeme.written`). The scanner takes
as many code points as it can, so a word, that is a name or a number, is read back only if
the text behind it does not go on with a word (`Text.EndsWord`); every other lexeme shows its
own end, and is read back whatever follows it (`Scan.scan_written`). The other way round, what is
scanned is always well-formed (`Scan.scan_wellFormed`).
-/

namespace Reckon

/-! ## Words -/

/-- The code point can stand in a name or in a number. -/
def CodePoint.continuesWord (c : CodePoint) : Bool := c.continuesName || c == ofChar '.'

/-- The text is empty or starts with what is no part of a word. -/
def Text.EndsWord (t : Text) : Prop := ∀ c ∈ t.head?, c.continuesWord = false

/-- The text does not continue the numeral in front of it. -/
structure Numeral.EndsBefore (n : Numeral) (t : Text) : Prop where
  /-- It has no further digit. -/
  digit : ∀ c ∈ t.head?, c.isDigit = false
  /-- It has no power of ten where none was. -/
  letter : n.power = none → ∀ c ∈ t.head?, c ≠ CodePoint.ofChar 'e' ∧ c ≠ CodePoint.ofChar 'E'
  /-- It has no point where none was. -/
  point : n.power = none → n.fraction = none → ∀ c ∈ t.head?, c ≠ CodePoint.ofChar '.'

/-- The text is a name : a letter or a low line, then letters, digits and low lines. -/
def Text.IsName : Text → Prop
  | [] => False
  | c :: rest => c.startsName = true ∧ ∀ d ∈ rest, d.continuesName = true

namespace Lexeme

/-- The lexeme as it is written in a statement. -/
def written : Lexeme → Text
  | .string v => v.literal
  | l => l.text

/-- A number has its digits, and a name is one and not the word `return`. -/
def WellFormed : Lexeme → Prop
  | .number n => n.WellFormed
  | .name n => n.IsName ∧ n ≠ resultWord
  | _ => True

/-- The lexeme is written with the code points of words. -/
def IsWord : Lexeme → Prop
  | .number _ => True
  | .name _ => True
  | .result => True
  | _ => False

end Lexeme

namespace CodePoint

theorem continuesName_of_startsName {c : CodePoint} (h : c.startsName = true) :
    c.continuesName = true := by simp [continuesName, h]

theorem startsName_codePoint (d : Digit) : d.codePoint.startsName = false := by
  revert d
  decide

theorem isDigit_codePoint (d : Digit) : d.codePoint.isDigit = true := by
  revert d
  decide

theorem startsName_of_continuesWord {c : CodePoint} (h : c.continuesWord = false) :
    c.startsName = false := by
  simp_all [continuesWord, continuesName]

theorem ne_of_startsName {c d : CodePoint} (h : c.startsName = true)
    (hd : d.startsName = false) : c ≠ d := by
  rintro rfl
  rw [h] at hd
  cases hd

theorem isGap_of_startsName {c : CodePoint} (h : c.startsName = true) : c.isGap = false := by
  have hne : ∀ d ∈ [ofChar ' ', ofChar '\t', ofChar '\n', ofChar '\r'], c ≠ d := by
    intro d hd
    have hname : ∀ e ∈ [ofChar ' ', ofChar '\t', ofChar '\n', ofChar '\r'],
        e.startsName = false := by decide
    exact ne_of_startsName h (hname d hd)
  simp_all [isGap]

/-- The digits are the code points that stand for one. -/
theorem isSome_ofCodePoint? (c : CodePoint) : (Digit.ofCodePoint? c).isSome = c.isDigit := by
  have hdigit : c.isDigit = decide (48 ≤ c.val ∧ c.val ≤ 57) := by
    rw [Bool.decide_and]
    rfl
  rw [hdigit, Digit.ofCodePoint?]
  split <;> simp_all

theorem ofCodePoint?_eq_none {c : CodePoint} (h : c.isDigit = false) :
    Digit.ofCodePoint? c = none :=
  Option.isSome_eq_false_iff.1 ((isSome_ofCodePoint? c).trans h) |> Option.isNone_iff_eq_none.1

end CodePoint

namespace Text.EndsWord

variable {t : Text}

theorem isDigit (h : t.EndsWord) : ∀ c ∈ t.head?, c.isDigit = false := by
  intro c hc
  have := h c hc
  simp_all [CodePoint.continuesWord, CodePoint.continuesName]

theorem startsName (h : t.EndsWord) : ∀ c ∈ t.head?, c.startsName = false := by
  intro c hc
  have := h c hc
  simp_all [CodePoint.continuesWord, CodePoint.continuesName]

theorem ne_point (h : t.EndsWord) : ∀ c ∈ t.head?, c ≠ CodePoint.ofChar '.' := by
  rintro c hc rfl
  have := h _ hc
  simp [CodePoint.continuesWord] at this

theorem endsBefore (h : t.EndsWord) (n : Numeral) : n.EndsBefore t where
  digit := h.isDigit
  letter _ c hc := by
    have hname := h.startsName c hc
    constructor
    all_goals
      rintro rfl
      exact absurd hname (by decide)
  point _ _ := h.ne_point

end Text.EndsWord

/-- What does not continue a numeral does so no more if it is cut. -/
theorem Numeral.EndsBefore.of_append {n : Numeral} {t u : Text} (h : n.EndsBefore (t ++ u)) :
    n.EndsBefore t where
  digit c hc := h.digit c (List.mem_head?_append_of_mem_head? hc)
  letter hp c hc := h.letter hp c (List.mem_head?_append_of_mem_head? hc)
  point hp hf c hc := h.point hp hf c (List.mem_head?_append_of_mem_head? hc)

namespace Scan

/-! ## Numbers -/

/-- Digits are scanned up to what is no digit. -/
theorem digits_ofDigits {rest : Text} (hr : ∀ c ∈ rest.head?, c.isDigit = false) :
    ∀ ds : List Digit, digits (Text.ofDigits ds ++ rest) = (ds, rest)
  | [] => by
    cases rest with
    | nil => rfl
    | cons c rest =>
      have hc := CodePoint.ofCodePoint?_eq_none (hr c rfl)
      simp [Text.ofDigits, digits, hc]
  | d :: ds => by
    have ih := digits_ofDigits hr ds
    simp only [Text.ofDigits, List.map_cons, List.cons_append] at ih ⊢
    rw [digits, Digit.ofCodePoint?_codePoint]
    simp only [ih]

theorem fraction_fractionText {rest : Text} (hd : ∀ c ∈ rest.head?, c.isDigit = false) :
    ∀ f : Option (List Digit), (f = none → ∀ c ∈ rest.head?, c ≠ CodePoint.ofChar '.') →
      fraction (Numeral.fractionText f ++ rest) = (f, rest)
  | none, hp => by
    cases rest with
    | nil => rfl
    | cons c rest => simp [Numeral.fractionText, fraction, hp rfl c rfl]
  | some ds, _ => by
    simp only [Numeral.fractionText, List.cons_append, fraction, if_pos, digits_ofDigits hd]

theorem sign_optionText {rest : Text} {d : Digit} {ds : List Digit} (s : Option Sign) :
    sign (Sign.optionText s ++ (Text.ofDigits (d :: ds) ++ rest)) =
      (s, Text.ofDigits (d :: ds) ++ rest) := by
  have hd : Sign.ofCodePoint? d.codePoint = none := by
    revert d
    decide
  rcases s with - | s
  · simp only [Sign.optionText, Text.ofDigits, List.map_cons, List.nil_append, List.cons_append,
      sign, hd]
  · cases s <;> rfl

theorem power_text {rest : Text} (hd : ∀ c ∈ rest.head?, c.isDigit = false) (p : Option Power)
    (hletter : p = none → ∀ c ∈ rest.head?, c ≠ CodePoint.ofChar 'e' ∧ c ≠ CodePoint.ofChar 'E')
    (hp : ∀ q, p = some q → q.digits ≠ []) :
    power ((p.map Power.text).getD [] ++ rest) = .ok (p, rest) := by
  rcases p with - | ⟨capital, s, ds⟩
  · cases rest with
    | nil => rfl
    | cons c rest =>
      obtain ⟨he, hE⟩ := hletter rfl c rfl
      simp [power, he, hE]
  · obtain ⟨d, ds, rfl⟩ := List.exists_cons_of_ne_nil (hp _ rfl)
    have hletter : CodePoint.ofChar (if capital then 'E' else 'e') = CodePoint.ofChar 'e' ∨
        CodePoint.ofChar (if capital then 'E' else 'e') = CodePoint.ofChar 'E' := by
      cases capital <;> simp
    have hcapital : decide (CodePoint.ofChar (if capital then 'E' else 'e') =
        CodePoint.ofChar 'E') = capital := by
      cases capital <;> decide
    simp only [Option.map_some, Option.getD_some, Power.text, List.cons_append, List.append_assoc,
      power, if_pos hletter, sign_optionText, digits_ofDigits hd, hcapital]

/-- A numeral is scanned up to what does not continue it. -/
theorem numeral_append {n : Numeral} (hn : n.WellFormed) {rest : Text} (hr : n.EndsBefore rest) :
    numeral (n.text ++ rest) = .ok (n, rest) := by
  obtain ⟨whole, f, p⟩ := n
  have hletter : ∀ capital : Bool,
      (CodePoint.ofChar (if capital then 'E' else 'e')).isDigit = false ∧
        CodePoint.ofChar (if capital then 'E' else 'e') ≠ CodePoint.ofChar '.' := by decide
  -- Behind the digits comes a point, the letter of a power, or the end of the numeral.
  have hpower : ∀ c ∈ ((p.map Power.text).getD [] ++ rest).head?,
      c.isDigit = false ∧ (f = none → c ≠ CodePoint.ofChar '.') := by
    intro c hc
    rcases p with - | ⟨capital, s, ds⟩
    · exact ⟨hr.digit c hc, fun hf => hr.point rfl hf c hc⟩
    · obtain rfl := Option.some.inj hc
      exact (hletter capital).imp_right fun h _ => h
  have hfraction : ∀ c ∈ (Numeral.fractionText f ++ ((p.map Power.text).getD [] ++ rest)).head?,
      c.isDigit = false := by
    intro c hc
    rcases f with - | ds
    · exact (hpower c hc).1
    · obtain rfl := Option.some.inj hc
      decide
  simp only [numeral, Numeral.text, List.append_assoc, digits_ofDigits hfraction,
    fraction_fractionText (fun c hc => (hpower c hc).1) f (fun hf c hc => (hpower c hc).2 hf),
    power_text hr.digit p hr.letter hn.2]

/-- A numeral is scanned up to the end of the word. -/
theorem numeral_text {n : Numeral} (hn : n.WellFormed) {rest : Text} (hr : rest.EndsWord) :
    numeral (n.text ++ rest) = .ok (n, rest) := numeral_append hn (hr.endsBefore n)

theorem continuesNumber_of_endsWord {t : Text} (h : t.EndsWord) :
    ∀ c ∈ t.head?, continuesNumber c = false := fun c hc => by
  simp [continuesNumber, h.startsName c hc, h.ne_point c hc]

theorem number_text {n : Numeral} (hn : n.WellFormed) {rest : Text} (hr : n.EndsBefore rest)
    (hrest : ∀ c ∈ rest.head?, continuesNumber c = false) :
    number (n.text ++ rest) = .ok (.number n, n.text.length) := by
  rw [number, numeral_append hn hr]
  cases rest with
  | nil => rfl
  | cons c rest => simp only [hrest c rfl, Bool.false_eq_true, if_false]

/-- A numeral starts with a digit, or with a point and a digit. -/
theorem startsNumber_text {n : Numeral} (hn : n.WellFormed) (rest : Text) :
    ∃ c tail, n.text = c :: tail ∧ startsNumber c (tail ++ rest) = true ∧
      c.startsName = false ∧ c.isGap = false ∧ c ≠ CodePoint.ofChar ':' ∧ mark? c = none ∧
      c ≠ CodePoint.quote := by
  obtain ⟨whole, f, p⟩ := n
  rcases whole with - | ⟨d, ds⟩
  · rcases f with - | (- | ⟨d, ds⟩)
    · exact (hn.1 rfl).elim
    · exact (hn.1 rfl).elim
    · refine ⟨CodePoint.ofChar '.', _, rfl, ?_, by decide, by decide, by decide, by decide,
        by decide⟩
      simp [startsNumber, Text.ofDigits, CodePoint.isDigit_codePoint]
  · refine ⟨d.codePoint, _, rfl, by simp [startsNumber, CodePoint.isDigit_codePoint], ?_⟩
    clear hn
    revert d
    decide

/-! ## Strings -/

theorem hexValue?_ofHexDigit (n : Nat) : (CodePoint.ofHexDigit n).hexValue? = some (n % 16) := by
  have h : ∀ m : Fin 16, (CodePoint.ofHexDigit m).hexValue? = some m.val := by decide
  have hn := h ⟨n % 16, Nat.mod_lt _ (by decide)⟩
  rwa [show CodePoint.ofHexDigit (n % 16) = CodePoint.ofHexDigit n by
    simp [CodePoint.ofHexDigit]] at hn

/-- The `u` escape of a control is read back. -/
theorem unicodeEscape_ofHexDigit {c : CodePoint} (hc : c.val < 32) (rest : Text) :
    unicodeEscape (CodePoint.ofHexDigit (c.val / 4096) :: CodePoint.ofHexDigit (c.val / 256) ::
      CodePoint.ofHexDigit (c.val / 16) :: CodePoint.ofHexDigit c.val :: rest) = .ok (c, 4) := by
  have hfour : ((c.val / 4096 % 16 * 16 + c.val / 256 % 16) * 16 + c.val / 16 % 16) * 16 +
      c.val % 16 = c.val := by omega
  have hhigh : isHighSurrogate c.val = false := by
    simp only [isHighSurrogate, Bool.and_eq_false_iff, decide_eq_false_iff_not]
    omega
  simp only [unicodeEscape, hexFour?, hexValue?_ofHexDigit, Option.bind_eq_bind,
    Option.bind_some, Option.pure_def, hfour, hhigh, c.ofNat_val, Bool.false_eq_true, if_false]

/-- The code point that an escape stands for is read from it. -/
theorem stringBody_escape {offset n : Nat} (escaped : Text) {rest : Text} {c : CodePoint}
    (h : escape (escaped ++ rest) = .ok (c, n)) (hn : n = escaped.length) :
    stringBody offset (CodePoint.backslash :: (escaped ++ rest)) =
      (stringBody (offset + 1 + n) rest).map fun (v, m) => (c :: v, m + 1 + n) := by
  subst hn
  rw [stringBody, if_neg (by decide), if_pos rfl, h]
  simp only [List.drop_left]
  cases stringBody (offset + 1 + escaped.length) rest <;> rfl

/-- A code point is read back from its place in a literal. -/
theorem stringBody_inLiteral (c : CodePoint) (offset : Nat) (rest : Text) :
    stringBody offset (c.inLiteral ++ rest) =
      (stringBody (offset + c.inLiteral.length) rest).map
        fun (v, m) => (c :: v, m + c.inLiteral.length) := by
  have short : ∀ d : CodePoint, shortEscape? d = some c → c.inLiteral = [CodePoint.backslash, d] →
      stringBody offset (c.inLiteral ++ rest) =
        (stringBody (offset + c.inLiteral.length) rest).map
          fun (v, m) => (c :: v, m + c.inLiteral.length) := by
    intro d hd hc
    rw [hc]
    exact stringBody_escape [d] (by simp [escape, hd]) rfl
  by_cases hq : c = CodePoint.quote ∨ c = CodePoint.backslash
  · refine short c ?_ (by rw [CodePoint.inLiteral, if_pos hq])
    rcases hq with rfl | rfl <;> decide
  by_cases h10 : c = CodePoint.ofNat 10
  · subst h10
    exact short (CodePoint.ofChar 'n') (by decide) (by decide)
  by_cases h13 : c = CodePoint.ofNat 13
  · subst h13
    exact short (CodePoint.ofChar 'r') (by decide) (by decide)
  by_cases h9 : c = CodePoint.ofNat 9
  · subst h9
    exact short (CodePoint.ofChar 't') (by decide) (by decide)
  by_cases h12 : c = CodePoint.ofNat 12
  · subst h12
    exact short (CodePoint.ofChar 'f') (by decide) (by decide)
  by_cases h8 : c = CodePoint.ofNat 8
  · subst h8
    exact short (CodePoint.ofChar 'b') (by decide) (by decide)
  by_cases hcontrol : c.val < 32
  · have hc : c.inLiteral = CodePoint.unicodeEscape c.val := by
      simp only [CodePoint.inLiteral, if_neg hq, if_neg h10, if_neg h13, if_neg h9, if_neg h12,
        if_neg h8, if_pos hcontrol]
    have hescape := unicodeEscape_ofHexDigit hcontrol rest
    rw [hc]
    refine stringBody_escape [CodePoint.ofChar 'u', CodePoint.ofHexDigit (c.val / 4096),
      CodePoint.ofHexDigit (c.val / 256), CodePoint.ofHexDigit (c.val / 16),
      CodePoint.ofHexDigit c.val] (n := 5) ?_ rfl
    simp only [List.cons_append, List.nil_append, escape]
    rw [show shortEscape? (CodePoint.ofChar 'u') = none by decide]
    simp only [if_pos, hescape]
  · have hc : c.inLiteral = [c] := by
      simp only [CodePoint.inLiteral, if_neg hq, if_neg h10, if_neg h13, if_neg h9, if_neg h12,
        if_neg h8, if_neg hcontrol]
    have hbreak : ¬(c = CodePoint.ofChar '\n' ∨ c = CodePoint.ofChar '\r') := by
      rintro (rfl | rfl)
      · exact h10 (by decide)
      · exact h13 (by decide)
    rw [hc, List.singleton_append, stringBody, if_neg fun h => hq (.inl h),
      if_neg fun h => hq (.inr h), if_neg hbreak]
    simp only [List.length_singleton]
    cases stringBody (offset + 1) rest <;> rfl

/-- A literal is read up to its closing quotation mark. -/
theorem stringBody_literal (rest : Text) : ∀ (v : Text) (offset : Nat),
    stringBody offset (v.flatMap CodePoint.inLiteral ++ CodePoint.quote :: rest) =
      .ok (v, (v.flatMap CodePoint.inLiteral).length + 1)
  | [], offset => by
    rw [List.flatMap_nil, List.nil_append, stringBody, if_pos rfl]
    rfl
  | c :: v, offset => by
    rw [List.flatMap_cons, List.append_assoc, stringBody_inLiteral, stringBody_literal rest v]
    simp only [Except.map, List.length_append, Except.ok.injEq, Prod.mk.injEq, true_and]
    omega

/-! ## Lexemes -/

/-- The first of several tests that holds is this one or one of the others. -/
theorem of_ite_eq_some {α : Type} {p : Prop} [Decidable p] {a b : α} {x : Option α}
    (h : (if p then some a else x) = some b) : (p ∧ a = b) ∨ x = some b := by
  by_cases hp : p
  · rw [if_pos hp] at h
    exact .inl ⟨hp, Option.some.inj h⟩
  · rw [if_neg hp] at h
    exact .inr h

/-- A mark is no part of a word. -/
theorem continuesWord_of_mark {c : CodePoint} {l : Lexeme} (h : mark? c = some l) :
    c.continuesWord = false := by
  unfold mark? at h
  repeat' rcases of_ite_eq_some h with ⟨rfl, rfl⟩ | h
  all_goals first | decide | cases h

theorem scan_mark (rest : Text) {l : Lexeme} {c : CodePoint} (hc : c ≠ CodePoint.ofChar ':')
    (h : mark? c = some l) : scan c rest = .ok (l, 1) := by
  rw [scan, if_neg hc, h]

/-- A name is taken to the end of the word. -/
theorem takeWhile_name {tail rest : Text} (ht : ∀ d ∈ tail, d.continuesName = true)
    (hr : rest.EndsWord) : (tail ++ rest).takeWhile CodePoint.continuesName = tail := by
  rw [List.takeWhile_append_of_pos ht]
  cases rest with
  | nil => simp
  | cons c rest =>
    have hc : c.continuesName = false := by
      simp [CodePoint.continuesName, hr.startsName c rfl, hr.isDigit c rfl]
    simp [hc]

/-- What starts as a name is scanned as a word. -/
theorem scan_word {c : CodePoint} (hc : c.startsName = true) (rest : Text) :
    scan c rest = .ok (word (c :: rest.takeWhile CodePoint.continuesName),
      (c :: rest.takeWhile CodePoint.continuesName).length) := by
  have hne : ∀ d : CodePoint, d.startsName = false → c ≠ d := fun d =>
    CodePoint.ne_of_startsName hc
  have hmark : mark? c = none := by
    cases hm : mark? c with
    | none => rfl
    | some l =>
      rw [CodePoint.startsName_of_continuesWord (continuesWord_of_mark hm)] at hc
      cases hc
  have hdigit : c.isDigit = false := by
    by_contra h
    rw [Bool.not_eq_false, ← CodePoint.isSome_ofCodePoint?] at h
    obtain ⟨d, hd⟩ := Option.isSome_iff_exists.1 h
    rw [← Digit.codePoint_of_ofCodePoint? hd, CodePoint.startsName_codePoint] at hc
    cases hc
  have hnumber : startsNumber c rest = false := by
    simp [startsNumber, hdigit, hne _ (by decide : (CodePoint.ofChar '.').startsName = false)]
  simp only [scan, if_neg (hne (CodePoint.ofChar ':') (by decide)), hmark,
    if_neg (hne CodePoint.quote (by decide)), hnumber, Bool.false_eq_true, if_false, hc, if_true]

theorem scan_name {c : CodePoint} {tail rest : Text} (hn : Text.IsName (c :: tail))
    (hr : rest.EndsWord) :
    scan c (tail ++ rest) = .ok (word (c :: tail), tail.length + 1) := by
  rw [scan_word hn.1, takeWhile_name hn.2 hr, List.length_cons]

/-- A number is read back if what is behind it neither continues it nor runs on. -/
theorem scan_number {n : Numeral} (hn : n.WellFormed) {rest : Text} (hr : n.EndsBefore rest)
    (hrest : ∀ c ∈ rest.head?, continuesNumber c = false) :
    ∃ c tail, n.text = c :: tail ∧ c.isGap = false ∧
      scan c (tail ++ rest) = .ok (.number n, tail.length + 1) := by
  obtain ⟨c, tail, htext, hstart, hname, hgap, hcolon, hmark, hquote⟩ := startsNumber_text hn rest
  have hnumber := number_text hn hr hrest
  rw [htext, List.cons_append] at hnumber
  refine ⟨c, tail, htext, hgap, ?_⟩
  rw [scan, if_neg hcolon, hmark]
  simp only [if_neg hquote, hstart, if_true, hnumber, List.length_cons]

/-- A written lexeme is scanned back if the word that it is ends. -/
theorem scan_written {l : Lexeme} (hl : l.WellFormed) (rest : Text)
    (hr : l.IsWord → rest.EndsWord) :
    ∃ c tail, l.written = c :: tail ∧ c.isGap = false ∧ (¬l.IsWord → c.continuesWord = false) ∧
      scan c (tail ++ rest) = .ok (l, tail.length + 1) := by
  cases l with
  | number n =>
    have hend : rest.EndsWord := hr trivial
    obtain ⟨c, tail, htext, hgap, hscan⟩ :=
      scan_number hl (hend.endsBefore n) (continuesNumber_of_endsWord hend)
    exact ⟨c, tail, htext, hgap, fun h => (h trivial).elim, hscan⟩
  | string v =>
    refine ⟨CodePoint.quote, v.flatMap CodePoint.inLiteral ++ [CodePoint.quote], rfl, by decide,
      fun _ => by decide, ?_⟩
    have hbody := stringBody_literal rest v 1
    rw [scan, if_neg (by decide), show mark? CodePoint.quote = none by decide]
    simp only [if_true, List.append_assoc, List.singleton_append, hbody, List.length_append,
      List.length_singleton]
  | name n =>
    rcases n with - | ⟨c, tail⟩
    · exact hl.1.elim
    · refine ⟨c, tail, rfl, ?_, fun h => (h trivial).elim, ?_⟩
      · exact CodePoint.isGap_of_startsName hl.1.1
      · rw [scan_name hl.1 (hr trivial), word, if_neg hl.2]
  | result =>
    have hname : Text.IsName Lexeme.resultWord := by
      constructor
      · decide
      · decide
    exact ⟨_, _, rfl, by decide, fun h => (h trivial).elim, scan_name hname (hr trivial)⟩
  | operator op =>
    refine ⟨op.codePoint, [], rfl, ?_⟩
    cases op <;> exact ⟨by decide, fun _ => by decide, scan_mark _ (by decide) (by decide)⟩
  | define => exact ⟨_, _, rfl, by decide, fun _ => by decide, rfl⟩
  | equals | left | right | comma =>
    exact ⟨_, [], rfl, by decide, fun _ => by decide, scan_mark _ (by decide) (by decide)⟩

/-! ## What is scanned -/

theorem digits_ne_nil {c : CodePoint} (hc : c.isDigit = true) (rest : Text) :
    (digits (c :: rest)).1 ≠ [] := by
  obtain ⟨d, hd⟩ := Option.isSome_iff_exists.1 ((CodePoint.isSome_ofCodePoint? c).trans hc)
  rw [digits, hd]
  exact List.cons_ne_nil _ _

theorem power_digits {t after : Text} {p : Power} (h : power t = .ok (some p, after)) :
    p.digits ≠ [] := by
  unfold power at h
  split at h
  · cases h
  split at h
  · simp only at h
    split at h
    · cases h
    · obtain ⟨hp, -⟩ := Prod.mk.inj (Except.ok.inj h)
      obtain rfl := Option.some.inj hp
      exact List.cons_ne_nil _ _
  · cases h

/-- What starts as a number has a digit in front of the point or behind it. -/
theorem digits_of_startsNumber {c : CodePoint} {rest : Text} (h : startsNumber c rest = true) :
    (digits (c :: rest)).1 ++ (fraction (digits (c :: rest)).2).1.getD [] ≠ [] := by
  intro hnil
  obtain ⟨hwhole, hplaces⟩ := List.append_eq_nil_iff.1 hnil
  rcases Bool.or_eq_true_iff.1 h with hc | hpoint
  · exact digits_ne_nil hc rest hwhole
  · obtain ⟨hc, hrest⟩ := Bool.and_eq_true_iff.1 hpoint
    obtain rfl := beq_iff_eq.1 hc
    cases rest with
    | nil => cases hrest
    | cons d rest => exact digits_ne_nil hrest rest hplaces

/-- What starts as a number and is scanned as a numeral has digits, and so has its power. -/
theorem numeral_wellFormed {c : CodePoint} {rest after : Text} {m : Numeral}
    (hstart : startsNumber c rest = true) (h : numeral (c :: rest) = .ok (m, after)) :
    m.WellFormed := by
  unfold numeral at h
  simp only at h
  split at h
  · cases h
  rename_i p tail hp
  obtain ⟨rfl, rfl⟩ := Prod.mk.inj (Except.ok.inj h)
  refine ⟨digits_of_startsNumber hstart, fun q hq => ?_⟩
  obtain rfl : p = some q := hq
  exact power_digits hp

/-- A number is scanned as its numeral. -/
theorem exists_numeral_of_number {t : Text} {l : Lexeme} {n : Nat} (h : number t = .ok (l, n)) :
    ∃ m after, numeral t = .ok (m, after) ∧ l = .number m ∧ n = m.text.length ∧
      ∀ d ∈ after.head?, continuesNumber d = false := by
  unfold number at h
  split at h
  · cases h
  · rename_i m hm
    obtain ⟨rfl, rfl⟩ := Prod.mk.inj (Except.ok.inj h)
    exact ⟨m, [], hm, rfl, rfl, fun d hd => nomatch hd⟩
  · rename_i m d after hm
    split at h
    · cases h
    rename_i hd
    obtain ⟨rfl, rfl⟩ := Prod.mk.inj (Except.ok.inj h)
    exact ⟨m, d :: after, hm, rfl, rfl, fun e he => Option.some.inj he ▸ Bool.not_eq_true _ ▸ hd⟩

/-- A lexeme at the start of a text, with its length. -/
inductive Scanned (c : CodePoint) (rest : Text) : Lexeme → Nat → Prop
  | define (hc : c = CodePoint.ofChar ':') {tail : Text}
      (hrest : rest = CodePoint.ofChar '=' :: tail) : Scanned c rest .define 2
  | mark {l : Lexeme} (h : mark? c = some l) : Scanned c rest l 1
  | string (hc : c = CodePoint.quote) {v : Text} {n : Nat} (h : stringBody 1 rest = .ok (v, n)) :
      Scanned c rest (.string v) (n + 1)
  | number {m : Numeral} {after : Text} (hm : m.WellFormed)
      (h : numeral (c :: rest) = .ok (m, after))
      (hafter : ∀ d ∈ after.head?, continuesNumber d = false) :
      Scanned c rest (.number m) m.text.length
  | word (hc : c.startsName = true) : Scanned c rest
      (word (c :: rest.takeWhile CodePoint.continuesName))
      (c :: rest.takeWhile CodePoint.continuesName).length

theorem scanned_of_scan {c : CodePoint} {rest : Text} {l : Lexeme} {n : Nat}
    (h : scan c rest = .ok (l, n)) : Scanned c rest l n := by
  unfold scan at h
  split at h
  · rename_i hc
    split at h
    · rename_i hr
      obtain ⟨tail, hrest⟩ := List.head?_eq_some_iff.1 hr
      obtain ⟨rfl, rfl⟩ := Prod.mk.inj (Except.ok.inj h)
      exact .define hc hrest
    · cases h
  split at h
  · rename_i m hm
    obtain ⟨rfl, rfl⟩ := Prod.mk.inj (Except.ok.inj h)
    exact .mark hm
  split at h
  · rename_i hc
    split at h
    · cases h
    · rename_i hbody
      obtain ⟨rfl, rfl⟩ := Prod.mk.inj (Except.ok.inj h)
      exact .string hc hbody
  split at h
  · rename_i hstart
    obtain ⟨m, after, hm, rfl, rfl, hafter⟩ := exists_numeral_of_number h
    exact .number (numeral_wellFormed hstart hm) hm hafter
  split at h
  · rename_i hc
    obtain ⟨rfl, rfl⟩ := Prod.mk.inj (Except.ok.inj h)
    exact .word hc
  · cases h

/-- A scanned lexeme is well-formed. -/
theorem scan_wellFormed {c : CodePoint} {rest : Text} {l : Lexeme} {n : Nat}
    (h : scan c rest = .ok (l, n)) : l.WellFormed := by
  cases scanned_of_scan h with
  | define | string => trivial
  | mark hmark =>
    unfold mark? at hmark
    repeat' rcases of_ite_eq_some hmark with ⟨-, rfl⟩ | hmark
    all_goals trivial
  | number hm => exact hm
  | word hc =>
    unfold word
    split
    · trivial
    · rename_i hword
      exact ⟨⟨hc, List.all_eq_true.1 List.all_takeWhile⟩, hword⟩

/-! ## What is refused -/

/-- A fault of the lexeme at the start of a text, with its distance. -/
inductive Refused (c : CodePoint) (rest : Text) : LexicalFault → Nat → Prop
  | colon (hc : c = CodePoint.ofChar ':') (hrest : rest.head? ≠ some (CodePoint.ofChar '=')) :
      Refused c rest .loneColon 0
  | string (hc : c = CodePoint.quote) {f : LexicalFault} {o : Nat}
      (h : stringBody 1 rest = .error (f, o)) : Refused c rest f o
  | exponent (hstart : startsNumber c rest = true) {f : LexicalFault}
      (h : numeral (c :: rest) = .error f) : Refused c rest f 0
  | runOn (hstart : startsNumber c rest = true) {m : Numeral} {d : CodePoint} {after : Text}
      (h : numeral (c :: rest) = .ok (m, d :: after)) (hd : continuesNumber d = true) :
      Refused c rest (.runOnNumber d) m.text.length
  | stray (hc : c ≠ CodePoint.ofChar ':') (hmark : mark? c = none) (hquote : c ≠ CodePoint.quote)
      (hstart : startsNumber c rest = false) (hname : c.startsName = false) :
      Refused c rest (.strayCodePoint c) 0

theorem refused_of_scan {c : CodePoint} {rest : Text} {f : LexicalFault} {o : Nat}
    (h : scan c rest = .error (f, o)) : Refused c rest f o := by
  unfold scan at h
  split at h
  · rename_i hc
    split at h
    · cases h
    · rename_i hrest
      obtain ⟨rfl, rfl⟩ := Prod.mk.inj (Except.error.inj h)
      exact .colon hc hrest
  rename_i hc
  split at h
  · cases h
  rename_i hmark
  split at h
  · rename_i hquote
    split at h
    · rename_i g hbody
      obtain rfl := Except.error.inj h
      exact .string hquote hbody
    · cases h
  rename_i hquote
  split at h
  · rename_i hstart
    unfold number at h
    split at h
    · rename_i g hg
      obtain ⟨rfl, rfl⟩ := Prod.mk.inj (Except.error.inj h)
      exact .exponent hstart hg
    · cases h
    · rename_i m d after hm
      split at h
      · rename_i hd
        obtain ⟨rfl, rfl⟩ := Prod.mk.inj (Except.error.inj h)
        exact .runOn hstart hm hd
      · cases h
  rename_i hstart
  split at h
  · cases h
  · rename_i hname
    obtain ⟨rfl, rfl⟩ := Prod.mk.inj (Except.error.inj h)
    exact .stray hc hmark hquote (Bool.not_eq_true _ ▸ hstart) (Bool.not_eq_true _ ▸ hname)

/-! ## Tokens -/

/-- The first token of a text that starts with no gap is the lexeme at its start, and the others are
those of what comes behind it. -/
theorem cons_of_tokensFrom {limits : Limits} {c : CodePoint} {rest : Text} {p : Nat}
    {ts : List Token} (hgap : c.isGap = false) (h : tokensFrom limits p (c :: rest) = .ok ts) :
    ∃ l n more, scan c rest = .ok (l, n) ∧ ts = ⟨l, p⟩ :: more ∧
      tokensFrom limits (p + n) (rest.drop (n - 1)) = .ok more := by
  rw [tokensFrom, if_neg (by simp [hgap])] at h
  split at h
  · cases h
  rename_i l n hscan
  split at h
  · cases h
  split at h
  · cases h
  rename_i more hmore
  exact ⟨l, n, more, hscan, (Except.ok.inj h).symm, hmore⟩

/-- No token is a string that is too long. -/
theorem checkString_of_tokensFrom {limits : Limits} : ∀ (t : Text) {p : Nat} {ts : List Token},
    tokensFrom limits p t = .ok ts → ∀ u ∈ ts, checkString limits u.lexeme = .ok ()
  | [], p, ts, h, u, hu => by
    rw [tokensFrom] at h
    obtain rfl := Except.ok.inj h
    cases hu
  | c :: rest, p, ts, h, u, hu => by
    rw [tokensFrom] at h
    split at h
    · exact checkString_of_tokensFrom rest h u hu
    split at h
    · cases h
    rename_i n hscan
    split at h
    · cases h
    rename_i hcheck
    split at h
    · cases h
    rename_i more hmore
    obtain rfl := Except.ok.inj h
    rcases List.mem_cons.1 hu with rfl | hu
    · exact hcheck
    · exact checkString_of_tokensFrom (rest.drop (n - 1)) hmore u hu
termination_by t => t.length
decreasing_by all_goals (simp only [List.length_cons, List.length_drop]; omega)

/-- The tokens of a statement are those of its text from the start on. -/
theorem tokensFrom_of_tokens {limits : Limits} {source : Text} {ts : List Token}
    (h : tokens limits source = .ok ts) : tokensFrom limits 0 source = .ok ts := by
  unfold tokens at h
  split at h
  · cases h
  · exact h

theorem length_le_of_tokens {limits : Limits} {source : Text} {ts : List Token}
    (h : tokens limits source = .ok ts) : (source.length : Int) ≤ limits.expressionLength := by
  unfold tokens at h
  split at h
  · cases h
  · rename_i hcheck
    exact (limits.check_eq_ok_iff .expressionLength _).1 hcheck

end Scan

end Reckon
