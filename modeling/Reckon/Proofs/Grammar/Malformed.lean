import Reckon.Proofs.Grammar.Misspelling
import Reckon.Proofs.Grammar.Tiling

/-!
# Malformed lexemes

A statement that is not scanned has a malformed lexeme, and everything in front of it has its tokens
on its own (`Scan.exists_of_tokensFrom_error`) : a lexeme is read alike from a text that ends
somewhere behind it (`Scan.scan_cut`).

The reported place is in the malformed lexeme, or at it (`LexicalFault.PointsAt`,
`tokens_malformed`) : a code point that starts no lexeme, the quotation mark of a string that is not
closed, the backslash of an escape that is none, the start of a number whose power has no digits, or
what stands directly behind a number. Of two `u` escapes in a row that could be a surrogate pair, the first is
reported for the digits that the second lacks.
-/

namespace Reckon

/-! ## What is reported -/

/-- No lexeme is written at the start of the text. -/
def Text.StartsNoLexeme (t : Text) : Prop :=
  t.head? ≠ some CodePoint.quote ∧ ∀ l : Lexeme, l.WellFormed → ¬ l.written <+: t

/-- The text starts with the letter of a power of ten, with a sign or none, and has no digit
behind. -/
def Text.StartsBarePower (t : Text) : Prop :=
  ∃ (letter : CodePoint) (s : Option Sign) (tail : Text),
    (letter = CodePoint.ofChar 'e' ∨ letter = CodePoint.ofChar 'E') ∧
    t = letter :: (Sign.optionText s ++ tail) ∧ (∀ c ∈ tail.head?, c.isDigit = false) ∧
    (s = none → ∀ c ∈ tail.head?, Sign.ofCodePoint? c = none)

namespace LexicalFault

/-- A string starts at `start`, and in front of `tail` it breaks off with the fault. -/
def BreaksOffIn (source : Text) (start : Nat) (tail : Text) (f : LexicalFault) : Prop :=
  ∃ v s, Text.Spells v s ∧ source.drop start = CodePoint.quote :: (s ++ tail) ∧ f.BreaksOff tail

/-- The place `p` of the fault, where a malformed lexeme starts at `start`. -/
def PointsAt (source : Text) (start p : Nat) : LexicalFault → Prop
  | .loneColon => p = start ∧ source[p]? = some (CodePoint.ofChar ':') ∧
      source[p + 1]? ≠ some (CodePoint.ofChar '=') ∧ Text.StartsNoLexeme (source.drop p)
  | .strayCodePoint c => p = start ∧ source[p]? = some c ∧ c.isGap = false ∧
      c ≠ CodePoint.ofChar ':' ∧
      (c = CodePoint.ofChar '.' → ∀ d ∈ source[p + 1]?, d.isDigit = false) ∧
      Text.StartsNoLexeme (source.drop p)
  | .openString => p = start ∧ ∃ tail, BreaksOffIn source start tail .openString
  | .lineBreak => p = start ∧ ∃ tail, BreaksOffIn source start tail .lineBreak
  | .unknownEscape c => BreaksOffIn source start (source.drop p) (.unknownEscape c)
  | .shortUnicodeEscape => BreaksOffIn source start (source.drop p) .shortUnicodeEscape
  | .missingExponent => p = start ∧ ∃ (m : Numeral) (tail : Text), m.WellFormed ∧
      m.power = none ∧ source.drop p = m.text ++ tail ∧ tail.StartsBarePower
  | .runOnNumber c => ∃ m : Numeral, m.WellFormed ∧ source.drop start = m.text ++ source.drop p ∧
      source[p]? = some c ∧ (c.startsName = true ∨ c = CodePoint.ofChar '.') ∧
      ∀ m' : Numeral, m'.WellFormed → ¬ m.text ++ [c] <+: m'.text
  | .described _ => False

end LexicalFault

namespace Scan

variable {t rest : Text} {c : CodePoint} {f : LexicalFault} {l : Lexeme} {n o : Nat}

/-! ## Numbers that are not read -/

theorem isDigit_of_ofCodePoint? (h : Digit.ofCodePoint? c = none) : c.isDigit = false := by
  rw [← CodePoint.isSome_ofCodePoint?, h]
  rfl

theorem forall_mem_head?_nil {P : CodePoint → Prop} : ∀ d ∈ ([] : Text).head?, P d := by simp

theorem digits_rest : ∀ {t : Text}, ∀ d ∈ (digits t).2.head?, d.isDigit = false
  | [], _, hd => nomatch hd
  | c :: t, d, hd => by
    rw [digits] at hd
    split at hd
    · exact digits_rest d hd
    · rename_i hnone
      obtain rfl := Option.some.inj hd
      exact isDigit_of_ofCodePoint? hnone

theorem fraction_rest (ht : ∀ d ∈ t.head?, d.isDigit = false) :
    (∀ d ∈ (fraction t).2.head?, d.isDigit = false) ∧
      ((fraction t).1 = none → ∀ d ∈ (fraction t).2.head?, d ≠ CodePoint.ofChar '.') := by
  unfold fraction
  split
  · exact ⟨forall_mem_head?_nil, fun _ => forall_mem_head?_nil⟩
  split
  · exact ⟨digits_rest, fun h => (Option.some_ne_none _ h).elim⟩
  · rename_i hpoint
    exact ⟨ht, fun _ d hd => Option.some.inj hd ▸ hpoint⟩

theorem power_rest {p : Option Power} (h : power t = .ok (p, rest))
    (ht : ∀ d ∈ t.head?, d.isDigit = false) : (∀ d ∈ rest.head?, d.isDigit = false) ∧
      (p = none → rest = t ∧
        ∀ d ∈ rest.head?, d ≠ CodePoint.ofChar 'e' ∧ d ≠ CodePoint.ofChar 'E') := by
  unfold power at h
  split at h
  · obtain ⟨rfl, rfl⟩ := Prod.mk.inj (Except.ok.inj h)
    exact ⟨forall_mem_head?_nil, fun _ => ⟨rfl, forall_mem_head?_nil⟩⟩
  rename_i c t
  split at h
  · simp only at h
    split at h
    · cases h
    rename_i d ds after hds
    obtain ⟨rfl, rfl⟩ := Prod.mk.inj (Except.ok.inj h)
    have hrest := @digits_rest (sign t).2
    rw [hds] at hrest
    exact ⟨hrest, fun h => (Option.some_ne_none _ h).elim⟩
  · rename_i hletter
    obtain ⟨rfl, rfl⟩ := Prod.mk.inj (Except.ok.inj h)
    exact ⟨ht, fun _ => ⟨rfl, fun d hd => Option.some.inj hd ▸ not_or.1 hletter⟩⟩

/-- What is behind a numeral that is read does not continue it. -/
theorem endsBefore_of_numeral {m : Numeral} (h : numeral t = .ok (m, rest)) :
    m.EndsBefore rest := by
  unfold numeral at h
  simp only at h
  split at h
  · cases h
  rename_i p after hp
  obtain ⟨rfl, rfl⟩ := Prod.mk.inj (Except.ok.inj h)
  obtain ⟨hdigit, hpoint⟩ := fraction_rest (@digits_rest t)
  obtain ⟨hrest, hnone⟩ := power_rest hp hdigit
  refine ⟨hrest, fun hp => (hnone hp).2, fun hp hf => ?_⟩
  rw [(hnone hp).1]
  exact hpoint hf

theorem sign_rest (h : (sign t).1 = none) :
    ∀ d ∈ (sign t).2.head?, Sign.ofCodePoint? d = none := by
  unfold sign at h ⊢
  split at h
  · exact forall_mem_head?_nil
  split at h
  · cases h
  · rename_i hnone
    exact fun d hd => Option.some.inj hd ▸ hnone

theorem digits_eq_nil (h : (digits t).1 = []) : (digits t).2 = t := by
  have ht : t = Text.ofDigits (digits t).1 ++ (digits t).2 := Place.digits_eq rfl
  rw [h] at ht
  exact ht.symm

theorem startsBarePower_of_error (h : power t = .error f) :
    f = .missingExponent ∧ Text.StartsBarePower t := by
  unfold power at h
  split at h
  · cases h
  split at h
  · rename_i letter rest hletter
    simp only at h
    split at h
    · rename_i hdigits
      obtain rfl := Except.error.inj h
      have htail : (digits (sign rest).2).2 = (sign rest).2 := digits_eq_nil (by rw [hdigits])
      have hdigit := @digits_rest (sign rest).2
      rw [htail] at hdigit
      have hsign : rest = Sign.optionText (sign rest).1 ++ (sign rest).2 := Place.sign_eq rfl
      exact ⟨rfl, letter, (sign rest).1, (sign rest).2, hletter, congrArg _ hsign, hdigit,
        sign_rest⟩
    · cases h
  · cases h

/-- A number is not read if the digits of its power are missing. -/
theorem exists_of_numeral_error (hstart : startsNumber c rest = true)
    (h : numeral (c :: rest) = .error f) : f = .missingExponent ∧
      ∃ (m : Numeral) (tail : Text), m.WellFormed ∧ m.power = none ∧
        c :: rest = m.text ++ tail ∧ tail.StartsBarePower := by
  unfold numeral at h
  simp only at h
  split at h
  · rename_i g hg
    obtain rfl := Except.error.inj h
    obtain ⟨rfl, hbare⟩ := startsBarePower_of_error hg
    have hnone : ∀ q, (none : Option Power) = some q → q.digits ≠ [] := fun _ hq =>
      (Option.some_ne_none _ hq.symm).elim
    refine ⟨rfl, ⟨_, _, none⟩, _, ⟨digits_of_startsNumber hstart, hnone⟩, rfl, ?_, hbare⟩
    have hwhole : c :: rest = Text.ofDigits (digits (c :: rest)).1 ++ (digits (c :: rest)).2 :=
      Place.digits_eq rfl
    have hplaces : (digits (c :: rest)).2 =
        Numeral.fractionText (fraction (digits (c :: rest)).2).1 ++
          (fraction (digits (c :: rest)).2).2 := Place.fraction_eq rfl
    rw [Numeral.text, Option.map_none, Option.getD_none, List.append_nil, List.append_assoc,
      ← hplaces, ← hwhole]
  · cases h

/-- Nothing that starts with a numeral and what cannot continue it is a numeral. -/
theorem not_prefix_text {m m' : Numeral} (hm : m.WellFormed) (hm' : m'.WellFormed)
    (hrest : m.EndsBefore (c :: rest)) : ¬ m.text ++ [c] <+: m'.text := by
  rintro ⟨w, hw⟩
  rw [List.append_assoc, List.singleton_append] at hw
  have hwhole : numeral (m'.text ++ []) = .ok (m', []) :=
    numeral_text hm' forall_mem_head?_nil
  have hstart : numeral (m.text ++ c :: w) = .ok (m, c :: w) :=
    numeral_append hm ⟨hrest.digit, hrest.letter, hrest.point⟩
  rw [List.append_nil, ← hw, hstart] at hwhole
  cases hwhole

/-! ## Lexemes that are not read -/

/-- How a text starts that starts with a lexeme. -/
theorem starts_of_written (hl : l.WellFormed) (h : l.written <+: c :: rest) :
    (c = CodePoint.ofChar ':' ∧ rest.head? = some (CodePoint.ofChar '=')) ∨ mark? c ≠ none ∨
      c = CodePoint.quote ∨ startsNumber c rest = true ∨ c.startsName = true := by
  obtain ⟨w, hw⟩ := h
  cases l with
  | number n =>
    obtain ⟨d, tail, htext, hstart, -⟩ := startsNumber_text hl w
    replace hw : n.text ++ w = c :: rest := hw
    rw [htext] at hw
    obtain ⟨rfl, rfl⟩ := List.cons.inj hw
    exact .inr (.inr (.inr (.inl hstart)))
  | string v =>
    obtain ⟨rfl, -⟩ := List.cons.inj hw
    exact .inr (.inr (.inl rfl))
  | name n =>
    rcases n with - | ⟨d, tail⟩
    · exact hl.1.elim
    · obtain ⟨rfl, -⟩ := List.cons.inj hw
      exact .inr (.inr (.inr (.inr hl.1.1)))
  | result =>
    obtain ⟨rfl, -⟩ := List.cons.inj hw
    exact .inr (.inr (.inr (.inr (by decide))))
  | operator op =>
    obtain ⟨rfl, -⟩ := List.cons.inj hw
    exact .inr (.inl (by cases op <;> decide))
  | define =>
    obtain ⟨rfl, rfl⟩ := List.cons.inj hw
    exact .inl ⟨rfl, rfl⟩
  | equals | left | right | comma =>
    obtain ⟨rfl, -⟩ := List.cons.inj hw
    exact .inr (.inl (by decide))

theorem startsNoLexeme (hcolon : c = CodePoint.ofChar ':' →
      rest.head? ≠ some (CodePoint.ofChar '=')) (hmark : mark? c = none)
    (hquote : c ≠ CodePoint.quote) (hnumber : startsNumber c rest = false)
    (hname : c.startsName = false) : Text.StartsNoLexeme (c :: rest) := by
  refine ⟨fun h => hquote (Option.some.inj h), fun l hl h => ?_⟩
  rcases starts_of_written hl h with ⟨h, hequals⟩ | h | h | h | h
  · exact hcolon h hequals
  · exact h hmark
  · exact hquote h
  · rw [hnumber] at h
    cases h
  · rw [hname] at h
    cases h

/-- A fault is reported where it is in the lexeme. -/
theorem pointsAt_of_scan {source : Text} {start : Nat} (hstart : source.drop start = c :: rest)
    (hgap : c.isGap = false) (h : scan c rest = .error (f, o)) :
    f.PointsAt source start (start + o) := by
  have hget : ∀ k, source[start + k]? = (c :: rest)[k]? := by
    intro k
    rw [← hstart, List.getElem?_drop]
  cases refused_of_scan h with
  | colon hc hrest =>
    subst hc
    refine ⟨rfl, hget 0, ?_, ?_⟩
    · rw [Nat.add_zero, hget 1, List.getElem?_cons_succ, ← List.head?_eq_getElem?]
      exact hrest
    · rw [Nat.add_zero, hstart]
      exact startsNoLexeme (fun _ => hrest) (by decide) (by decide) rfl (by decide)
  | string hc hbody =>
    subst hc
    obtain ⟨v, s, tail, hs, hrest, hbreaks, rfl⟩ := breaksOff_of_stringBody hbody
    rw [hrest] at hstart
    have htail : source.drop (start + (1 + s.length)) = tail := by
      rw [← List.drop_drop, hstart, Nat.add_comm 1, List.drop_succ_cons, List.drop_left]
    cases f with
    | openString => exact ⟨rfl, tail, v, s, hs, hstart, hbreaks⟩
    | lineBreak => exact ⟨rfl, tail, v, s, hs, hstart, hbreaks⟩
    | unknownEscape => exact ⟨v, s, hs, htail.symm ▸ hstart, htail.symm ▸ hbreaks⟩
    | shortUnicodeEscape => exact ⟨v, s, hs, htail.symm ▸ hstart, htail.symm ▸ hbreaks⟩
    | loneColon | strayCodePoint | missingExponent | runOnNumber | described => exact hbreaks.elim
  | exponent hnumber hnumeral =>
    obtain ⟨rfl, m, tail, hm, hpower, htext, hbare⟩ := exists_of_numeral_error hnumber hnumeral
    exact ⟨rfl, m, tail, hm, hpower, hstart.trans htext, hbare⟩
  | @runOn hnumber m d after hnumeral hd =>
    have hm := numeral_wellFormed hnumber hnumeral
    have htext := Place.numeral_eq hnumeral
    have hafter : source.drop (start + m.text.length) = d :: after := by
      rw [← List.drop_drop, hstart, htext, List.drop_left]
    refine ⟨m, hm, ?_, ?_, ?_, fun m' hm' => ?_⟩
    · rw [hafter, hstart, htext]
    · rw [← List.head?_drop, hafter]
      rfl
    · rcases Bool.or_eq_true_iff.1 hd with hname | hpoint
      · exact .inl hname
      · exact .inr (beq_iff_eq.1 hpoint)
    · exact not_prefix_text hm hm' (endsBefore_of_numeral hnumeral)
  | stray hc hmark hquote hnumber hname =>
    refine ⟨rfl, hget 0, hgap, hc, ?_, ?_⟩
    · rintro rfl d hd
      rw [Nat.add_zero, hget 1, List.getElem?_cons_succ, ← List.head?_eq_getElem?] at hd
      have hany : rest.head?.any CodePoint.isDigit = false := (Bool.or_eq_false_iff.1 hnumber).2
      rw [Option.mem_def.1 hd] at hany
      exact hany
    · rw [Nat.add_zero, hstart]
      exact startsNoLexeme (fun h => (hc h).elim) hmark hquote hnumber hname

/-! ## What is in front of them -/

theorem takeWhile_cut {P : CodePoint → Bool} {x y : Text}
    (h : ((x ++ y).takeWhile P).length ≤ x.length) : x.takeWhile P = (x ++ y).takeWhile P := by
  rw [List.takeWhile_append] at h ⊢
  split
  · rename_i hall
    rw [if_pos hall, List.length_append] at h
    have hnil : (y.takeWhile P).length = 0 := by omega
    rw [List.length_eq_zero_iff.1 hnil, List.append_nil]
    exact (List.takeWhile_prefix P).eq_of_length hall
  · rfl

/-- A lexeme is read alike from a text that ends somewhere behind it. -/
theorem scan_cut {x y : Text} (h : scan c (x ++ y) = .ok (l, n)) (hn : n ≤ (c :: x).length) :
    scan c x = .ok (l, n) := by
  cases scanned_of_scan h with
  | define hc hrest =>
    subst hc
    cases x with
    | nil => exact absurd hn (by simp)
    | cons d x =>
      obtain ⟨rfl, -⟩ := List.cons.inj hrest
      rfl
  | mark hmark =>
    refine scan_mark x ?_ hmark
    rintro rfl
    cases hmark
  | @string hc v k hbody =>
    subst hc
    have hk : k ≤ x.length := Nat.le_of_succ_le_succ hn
    have htake := stringBody_take hbody
    rw [List.take_append_of_le_length hk] at htake
    have hwhole := stringBody_append htake (x.drop k)
    rw [List.take_append_drop] at hwhole
    rw [scan_quote, hwhole]
    rfl
  | @number m after hm hnumeral hafter =>
    have htext : (c :: x) ++ y = m.text ++ after := Place.numeral_eq hnumeral
    have hends := endsBefore_of_numeral hnumeral
    obtain ⟨z, hz⟩ : m.text <+: c :: x :=
      List.prefix_of_prefix_length_le ⟨after, htext.symm⟩ (List.prefix_append _ y) hn
    rw [← hz, List.append_assoc] at htext
    obtain rfl := List.append_cancel_left htext
    obtain ⟨d, tail, hd, -, hscan⟩ := scan_number hm hends.of_append fun e he =>
      hafter e (List.mem_head?_append_of_mem_head? he)
    rw [hd, List.cons_append] at hz
    obtain ⟨rfl, rfl⟩ := List.cons.inj hz
    rw [hscan, hd, List.length_cons]
  | word hc => rw [scan_word hc, takeWhile_cut (Nat.le_of_succ_le_succ hn)]

/-- A text with a malformed lexeme has its tokens up to this lexeme. -/
theorem exists_of_tokensFrom_error {limits : Limits} : ∀ (t : Text) {p q : Nat} {f : LexicalFault},
    tokensFrom limits p t = .error (.fault (.lexical f) q) →
      ∃ u c rest o, t = u ++ c :: rest ∧ (∃ ts, tokensFrom limits p u = .ok ts) ∧
        c.isGap = false ∧ scan c rest = .error (f, o) ∧ q = p + u.length + o
  | [], _, _, _, h => by
    rw [tokensFrom] at h
    cases h
  | c :: rest, p, q, f, h => by
    rw [tokensFrom] at h
    split at h
    · rename_i hgap
      obtain ⟨u, d, more, o, rfl, ⟨ts, hts⟩, hd, herror, rfl⟩ := exists_of_tokensFrom_error rest h
      refine ⟨c :: u, d, more, o, rfl, ⟨ts, ?_⟩, hd, herror, ?_⟩
      · rwa [tokensFrom, if_pos hgap]
      · rw [List.length_cons]
        omega
    rename_i hgap
    split at h
    · rename_i g o herror
      obtain ⟨hf, rfl⟩ := Halt.fault.inj (Except.error.inj h)
      obtain rfl := Fault.lexical.inj hf
      exact ⟨[], c, rest, o, rfl, ⟨[], by rw [tokensFrom]⟩, Bool.not_eq_true _ ▸ hgap, herror, rfl⟩
    rename_i l n hscan
    split at h
    · cases h
    rename_i hcheck
    split at h
    · rename_i g hmore
      obtain rfl := Except.error.inj h
      obtain ⟨u, d, more, o, hrest, ⟨ts, hts⟩, hd, herror, rfl⟩ :=
        exists_of_tokensFrom_error (rest.drop (n - 1)) hmore
      have hn := (Place.run_scan (d := 0) hscan).1
      have hle := le_length_of_scan_self hscan
      rw [List.length_cons] at hle
      have htake : (rest.take (n - 1)).length = n - 1 := List.length_take_of_le (by omega)
      have hwhole : rest.take (n - 1) ++ u ++ d :: more = rest := by
        rw [List.append_assoc, ← hrest, List.take_append_drop]
      have hlength : (rest.take (n - 1) ++ u).length = n - 1 + u.length := by
        rw [List.length_append, htake]
      have hcut : scan c (rest.take (n - 1) ++ u) = .ok (l, n) := by
        refine scan_cut (y := d :: more) (hwhole.symm ▸ hscan) ?_
        rw [List.length_cons, hlength]
        omega
      have hdrop : (rest.take (n - 1) ++ u).drop (n - 1) = u := by
        rw [List.drop_append_of_le_length htake.ge, List.drop_eq_nil_of_le htake.le,
          List.nil_append]
      refine ⟨c :: (rest.take (n - 1) ++ u), d, more, o, ?_, ⟨⟨l, p⟩ :: ts, ?_⟩, hd, herror, ?_⟩
      · rw [List.cons_append, hwhole]
      · simp only [tokensFrom, hgap, Bool.false_eq_true, if_false, hcut, hcheck, hdrop, hts]
      · rw [List.length_cons, hlength]
        omega
    · cases h
termination_by t => t.length
decreasing_by all_goals (simp only [List.length_cons, List.length_drop]; omega)

end Scan

/-! ## Statements that are not scanned -/

/-- A statement that is not scanned has a malformed lexeme. What is in front of it has its tokens on
its own, and the fault is reported at its place in the lexeme. -/
theorem tokens_malformed {limits : Limits} {source : Text} {f : LexicalFault} {p : Nat}
    (h : tokens limits source = .error (.fault (.lexical f) p)) :
    ∃ start ≤ p, (∃ ts, tokens limits (source.take start) = .ok ts) ∧
      f.PointsAt source start p := by
  unfold tokens at h
  split at h
  · cases h
  rename_i hcheck
  obtain ⟨u, c, rest, o, rfl, ⟨ts, hts⟩, hgap, herror, rfl⟩ :=
    Scan.exists_of_tokensFrom_error source h
  rw [Nat.zero_add]
  refine ⟨u.length, Nat.le_add_right _ o, ⟨ts, ?_⟩, ?_⟩
  · have hlength := (limits.check_eq_ok_iff .expressionLength _).1 hcheck
    have hu : limits.check .expressionLength u.length = .ok () := by
      refine (limits.check_eq_ok_iff .expressionLength _).2 ?_
      rw [List.length_append] at hlength
      omega
    rw [List.take_left, tokens, hu]
    exact hts
  · exact Scan.pointsAt_of_scan List.drop_left hgap herror

/-- The second escape in a row has two digits; the first one is reported, in a string behind a name
and a sign. -/
theorem tokens_malformed_pair :
    let source : Text := "s + \x22\\ud83d\\u12\x22"
    tokens {} source = .error (.fault (.lexical .shortUnicodeEscape) 5) ∧
      ∃ start ≤ 5, (∃ ts, tokens {} (source.take start) = .ok ts) ∧
        LexicalFault.shortUnicodeEscape.PointsAt source start 5 := by
  intro source
  have h : tokens {} source = .error (.fault (.lexical .shortUnicodeEscape) 5) := by
    decide +kernel
  exact ⟨h, tokens_malformed h⟩

/-- It is not always the reported escape that lacks digits. -/
theorem not_startsHexFour_of_tokens : ¬ ∀ (limits : Limits) (source : Text) (p : Nat),
    tokens limits source = .error (.fault (.lexical .shortUnicodeEscape) p) →
      ∃ rest, source.drop p = CodePoint.backslash :: CodePoint.ofChar 'u' :: rest ∧
        ¬ Text.StartsHexFour rest := by
  intro h
  obtain ⟨rest, hrest, hshort⟩ := h {} "\x22\\ud83d\\u12\x22" 1 (by decide +kernel)
  obtain rfl : ("d83d\\u12\x22" : Text) = rest :=
    (List.cons.inj (List.cons.inj (show _ from hrest)).2).2
  exact hshort (by decide)

end Reckon
