import Reckon.Proofs.Source.Quoting

/-!
# Ends of strings and of tokens

A string that is closed has the same value whatever comes behind it (`Scan.stringBody_append`). So a
text is one string literal (`Text.IsLiteral`) on its own or as the start of more, and a text in
quotation marks is one if and only if its tokens are a single string
(`Text.tokens_eq_singleton_iff`).

A token ends where a text ends that leads to code and not into a word, if what comes behind it does
not start like the rest of a number or of an assignment mark (`Scan.le_length_of_scan`). The tokens
of the whole are then those of the text and those of what comes behind it
(`Scan.exists_tokensFrom_append`).
-/

namespace Reckon

/-! ## Strings and what comes behind them -/

namespace Scan

theorem hexFour?_append {t : Text} {k : Nat} (h : hexFour? t = some k) (x : Text) :
    4 ≤ t.length ∧ hexFour? (t ++ x) = some k := by
  unfold hexFour? at h
  split at h
  · exact ⟨by simp, h⟩
  · cases h

/-- Whether a further escape follows is seen in a text that may not stop at its backslash. -/
theorem furtherEscape?_append {t : Text} (hne : t ≠ []) (hb : t ≠ [CodePoint.backslash])
    (x : Text) : furtherEscape? (t ++ x) = (furtherEscape? t).map (· ++ x) := by
  rcases t with - | ⟨a, - | ⟨b, rest⟩⟩
  · exact (hne rfl).elim
  · have ha : a ≠ CodePoint.backslash := fun ha => hb (congrArg (fun c => [c]) ha)
    rcases x with - | ⟨b, rest⟩
    · rfl
    · exact if_neg fun h => ha h.1
  · unfold furtherEscape?
    simp only [List.cons_append]
    split <;> rfl

theorem unicodeEscape_append {t : Text} {c : CodePoint} {n : Nat}
    (h : unicodeEscape t = .ok (c, n)) (hne : t.drop n ≠ []) (hb : t.drop n ≠ [CodePoint.backslash])
    (x : Text) : unicodeEscape (t ++ x) = .ok (c, n) := by
  cases hhigh : hexFour? t with
  | none =>
    rw [unicodeEscape, hhigh] at h
    cases h
  | some high =>
    obtain ⟨hlength, hhigh'⟩ := hexFour?_append hhigh x
    simp only [unicodeEscape, hhigh, hhigh', List.drop_append_of_le_length hlength] at h ⊢
    by_cases hs : isHighSurrogate high = true
    · rw [if_pos hs] at h ⊢
      cases hfurther : furtherEscape? (t.drop 4) with
      | none =>
        rw [hfurther] at h
        obtain ⟨rfl, rfl⟩ := Prod.mk.inj (Except.ok.inj h)
        rw [furtherEscape?_append hne hb, hfurther]
        rfl
      | some rest =>
        have hne : ∀ u : Text, furtherEscape? u = none → t.drop 4 ≠ u := by
          rintro u hu rfl
          rw [hfurther] at hu
          cases hu
        rw [furtherEscape?_append (hne [] rfl) (hne [CodePoint.backslash] rfl), hfurther]
        simp only [hfurther, Option.map_some] at h ⊢
        cases hlow : hexFour? rest with
        | none =>
          rw [hlow] at h
          cases h
        | some low =>
          rw [(hexFour?_append hlow x).2]
          rwa [hlow] at h
    · rw [if_neg hs] at h ⊢
      exact h

theorem escape_append {t : Text} {c : CodePoint} {n : Nat} (h : escape t = .ok (c, n))
    (hne : t.drop n ≠ []) (hb : t.drop n ≠ [CodePoint.backslash]) (x : Text) :
    escape (t ++ x) = .ok (c, n) := by
  cases t with
  | nil => cases h
  | cons e rest =>
    cases hshort : shortEscape? e with
    | some d => simpa only [List.cons_append, escape, hshort] using h
    | none =>
      simp only [List.cons_append, escape, hshort] at h ⊢
      by_cases hu : e = CodePoint.ofChar 'u'
      · rw [if_pos hu] at h ⊢
        cases hunicode : unicodeEscape rest with
        | error f =>
          rw [hunicode] at h
          cases h
        | ok p =>
          rw [hunicode] at h
          obtain ⟨rfl, rfl⟩ := Prod.mk.inj (Except.ok.inj h)
          rw [unicodeEscape_append hunicode hne hb]
      · rw [if_neg hu] at h
        cases h

/-- A string that is closed has its value whatever comes behind it. -/
theorem stringBody_append {offset n : Nat} {t v : Text} (h : stringBody offset t = .ok (v, n))
    (x : Text) : stringBody offset (t ++ x) = .ok (v, n) := by
  fun_induction stringBody offset t generalizing v n with
  | case1 | case3 | case4 | case6 | case7 => cases h
  | case2 offset rest =>
    rw [List.cons_append, stringBody, if_pos rfl]
    exact h
  | case5 offset rest d k hescape value m hbody hq ih =>
    -- A string goes on behind an escape, and not with a lone backslash.
    have hne : ∀ u : Text, (∀ p, stringBody (offset + 1 + k) u ≠ .ok p) → rest.drop k ≠ u := by
      rintro u hu rfl
      exact hu _ hbody
    have hnil : rest.drop k ≠ [] := hne [] fun p hp => by
      rw [stringBody] at hp
      cases hp
    have hb : rest.drop k ≠ [CodePoint.backslash] := hne _ fun p hp => by
      rw [stringBody] at hp
      cases hp
    have hlength : k ≤ rest.length := by
      by_contra hlength
      exact hnil (List.drop_of_length_le (by omega))
    rw [List.cons_append, stringBody, if_neg hq, if_pos rfl, escape_append hescape hnil hb]
    simp only [List.drop_append_of_le_length hlength, ih hbody]
    exact h
  | case8 offset c rest hq hb hbreak value m hbody ih =>
    rw [List.cons_append, stringBody, if_neg hq, if_neg hb, if_neg hbreak, ih hbody]
    exact h

/-- The value of a string is shorter than the string. -/
theorem length_lt_of_stringBody {offset n : Nat} {t v : Text}
    (h : stringBody offset t = .ok (v, n)) : v.length < n := by
  fun_induction stringBody offset t generalizing v n with
  | case1 | case3 | case4 | case6 | case7 => cases h
  | case2 =>
    obtain ⟨rfl, rfl⟩ := Prod.mk.inj (Except.ok.inj h)
    exact Nat.one_pos
  | case5 offset rest d k hescape value m hbody hq ih =>
    obtain ⟨rfl, rfl⟩ := Prod.mk.inj (Except.ok.inj h)
    have hvalue := ih hbody
    rw [List.length_cons]
    omega
  | case8 offset c rest hq hb hbreak value m hbody ih =>
    obtain ⟨rfl, rfl⟩ := Prod.mk.inj (Except.ok.inj h)
    exact Nat.succ_lt_succ (ih hbody)

theorem scan_quote (rest : Text) : scan CodePoint.quote rest =
    (stringBody 1 rest).map fun (v, n) => (.string v, n + 1) := by
  rw [scan, if_neg (by decide), show mark? CodePoint.quote = none by decide]
  simp only [if_pos]
  cases stringBody 1 rest <;> rfl

end Scan

/-! ## String literals -/

/-- The text is one string literal, and the literal has the value. -/
def Text.IsLiteral (t v : Text) : Prop :=
  ∃ body, t = CodePoint.quote :: body ∧ Scan.stringBody 1 body = .ok (v, body.length)

namespace Text

variable {t v : Text}

theorem isLiteral_literal (t : Text) : t.literal.IsLiteral t := by
  refine ⟨t.flatMap CodePoint.inLiteral ++ [CodePoint.quote], rfl, ?_⟩
  rw [List.length_append]
  exact Scan.stringBody_literal [] t 1

/-- The literal is the lexeme at the start of a text that starts with it. -/
theorem IsLiteral.scan (h : t.IsLiteral v) (rest : Text) : ∃ tail, t = CodePoint.quote :: tail ∧
    Scan.scan CodePoint.quote (tail ++ rest) = .ok (.string v, tail.length + 1) := by
  obtain ⟨body, rfl, hbody⟩ := h
  refine ⟨body, rfl, ?_⟩
  rw [Scan.scan_quote, Scan.stringBody_append hbody rest]
  rfl

/-- A literal has its value as its only token. -/
theorem IsLiteral.tokens_eq {limits : Limits} (h : t.IsLiteral v)
    (hlength : (t.length : Int) ≤ limits.expressionLength)
    (hstring : (v.length : Int) ≤ limits.stringLength) :
    tokens limits t = .ok [⟨.string v, 0⟩] := by
  obtain ⟨tail, rfl, hscan⟩ := h.scan []
  rw [List.append_nil] at hscan
  have hsource := (limits.check_eq_ok_iff .expressionLength _).2 hlength
  have hvalue := (limits.check_eq_ok_iff .stringLength _).2 hstring
  rw [tokens, hsource, Scan.tokensFrom, if_neg (by decide), hscan]
  simp only [Scan.checkString, hvalue, Nat.add_sub_cancel, List.drop_length, Scan.tokensFrom]

/-- A text without tokens has nothing but gaps. -/
theorem isGap_of_tokensFrom {limits : Limits} {p : Nat} {t : Text}
    (h : Scan.tokensFrom limits p t = .ok []) : ∀ c ∈ t, c.isGap = true := by
  induction t generalizing p with
  | nil => exact fun c hc => nomatch hc
  | cons c rest ih =>
    cases hgap : c.isGap with
    | true =>
      rw [Scan.tokensFrom, if_pos hgap] at h
      exact List.forall_mem_cons.2 ⟨hgap, ih h⟩
    | false =>
      obtain ⟨l, n, more, -, hmore, -⟩ := Scan.cons_of_tokensFrom hgap h
      cases hmore

/-- A text in quotation marks is one string literal if and only if its tokens are one string. -/
theorem tokens_eq_singleton_iff {limits : Limits}
    (hquote : StringCall.isEnclosed CodePoint.quote t = true)
    (hlength : (t.length : Int) ≤ limits.expressionLength)
    (hstring : (t.length : Int) ≤ limits.stringLength) :
    tokens limits t = .ok [⟨.string v, 0⟩] ↔ t.IsLiteral v := by
  constructor
  · intro h
    replace h := Scan.tokensFrom_of_tokens h
    obtain ⟨htwo, hhead, hlast⟩ := StringCall.isEnclosed_iff.1 hquote
    obtain ⟨body, rfl⟩ := List.head?_eq_some_iff.1 hhead
    obtain ⟨l, n, more, hscan, hts, hmore⟩ := Scan.cons_of_tokensFrom (by decide) h
    obtain ⟨hl, rfl⟩ := List.cons.inj hts
    obtain ⟨rfl, -⟩ := Token.mk.inj hl
    rw [Scan.scan_quote] at hscan
    cases hbody : Scan.stringBody 1 body with
    | error f =>
      rw [hbody] at hscan
      cases hscan
    | ok p =>
      obtain ⟨value, m⟩ := p
      rw [hbody] at hscan
      obtain ⟨hvalue, rfl⟩ := Prod.mk.inj (Except.ok.inj hscan)
      obtain rfl := Lexeme.string.inj hvalue
      -- Only gaps are behind the string, and the mark at the end of the text is none.
      have hend : body.length ≤ m := by
        by_contra hend
        have hmark : (body.drop m).getLast? = some CodePoint.quote := by
          have hdrop := List.getLast?_drop (l := CodePoint.quote :: body) (i := m + 1)
          rwa [if_neg (by rw [List.length_cons]; omega), hlast] at hdrop
        have hgap := isGap_of_tokensFrom hmore _ (List.mem_of_mem_getLast? hmark)
        exact absurd hgap (by decide)
      have hm := (StringCall.Closing.of_stringBody hbody).le_length
      exact ⟨body, rfl, by rw [hbody, Nat.le_antisymm hm hend]⟩
  · intro h
    refine h.tokens_eq hlength ?_
    obtain ⟨body, rfl, hbody⟩ := h
    have hv := Scan.length_lt_of_stringBody hbody
    rw [List.length_cons] at hstring
    omega

end Text

/-! ## Tokens and what comes behind them -/

theorem StringCall.isWordPart_of_continuesName {c : CodePoint} (h : c.continuesName = true) :
    isWordPart c = true := by
  have hdigit : ∀ e : Digit, isWordPart e.codePoint = true := by decide
  rw [CodePoint.continuesName, Bool.or_eq_true, CodePoint.startsName, Bool.or_eq_true] at h
  rcases h with (hlow | hletter) | hd
  · obtain rfl := beq_iff_eq.1 hlow
    decide
  · simp [isWordPart, CodePoint.isAlphanumeric, hletter]
  · obtain ⟨e, he⟩ := Option.isSome_iff_exists.1 ((CodePoint.isSome_ofCodePoint? c).trans hd)
    rw [← Digit.codePoint_of_ofCodePoint? he]
    exact hdigit e

namespace Text

/-- The text does not start like the rest of an assignment mark or of a number. -/
def StartsApart (t : Text) : Prop :=
  ∀ c ∈ t.head?, c ≠ CodePoint.ofChar '=' ∧ c ∉ Numeral.marks

/-- The last code point of the text is no part of a word. -/
def EndsApart (t : Text) : Prop := ∀ c ∈ t.getLast?, StringCall.isWordPart c = false

theorem EndsApart.of_getLast? {t : Text} {c : CodePoint} (ht : t.getLast? = some c)
    (hc : StringCall.isWordPart c = false) : EndsApart t := fun e he => by
  obtain rfl := Option.some.inj (ht.symm.trans he)
  exact hc

theorem EndsApart.of_append {t u : Text} (h : EndsApart (t ++ u)) : EndsApart u := fun c hc =>
  h c (by rw [List.getLast?_append, Option.mem_def.1 hc]; rfl)

end Text

namespace Scan

open StringCall

/-- A lexeme of a text that leads to code is in the text. -/
theorem le_length_of_scan {c : CodePoint} {x z : Text} {l : Lexeme} {n d e : Nat}
    (hscan : scan c (x ++ z) = .ok (l, n)) (hrun : Place.run (.code d) (c :: x) = some (.code e))
    (hx : Text.EndsApart (c :: x)) (hz : z.StartsApart) : n ≤ (c :: x).length := by
  cases scanned_of_scan hscan with
  | define hc hrest =>
    cases x with
    | nil => exact ((hz _ (by rw [← List.nil_append z, hrest]; rfl)).1 rfl).elim
    | cons => exact Nat.le_add_left 2 _
  | mark => exact Nat.le_add_left 1 _
  | string hc h =>
    subst hc
    refine Nat.succ_le_succ ?_
    rcases closing_or_open x with hclosing | ⟨-, hopen⟩
    · rw [← (Closing.of_stringBody h).quotedLength_eq, (hclosing.append z).quotedLength_eq]
      exact hclosing.le_length
    · exact (hopen d e hrun).elim
  | number hm h =>
    have htext := Place.numeral_eq h
    rw [← List.cons_append] at htext
    rcases List.append_eq_append_iff.1 htext with ⟨k, hk, hz'⟩ | ⟨k, hk, -⟩
    · cases k with
      | nil => rw [hk]; simp
      | cons e k =>
        have hmem := Place.mem_marks_of_text (hk ▸ List.mem_append_right _ List.mem_cons_self)
        exact ((hz e (by rw [hz']; rfl)).2 hmem).elim
    · rw [hk]; simp
  | word hc =>
    refine Nat.succ_le_succ ?_
    rw [List.takeWhile_append]
    split
    · -- All of the text is one word, and its last code point a part of it.
      rename_i hall
      have htake := (List.takeWhile_prefix _).eq_of_length hall
      have hcontinues : ∀ e ∈ c :: x, e.continuesName = true :=
        List.forall_mem_cons.2 ⟨CodePoint.continuesName_of_startsName hc,
          List.all_eq_true.1 (htake ▸ List.all_takeWhile)⟩
      obtain ⟨e, he⟩ : ∃ e, (c :: x).getLast? = some e :=
        ⟨_, List.getLast?_eq_some_getLast (List.cons_ne_nil c x)⟩
      have hword := isWordPart_of_continuesName (hcontinues e (List.mem_of_mem_getLast? he))
      rw [hx e he] at hword
      cases hword
    · exact (List.takeWhile_prefix _).length_le

/-- Behind a text that leads to code the tokens are those of what comes there. -/
theorem exists_tokensFrom_append {limits : Limits} {z : Text} (hz : z.StartsApart) {e : Nat} :
    ∀ (x : Text) {p d : Nat} {ts : List Token}, Place.run (.code d) x = some (.code e) →
      x.EndsApart → tokensFrom limits p (x ++ z) = .ok ts →
      ∃ us vs, ts = us ++ vs ∧ tokensFrom limits (p + x.length) z = .ok vs
  | [], _, _, ts, _, _, h => ⟨[], ts, rfl, h⟩
  | c :: x, p, d, ts, hrun, hx, h => by
    cases hgap : c.isGap with
    | true =>
      rw [List.cons_append, tokensFrom, if_pos hgap] at h
      rw [Place.run_cons, Place.step_code_of_isPlain (Place.isPlain_of_isGap hgap)] at hrun
      obtain ⟨us, vs, rfl, hvs⟩ := exists_tokensFrom_append hz x hrun
        (Text.EndsApart.of_append (t := [c]) hx) h
      refine ⟨us, vs, rfl, ?_⟩
      rwa [List.length_cons, ← Nat.add_comm 1, ← Nat.add_assoc]
    | false =>
      rw [List.cons_append] at h
      obtain ⟨l, n, more, hscan, rfl, hmore⟩ := cons_of_tokensFrom hgap h
      obtain ⟨hn, hrunl⟩ := Place.run_scan (d := d) hscan
      have hle := le_length_of_scan hscan hrun hx hz
      obtain ⟨m, rfl⟩ := Nat.exists_eq_succ_of_ne_zero (Nat.ne_of_gt hn)
      have hm : m ≤ x.length := Nat.le_of_succ_le_succ hle
      rw [← List.cons_append, List.take_append_of_le_length hle] at hrunl
      rw [← List.take_append_drop (m + 1) (c :: x)] at hx hrun
      rw [Place.run_append, hrunl] at hrun
      obtain ⟨q, hq, hrun⟩ := Option.bind_eq_some_iff.1 hrun
      obtain ⟨f, -, rfl⟩ := Option.map_eq_some_iff.1 hq
      rw [Nat.succ_sub_one, List.drop_append_of_le_length hm] at hmore
      obtain ⟨us, vs, rfl, hvs⟩ := exists_tokensFrom_append hz (x.drop m) hrun hx.of_append hmore
      refine ⟨⟨l, p⟩ :: us, vs, rfl, ?_⟩
      rwa [List.length_drop, Nat.add_assoc, show m + 1 + (x.length - m) = (c :: x).length by
        rw [List.length_cons]; omega] at hvs
termination_by x => x.length
decreasing_by all_goals (simp only [List.length_cons, List.length_drop]; omega)

end Scan
end Reckon
