import Reckon.Proofs.Grammar.Layout
import Reckon.Proofs.Grammar.Positions
import Reckon.Proofs.Source.Written

/-!
# Tilings

The tokens of a statement tile it : each takes a span of the text that starts at its position, the
spans follow each other, and there are only gaps outside them (`Tiling`). A span is the text of its
lexeme, or a literal between quotation marks, and on its own it has the same single token
(`Tile.IsWhole`).

A string ends with its first quotation mark that is not escaped, so nothing behind this mark is
needed to read it : an escape that looks ahead for the other half of a surrogate pair finds what it
needs in front of the mark (`Scan.stringBody_take`).
-/

namespace Reckon

/-! ## Strings without what comes behind them -/

namespace StringCall

open Scan

variable {t : Text} {k n : Nat}

theorem Closing.exists_of_isPlain {c : CodePoint} (hc : c.isPlain = true)
    (h : Closing CodePoint.quote (c :: t) n) :
    ∃ m, n = m + 1 ∧ Closing CodePoint.quote t m := by
  obtain ⟨hquote, hbackslash, -⟩ := CodePoint.isPlain_iff.1 hc
  cases h with
  | mark => exact (hquote rfl).elim
  | escape => exact (hbackslash rfl).elim
  | other _ _ h => exact ⟨_, rfl, h⟩

/-- A string is not closed among four hexadecimal digits. -/
theorem Closing.four_lt (h : Closing CodePoint.quote t n) (ht : hexFour? t = some k) : 4 < n := by
  unfold hexFour? at ht
  split at ht
  · simp only [Option.bind_eq_bind, Option.bind_eq_some_iff] at ht
    obtain ⟨_, ha, _, hb, _, hc, _, hd, -⟩ := ht
    obtain ⟨n₁, hn₁, h₁⟩ := h.exists_of_isPlain (Place.isPlain_of_hexValue? ha)
    obtain ⟨n₂, hn₂, h₂⟩ := h₁.exists_of_isPlain (Place.isPlain_of_hexValue? hb)
    obtain ⟨n₃, hn₃, h₃⟩ := h₂.exists_of_isPlain (Place.isPlain_of_hexValue? hc)
    obtain ⟨n₄, hn₄, h₄⟩ := h₃.exists_of_isPlain (Place.isPlain_of_hexValue? hd)
    have hpos : 0 < n₄ := by cases h₄ <;> exact Nat.succ_pos _
    omega
  · cases ht

end StringCall

namespace Scan

open StringCall

variable {t : Text} {m n : Nat}

theorem hexFour?_take {k : Nat} (h : hexFour? t = some k) (hn : 4 ≤ n) :
    hexFour? (t.take n) = some k := by
  unfold hexFour? at h
  split at h
  · obtain ⟨n, rfl⟩ := Nat.exists_eq_add_of_le' hn
    exact h
  · cases h

theorem furtherEscape?_take_eq_none (h : furtherEscape? t = none) (n : Nat) :
    furtherEscape? (t.take n) = none := by
  cases htake : furtherEscape? (t.take n) with
  | none => rfl
  | some rest =>
    have ht := List.take_append_drop n t
    rw [furtherEscape?_eq_some htake] at ht
    rw [← ht, List.cons_append, List.cons_append, furtherEscape?, if_pos ⟨rfl, rfl⟩] at h
    cases h

/-- Two escapes in a row are both in front of the mark that closes the string, whether they are one
code point or two. -/
theorem ten_le_of_further {c : CodePoint} {high low : Nat} {rest : Text}
    (hhigh : hexFour? t = some high) (hs : isHighSurrogate high = true)
    (hfurther : furtherEscape? (t.drop 4) = some rest) (hlow : hexFour? rest = some low)
    (h : unicodeEscape t = .ok (c, n)) (hclosing : Closing CodePoint.quote (t.drop n) m) :
    10 ≤ n + m := by
  simp only [unicodeEscape, hhigh, if_pos hs, hfurther, hlow] at h
  by_cases hpair : isLowSurrogate low = true
  · rw [if_pos hpair] at h
    exact (Prod.mk.inj (Except.ok.inj h)).2 ▸ Nat.le_add_right 10 m
  · rw [if_neg hpair] at h
    obtain ⟨-, rfl⟩ := Prod.mk.inj (Except.ok.inj h)
    rw [furtherEscape?_eq_some hfurther] at hclosing
    cases hclosing with
    | escape _ hclosing =>
      have hfour := hclosing.four_lt hlow
      omega
    | other hb => exact (hb rfl).elim

/-- The digits of a further escape are in front of the mark that closes the string. -/
theorem unicodeEscape_take {c : CodePoint} (h : unicodeEscape t = .ok (c, n))
    (hclosing : Closing CodePoint.quote (t.drop n) m) :
    unicodeEscape (t.take (n + m)) = .ok (c, n) := by
  have hescape := h
  cases hhigh : hexFour? t with
  | none =>
    rw [unicodeEscape, hhigh] at h
    cases h
  | some high =>
    simp only [unicodeEscape, hhigh] at h
    by_cases hs : isHighSurrogate high = true
    · rw [if_pos hs] at h
      cases hfurther : furtherEscape? (t.drop 4) with
      | none =>
        rw [hfurther] at h
        obtain ⟨rfl, rfl⟩ := Prod.mk.inj (Except.ok.inj h)
        have hnone := furtherEscape?_take_eq_none hfurther (4 + m - 4)
        simp only [unicodeEscape, hexFour?_take hhigh (Nat.le_add_right 4 m), hs, if_true,
          List.drop_take, hnone]
      | some rest =>
        simp only [hfurther] at h
        cases hlow : hexFour? rest with
        | none =>
          rw [hlow] at h
          cases h
        | some low =>
          have hlong := ten_le_of_further hhigh hs hfurther hlow hescape hclosing
          obtain ⟨j, hj⟩ := Nat.exists_eq_add_of_le' hlong
          have htake : furtherEscape? ((t.take (n + m)).drop 4) = some (rest.take (j + 4)) := by
            rw [List.drop_take, furtherEscape?_eq_some hfurther, hj]
            rfl
          simpa only [unicodeEscape, hexFour?_take hhigh (Nat.le_trans (by decide) hlong), hs,
            if_true, htake, hexFour?_take hlow (Nat.le_add_left 4 j), hlow] using h
    · rw [if_neg hs] at h
      obtain ⟨rfl, rfl⟩ := Prod.mk.inj (Except.ok.inj h)
      simp only [unicodeEscape, hexFour?_take hhigh (Nat.le_add_right 4 m), hs, if_false,
        Bool.false_eq_true]

theorem escape_take {c : CodePoint} (h : escape t = .ok (c, n))
    (hclosing : Closing CodePoint.quote (t.drop n) m) : escape (t.take (n + m)) = .ok (c, n) := by
  cases t with
  | nil => cases h
  | cons e rest =>
    cases hshort : shortEscape? e with
    | some d =>
      simp only [escape, hshort] at h
      obtain ⟨rfl, rfl⟩ := Prod.mk.inj (Except.ok.inj h)
      rw [Nat.add_comm, List.take_succ_cons, escape, hshort]
    | none =>
      simp only [escape, hshort] at h
      by_cases hu : e = CodePoint.ofChar 'u'
      · rw [if_pos hu] at h
        cases hunicode : unicodeEscape rest with
        | error f =>
          rw [hunicode] at h
          cases h
        | ok p =>
          obtain ⟨d, k⟩ := p
          rw [hunicode] at h
          obtain ⟨rfl, rfl⟩ := Prod.mk.inj (Except.ok.inj h)
          have htake := unicodeEscape_take hunicode hclosing
          rw [Nat.add_right_comm, List.take_succ_cons]
          simp only [escape, hshort, if_pos hu, htake]
      · rw [if_neg hu] at h
        cases h

/-- A string is read without what comes behind its closing mark. -/
theorem stringBody_take {offset : Nat} {v : Text} (h : stringBody offset t = .ok (v, n)) :
    stringBody offset (t.take n) = .ok (v, n) := by
  fun_induction stringBody offset t generalizing v n with
  | case1 | case3 | case4 | case6 | case7 => cases h
  | case2 offset rest =>
    obtain ⟨rfl, rfl⟩ := Prod.mk.inj (Except.ok.inj h)
    rw [List.take_succ_cons, stringBody, if_pos rfl]
  | case5 offset rest d k hescape value m hbody hq ih =>
    obtain ⟨rfl, rfl⟩ := Prod.mk.inj (Except.ok.inj h)
    have hclosing := Closing.of_stringBody hbody
    rw [Nat.add_right_comm, List.take_succ_cons, stringBody, if_neg hq, if_pos rfl,
      Nat.add_comm m k, escape_take hescape hclosing]
    simp only [List.drop_take, Nat.add_sub_cancel_left, ih hbody]
    rw [Nat.add_right_comm, Nat.add_comm m k]
  | case8 offset c rest hq hb hbreak value m hbody ih =>
    obtain ⟨rfl, rfl⟩ := Prod.mk.inj (Except.ok.inj h)
    rw [List.take_succ_cons, stringBody, if_neg hq, if_neg hb, if_neg hbreak, ih hbody]

/-- A lexeme that is no string takes its text. -/
theorem length_text_of_scan {c : CodePoint} {rest : Text} {l : Lexeme}
    (h : scan c rest = .ok (l, n)) (hl : ∀ v, l ≠ .string v) : l.text.length = n := by
  cases scanned_of_scan h with
  | define => rfl
  | mark hmark => rw [mark_text hmark]; rfl
  | string => exact (hl _ rfl).elim
  | number => rfl
  | word => rw [text_word]

/-- Only what starts with a quotation mark is a string. -/
theorem exists_stringBody_of_scan {c : CodePoint} {rest v : Text}
    (h : scan c rest = .ok (.string v, n)) :
    c = CodePoint.quote ∧ ∃ k, n = k + 1 ∧ stringBody 1 rest = .ok (v, k) := by
  generalize hl : Lexeme.string v = l at h
  cases scanned_of_scan h with
  | define | number => cases hl
  | mark hmark =>
    unfold mark? at hmark
    repeat' rcases of_ite_eq_some hmark with ⟨-, rfl⟩ | hmark
    all_goals first | cases hmark | cases hl
  | string hc hbody =>
    obtain rfl := Lexeme.string.inj hl
    exact ⟨hc, _, rfl, hbody⟩
  | word =>
    unfold word at hl
    split at hl <;> cases hl

/-- A lexeme is read without what comes behind it. -/
theorem scan_take {c : CodePoint} {rest : Text} {l : Lexeme} (h : scan c rest = .ok (l, n)) :
    scan c (rest.take (n - 1)) = .ok (l, n) := by
  by_cases hl : ∀ v, l ≠ .string v
  · have hwritten : l.written = l.text := by
      cases l with
      | string v => exact (hl v rfl).elim
      | _ => rfl
    have hword : l.IsWord → Text.EndsWord [] := fun _ e he => nomatch he
    obtain ⟨d, tail, htext, -, -, hscan⟩ := scan_written (scan_wellFormed h) [] hword
    rw [hwritten] at htext
    have hprefix := scan_prefix h hl
    have hn := length_text_of_scan h hl
    rw [htext, List.length_cons] at hn
    rw [htext, List.cons_prefix_cons] at hprefix
    obtain ⟨rfl, htail⟩ := hprefix
    rw [← hn, Nat.add_sub_cancel, ← List.prefix_iff_eq_take.1 htail]
    rwa [List.append_nil] at hscan
  · push Not at hl
    obtain ⟨v, rfl⟩ := hl
    obtain ⟨rfl, k, rfl, hbody⟩ := exists_stringBody_of_scan h
    rw [Nat.add_sub_cancel, scan_quote, stringBody_take hbody]
    rfl

end Scan

/-! ## Tiles -/

/-- A token with the text that it takes of a statement. -/
structure Tile where
  /-- The token. -/
  token : Token
  /-- Its text. -/
  span : Text

namespace Tile

/-- The position behind the text of the token. -/
def stop (t : Tile) : Nat := t.token.position + t.span.length

/-- The text is the one of the lexeme, or a literal in quotation marks, and on its own it has the
same token and no other. -/
structure IsWhole (limits : Limits) (t : Tile) : Prop where
  /-- What is no string is written as it is. -/
  text : (∀ v, t.token.lexeme ≠ .string v) → t.token.lexeme.text = t.span
  /-- A string starts with a quotation mark and ends with another. -/
  quoted : ∀ v, t.token.lexeme = .string v → 2 ≤ t.span.length ∧
    t.span.head? = some CodePoint.quote ∧ t.span.getLast? = some CodePoint.quote
  /-- The tokens of the text on its own. -/
  alone : tokens limits t.span = .ok [⟨t.token.lexeme, 0⟩]

end Tile

/-- The tiles are places of the text from `start` on, one behind the other, and there are only gaps
outside them. -/
structure Tiling (source : Text) (start : Nat) (tiles : List Tile) : Prop where
  /-- Each stands where the position of its token says. -/
  places : ∀ t ∈ tiles, start ≤ t.token.position ∧ t.stop ≤ source.length ∧ t.span ≠ [] ∧
    t.span <+: source.drop t.token.position
  /-- A tile ends before the next one starts. -/
  ordered : tiles.Pairwise fun t u => t.stop ≤ u.token.position
  /-- What is in no tile is a gap. -/
  gaps : ∀ i c, start ≤ i → source[i]? = some c →
    (∀ t ∈ tiles, i < t.token.position ∨ t.stop ≤ i) → c.isGap = true

namespace Tiling

variable {source : Text} {start : Nat} {tiles : List Tile}

theorem nil (h : source.length ≤ start) : Tiling source start [] where
  places := by simp
  ordered := .nil
  gaps i c hi hc := by
    rw [List.getElem?_eq_none (Nat.le_trans h hi)] at hc
    cases hc

theorem gap {c : CodePoint} (hc : c.isGap = true) (hstart : source[start]? = some c)
    (h : Tiling source (start + 1) tiles) : Tiling source start tiles where
  places t ht := ⟨Nat.le_of_succ_le (h.places t ht).1, (h.places t ht).2⟩
  ordered := h.ordered
  gaps i d hi hd hout := by
    rcases Nat.eq_or_lt_of_le hi with rfl | hi
    · exact Option.some.inj (hstart.symm.trans hd) ▸ hc
    · exact h.gaps i d hi hd hout

theorem cons {t : Tile} (hposition : t.token.position = start) (hne : t.span ≠ [])
    (hspan : t.span <+: source.drop start) (h : Tiling source t.stop tiles) :
    Tiling source start (t :: tiles) where
  places u hu := by
    have hpos := List.length_pos_iff.2 hne
    rcases List.mem_cons.1 hu with rfl | hu
    · have hle := hspan.length_le
      rw [List.length_drop] at hle
      have hstop : u.stop = start + u.span.length := congrArg (· + _) hposition
      exact ⟨hposition.ge, by omega, hne, hposition ▸ hspan⟩
    · obtain ⟨hle, hu⟩ := h.places u hu
      exact ⟨hposition ▸ Nat.le_of_add_right_le hle, hu⟩
  ordered := List.pairwise_cons.2 ⟨fun u hu => (h.places u hu).1, h.ordered⟩
  gaps i c hi hc hout := by
    obtain ⟨ht, hout⟩ := List.forall_mem_cons.1 hout
    exact h.gaps i c (ht.resolve_left (by omega)) hc hout

end Tiling

/-! ## Tokens as tiles -/

namespace Scan

/-- A lexeme is in the text that it is scanned in. -/
theorem le_length_of_scan_self {c : CodePoint} {rest : Text} {l : Lexeme} {n : Nat}
    (h : scan c rest = .ok (l, n)) : n ≤ (c :: rest).length := by
  by_cases hl : ∀ v, l ≠ .string v
  · have hprefix := scan_prefix h hl
    exact length_text_of_scan h hl ▸ hprefix.length_le
  · push Not at hl
    obtain ⟨v, rfl⟩ := hl
    obtain ⟨-, k, rfl, hbody⟩ := exists_stringBody_of_scan h
    exact Nat.succ_le_succ (StringCall.Closing.of_stringBody hbody).le_length

variable {limits : Limits} {source : Text}

/-- A lexeme that is scanned is the only token of its text. -/
theorem isWhole_of_scan {c : CodePoint} {rest : Text} {l : Lexeme} {n p : Nat}
    (hgap : c.isGap = false) (hscan : scan c rest = .ok (l, n))
    (hcheck : checkString limits l = .ok ())
    (hlength : (((c :: rest).take n).length : Int) ≤ limits.expressionLength) :
    Tile.IsWhole limits ⟨⟨l, p⟩, (c :: rest).take n⟩ where
  text hl := by
    have hprefix := scan_prefix hscan hl
    rw [← length_text_of_scan hscan hl]
    exact List.prefix_iff_eq_take.1 hprefix
  quoted v hv := by
    obtain rfl : l = .string v := hv
    obtain ⟨rfl, k, rfl, hbody⟩ := exists_stringBody_of_scan hscan
    have hclosing := StringCall.Closing.of_stringBody hbody
    have hpos : 0 < k := Nat.zero_lt_of_lt (length_lt_of_stringBody hbody)
    have hle := hclosing.le_length
    refine ⟨?_, rfl, ?_⟩
    · simp only [List.take_succ_cons, List.length_cons, List.length_take]
      omega
    · rw [List.take_succ_cons, List.getLast?_cons, hclosing.getLast?_take]
      rfl
  alone := by
    obtain ⟨hn, -⟩ := Place.run_scan (d := 0) hscan
    obtain ⟨m, rfl⟩ := Nat.exists_eq_succ_of_ne_zero (Nat.ne_of_gt hn)
    have htake : scan c (rest.take m) = .ok (l, m + 1) := scan_take hscan
    have hdrop : (rest.take m).drop (m + 1 - 1) = [] := by
      rw [Nat.add_sub_cancel, List.drop_take, Nat.sub_self, List.take_zero]
    rw [tokens, (limits.check_eq_ok_iff .expressionLength _).2 hlength]
    simp only [List.take_succ_cons, tokensFrom, hgap, Bool.false_eq_true, if_false, htake, hcheck,
      hdrop]

/-- The tokens from a position on tile the text from there on. -/
theorem exists_tiling_of_tokensFrom (hlength : (source.length : Int) ≤ limits.expressionLength) :
    ∀ (t : Text) {p : Nat} {ts : List Token}, source.drop p = t → tokensFrom limits p t = .ok ts →
      ∃ tiles : List Tile, tiles.map Tile.token = ts ∧ Tiling source p tiles ∧
        ∀ u ∈ tiles, u.IsWhole limits
  | [], p, ts, hp, h => by
    rw [tokensFrom] at h
    obtain rfl := Except.ok.inj h
    exact ⟨[], rfl, .nil (List.drop_eq_nil_iff.1 hp), by simp⟩
  | c :: rest, p, ts, hp, h => by
    cases hgap : c.isGap with
    | true =>
      rw [tokensFrom, if_pos hgap] at h
      obtain ⟨tiles, hts, htiling, hwhole⟩ :=
        exists_tiling_of_tokensFrom hlength rest (drop_scanned Nat.one_pos hp) h
      have hstart : source[p]? = some c := by rw [← List.head?_drop, hp]; rfl
      exact ⟨tiles, hts, htiling.gap hgap hstart, hwhole⟩
    | false =>
      obtain ⟨l, n, more, hscan, rfl, hmore⟩ := cons_of_tokensFrom hgap h
      have hcheck := checkString_of_tokensFrom _ h _ List.mem_cons_self
      have hn := (Place.run_scan (d := 0) hscan).1
      have hle := le_length_of_scan_self hscan
      obtain ⟨tiles, rfl, htiling, hwhole⟩ :=
        exists_tiling_of_tokensFrom hlength (rest.drop (n - 1)) (drop_scanned hn hp) hmore
      have hspan : ((c :: rest).take n).length = n := List.length_take_of_le hle
      have hsource := lt_length_of_drop hp
      refine ⟨⟨⟨l, p⟩, (c :: rest).take n⟩ :: tiles, rfl, .cons rfl ?_ ?_ ?_,
        List.forall_mem_cons.2 ⟨isWhole_of_scan hgap hscan hcheck ?_, hwhole⟩⟩
      · exact List.length_pos_iff.1 (hspan.symm ▸ hn)
      · rw [hp]
        exact List.take_prefix n _
      · rwa [Tile.stop, hspan]
      · omega
termination_by t => t.length
decreasing_by all_goals (simp only [List.length_cons, List.length_drop]; omega)

end Scan

/-- The tokens of a statement tile it, and the statement ends behind its last code point : each
token takes a span that is the text of its lexeme, or a literal for a string, and that has the same
single token on its own. -/
theorem tokens_tiling {limits : Limits} {source : Text} {ts : List Token}
    (h : tokens limits source = .ok ts) :
    (∃ tiles : List Tile, tiles.map Tile.token = ts ∧ Tiling source 0 tiles ∧
      ∀ t ∈ tiles, t.IsWhole limits) ∧
    Statement.read limits source = (Expr.ofTokens limits source.length (Form.ofTokens ts).2).map
      fun e => ⟨(Form.ofTokens ts).1, e, source⟩ := by
  constructor
  · exact Scan.exists_tiling_of_tokensFrom (Scan.length_le_of_tokens h) source List.drop_zero
      (Scan.tokensFrom_of_tokens h)
  · rw [Statement.read, h]
    simp only
    cases Expr.ofTokens limits source.length (Form.ofTokens ts).2 <;> rfl

/-- A string with an escaped quotation mark and the first half of a surrogate pair, which no second
half follows. -/
theorem tokens_tiling_escapes :
    let source : Text := "\tn:= 2.5e1*\x22\\\x22\\ud83d\\u0041\x22\n"
    let ts : List Token := [⟨.name "n", 1⟩, ⟨.define, 2⟩,
      ⟨.number ⟨[2], some [5], some ⟨false, none, [1]⟩⟩, 5⟩, ⟨.operator .times, 10⟩,
      ⟨.string [CodePoint.quote, CodePoint.ofNat 0xD83D, CodePoint.ofChar 'A'], 11⟩]
    tokens {} source = .ok ts ∧
      (∃ tiles : List Tile, tiles.map Tile.token = ts ∧ Tiling source 0 tiles ∧
        ∀ t ∈ tiles, t.IsWhole {}) ∧
      Statement.read {} source = (Expr.ofTokens {} source.length (Form.ofTokens ts).2).map
        fun e => ⟨(Form.ofTokens ts).1, e, source⟩ := by
  intro source ts
  have h : tokens {} source = .ok ts := by decide +kernel
  exact ⟨h, tokens_tiling h⟩

end Reckon
