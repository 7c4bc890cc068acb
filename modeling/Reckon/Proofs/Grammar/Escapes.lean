import Reckon.Proofs.Source.Boundary

/-!
# Ways to write a string

A code point stands in a string as itself, by a short escape, or by its number in four hexadecimal
digits of either case; from `10000` on the number takes a surrogate pair of escapes
(`CodePoint.Spells`). However the code points of a text without surrogates are written, one by one,
the literal has the text as its value (`Scan.stringBody_spells`), and is the only token
(`tokens_spelled`).

The reader looks behind the first half of a pair for the second half. No code point but a surrogate
has the number of a half, so an escape is joined with the one behind it only if the two were written
as a pair.
-/

namespace Reckon

namespace CodePoint

/-! ## Spellings -/

/-- The code point is no half of a surrogate pair. -/
def IsScalar (c : CodePoint) : Prop := c.val < 0xD800 ∨ 0xDFFF < c.val

instance (c : CodePoint) : Decidable c.IsScalar := inferInstanceAs (Decidable (_ ∨ _))

/-- A hexadecimal digit of either case. -/
def ofHexDigitIn (capital : Bool) (n : Nat) : CodePoint :=
  if capital ∧ 10 ≤ n % 16 then ofNat (55 + n % 16) else ofHexDigit n

theorem ofHexDigitIn_mod (capital : Bool) (n : Nat) :
    ofHexDigitIn capital (n % 16) = ofHexDigitIn capital n := by
  simp [ofHexDigitIn, ofHexDigit]

/-- The four hexadecimal digits of a number below `10000`, each with a case of its own. -/
def hexFour (capitals : Fin 4 → Bool) (n : Nat) : Text :=
  [ofHexDigitIn (capitals 0) (n / 4096), ofHexDigitIn (capitals 1) (n / 256),
    ofHexDigitIn (capitals 2) (n / 16), ofHexDigitIn (capitals 3) n]

/-- The `u` escape of a number below `10000`. -/
def hexEscape (capitals : Fin 4 → Bool) (n : Nat) : Text :=
  backslash :: ofChar 'u' :: hexFour capitals n

/-- The letters of the short escapes, with the code points that they stand for. -/
def shortEscapes : List (CodePoint × CodePoint) := [
  (quote, quote), (apostrophe, apostrophe), (backslash, backslash), (ofChar '/', ofChar '/'),
  (ofChar 'a', ofNat 7), (ofChar 'b', ofNat 8), (ofChar 't', ofNat 9), (ofChar 'n', ofNat 10),
  (ofChar 'v', ofNat 11), (ofChar 'f', ofNat 12), (ofChar 'r', ofNat 13)]

/-- The first half of the surrogate pair of a code point from `10000` on. -/
def highHalf (c : CodePoint) : Nat := 0xD800 + (c.val - 0x10000) / 0x400

/-- The second half. -/
def lowHalf (c : CodePoint) : Nat := 0xDC00 + (c.val - 0x10000) % 0x400

/-- The text is a way to write the code point in a string. -/
inductive Spells (c : CodePoint) : Text → Prop
  | itself (hquote : c ≠ quote) (hbackslash : c ≠ backslash) (hline : c ≠ ofChar '\n')
    (hreturn : c ≠ ofChar '\r') : Spells c [c]
  | short {letter : CodePoint} (h : (letter, c) ∈ shortEscapes) : Spells c [backslash, letter]
  | number (h : c.val < 0x10000) (capitals : Fin 4 → Bool) : Spells c (hexEscape capitals c.val)
  | pair (h : 0x10000 ≤ c.val) (capitals capitals' : Fin 4 → Bool) :
    Spells c (hexEscape capitals c.highHalf ++ hexEscape capitals' c.lowHalf)

end CodePoint

/-- The second text is a way to write the first one in a string, code point by code point. -/
inductive Text.Spells : Text → Text → Prop
  | nil : Spells [] []
  | cons {c : CodePoint} {t s u : Text} (hc : c.Spells s) (ht : Spells t u) :
    Spells (c :: t) (s ++ u)

namespace Scan

/-! ## Escapes are read back -/

theorem hexValue?_ofHexDigitIn (capital : Bool) (n : Nat) :
    (CodePoint.ofHexDigitIn capital n).hexValue? = some (n % 16) := by
  have h : ∀ (capital : Bool) (m : Fin 16),
      (CodePoint.ofHexDigitIn capital m).hexValue? = some m.val := by decide
  have hn := h capital ⟨n % 16, Nat.mod_lt _ (by decide)⟩
  rwa [CodePoint.ofHexDigitIn_mod] at hn

theorem hexFour?_hexFour (capitals : Fin 4 → Bool) {n : Nat} (hn : n < 0x10000) (rest : Text) :
    hexFour? (CodePoint.hexFour capitals n ++ rest) = some n := by
  simp only [CodePoint.hexFour, List.cons_append, hexFour?, hexValue?_ofHexDigitIn,
    Option.bind_eq_bind, Option.bind_some, Option.pure_def, Option.some.injEq]
  omega

theorem shortEscape?_of_mem {c letter : CodePoint} (h : (letter, c) ∈ CodePoint.shortEscapes) :
    shortEscape? letter = some c := by
  have hall : ∀ p ∈ CodePoint.shortEscapes, shortEscape? p.1 = some p.2 := by decide
  exact hall _ h

theorem furtherEscape?_hexEscape (capitals : Fin 4 → Bool) (n : Nat) (rest : Text) :
    furtherEscape? (CodePoint.hexEscape capitals n ++ rest) =
      some (CodePoint.hexFour capitals n ++ rest) := rfl

/-- The number of a code point that is no half of a pair is read alone, whatever comes behind. -/
theorem unicodeEscape_hexFour {c : CodePoint} (hscalar : c.IsScalar) (h : c.val < 0x10000)
    (capitals : Fin 4 → Bool) (rest : Text) :
    unicodeEscape (CodePoint.hexFour capitals c.val ++ rest) = .ok (c, 4) := by
  have hhigh : isHighSurrogate c.val = false := by
    simp only [isHighSurrogate, Bool.and_eq_false_iff, decide_eq_false_iff_not]
    rcases hscalar with hlow | habove
    · exact .inl (by omega)
    · exact .inr (by omega)
  simp only [unicodeEscape, hexFour?_hexFour capitals h, hhigh, c.ofNat_val, Bool.false_eq_true,
    if_false]

/-- The two halves of a pair are read together. -/
theorem unicodeEscape_pair {c : CodePoint} (h : 0x10000 ≤ c.val) (capitals capitals' : Fin 4 → Bool)
    (rest : Text) :
    unicodeEscape (CodePoint.hexFour capitals c.highHalf ++
      (CodePoint.hexEscape capitals' c.lowHalf ++ rest)) = .ok (c, 10) := by
  have hc := c.isLt
  have hhigh : 0xD800 ≤ c.highHalf ∧ c.highHalf ≤ 0xDBFF := by
    unfold CodePoint.highHalf
    omega
  have hlow : 0xDC00 ≤ c.lowHalf ∧ c.lowHalf ≤ 0xDFFF := by
    unfold CodePoint.lowHalf
    omega
  have hof : CodePoint.ofNat (0x10000 + (c.highHalf - 0xD800) * 1024 + (c.lowHalf - 0xDC00)) =
      c := by
    cases c
    simp only [CodePoint.highHalf, CodePoint.lowHalf, CodePoint.ofNat, CodePoint.mk.injEq] at *
    omega
  have hdrop : (CodePoint.hexFour capitals c.highHalf ++
      (CodePoint.hexEscape capitals' c.lowHalf ++ rest)).drop 4 =
        CodePoint.hexEscape capitals' c.lowHalf ++ rest := rfl
  have hfirst : isHighSurrogate c.highHalf = true := by simp [isHighSurrogate, hhigh]
  have hsecond : isLowSurrogate c.lowHalf = true := by simp [isLowSurrogate, hlow]
  rw [unicodeEscape, hexFour?_hexFour capitals (by omega)]
  simp only [hfirst, if_true, hdrop, furtherEscape?_hexEscape, hexFour?_hexFour capitals'
    (show c.lowHalf < 0x10000 by omega), hsecond, hof]

/-! ## Strings are read back -/

/-- What comes behind the letter of a `u` escape decides on it. -/
theorem stringBody_unicodeEscape (offset : Nat) {t rest : Text} {c : CodePoint} {n : Nat}
    (h : unicodeEscape (t ++ rest) = .ok (c, n)) (hn : n = t.length) :
    stringBody offset (CodePoint.backslash :: CodePoint.ofChar 'u' :: t ++ rest) =
      (stringBody (offset + (t.length + 2)) rest).map
        fun (v, m) => (c :: v, m + (t.length + 2)) := by
  subst hn
  have hu : escape (CodePoint.ofChar 'u' :: t ++ rest) = .ok (c, t.length + 1) := by
    simp only [List.cons_append, escape, show shortEscape? (CodePoint.ofChar 'u') = none by decide,
      if_pos, h]
  have hbody := @stringBody_escape offset _ (CodePoint.ofChar 'u' :: t) rest c hu rfl
  simpa only [List.cons_append, Nat.add_assoc, Nat.reduceAdd, Nat.add_comm 1] using hbody

/-- A code point is read back from each of its spellings. -/
theorem stringBody_spelling {c : CodePoint} {s : Text} (hscalar : c.IsScalar) (h : c.Spells s)
    (offset : Nat) (rest : Text) : stringBody offset (s ++ rest) =
      (stringBody (offset + s.length) rest).map fun (v, m) => (c :: v, m + s.length) := by
  cases h with
  | itself hquote hbackslash hline hreturn =>
    rw [List.singleton_append, stringBody, if_neg hquote, if_neg hbackslash,
      if_neg (not_or.2 ⟨hline, hreturn⟩), List.length_singleton]
    cases stringBody (offset + 1) rest <;> rfl
  | short hletter =>
    exact stringBody_escape [_] (by simp [escape, shortEscape?_of_mem hletter]) rfl
  | number hsmall capitals =>
    exact stringBody_unicodeEscape offset (unicodeEscape_hexFour hscalar hsmall capitals rest) rfl
  | pair hlarge capitals capitals' =>
    have hpair := unicodeEscape_pair hlarge capitals capitals' rest
    rw [← List.append_assoc] at hpair
    exact stringBody_unicodeEscape offset hpair rfl

/-- A text is read back from each of its spellings, up to the closing quotation mark. -/
theorem stringBody_spells {t s : Text} (hscalar : ∀ c ∈ t, c.IsScalar) (h : t.Spells s)
    (offset : Nat) (rest : Text) :
    stringBody offset (s ++ CodePoint.quote :: rest) = .ok (t, s.length + 1) := by
  induction h generalizing offset with
  | nil =>
    rw [List.nil_append, stringBody, if_pos rfl]
    rfl
  | cons hc ht ih =>
    obtain ⟨hfirst, hothers⟩ := List.forall_mem_cons.1 hscalar
    rw [List.append_assoc, stringBody_spelling hfirst hc, ih hothers]
    simp only [Except.map, List.length_append, Except.ok.injEq, Prod.mk.injEq, true_and]
    omega

end Scan

/-- A text without surrogates, written in a string in whatever way, is the value of the only
token. -/
theorem tokens_spelled {limits : Limits} {t s : Text} (hscalar : ∀ c ∈ t, c.IsScalar)
    (h : t.Spells s) (hlength : (s.length + 2 : Int) ≤ limits.expressionLength)
    (hstring : (t.length : Int) ≤ limits.stringLength) :
    tokens limits (CodePoint.quote :: s ++ [CodePoint.quote]) = .ok [⟨.string t, 0⟩] := by
  have hliteral : Text.IsLiteral (CodePoint.quote :: s ++ [CodePoint.quote]) t := by
    refine ⟨s ++ [CodePoint.quote], rfl, ?_⟩
    rw [List.length_append]
    exact Scan.stringBody_spells hscalar h 1 []
  refine hliteral.tokens_eq ?_ hstring
  simp only [List.length_append, List.length_cons, List.length_nil]
  omega

/-- Two code points from `10000` on, as a pair and as itself, next to escapes that look alike. -/
theorem tokens_spelled_pair :
    let t : Text := [CodePoint.ofNat 0x1F600, CodePoint.ofChar 'J', CodePoint.ofNat 0x1F600,
      CodePoint.quote, CodePoint.ofNat 0xE9]
    let s : Text := [Text.ofString "\\uD83d\\uDe00", "\\u004a", [CodePoint.ofNat 0x1F600],
      "\\\x22", "\\u00E9"].flatten
    (∀ c ∈ t, c.IsScalar) ∧ t.Spells s ∧
      tokens {} (CodePoint.quote :: s ++ [CodePoint.quote]) = .ok [⟨.string t, 0⟩] := by
  intro t s
  have hscalar : ∀ c ∈ t, c.IsScalar := by decide
  have hpair : (CodePoint.ofNat 0x1F600).Spells (Text.ofString "\\uD83d\\uDe00") := by
    rw [show Text.ofString "\\uD83d\\uDe00" = CodePoint.hexEscape (fun i => i == 0) 0xD83D ++
      CodePoint.hexEscape (fun i => i == 0) 0xDE00 by decide]
    exact .pair (by decide) _ _
  have hletter : (CodePoint.ofChar 'J').Spells (Text.ofString "\\u004a") :=
    .number (by decide) fun _ => false
  have haccent : (CodePoint.ofNat 0xE9).Spells (Text.ofString "\\u00E9") :=
    .number (by decide) fun _ => true
  have h : t.Spells s := .cons hpair <| .cons hletter <|
    .cons (.itself (by decide) (by decide) (by decide) (by decide)) <|
      .cons (.short (by decide)) <| .cons haccent .nil
  exact ⟨hscalar, h, tokens_spelled hscalar h (by decide) (by decide)⟩

end Reckon
