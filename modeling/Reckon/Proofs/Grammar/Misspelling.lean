import Mathlib.Data.Fin.VecNotation
import Reckon.Proofs.Grammar.Escapes

/-!
# Where a string breaks off

What is read as a code point of a string is a spelling of it (`Scan.spells_of_escape`). So a string
that is not read is spelled as it should be up to the place where it breaks off, and what stands
there is the reason (`Scan.breaksOff_of_stringBody`) : the text ends, a line break comes, or a
backslash starts no escape (`LexicalFault.BreaksOff`).
-/

namespace Reckon

/-- The text starts with four hexadecimal digits. -/
def Text.StartsHexFour (t : Text) : Prop :=
  4 ≤ t.length ∧ ∀ c ∈ t.take 4, c.hexValue?.isSome = true

instance (t : Text) : Decidable t.StartsHexFour := inferInstanceAs (Decidable (_ ∧ _))

namespace LexicalFault

/-- The reason why a string breaks off in front of the text. An escape that should have four digits
may be the second one behind the first half of a surrogate pair; the string breaks off in front of
the half then. -/
def BreaksOff (t : Text) : LexicalFault → Prop
  | .openString => t = [] ∨ t = [CodePoint.backslash]
  | .lineBreak => ∃ c rest, t = c :: rest ∧ (c = CodePoint.ofChar '\n' ∨ c = CodePoint.ofChar '\r')
  | .unknownEscape c => ∃ rest, t = CodePoint.backslash :: c :: rest ∧
      (∀ d, (c, d) ∉ CodePoint.shortEscapes) ∧ c ≠ CodePoint.ofChar 'u'
  | .shortUnicodeEscape => ∃ rest : Text,
      t = CodePoint.backslash :: CodePoint.ofChar 'u' :: rest ∧ (¬ rest.StartsHexFour ∨
        ∃ (capitals : Fin 4 → Bool) (high : Nat) (more : Text), Scan.isHighSurrogate high = true ∧
          rest = CodePoint.hexFour capitals high ++
            CodePoint.backslash :: CodePoint.ofChar 'u' :: more ∧ ¬ more.StartsHexFour)
  | _ => False

/-- The fault is one of an escape. -/
def IsEscape : LexicalFault → Bool
  | .unknownEscape _ => true
  | .shortUnicodeEscape => true
  | _ => false

end LexicalFault

namespace CodePoint

/-- A code point with the value of a hexadecimal digit is the digit, in one of the two cases. -/
theorem exists_ofHexDigitIn {c : CodePoint} {k : Nat} (h : c.hexValue? = some k) :
    k < 16 ∧ ∃ capital, c = ofHexDigitIn capital k := by
  have hval := c.ofNat_val
  unfold hexValue? isDigit between at h
  simp only [Bool.and_eq_true, decide_eq_true_eq] at h
  split_ifs at h with hd hl hu <;> obtain rfl := Option.some.inj h
  · have hd : 48 ≤ c.val ∧ c.val ≤ 57 := hd
    refine ⟨by omega, false, ?_⟩
    rw [ofHexDigitIn, if_neg (by simp), ofHexDigit, if_pos (by omega),
      show 48 + (c.val - 48) % 16 = c.val by omega, hval]
  · have hl : 97 ≤ c.val ∧ c.val ≤ 102 := hl
    refine ⟨by omega, false, ?_⟩
    rw [ofHexDigitIn, if_neg (by simp), ofHexDigit, if_neg (by omega),
      show 87 + (c.val - 87) % 16 = c.val by omega, hval]
  · have hu : 65 ≤ c.val ∧ c.val ≤ 70 := hu
    refine ⟨by omega, true, ?_⟩
    rw [ofHexDigitIn, if_pos ⟨rfl, by omega⟩, show 55 + (c.val - 55) % 16 = c.val by omega, hval]

theorem spells_number {n : Nat} (h : n < 0x10000) (capitals : Fin 4 → Bool) :
    (ofNat n).Spells (hexEscape capitals n) := by
  have hval : (ofNat n).val = n := val_ofNat (by omega)
  have hspells := Spells.number (c := ofNat n) (by omega) capitals
  rwa [hval] at hspells

/-- Two halves of a surrogate pair spell the code point of the pair. -/
theorem spells_pair {high low : Nat} (hhigh : Scan.isHighSurrogate high = true)
    (hlow : Scan.isLowSurrogate low = true) (capitals capitals' : Fin 4 → Bool) :
    (ofNat (0x10000 + (high - 0xD800) * 1024 + (low - 0xDC00))).Spells
      (hexEscape capitals high ++ hexEscape capitals' low) := by
  simp only [Scan.isHighSurrogate, Scan.isLowSurrogate, Bool.and_eq_true,
    decide_eq_true_eq] at hhigh hlow
  generalize hc : ofNat (0x10000 + (high - 0xD800) * 1024 + (low - 0xDC00)) = c
  have hval : c.val = 0x10000 + (high - 0xD800) * 1024 + (low - 0xDC00) := by
    rw [← hc, val_ofNat (by omega)]
  have hspells := Spells.pair (c := c) (by omega) capitals capitals'
  rwa [show c.highHalf = high by unfold highHalf; omega,
    show c.lowHalf = low by unfold lowHalf; omega] at hspells

end CodePoint

namespace Scan

variable {t : Text}

/-! ## What is read is spelled -/

theorem hexFour?_isSome_iff : (hexFour? t).isSome = true ↔ t.StartsHexFour := by
  unfold hexFour? Text.StartsHexFour
  split
  · simp [Option.isSome_iff_exists, Option.bind_eq_some_iff]
  · rename_i h
    rcases t with - | ⟨a, - | ⟨b, - | ⟨c, - | ⟨d, rest⟩⟩⟩⟩
    · simp
    · simp
    · simp
    · simp
    · exact (h a b c d rest rfl).elim

theorem not_startsHexFour (h : hexFour? t = none) : ¬ t.StartsHexFour := by
  rw [← hexFour?_isSome_iff, h]
  exact Bool.false_ne_true

/-- Four digits that are read are the digits of their number. -/
theorem exists_hexFour {n : Nat} (h : hexFour? t = some n) :
    n < 0x10000 ∧ ∃ capitals, t = CodePoint.hexFour capitals n ++ t.drop 4 := by
  unfold hexFour? at h
  split at h
  · simp only [Option.bind_eq_bind, Option.bind_eq_some_iff, Option.pure_def,
      Option.some.injEq] at h
    obtain ⟨i, ha, j, hb, k, hc, l, hd, rfl⟩ := h
    obtain ⟨hi, capital₀, rfl⟩ := CodePoint.exists_ofHexDigitIn ha
    obtain ⟨hj, capital₁, rfl⟩ := CodePoint.exists_ofHexDigitIn hb
    obtain ⟨hk, capital₂, rfl⟩ := CodePoint.exists_ofHexDigitIn hc
    obtain ⟨hl, capital₃, rfl⟩ := CodePoint.exists_ofHexDigitIn hd
    refine ⟨by omega, ![capital₀, capital₁, capital₂, capital₃], ?_⟩
    have hfirst : (((i * 16 + j) * 16 + k) * 16 + l) / 4096 = i := by omega
    have hsecond : (((i * 16 + j) * 16 + k) * 16 + l) / 256 % 16 = j := by omega
    have hthird : (((i * 16 + j) * 16 + k) * 16 + l) / 16 % 16 = k := by omega
    have hfourth : (((i * 16 + j) * 16 + k) * 16 + l) % 16 = l := by omega
    rw [CodePoint.hexFour, hfirst, ← CodePoint.ofHexDigitIn_mod _ (_ / 256), hsecond,
      ← CodePoint.ofHexDigitIn_mod _ (_ / 16), hthird,
      ← CodePoint.ofHexDigitIn_mod _ (_ * 16 + l), hfourth]
    rfl
  · cases h

theorem spells_of_unicodeEscape {c : CodePoint} {n : Nat} (h : unicodeEscape t = .ok (c, n)) :
    n ≤ t.length ∧ c.Spells (CodePoint.backslash :: CodePoint.ofChar 'u' :: t.take n) := by
  cases hhigh : hexFour? t with
  | none =>
    rw [unicodeEscape, hhigh] at h
    cases h
  | some high =>
    obtain ⟨hlt, capitals, ht⟩ := exists_hexFour hhigh
    have hfour : ∀ {c n}, Except.ok (CodePoint.ofNat high, 4) =
        (Except.ok (c, n) : Except LexicalFault (CodePoint × Nat)) → n ≤ t.length ∧
          c.Spells (CodePoint.backslash :: CodePoint.ofChar 'u' :: t.take n) := by
      intro c n hc
      obtain ⟨rfl, rfl⟩ := Prod.mk.inj (Except.ok.inj hc)
      rw [ht]
      exact ⟨Nat.le_add_left 4 _, CodePoint.spells_number hlt capitals⟩
    simp only [unicodeEscape, hhigh] at h
    split at h
    · rename_i hs
      split at h
      · exact hfour h
      rename_i rest hrest
      split at h
      · cases h
      rename_i low hlow
      split at h
      · rename_i hs'
        obtain ⟨rfl, rfl⟩ := Prod.mk.inj (Except.ok.inj h)
        obtain ⟨-, capitals', hrest'⟩ := exists_hexFour hlow
        rw [ht, furtherEscape?_eq_some hrest, hrest']
        exact ⟨Nat.le_add_left 10 _, CodePoint.spells_pair hs hs' capitals capitals'⟩
      · exact hfour h
    · exact hfour h

theorem mem_shortEscapes {letter c : CodePoint} (h : shortEscape? letter = some c) :
    (letter, c) ∈ CodePoint.shortEscapes := by
  unfold shortEscape? at h
  repeat' rcases of_ite_eq_some h with ⟨hletter, rfl⟩ | h
  · rcases hletter with rfl | rfl | rfl | rfl <;> decide
  all_goals first | cases h | (subst hletter; decide)

/-- An escape that is read spells its code point. -/
theorem spells_of_escape {c : CodePoint} {n : Nat} (h : escape t = .ok (c, n)) :
    n ≤ t.length ∧ c.Spells (CodePoint.backslash :: t.take n) := by
  unfold escape at h
  split at h
  · cases h
  rename_i e rest
  split at h
  · rename_i d hd
    obtain ⟨rfl, rfl⟩ := Prod.mk.inj (Except.ok.inj h)
    exact ⟨Nat.le_add_left 1 _, .short (mem_shortEscapes hd)⟩
  split at h
  · rename_i hu
    split at h
    · cases h
    · rename_i d k hunicode
      obtain ⟨rfl, rfl⟩ := Prod.mk.inj (Except.ok.inj h)
      obtain ⟨hk, hspells⟩ := spells_of_unicodeEscape hunicode
      rw [hu]
      exact ⟨Nat.succ_le_succ hk, hspells⟩
  · cases h

/-! ## What is not read -/

theorem breaksOff_of_unicodeEscape {f : LexicalFault} (h : unicodeEscape t = .error f) :
    f.BreaksOff (CodePoint.backslash :: CodePoint.ofChar 'u' :: t) := by
  unfold unicodeEscape at h
  split at h
  · rename_i hnone
    obtain rfl := Except.error.inj h
    exact ⟨t, rfl, .inl (not_startsHexFour hnone)⟩
  rename_i high hhigh
  split at h
  · rename_i hs
    split at h
    · cases h
    rename_i rest hrest
    split at h
    · rename_i hnone
      obtain rfl := Except.error.inj h
      obtain ⟨-, capitals, ht⟩ := exists_hexFour hhigh
      refine ⟨t, rfl, .inr ⟨capitals, high, rest, hs, ?_, not_startsHexFour hnone⟩⟩
      rwa [furtherEscape?_eq_some hrest] at ht
    · split at h <;> cases h
  · cases h

theorem breaksOff_of_escape {f : LexicalFault} (h : escape t = .error f) :
    f.BreaksOff (CodePoint.backslash :: t) := by
  unfold escape at h
  split at h
  · obtain rfl := Except.error.inj h
    exact .inr rfl
  rename_i e rest
  split at h
  · cases h
  rename_i hshort
  split at h
  · rename_i hu
    split at h
    · rename_i g hunicode
      obtain rfl := Except.error.inj h
      rw [hu]
      exact breaksOff_of_unicodeEscape hunicode
    · cases h
  · rename_i hu
    obtain rfl := Except.error.inj h
    refine ⟨rest, rfl, fun d hd => ?_, hu⟩
    rw [shortEscape?_of_mem hd] at hshort
    cases hshort

/-- A fault behind a backslash is one of the escape, or the text ends there. -/
theorem escapeFault_of_breaksOff {f : LexicalFault} (h : f.BreaksOff (CodePoint.backslash :: t))
    (offset : Nat) : escapeFault offset f = (f, if f.IsEscape then offset else 0) := by
  cases f with
  | openString | unknownEscape | shortUnicodeEscape => rfl
  | lineBreak =>
    obtain ⟨c, rest, ht, hc⟩ := h
    obtain ⟨rfl, -⟩ := List.cons.inj ht
    exact absurd hc (by decide)
  | loneColon | strayCodePoint | missingExponent | runOnNumber | described => exact h.elim

/-- A string that is not read is a spelling up to the place where it breaks off. -/
theorem breaksOff_of_stringBody {offset o : Nat} {f : LexicalFault}
    (h : stringBody offset t = .error (f, o)) :
    ∃ v s tail, Text.Spells v s ∧ t = s ++ tail ∧ f.BreaksOff tail ∧
      o = if f.IsEscape then offset + s.length else 0 := by
  fun_induction stringBody offset t with
  | case1 offset =>
    obtain ⟨rfl, rfl⟩ := Prod.mk.inj (Except.error.inj h)
    exact ⟨[], [], [], .nil, rfl, .inl rfl, rfl⟩
  | case2 | case5 | case8 => cases h
  | case3 offset rest g hescape =>
    have hbreaks := breaksOff_of_escape hescape
    rw [escapeFault_of_breaksOff hbreaks] at h
    obtain ⟨rfl, rfl⟩ := Prod.mk.inj (Except.error.inj h)
    exact ⟨[], [], _, .nil, rfl, hbreaks, rfl⟩
  | case4 offset rest d n hescape g hbody hq ih =>
    obtain ⟨hn, hspells⟩ := spells_of_escape hescape
    obtain ⟨v, s, tail, hs, hrest, hbreaks, rfl⟩ := ih (hbody.trans h)
    refine ⟨d :: v, CodePoint.backslash :: rest.take n ++ s, tail, .cons hspells hs, ?_, hbreaks,
      ?_⟩
    · rw [List.append_assoc, ← hrest, List.cons_append, List.take_append_drop]
    · rw [List.length_append, List.length_cons, List.length_take_of_le hn]
      split <;> omega
  | case6 offset c rest hq hb hbreak =>
    obtain ⟨rfl, rfl⟩ := Prod.mk.inj (Except.error.inj h)
    exact ⟨[], [], _, .nil, rfl, ⟨c, rest, rfl, hbreak⟩, rfl⟩
  | case7 offset c rest hq hb hbreak g hbody ih =>
    obtain ⟨v, s, tail, hs, rfl, hbreaks, rfl⟩ := ih (hbody.trans h)
    obtain ⟨hline, hreturn⟩ := not_or.1 hbreak
    refine ⟨c :: v, [c] ++ s, tail, .cons (.itself hq hb hline hreturn) hs, rfl, hbreaks, ?_⟩
    rw [List.length_append, List.length_singleton]
    split <;> omega

end Scan

end Reckon
