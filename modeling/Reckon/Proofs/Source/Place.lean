import Mathlib.Tactic.Common
import Reckon.Proofs.Grammar.Munch
import Reckon.Proofs.Grammar.Soundness
import Reckon.Source.Statements

/-!
# Where a code point stands

Four scanners go through an expression : one finds the ends of strings, one the ends of calls,
one the ends of statements, and one reads the lexemes of a statement. They keep track of
strings, escapes and parentheses in different ways. `Place` is what they agree on : a place in
code or in a string, or behind a backslash in a string, with the number of open parentheses.
`Place.run` follows a text, and stops at what no statement can contain : a backslash or a
backtick outside of strings, or a parenthesis that closes nothing.

A statement that is read leads from code to code and closes what it opens
(`Place.run_of_parse`).
-/

namespace Reckon

/-- Where a code point stands, with the number of open parentheses around. -/
inductive Place where
  /-- Outside of strings. -/
  | code (depth : Nat)
  /-- In a string. -/
  | string (depth : Nat)
  /-- Behind a backslash in a string. -/
  | escape (depth : Nat)
  deriving DecidableEq

/-- The code point has no meaning for strings, calls and statements but in a word. -/
def CodePoint.isPlain (c : CodePoint) : Bool :=
  c != quote && c != backslash && c != backtick && c != ofChar '(' && c != ofChar ')'

theorem CodePoint.isPlain_iff {c : CodePoint} : c.isPlain = true ↔ c ≠ quote ∧ c ≠ backslash ∧
    c ≠ backtick ∧ c ≠ ofChar '(' ∧ c ≠ ofChar ')' := by
  simp only [isPlain, Bool.and_eq_true, bne_iff_ne, and_assoc]

/-- A property that none of the five other code points has makes a code point plain. -/
theorem CodePoint.isPlain_of {P : CodePoint → Bool} {c : CodePoint} (h : P c = true)
    (hP : ∀ d ∈ [quote, backslash, backtick, ofChar '(', ofChar ')'], P d = false) :
    c.isPlain = true := by
  have hne : ∀ d ∈ [quote, backslash, backtick, ofChar '(', ofChar ')'], c ≠ d := by
    rintro d hd rfl
    rw [hP c hd] at h
    cases h
  simp only [List.forall_mem_cons] at hne
  exact isPlain_iff.2 ⟨hne.1, hne.2.1, hne.2.2.1, hne.2.2.2.1, hne.2.2.2.2.1⟩

/-- The code points that numbers are written with. -/
def Numeral.marks : Text := "+-.0123456789Ee"

namespace Place

/-- The place behind a code point. -/
def step : Place → CodePoint → Option Place
  | .code d, c =>
    if c = CodePoint.quote then some (.string d)
    else if c = CodePoint.backslash ∨ c = CodePoint.backtick then none
    else if c = CodePoint.ofChar '(' then some (.code (d + 1))
    else if c = CodePoint.ofChar ')' then
      match d with
      | 0 => none
      | d + 1 => some (.code d)
    else some (.code d)
  | .string d, c =>
    if c = CodePoint.backslash then some (.escape d)
    else if c = CodePoint.quote then some (.code d)
    else some (.string d)
  | .escape d, _ => some (.string d)

/-- The place behind a text. -/
def run (p : Place) (t : Text) : Option Place := t.foldlM step p

/-- The place behind a code point of any text, where a parenthesis that closes nothing does not
count. -/
def follow : Place → CodePoint → Place
  | .code d, c =>
    if c = CodePoint.quote then .string d
    else if c = CodePoint.ofChar '(' then .code (d + 1)
    else if c = CodePoint.ofChar ')' then .code (d - 1)
    else .code d
  | .string d, c =>
    if c = CodePoint.backslash then .escape d
    else if c = CodePoint.quote then .code d
    else .string d
  | .escape d, _ => .string d

/-- The place behind any text. -/
def after (p : Place) (t : Text) : Place := t.foldl follow p

/-- Where a statement goes on, any text does. -/
theorem follow_of_step {p q : Place} {c : CodePoint} (h : p.step c = some q) : p.follow c = q := by
  cases p with
  | code d =>
    simp only [step] at h
    by_cases hq : c = CodePoint.quote
    · subst hq
      exact Option.some.inj h
    rw [if_neg hq] at h
    by_cases hb : c = CodePoint.backslash ∨ c = CodePoint.backtick
    · rw [if_pos hb] at h
      cases h
    rw [if_neg hb] at h
    by_cases hl : c = CodePoint.ofChar '('
    · subst hl
      exact Option.some.inj h
    rw [if_neg hl] at h
    by_cases hr : c = CodePoint.ofChar ')'
    · subst hr
      cases d with
      | zero => cases h
      | succ d => exact Option.some.inj h
    rw [if_neg hr] at h
    rw [follow, if_neg hq, if_neg hl, if_neg hr]
    exact Option.some.inj h
  | string d =>
    simp only [step] at h
    simp only [follow]
    split_ifs at h ⊢ <;> exact Option.some.inj h
  | escape d => exact Option.some.inj h

@[simp] theorem run_nil (p : Place) : p.run [] = some p := rfl

theorem run_cons (p : Place) (c : CodePoint) (t : Text) :
    p.run (c :: t) = (p.step c).bind fun q => q.run t := by
  rw [run, List.foldlM_cons]
  rfl

theorem run_append (p : Place) (t u : Text) :
    p.run (t ++ u) = (p.run t).bind fun q => q.run u := by
  rw [run, List.foldlM_append]
  rfl

/-- A text that is followed to its end is followed through each part. -/
theorem run_append_eq_some_iff {p r : Place} {t u : Text} :
    p.run (t ++ u) = some r ↔ ∃ q, p.run t = some q ∧ q.run u = some r := by
  rw [run_append, Option.bind_eq_some_iff]

variable {d : Nat}

/-- Only a quotation mark leads from code into a string. -/
theorem exists_of_step_code {c : CodePoint} {q : Place} (hc : c ≠ CodePoint.quote)
    (h : step (.code d) c = some q) : ∃ e, q = .code e := by
  simp only [step, if_neg hc] at h
  repeat' split at h
  all_goals cases h <;> exact ⟨_, rfl⟩

/-! ## Plain text -/

theorem step_code_of_isPlain {c : CodePoint} (h : c.isPlain = true) :
    step (.code d) c = some (.code d) := by
  obtain ⟨hq, hb, ht, hl, hr⟩ := CodePoint.isPlain_iff.1 h
  simp only [step, hq, hb, ht, hl, hr, if_false, or_false]

theorem step_string_of_isPlain {c : CodePoint} (h : c.isPlain = true) :
    step (.string d) c = some (.string d) := by
  obtain ⟨hq, hb, -⟩ := CodePoint.isPlain_iff.1 h
  rw [step, if_neg hb, if_neg hq]

theorem run_code_of_isPlain : ∀ {t : Text}, (∀ c ∈ t, c.isPlain = true) →
    run (.code d) t = some (.code d)
  | [], _ => rfl
  | c :: t, h => by
    rw [run_cons, step_code_of_isPlain (h c List.mem_cons_self)]
    exact run_code_of_isPlain fun e he => h e (List.mem_cons_of_mem _ he)

theorem run_string_of_isPlain : ∀ {t : Text}, (∀ c ∈ t, c.isPlain = true) →
    run (.string d) t = some (.string d)
  | [], _ => rfl
  | c :: t, h => by
    rw [run_cons, step_string_of_isPlain (h c List.mem_cons_self)]
    exact run_string_of_isPlain fun e he => h e (List.mem_cons_of_mem _ he)

/-- A code point outside of quoted runs is a backslash, opens a run, is a parenthesis, or is
plain. -/
theorem cases_codePoint (c : CodePoint) : c = CodePoint.backslash ∨
    (c = CodePoint.quote ∨ c = CodePoint.backtick) ∨ c = CodePoint.ofChar '(' ∨
      c = CodePoint.ofChar ')' ∨ c.isPlain = true := by
  by_cases h : c.isPlain = true
  · simp [h]
  · simp only [CodePoint.isPlain, Bool.and_eq_true, bne_iff_ne, not_and_or, not_not] at h
    tauto

theorem isPlain_of_isBlank {c : CodePoint} (h : c.isBlank = true) : c.isPlain = true :=
  CodePoint.isPlain_of h (by decide)

theorem isPlain_of_isGap {c : CodePoint} (h : c.isGap = true) : c.isPlain = true :=
  CodePoint.isPlain_of h (by decide)

theorem isPlain_of_continuesName {c : CodePoint} (h : c.continuesName = true) :
    c.isPlain = true :=
  CodePoint.isPlain_of h (by decide)

theorem isPlain_of_hexValue? {c : CodePoint} {n : Nat} (h : c.hexValue? = some n) :
    c.isPlain = true :=
  CodePoint.isPlain_of (P := fun c => c.hexValue?.isSome) (by simp [h]) (by decide)

end Place

/-! ## Strings -/

/-- Behind a further escape come its backslash, its letter and the rest. -/
theorem Scan.furtherEscape?_eq_some {t rest : Text} (h : furtherEscape? t = some rest) :
    t = CodePoint.backslash :: CodePoint.ofChar 'u' :: rest := by
  unfold furtherEscape? at h
  split at h
  · split at h
    · rename_i hab
      obtain rfl := Option.some.inj h
      rw [hab.1, hab.2]
    · cases h
  · cases h

namespace StringCall

/-- The quoted run that the text starts in is closed by the last of its first `n` code
points. -/
inductive Closing (mark : CodePoint) : Text → Nat → Prop
  | mark (rest : Text) (hm : mark ≠ CodePoint.backslash) : Closing mark (mark :: rest) 1
  | escape (c : CodePoint) {rest : Text} {n : Nat} (h : Closing mark rest n) :
    Closing mark (CodePoint.backslash :: c :: rest) (n + 2)
  | other {c : CodePoint} {rest : Text} {n : Nat} (hb : c ≠ CodePoint.backslash) (hm : c ≠ mark)
    (h : Closing mark rest n) : Closing mark (c :: rest) (n + 1)

namespace Closing

variable {mark : CodePoint} {t v : Text} {k n : Nat}

theorem append (h : Closing mark t n) (x : Text) : Closing mark (t ++ x) n := by
  induction h with
  | mark rest hm => exact .mark _ hm
  | escape c h ih => exact .escape c ih
  | other hb hm h ih => exact .other hb hm ih

theorem le_length (h : Closing mark t n) : n ≤ t.length := by
  induction h with
  | mark rest hm => exact Nat.le_add_left 1 _
  | escape c h ih => exact Nat.add_le_add_right ih 2
  | other hb hm h ih => exact Nat.add_le_add_right ih 1

/-- A string leads out of the string at its closing mark. -/
theorem run_take (h : Closing CodePoint.quote t n) (d : Nat) :
    Place.run (.string d) (t.take n) = some (.code d) := by
  induction h with
  | mark rest hm => rfl
  | escape c h ih => exact ih
  | other hb hm h ih =>
    rw [List.take_succ_cons, Place.run_cons, Place.step, if_neg hb, if_neg hm]
    exact ih

theorem of_isPlain {c : CodePoint} (hc : c.isPlain = true) (h : Closing CodePoint.quote t n) :
    Closing CodePoint.quote (c :: t) (n + 1) :=
  let ⟨hq, hb, _⟩ := CodePoint.isPlain_iff.1 hc
  .other hb hq h

theorem of_hexFour (ht : Scan.hexFour? t = some k) (h : Closing CodePoint.quote (t.drop 4) n) :
    Closing CodePoint.quote t (n + 4) := by
  unfold Scan.hexFour? at ht
  split at ht
  · simp only [Option.bind_eq_bind, Option.bind_eq_some_iff] at ht
    obtain ⟨_, ha, _, hb, _, hc, _, hd, -⟩ := ht
    exact of_isPlain (Place.isPlain_of_hexValue? ha) <|
      of_isPlain (Place.isPlain_of_hexValue? hb) <|
      of_isPlain (Place.isPlain_of_hexValue? hc) <| of_isPlain (Place.isPlain_of_hexValue? hd) h
  · cases ht

theorem of_unicodeEscape {c : CodePoint} (ht : Scan.unicodeEscape t = .ok (c, k))
    (h : Closing CodePoint.quote (t.drop k) n) : Closing CodePoint.quote t (n + k) := by
  unfold Scan.unicodeEscape at ht
  split at ht
  · cases ht
  rename_i high hhigh
  have hfour (hk : 4 = k) : Closing CodePoint.quote t (n + k) := by
    subst hk
    exact of_hexFour hhigh h
  split at ht
  · split at ht
    · exact hfour (Prod.mk.inj (Except.ok.inj ht)).2
    rename_i rest hrest
    split at ht
    · cases ht
    rename_i low hlow
    split at ht
    · -- Four digits, a backslash, its letter and four more digits.
      obtain ⟨-, rfl⟩ := Prod.mk.inj (Except.ok.inj ht)
      have hdrop := Scan.furtherEscape?_eq_some hrest
      have hten : t.drop 10 = rest.drop 4 := by
        rw [show 10 = 4 + 6 by rfl, ← List.drop_drop, hdrop]
        rfl
      rw [hten] at h
      refine of_hexFour (n := n + 6) hhigh ?_
      rw [hdrop]
      exact .escape _ (of_hexFour hlow h)
    · exact hfour (Prod.mk.inj (Except.ok.inj ht)).2
  · exact hfour (Prod.mk.inj (Except.ok.inj ht)).2

theorem of_escape {c : CodePoint} (ht : Scan.escape t = .ok (c, k))
    (h : Closing CodePoint.quote (t.drop k) n) :
    Closing CodePoint.quote (CodePoint.backslash :: t) (n + 1 + k) := by
  unfold Scan.escape at ht
  split at ht
  · cases ht
  rename_i e rest
  split at ht
  · obtain ⟨-, rfl⟩ := Prod.mk.inj (Except.ok.inj ht)
    exact .escape e h
  split at ht
  · split at ht
    · cases ht
    · rename_i m hu
      obtain ⟨-, rfl⟩ := Prod.mk.inj (Except.ok.inj ht)
      rw [show n + 1 + (m + 1) = n + m + 2 by omega]
      exact .escape e (of_unicodeEscape hu h)
  · cases ht

/-- A string is closed where its body ends. -/
theorem of_stringBody {offset : Nat} (h : Scan.stringBody offset t = .ok (v, n)) :
    Closing CodePoint.quote t n := by
  fun_induction Scan.stringBody offset t generalizing v n with
  | case1 | case3 | case4 | case6 | case7 => cases h
  | case2 offset rest =>
    obtain ⟨-, rfl⟩ := Prod.mk.inj (Except.ok.inj h)
    exact .mark rest (by decide)
  | case5 offset rest d k hescape value m hbody hq ih =>
    obtain ⟨-, rfl⟩ := Prod.mk.inj (Except.ok.inj h)
    exact of_escape hescape (ih hbody)
  | case8 offset c rest hq hb hbreak value m hbody ih =>
    obtain ⟨-, rfl⟩ := Prod.mk.inj (Except.ok.inj h)
    exact .other hb hq (ih hbody)

end Closing

end StringCall

namespace Place

variable {d : Nat}

/-! ## Numbers -/

theorem digits_eq {t : Text} : ∀ {ds : List Digit} {rest : Text}, Scan.digits t = (ds, rest) →
    t = Text.ofDigits ds ++ rest := by
  induction t with
  | nil =>
    intro ds rest h
    obtain ⟨rfl, rfl⟩ := Prod.mk.inj h
    rfl
  | cons c t ih =>
    intro ds rest h
    rw [Scan.digits] at h
    split at h
    · rename_i e he
      obtain ⟨rfl, rfl⟩ := Prod.mk.inj h
      rw [← Digit.codePoint_of_ofCodePoint? he]
      exact congrArg _ (ih rfl)
    · obtain ⟨rfl, rfl⟩ := Prod.mk.inj h
      rfl

theorem fraction_eq {t rest : Text} {f : Option (List Digit)} (h : Scan.fraction t = (f, rest)) :
    t = Numeral.fractionText f ++ rest := by
  unfold Scan.fraction at h
  split at h
  · obtain ⟨rfl, rfl⟩ := Prod.mk.inj h
    rfl
  split at h
  · rename_i c t hc
    obtain ⟨rfl, rfl⟩ := Prod.mk.inj h
    subst hc
    exact congrArg _ (digits_eq rfl)
  · obtain ⟨rfl, rfl⟩ := Prod.mk.inj h
    rfl

theorem sign_eq {t rest : Text} {s : Option Sign} (h : Scan.sign t = (s, rest)) :
    t = Sign.optionText s ++ rest := by
  unfold Scan.sign at h
  split at h
  · obtain ⟨rfl, rfl⟩ := Prod.mk.inj h
    rfl
  split at h
  · rename_i c t _ s' hs
    obtain ⟨rfl, rfl⟩ := Prod.mk.inj h
    unfold Sign.ofCodePoint? at hs
    split at hs
    · obtain rfl := Option.some.inj hs
      subst c
      rfl
    split at hs
    · obtain rfl := Option.some.inj hs
      subst c
      rfl
    · cases hs
  · obtain ⟨rfl, rfl⟩ := Prod.mk.inj h
    rfl

theorem power_eq {t rest : Text} {p : Option Power} (h : Scan.power t = .ok (p, rest)) :
    t = (p.map Power.text).getD [] ++ rest := by
  unfold Scan.power at h
  split at h
  · obtain ⟨rfl, rfl⟩ := Prod.mk.inj (Except.ok.inj h)
    rfl
  rename_i c t
  split at h
  · rename_i hc
    simp only at h
    split at h
    · cases h
    rename_i e es after hds
    obtain ⟨rfl, rfl⟩ := Prod.mk.inj (Except.ok.inj h)
    have hsign : t = Sign.optionText (Scan.sign t).1 ++ (Scan.sign t).2 := sign_eq rfl
    have hletter : CodePoint.ofChar (if decide (c = CodePoint.ofChar 'E') then 'E' else 'e') =
        c := by
      rcases hc with rfl | rfl <;> decide
    simp only [Option.map_some, Option.getD_some, Power.text, hletter, List.cons_append,
      List.append_assoc]
    rw [← digits_eq hds, ← hsign]
  · obtain ⟨rfl, rfl⟩ := Prod.mk.inj (Except.ok.inj h)
    rfl

/-- What is scanned as a numeral is the numeral as it is written. -/
theorem numeral_eq {t rest : Text} {n : Numeral} (h : Scan.numeral t = .ok (n, rest)) :
    t = n.text ++ rest := by
  unfold Scan.numeral at h
  simp only at h
  split at h
  · cases h
  rename_i p after hp
  obtain ⟨rfl, rfl⟩ := Prod.mk.inj (Except.ok.inj h)
  have hwhole : t = Text.ofDigits (Scan.digits t).1 ++ (Scan.digits t).2 := digits_eq rfl
  have hplaces : (Scan.digits t).2 = Numeral.fractionText (Scan.fraction (Scan.digits t).2).1 ++
      (Scan.fraction (Scan.digits t).2).2 := fraction_eq rfl
  simp only [Numeral.text, List.append_assoc]
  rw [← power_eq hp, ← hplaces, ← hwhole]

theorem mem_marks_of_ofDigits {ds : List Digit} {c : CodePoint} (h : c ∈ Text.ofDigits ds) :
    c ∈ Numeral.marks := by
  have hdigit : ∀ e : Digit, e.codePoint ∈ Numeral.marks := by decide
  obtain ⟨e, -, rfl⟩ := List.mem_map.1 h
  exact hdigit e

theorem mem_marks_of_optionText {s : Option Sign} {c : CodePoint} (h : c ∈ Sign.optionText s) :
    c ∈ Numeral.marks := by
  have hsign : ∀ s : Sign, s.codePoint ∈ Numeral.marks := by
    rintro (- | -) <;> decide
  cases s with
  | none => cases h
  | some s =>
    obtain rfl := List.mem_singleton.1 h
    exact hsign s

/-- A numeral is written with digits, a point, signs and the letter of its power. -/
theorem mem_marks_of_text {n : Numeral} {c : CodePoint} (h : c ∈ n.text) : c ∈ Numeral.marks := by
  obtain ⟨whole, f, p⟩ := n
  rcases List.mem_append.1 h with h | h
  · rcases List.mem_append.1 h with h | h
    · exact mem_marks_of_ofDigits h
    · rcases f with - | ds
      · cases h
      rcases List.mem_cons.1 h with rfl | h
      · decide
      · exact mem_marks_of_ofDigits h
  · rcases p with - | ⟨capital, s, ds⟩
    · cases h
    have hletter : ∀ b : Bool, CodePoint.ofChar (if b then 'E' else 'e') ∈ Numeral.marks := by
      decide
    rcases List.mem_cons.1 h with rfl | h
    · exact hletter capital
    rcases List.mem_append.1 h with h | h
    · exact mem_marks_of_optionText h
    · exact mem_marks_of_ofDigits h

theorem isPlain_of_mem_marks : ∀ c ∈ Numeral.marks, c.isPlain = true := by
  decide

/-! ## Lexemes -/

/-- The depth behind a lexeme, if it is not a parenthesis that closes nothing. -/
def depthAfter (d : Nat) : Lexeme → Option Nat
  | .left => some (d + 1)
  | .right =>
    match d with
    | 0 => none
    | d + 1 => some d
  | _ => some d

theorem run_mark {c : CodePoint} {l : Lexeme} (h : Scan.mark? c = some l) :
    run (.code d) [c] = (depthAfter d l).map .code := by
  unfold Scan.mark? at h
  repeat' rcases Scan.of_ite_eq_some h with ⟨rfl, rfl⟩ | h
  all_goals first | (cases d <;> rfl) | cases h

/-- A lexeme leads from code to code, and only a parenthesis changes the depth. -/
theorem run_scan {c : CodePoint} {rest : Text} {l : Lexeme} {n : Nat}
    (h : Scan.scan c rest = .ok (l, n)) :
    0 < n ∧ run (.code d) ((c :: rest).take n) = (depthAfter d l).map .code := by
  cases Scan.scanned_of_scan h with
  | define hc hrest =>
    subst hc hrest
    exact ⟨Nat.two_pos, rfl⟩
  | mark hmark => exact ⟨Nat.one_pos, run_mark hmark⟩
  | string hc hbody =>
    subst hc
    exact ⟨Nat.succ_pos _, (StringCall.Closing.of_stringBody hbody).run_take d⟩
  | @number m after hm hnumeral =>
    obtain ⟨e, tail, htext, -⟩ := Scan.startsNumber_text hm []
    refine ⟨by rw [htext]; exact Nat.succ_pos _, ?_⟩
    rw [numeral_eq hnumeral, List.take_left]
    exact run_code_of_isPlain fun c hc => isPlain_of_mem_marks c (mem_marks_of_text hc)
  | word hc =>
    have hstart := CodePoint.continuesName_of_startsName hc
    have htake : (c :: rest).take (c :: rest.takeWhile CodePoint.continuesName).length =
        c :: rest.takeWhile CodePoint.continuesName := by
      rw [List.length_cons, List.take_succ_cons]
      exact congrArg _ (List.prefix_iff_eq_take.1 (List.takeWhile_prefix _)).symm
    have hplain : ∀ e ∈ c :: rest.takeWhile CodePoint.continuesName, e.isPlain = true :=
      List.forall_mem_cons.2 ⟨isPlain_of_continuesName hstart,
        fun e he => isPlain_of_continuesName (List.all_eq_true.1 List.all_takeWhile e he)⟩
    refine ⟨Nat.succ_pos _, ?_⟩
    rw [htake, run_code_of_isPlain hplain, Scan.word]
    split <;> rfl

/-- A text is a lexeme at its start and what comes behind it. -/
theorem take_append_drop_scanned {c : CodePoint} {rest : Text} {n : Nat} (hn : 0 < n) :
    (c :: rest).take n ++ rest.drop (n - 1) = c :: rest := by
  obtain ⟨m, rfl⟩ := Nat.exists_eq_succ_of_ne_zero (Nat.ne_of_gt hn)
  exact List.take_append_drop (m + 1) (c :: rest)

/-- The tokens of a text tell where it leads : their parentheses are all that counts. -/
theorem run_tokensFrom {limits : Limits} : ∀ (t : Text) {position d : Nat} {ts : List Token},
    Scan.tokensFrom limits position t = .ok ts →
    run (.code d) t = ((ts.map Token.lexeme).foldlM depthAfter d).map .code
  | [], _, _, _, h => by
    rw [Scan.tokensFrom] at h
    obtain rfl := Except.ok.inj h
    rfl
  | c :: rest, position, d, ts, h => by
    cases hgap : c.isGap with
    | true =>
      rw [Scan.tokensFrom, if_pos hgap] at h
      rw [run_cons, step_code_of_isPlain (isPlain_of_isGap hgap)]
      exact run_tokensFrom rest h
    | false =>
      obtain ⟨l, n, more, hscan, rfl, hmore⟩ := Scan.cons_of_tokensFrom hgap h
      obtain ⟨hn, hrun⟩ := run_scan (d := d) hscan
      rw [← take_append_drop_scanned hn, run_append, hrun, List.map_cons, List.foldlM_cons]
      cases depthAfter d l with
      | none => rfl
      | some e => exact run_tokensFrom (rest.drop (n - 1)) hmore
termination_by t => t.length
decreasing_by all_goals (simp only [List.length_cons, List.length_drop]; omega)

/-! ## Statements -/

mutual

/-- An expression closes the parentheses that it opens. -/
theorem foldlM_lexemes : ∀ (e : Expr) (d : Nat), e.lexemes.foldlM depthAfter d = some d
  | .number ⟨none, _⟩ _, d | .number ⟨some _, _⟩ _, d | .string .., d | .variable .., d => rfl
  | .group inner _, d => by
    rw [Expr.lexemes, List.foldlM_append]
    simp only [List.foldlM_cons, depthAfter, Option.bind_eq_bind, Option.bind_some,
      foldlM_lexemes inner]
    rfl
  | .binary op left right _, d => by
    rw [Expr.lexemes, List.foldlM_append, foldlM_lexemes left]
    exact foldlM_lexemes right d
  | .call n arguments _, d => by
    rw [Expr.lexemes, List.foldlM_append]
    simp only [List.foldlM_cons, depthAfter, Option.bind_eq_bind, Option.bind_some,
      foldlM_lexemesOfAll arguments]
    rfl

theorem foldlM_lexemesOfAll : ∀ (es : List Expr) (d : Nat),
    (Expr.lexemesOfAll es).foldlM depthAfter d = some d
  | [], d => rfl
  | [e], d => foldlM_lexemes e d
  | e :: f :: rest, d => by
    rw [Expr.lexemesOfAll, List.foldlM_append, foldlM_lexemes e]
    exact foldlM_lexemesOfAll (f :: rest) d

end

/-- A statement that is read leads from code to code and closes what it opens. -/
theorem run_of_parse {limits : Limits} {source : Text} {st : Statement}
    (h : Statement.parse limits source = .ok st) : run (.code 0) source = some (.code 0) := by
  obtain ⟨ts, hts, ⟨us, vs, rfl, hf, he⟩, -⟩ := Statement.spelled_of_parse h
  obtain ⟨form, e, text⟩ := st
  rw [run_tokensFrom source (Scan.tokensFrom_of_tokens hts), List.map_append, he.map_lexeme,
    List.foldlM_append]
  cases hf <;> exact congrArg _ (foldlM_lexemes _ 0)

end Place

end Reckon
