import Reckon.Proofs.Source.Place

/-!
# The rewriting of bare arguments

Before an expression is cut into statements, the bare arguments of `string` become literals.
This follows the rewriting with `Place.run`. A quoted run that is closed ends at the same mark
for the rewriting as for a reader (`StringCall.Closing`), and so does a call of `string` at
the parenthesis that closes it (`StringCall.Argument`). If the rewritten text closes all that
it opens, then no string and no call of the text itself was left open, for an open call would
leave a parenthesis open (`StringCall.exists_argument`). What comes behind a semicolon at the
end of the text can therefore not change the rewriting (`StringCall.replaceArguments_append`).
-/

namespace Reckon

/-- The mark between two statements. -/
def CodePoint.semicolon : CodePoint := ofChar ';'

namespace StringCall

open Place

/-! ## The scanners, one code point at a time -/

theorem quotedLength_backslash (mark c : CodePoint) (rest : Text) :
    quotedLength mark (CodePoint.backslash :: c :: rest) = quotedLength mark rest + 2 := by
  rw [quotedLength.eq_def]
  simp only [if_pos]

theorem quotedLength_cons (mark : CodePoint) {c : CodePoint} (rest : Text)
    (hb : c ≠ CodePoint.backslash) : quotedLength mark (c :: rest) =
      if c = mark then 1 else quotedLength mark rest + 1 := by
  rw [quotedLength.eq_def]
  simp only [if_neg hb]

section

variable (mark : Option CodePoint) (k : Nat) (rest : Text)

theorem argumentLength?_backslash (c : CodePoint) :
    argumentLength? mark k (CodePoint.backslash :: c :: rest) =
      (argumentLength? mark k rest).map (· + 2) := by
  rw [argumentLength?.eq_def]
  simp only [if_pos]

theorem argumentLength?_lone : argumentLength? mark k [CodePoint.backslash] = none := by
  rw [argumentLength?.eq_def]
  rfl

theorem argumentLength?_some (m : CodePoint) {c : CodePoint} (hb : c ≠ CodePoint.backslash) :
    argumentLength? (some m) k (c :: rest) =
      (argumentLength? (if c = m then none else some m) k rest).map (· + 1) := by
  rw [argumentLength?.eq_def]
  simp only [if_neg hb]

theorem argumentLength?_mark {c : CodePoint}
    (hc : c = CodePoint.quote ∨ c = CodePoint.backtick) :
    argumentLength? none k (c :: rest) = (argumentLength? (some c) k rest).map (· + 1) := by
  have hb : c ≠ CodePoint.backslash := by rcases hc with rfl | rfl <;> decide
  rw [argumentLength?.eq_def]
  simp only [if_neg hb, if_pos hc]

theorem argumentLength?_left : argumentLength? none k (CodePoint.ofChar '(' :: rest) =
    (argumentLength? none (k + 1) rest).map (· + 1) := by
  rw [argumentLength?.eq_def]
  rfl

theorem argumentLength?_right_zero :
    argumentLength? none 0 (CodePoint.ofChar ')' :: rest) = some 0 := by
  rw [argumentLength?.eq_def]
  rfl

theorem argumentLength?_right_succ :
    argumentLength? none (k + 1) (CodePoint.ofChar ')' :: rest) =
      (argumentLength? none k rest).map (· + 1) := by
  rw [argumentLength?.eq_def]
  rfl

theorem argumentLength?_of_isPlain {c : CodePoint} (hc : c.isPlain = true) :
    argumentLength? none k (c :: rest) = (argumentLength? none k rest).map (· + 1) := by
  rw [argumentLength?.eq_def]
  simp_all [CodePoint.isPlain]

end

/-! ## Quoted runs -/

theorem Closing.quotedLength_eq {mark : CodePoint} {t : Text} {n : Nat} (h : Closing mark t n) :
    quotedLength mark t = n := by
  induction h with
  | mark rest hm => rw [quotedLength_cons _ _ hm, if_pos rfl]
  | escape c h ih => rw [quotedLength_backslash, ih]
  | other hb hm h ih => rw [quotedLength_cons _ _ hb, if_neg hm, ih]

/-- A string is closed, or takes all of the text and does not lead out of it. -/
theorem closing_or_open : ∀ t : Text, Closing CodePoint.quote t (quotedLength CodePoint.quote t) ∨
    t.length ≤ quotedLength CodePoint.quote t ∧ ∀ d e, run (.string d) t ≠ some (.code e)
  | [] => .inr ⟨Nat.le_refl 0, fun _ _ h => by cases h⟩
  | c :: rest => by
    by_cases hb : c = CodePoint.backslash
    · subst hb
      rcases rest with - | ⟨c, rest⟩
      · exact .inr ⟨Nat.le_refl 1, fun _ _ h => by cases h⟩
      · rw [quotedLength_backslash]
        rcases closing_or_open rest with h | ⟨hlen, hrun⟩
        · exact .inl (.escape c h)
        · exact .inr ⟨Nat.add_le_add_right hlen 2, hrun⟩
    by_cases hq : c = CodePoint.quote
    · subst hq
      rw [quotedLength_cons _ _ hb, if_pos rfl]
      exact .inl (.mark rest hb)
    rw [quotedLength_cons _ _ hb, if_neg hq]
    rcases closing_or_open rest with h | ⟨hlen, hrun⟩
    · exact .inl (.other hb hq h)
    · refine .inr ⟨Nat.add_le_add_right hlen 1, fun d e => ?_⟩
      rw [run_cons, step, if_neg hb, if_neg hq]
      exact hrun d e

/-! ## Ends of calls -/

/-- The first `n` code points are the rest of the argument of a call, in a quoted run if there
is a mark, behind `k` parentheses that are open in it. -/
inductive Argument : Option CodePoint → Nat → Text → Nat → Prop
  | close (rest : Text) : Argument none 0 (CodePoint.ofChar ')' :: rest) 0
  | escape {mark : Option CodePoint} {k : Nat} (c : CodePoint) {rest : Text} {n : Nat}
    (h : Argument mark k rest n) : Argument mark k (CodePoint.backslash :: c :: rest) (n + 2)
  | quoted {mark c : CodePoint} {k : Nat} {rest : Text} {n : Nat} (hb : c ≠ CodePoint.backslash)
    (h : Argument (if c = mark then none else some mark) k rest n) :
    Argument (some mark) k (c :: rest) (n + 1)
  | quote {c : CodePoint} {k : Nat} {rest : Text} {n : Nat}
    (hc : c = CodePoint.quote ∨ c = CodePoint.backtick) (h : Argument (some c) k rest n) :
    Argument none k (c :: rest) (n + 1)
  | left {k : Nat} {rest : Text} {n : Nat} (h : Argument none (k + 1) rest n) :
    Argument none k (CodePoint.ofChar '(' :: rest) (n + 1)
  | right {k : Nat} {rest : Text} {n : Nat} (h : Argument none k rest n) :
    Argument none (k + 1) (CodePoint.ofChar ')' :: rest) (n + 1)
  | plain {c : CodePoint} {k : Nat} {rest : Text} {n : Nat} (hc : c.isPlain = true)
    (h : Argument none k rest n) : Argument none k (c :: rest) (n + 1)

namespace Argument

variable {mark : Option CodePoint} {k n : Nat} {t : Text}

theorem argumentLength?_eq (h : Argument mark k t n) : argumentLength? mark k t = some n := by
  induction h with
  | close rest => exact argumentLength?_right_zero rest
  | escape c h ih => rw [argumentLength?_backslash, ih]; rfl
  | quoted hb h ih => rw [argumentLength?_some _ _ _ hb, ih]; rfl
  | quote hc h ih => rw [argumentLength?_mark _ _ hc, ih]; rfl
  | left h ih => rw [argumentLength?_left, ih]; rfl
  | right h ih => rw [argumentLength?_right_succ, ih]; rfl
  | plain hc h ih => rw [argumentLength?_of_isPlain _ _ hc, ih]; rfl

/-- What is found as the end of a call is one. -/
theorem of_argumentLength? : ∀ (t : Text) {mark : Option CodePoint} {k n : Nat},
    argumentLength? mark k t = some n → Argument mark k t n
  | [], _, _, _, h => by cases h
  | c :: rest, mark, k, n, h => by
    by_cases hb : c = CodePoint.backslash
    · subst hb
      rcases rest with - | ⟨c, rest⟩
      · rw [argumentLength?_lone] at h
        cases h
      · rw [argumentLength?_backslash] at h
        obtain ⟨m, hm, rfl⟩ := Option.map_eq_some_iff.1 h
        exact .escape c (of_argumentLength? rest hm)
    rcases mark with - | mark
    · rcases cases_codePoint c with rfl | hq | rfl | rfl | hp
      · exact (hb rfl).elim
      · rw [argumentLength?_mark _ _ hq] at h
        obtain ⟨m, hm, rfl⟩ := Option.map_eq_some_iff.1 h
        exact .quote hq (of_argumentLength? rest hm)
      · rw [argumentLength?_left] at h
        obtain ⟨m, hm, rfl⟩ := Option.map_eq_some_iff.1 h
        exact .left (of_argumentLength? rest hm)
      · rcases k with - | k
        · rw [argumentLength?_right_zero] at h
          obtain rfl := Option.some.inj h
          exact .close rest
        · rw [argumentLength?_right_succ] at h
          obtain ⟨m, hm, rfl⟩ := Option.map_eq_some_iff.1 h
          exact .right (of_argumentLength? rest hm)
      · rw [argumentLength?_of_isPlain _ _ hp] at h
        obtain ⟨m, hm, rfl⟩ := Option.map_eq_some_iff.1 h
        exact .plain hp (of_argumentLength? rest hm)
    · rw [argumentLength?_some _ _ _ hb] at h
      obtain ⟨m, hm, rfl⟩ := Option.map_eq_some_iff.1 h
      exact .quoted hb (of_argumentLength? rest hm)

theorem lt_length (h : Argument mark k t n) : n < t.length := by
  induction h with
  | close rest => exact Nat.succ_pos _
  | escape c h ih => exact Nat.add_lt_add_right ih 2
  | _ => exact Nat.add_lt_add_right ‹_ < _› 1

/-- The end of a call is the same whatever follows. -/
theorem append (h : Argument mark k t n) (x : Text) : Argument mark k (t ++ x) n := by
  induction h with
  | close rest => exact .close _
  | escape c h ih => exact .escape c ih
  | quoted hb h ih => exact .quoted hb ih
  | quote hc h ih => exact .quote hc ih
  | left h ih => exact .left ih
  | right h ih => exact .right ih
  | plain hc h ih => exact .plain hc ih

/-- In search of the end of an outer call, a call is passed over. -/
theorem outer {m : Nat} (h : Argument mark k t n) (j : Nat)
    (hm : Argument none j (t.drop (n + 1)) m) :
    Argument mark (j + 1 + k) t (m + (n + 1)) := by
  induction h with
  | close rest => exact .right hm
  | escape c h ih => exact .escape c (ih hm)
  | quoted hb h ih => exact .quoted hb (ih hm)
  | quote hc h ih => exact .quote hc (ih hm)
  | left h ih => exact .left (ih hm)
  | right h ih => exact .right (ih hm)
  | plain hc h ih => exact .plain hc (ih hm)

/-- Where the rest of an argument stands. -/
def place : Option CodePoint → Nat → Place
  | none, d => .code d
  | some _, d => .string d

/-- An argument that can be followed to its end leads to the depth of its call. -/
theorem eq_of_run_take (h : Argument mark k t n) (hmark : ∀ m ∈ mark, m = CodePoint.quote) {d : Nat}
    {q : Place} (hq : run (place mark (d + k)) (t.take n) = some q) : q = .code d := by
  induction h with
  | close rest => exact (Option.some.inj hq).symm
  | @escape mark k c rest n h ih =>
    rcases mark with - | mark
    · cases hq
    · exact ih hmark hq
  | @quoted mark c k rest n hb h ih =>
    obtain rfl := hmark mark rfl
    rw [List.take_succ_cons, run_cons, place, step, if_neg hb] at hq
    by_cases hc : c = CodePoint.quote
    · rw [if_pos hc] at hq ih
      exact ih (fun _ h => by cases h) hq
    · rw [if_neg hc] at hq ih
      exact ih hmark hq
  | quote hc h ih =>
    rcases hc with rfl | rfl
    · exact ih (fun _ h => (Option.some.inj h).symm) hq
    · cases hq
  | left h ih => exact ih hmark hq
  | right h ih => exact ih hmark hq
  | plain hc h ih =>
    rw [List.take_succ_cons, run_cons, place, step_code_of_isPlain hc] at hq
    exact ih hmark hq

/-- A quoted run in an argument is passed over. -/
theorem of_closing {c : CodePoint} {m : Nat} (hc : Closing c t n)
    (h : Argument none k (t.drop n) m) : Argument (some c) k t (m + n) := by
  induction hc with
  | mark rest hm => exact .quoted hm (by rwa [if_pos rfl])
  | escape e hc ih => exact .escape e (ih h)
  | other hb hm hc ih => exact .quoted hb (by rw [if_neg hm]; exact ih h)

/-- A call in an argument opens one more parenthesis. -/
theorem of_opening (h : Argument none (k + 1) t n) : Argument none k (opening ++ t) (n + 7) :=
  .plain (by decide) <| .plain (by decide) <| .plain (by decide) <| .plain (by decide) <|
    .plain (by decide) <| .plain (by decide) <| .left h

end Argument

/-! ## Literals -/

theorem isPlain_ofHexDigit (n : Nat) : (CodePoint.ofHexDigit n).isPlain = true :=
  isPlain_of_hexValue? (Scan.hexValue?_ofHexDigit n)

/-- A code point of a literal stays in the string. -/
theorem run_inLiteral (c : CodePoint) (d : Nat) :
    run (.string d) c.inLiteral = some (.string d) := by
  unfold CodePoint.inLiteral
  split
  · rfl
  rename_i hc
  repeat' split
  · rfl
  · rfl
  · rfl
  · rfl
  · rfl
  · -- A backslash, its letter and four digits.
    change run (.string d) [_, _, _, _] = _
    refine run_string_of_isPlain ?_
    simp only [List.forall_mem_cons, isPlain_ofHexDigit, true_and]
    exact List.forall_mem_nil _
  · rw [run_cons, step, if_neg fun h => hc (.inr h), if_neg fun h => hc (.inl h)]
    rfl

/-- A literal leads from code to code. -/
theorem run_literal (t : Text) (d : Nat) : run (.code d) t.literal = some (.code d) := by
  have h : run (.string d) (t.flatMap CodePoint.inLiteral) = some (.string d) := by
    induction t with
    | nil => rfl
    | cons c t ih =>
      rw [List.flatMap_cons, run_append, run_inLiteral]
      exact ih
  exact run_append_eq_some_iff.2 ⟨.string d, h, rfl⟩

/-- The argument of a call that can be followed as it is rewritten leads to its depth. -/
theorem eq_of_run_argumentLiteral {inside : Text} {n d : Nat} {q : Place}
    (h : Argument none 0 inside n)
    (hq : run (.code d) (argumentLiteral (inside.take n)) = some q) : q = .code d := by
  unfold argumentLiteral at hq
  split at hq
  · exact h.eq_of_run_take (fun _ h => by cases h) hq
  · split at hq
    all_goals
      rw [run_literal] at hq
      exact (Option.some.inj hq).symm

/-! ## The pieces of a text -/

theorem not_prefix_of_ne {c : CodePoint} (hc : c ≠ CodePoint.ofChar 's') (t : Text) :
    ¬ opening <+: c :: t :=
  fun h => hc (List.cons_prefix_cons.1 h).1.symm

theorem replaceArguments_quote (joined : Bool) (rest : Text) :
    replaceArguments joined (CodePoint.quote :: rest) =
      CodePoint.quote :: rest.take (quotedLength CodePoint.quote rest) ++
        replaceArguments false (rest.drop (quotedLength CodePoint.quote rest)) := by
  rw [replaceArguments, if_pos rfl]

theorem replaceArguments_cons {joined : Bool} {c : CodePoint} {rest : Text}
    (hq : c ≠ CodePoint.quote) (hc : joined = true ∨ ¬ opening <+: c :: rest) :
    replaceArguments joined (c :: rest) = c :: replaceArguments (isWordPart c) rest := by
  rw [replaceArguments, if_neg hq, if_neg]
  rcases hc with rfl | hc
  · simp
  · simp [hc]

theorem replaceArguments_opening (inside : Text) : replaceArguments false (opening ++ inside) =
    match argumentLength? none 0 inside with
    | some n => opening ++ argumentLiteral (inside.take n) ++ Text.ofString ")" ++
        replaceArguments false (inside.drop (n + 1))
    | none => CodePoint.ofChar 's' ::
        replaceArguments (isWordPart (CodePoint.ofChar 's')) (opening.tail ++ inside) := by
  have hopen : opening ++ inside = CodePoint.ofChar 's' :: (opening.tail ++ inside) := rfl
  have hcall : (!false && opening.isPrefixOf
      (CodePoint.ofChar 's' :: (opening.tail ++ inside))) = true := by
    rw [← hopen]
    simp
  rw [hopen, replaceArguments, if_neg (by decide), if_pos hcall]
  rfl

/-- A call that is never closed is left alone. -/
theorem replaceArguments_open {inside : Text} (h : argumentLength? none 0 inside = none) :
    replaceArguments false (opening ++ inside) =
      opening ++ replaceArguments false inside := by
  rw [replaceArguments_opening, h]
  change _ :: replaceArguments _ (_ :: _ :: _ :: _ :: _ :: _ :: inside) = _
  rw [replaceArguments_cons (by decide) (.inr (not_prefix_of_ne (by decide) _)),
    replaceArguments_cons (by decide) (.inr (not_prefix_of_ne (by decide) _)),
    replaceArguments_cons (by decide) (.inr (not_prefix_of_ne (by decide) _)),
    replaceArguments_cons (by decide) (.inr (not_prefix_of_ne (by decide) _)),
    replaceArguments_cons (by decide) (.inr (not_prefix_of_ne (by decide) _)),
    replaceArguments_cons (by decide) (.inr (not_prefix_of_ne (by decide) _))]
  rfl

/-- A text in which no call of `string` is written stays as it is. -/
theorem replaceArguments_eq_self {joined : Bool} {t : Text} (h : ¬ opening <:+: t) :
    replaceArguments joined t = t := by
  have hopening : ∀ {b : Bool} {u : Text}, ¬ opening <:+: u →
      ¬ (b && opening.isPrefixOf u) = true := fun hu hcall =>
    hu (List.isPrefixOf_iff_prefix.1 (Bool.and_eq_true_iff.1 hcall).2).isInfix
  fun_induction replaceArguments joined t with
  | case1 => rfl
  | case2 joined rest n ih =>
    have hrest : ¬ opening <:+: rest.drop n := fun hin =>
      h (hin.trans ((List.drop_suffix n rest).isInfix.trans (List.suffix_cons _ rest).isInfix))
    rw [ih hrest, List.cons_append, List.take_append_drop]
  | case3 joined c rest _ hcall => exact (hopening h hcall).elim
  | case4 joined c rest _ hcall => exact (hopening h hcall).elim
  | case5 joined c rest _ _ ih =>
    rw [ih fun hin => h (hin.trans (List.suffix_cons _ rest).isInfix)]

/-- A text as the rewriting goes through it : strings, calls of `string` and other code
points, where `joined` says that the code point before is part of a word. -/
inductive Pieces : Bool → Text → Prop
  | nil (joined : Bool) : Pieces joined []
  | string (joined : Bool) {rest : Text} {n : Nat} (h : Closing CodePoint.quote rest n)
    (hrest : Pieces false (rest.drop n)) : Pieces joined (CodePoint.quote :: rest)
  | openString (joined : Bool) {rest : Text}
    (hlen : rest.length ≤ quotedLength CodePoint.quote rest)
    (h : ∀ d e, run (.string d) rest ≠ some (.code e)) : Pieces joined (CodePoint.quote :: rest)
  | call {inside : Text} {n : Nat} (h : Argument none 0 inside n)
    (hrest : Pieces false (inside.drop (n + 1))) : Pieces false (opening ++ inside)
  | openCall {inside : Text} (h : argumentLength? none 0 inside = none)
    (hrest : Pieces false inside) : Pieces false (opening ++ inside)
  | other {joined : Bool} {c : CodePoint} {rest : Text} (hq : c ≠ CodePoint.quote)
    (hc : joined = true ∨ ¬ opening <+: c :: rest) (hrest : Pieces (isWordPart c) rest) :
    Pieces joined (c :: rest)

theorem pieces (joined : Bool) (t : Text) : Pieces joined t := by
  match t with
  | [] => exact .nil joined
  | c :: rest =>
    by_cases hq : c = CodePoint.quote
    · subst hq
      rcases closing_or_open rest with h | ⟨hlen, h⟩
      · exact .string joined h (pieces false _)
      · exact .openString joined hlen h
    by_cases hc : joined = true ∨ ¬ opening <+: c :: rest
    · exact .other hq hc (pieces (isWordPart c) rest)
    · simp only [not_or, not_not, Bool.not_eq_true] at hc
      obtain ⟨rfl, inside, hinside⟩ := hc
      have hlen : inside.length < rest.length + 1 := by
        have h := congrArg List.length hinside
        rw [List.length_append, List.length_cons] at h
        have : 0 < opening.length := by decide
        omega
      rw [← hinside]
      rcases h : argumentLength? none 0 inside with - | n
      · exact .openCall h (pieces false inside)
      · exact .call (.of_argumentLength? inside h) (pieces false _)
termination_by t.length
decreasing_by all_goals (simp only [List.length_cons, List.length_drop]; omega)

/-- Behind a string that can be followed comes the rest of the rewritten text. -/
theorem run_string_piece {rest w : Text} {n d : Nat} {r : Place}
    (h : Closing CodePoint.quote rest n)
    (hrun : run (.code d) (CodePoint.quote :: rest.take n ++ w) = some r) :
    run (.code d) w = some r := by
  obtain ⟨q, hq, hw⟩ := run_append_eq_some_iff.1 hrun
  have hstring : run (.code d) (CodePoint.quote :: rest.take n) = some (.code d) := h.run_take d
  obtain rfl := Option.some.inj (hstring.symm.trans hq)
  exact hw

/-- A string that is never closed does not lead back to code. -/
theorem run_openString_piece {joined : Bool} {rest : Text} {d e : Nat}
    (hlen : rest.length ≤ quotedLength CodePoint.quote rest)
    (h : ∀ d e, run (.string d) rest ≠ some (.code e)) :
    run (.code d) (replaceArguments joined (CodePoint.quote :: rest)) ≠ some (.code e) := by
  rw [replaceArguments_quote, List.take_of_length_le hlen, List.drop_of_length_le hlen,
    replaceArguments, List.append_nil]
  exact h d e

/-- Behind a call that can be followed comes the rest of the rewritten text. -/
theorem run_call_piece {inside w : Text} {n d : Nat} {r : Place} (h : Argument none 0 inside n)
    (hrun : run (.code d) (opening ++ argumentLiteral (inside.take n) ++ Text.ofString ")" ++ w) =
      some r) : run (.code d) w = some r := by
  obtain ⟨q, hq, hw⟩ := run_append_eq_some_iff.1 hrun
  obtain ⟨p, hp, hpq⟩ := run_append_eq_some_iff.1 hq
  have hargument : run (.code (d + 1)) (argumentLiteral (inside.take n)) = some p := hp
  obtain rfl := eq_of_run_argumentLiteral h hargument
  obtain rfl := Option.some.inj hpq
  exact hw

/-- A rewritten text that closes what is open in front of it closes a call there. -/
theorem exists_argument {joined : Bool} {t : Text} (h : Pieces joined t) {d k : Nat}
    (hrun : run (.code (d + 1 + k)) (replaceArguments joined t) = some (.code 0)) :
    ∃ n, Argument none k t n := by
  induction h generalizing k with
  | nil joined =>
    rw [replaceArguments, run_nil] at hrun
    have hd := Place.code.inj (Option.some.inj hrun)
    omega
  | string joined h hrest ih =>
    rw [replaceArguments_quote, h.quotedLength_eq] at hrun
    obtain ⟨m, hm⟩ := ih (run_string_piece h hrun)
    exact ⟨_, .quote (.inl rfl) (.of_closing h hm)⟩
  | openString joined hlen h => exact (run_openString_piece hlen h hrun).elim
  | call h hrest ih =>
    rw [replaceArguments_opening, h.argumentLength?_eq] at hrun
    obtain ⟨m, hm⟩ := ih (run_call_piece h hrun)
    exact ⟨_, .of_opening (h.outer k hm)⟩
  | openCall h hrest ih =>
    rw [replaceArguments_open h] at hrun
    obtain ⟨n, hn⟩ := ih (k := k + 1) hrun
    exact ⟨_, .of_opening hn⟩
  | @other joined c rest hq hc hrest ih =>
    rw [replaceArguments_cons hq hc, run_cons] at hrun
    rcases cases_codePoint c with rfl | (rfl | rfl) | rfl | rfl | hp
    · cases hrun
    · exact (hq rfl).elim
    · cases hrun
    · obtain ⟨n, hn⟩ := ih (k := k + 1) hrun
      exact ⟨_, .left hn⟩
    · rcases k with - | k
      · exact ⟨_, .close rest⟩
      · obtain ⟨n, hn⟩ := ih (k := k) hrun
        exact ⟨_, .right hn⟩
    · rw [step_code_of_isPlain hp] at hrun
      obtain ⟨n, hn⟩ := ih hrun
      exact ⟨_, .plain hp hn⟩

/-- No call of `string` starts at a semicolon, or goes on behind one. -/
theorem not_prefix_append {t : Text} (h : ¬ opening <+: t) (x : Text) :
    ¬ opening <+: t ++ CodePoint.semicolon :: x := by
  intro hx
  rcases Nat.lt_or_ge t.length opening.length with hlen | hlen
  · have hmark : t ++ [CodePoint.semicolon] <+: t ++ CodePoint.semicolon :: x :=
      ⟨x, List.append_cons t _ x |>.symm⟩
    have hlen' : (t ++ [CodePoint.semicolon]).length ≤ opening.length := by
      rw [List.length_append]
      exact hlen
    have hmem := (List.prefix_of_prefix_length_le hmark hx hlen').subset
      (List.mem_append_right t List.mem_cons_self)
    exact absurd hmem (by decide)
  · exact h (List.prefix_of_prefix_length_le hx (List.prefix_append t _) hlen)

/-- What follows a semicolon behind a text that closes what it opens does not change how the
text is rewritten. -/
theorem replaceArguments_append {joined : Bool} {t : Text} (h : Pieces joined t) {d : Nat}
    (hrun : run (.code d) (replaceArguments joined t) = some (.code 0)) (x : Text) :
    replaceArguments joined (t ++ CodePoint.semicolon :: x) =
      replaceArguments joined t ++ CodePoint.semicolon :: replaceArguments false x := by
  induction h generalizing d with
  | nil joined =>
    have hs : CodePoint.semicolon ≠ CodePoint.ofChar 's' := by decide
    rw [List.nil_append, replaceArguments_cons (by decide) (.inr (not_prefix_of_ne hs x)),
      replaceArguments]
    rfl
  | @string joined rest n h hrest ih =>
    rw [replaceArguments_quote, h.quotedLength_eq] at hrun ⊢
    rw [List.cons_append, replaceArguments_quote, (h.append _).quotedLength_eq,
      List.take_append_of_le_length h.le_length, List.drop_append_of_le_length h.le_length,
      ih (run_string_piece h hrun), List.append_assoc]
  | openString joined hlen h => exact (run_openString_piece hlen h hrun).elim
  | @call inside n h hrest ih =>
    rw [replaceArguments_opening, h.argumentLength?_eq] at hrun ⊢
    have hlen := h.lt_length
    rw [List.append_assoc, replaceArguments_opening, (h.append _).argumentLength?_eq,
      List.append_assoc]
    simp only [List.take_append_of_le_length (Nat.le_of_lt hlen),
      List.drop_append_of_le_length (Nat.succ_le_of_lt hlen), ih (run_call_piece h hrun),
      List.append_assoc]
  | @openCall inside h hrest ih =>
    rw [replaceArguments_open h] at hrun
    have hinside : run (.code (d + 1 + 0)) (replaceArguments false inside) = some (.code 0) := hrun
    obtain ⟨n, hn⟩ := exists_argument hrest hinside
    rw [hn.argumentLength?_eq] at h
    cases h
  | @other joined c rest hq hc hrest ih =>
    rw [replaceArguments_cons hq hc, run_cons] at hrun
    obtain ⟨q, hstep, hrun⟩ := Option.bind_eq_some_iff.1 hrun
    obtain ⟨e, rfl⟩ := exists_of_step_code hq hstep
    have hx : joined = true ∨ ¬ opening <+: c :: (rest ++ CodePoint.semicolon :: x) :=
      hc.imp_right fun h => not_prefix_append h x
    rw [List.cons_append, replaceArguments_cons hq hx, replaceArguments_cons hq hc, ih hrun]
    rfl

end StringCall

end Reckon
