import Reckon.Proofs.Source.Cut

/-!
# Three ways to write the argument of `string`

A text can be given to `string` as a literal, between backticks (`Text.inBackticks`), or bare,
with a backslash in front of each backslash and parenthesis (`Text.bare`). The second way needs
a text without backticks in which the backslashes at the end pair up, the third one a text
without quotation marks and backticks (`StringCall.Writes`).

Whichever way is taken, the call ends at its own parenthesis (`StringCall.Writes.argument`) and
its argument becomes the literal of the text (`StringCall.Writes.argumentLiteral_eq`). In the
rewritten expression nothing cuts the literal, so there is one statement, and it is the call
with the literal (`StringCall.Writes.sources_eq`).
-/

namespace Reckon

namespace Text

/-- The text between backticks. -/
def inBackticks (t : Text) : Text := CodePoint.backtick :: t ++ [CodePoint.backtick]

/-- The code point as it stands in a bare argument. -/
def bareCodePoint (c : CodePoint) : Text :=
  if c = CodePoint.backslash ∨ c = CodePoint.ofChar '(' ∨ c = CodePoint.ofChar ')' then
    [CodePoint.backslash, c]
  else [c]

/-- The text with a backslash in front of each backslash and parenthesis. -/
def bare (t : Text) : Text := t.flatMap bareCodePoint

/-- The number of backslashes at the end of the text. -/
def endBackslashes (t : Text) : Nat :=
  (t.reverse.takeWhile fun c => c == CodePoint.backslash).length

/-- A backslash in front counts only if nothing but backslashes follows it. -/
theorem endBackslashes_cons (c : CodePoint) (t : Text) : endBackslashes (c :: t) =
    if endBackslashes t = t.length ∧ c = CodePoint.backslash then t.length + 1
    else endBackslashes t := by
  unfold endBackslashes
  rw [List.reverse_cons, List.takeWhile_append, List.length_reverse]
  by_cases h : (t.reverse.takeWhile fun c => c == CodePoint.backslash).length = t.length
  · by_cases hc : c = CodePoint.backslash
    · simp [h, hc]
    · simp [h, hc, beq_eq_false_iff_ne.2 hc]
  · simp [h]

theorem endBackslashes_le (t : Text) : t.endBackslashes ≤ t.length := by
  rw [← List.length_reverse]
  exact (List.takeWhile_sublist _).length_le

/-- A text with no blank at either end is its own trimmed form. -/
theorem trim_eq_self {t : Text} (hhead : ∀ c ∈ t.head?, c.isBlank = false)
    (hlast : ∀ c ∈ t.getLast?, c.isBlank = false) : t.trim = t := by
  have hstart : t.trimStart = t := trimStart_append [] hhead
  have hend := trimEnd_append hlast []
  rw [List.append_nil] at hend
  rw [trim, hstart, hend]
  exact List.append_nil t

end Text

namespace StringCall

open Place

/-- The text written as an argument of `string`. -/
inductive Writes (t : Text) : Text → Prop
  | literal : Writes t t.literal
  | raw (hmark : CodePoint.backtick ∉ t) (hend : t.endBackslashes % 2 = 0) :
    Writes t t.inBackticks
  | bare (hquote : CodePoint.quote ∉ t) (hmark : CodePoint.backtick ∉ t) : Writes t t.bare

/-- A call of `string` with its argument as it is written. -/
def call (argument : Text) : Text := opening ++ argument ++ Text.ofString ")"

/-! ## Where the argument ends -/

/-- A quotation mark in a string is escaped, and a backslash takes what follows it along. -/
theorem Closing.inLiteral {rest : Text} {n : Nat} (c : CodePoint)
    (h : Closing CodePoint.quote rest n) :
    Closing CodePoint.quote (c.inLiteral ++ rest) (c.inLiteral.length + n) := by
  have hplain : ∀ {u : Text}, (∀ d ∈ u, d.isPlain = true) →
      Closing CodePoint.quote (u ++ rest) (u.length + n) := by
    intro u hu
    induction u with
    | nil => simpa using h
    | cons d u ih =>
      obtain ⟨hq, hb, -⟩ := CodePoint.isPlain_iff.1 (hu d List.mem_cons_self)
      rw [List.length_cons, Nat.add_right_comm]
      exact .other hb hq (ih fun e he => hu e (List.mem_cons_of_mem _ he))
  have hescape : ∀ d : CodePoint,
      Closing CodePoint.quote ([CodePoint.backslash, d] ++ rest) (2 + n) := fun d => by
    rw [Nat.add_comm]
    exact .escape d h
  unfold CodePoint.inLiteral
  split
  · exact hescape c
  rename_i hc
  split
  · exact hescape _
  split
  · exact hescape _
  split
  · exact hescape _
  split
  · exact hescape _
  split
  · exact hescape _
  split
  · -- The letter of the escape and its four digits are plain.
    rw [show (CodePoint.unicodeEscape c.val).length + n = (4 + n) + 2 by
      simp only [CodePoint.unicodeEscape, List.length_cons, List.length_nil]; omega]
    refine .escape (CodePoint.ofChar 'u') (hplain (u := [_, _, _, _]) ?_)
    simp only [List.forall_mem_cons, isPlain_ofHexDigit, true_and]
    exact List.forall_mem_nil _
  · rw [List.length_singleton, Nat.add_comm]
    exact .other (fun h => hc (.inr h)) (fun h => hc (.inl h)) h

/-- A literal is closed by its last quotation mark. -/
theorem Closing.literal (rest : Text) : ∀ t : Text,
    Closing CodePoint.quote (t.flatMap CodePoint.inLiteral ++ CodePoint.quote :: rest)
      ((t.flatMap CodePoint.inLiteral).length + 1)
  | [] => .mark rest (by decide)
  | c :: t => by
    rw [List.flatMap_cons, List.append_assoc, List.length_append, Nat.add_assoc]
    exact (Closing.literal rest t).inLiteral c

/-- Backslashes that pair up leave the backtick behind them alone. -/
theorem Closing.raw (rest : Text) : ∀ t : Text, CodePoint.backtick ∉ t →
    t.endBackslashes % 2 = 0 →
    Closing CodePoint.backtick (t ++ CodePoint.backtick :: rest) (t.length + 1)
  | [], _, _ => .mark rest (by decide)
  | c :: t, hmark, hend => by
    obtain ⟨hc, ht⟩ := not_or.1 (mt List.mem_cons.2 hmark)
    by_cases hb : c = CodePoint.backslash
    · subst hb
      rcases t with - | ⟨d, t⟩
      · exact absurd hend (by decide)
      · have ht := (not_or.1 (mt List.mem_cons.2 ht)).2
        refine .escape d (Closing.raw rest t ht ?_)
        have hle := Text.endBackslashes_le t
        rw [Text.endBackslashes_cons, Text.endBackslashes_cons, List.length_cons] at hend
        by_cases hall : Text.endBackslashes t = t.length ∧ d = CodePoint.backslash
        · rw [if_pos hall, if_pos ⟨rfl, rfl⟩] at hend
          omega
        · rw [if_neg hall, if_neg fun h => by omega] at hend
          exact hend
    · refine .other hb (Ne.symm hc) (Closing.raw rest t ht ?_)
      rwa [Text.endBackslashes_cons, if_neg fun h => hb h.2] at hend

/-- In a bare argument the parentheses are escaped, so none of them ends the call. -/
theorem Argument.bare (rest : Text) : ∀ t : Text, CodePoint.quote ∉ t → CodePoint.backtick ∉ t →
    Argument none 0 (t.bare ++ CodePoint.ofChar ')' :: rest) t.bare.length
  | [], _, _ => .close rest
  | c :: t, hquote, hmark => by
    obtain ⟨hq, hquote⟩ := not_or.1 (mt List.mem_cons.2 hquote)
    obtain ⟨hm, hmark⟩ := not_or.1 (mt List.mem_cons.2 hmark)
    have ih := Argument.bare rest t hquote hmark
    rw [Text.bare, List.flatMap_cons, List.append_assoc, List.length_append, Nat.add_comm,
      Text.bareCodePoint]
    split
    · exact .escape c ih
    · rename_i hc
      obtain ⟨hb, hl, hr⟩ : c ≠ CodePoint.backslash ∧ c ≠ CodePoint.ofChar '(' ∧
          c ≠ CodePoint.ofChar ')' := by simpa only [not_or] using hc
      exact .plain (CodePoint.isPlain_iff.2 ⟨Ne.symm hq, hb, Ne.symm hm, hl, hr⟩) ih

/-- The argument ends at the parenthesis behind it. -/
theorem Writes.argument {t argument : Text} (h : Writes t argument) (rest : Text) :
    Argument none 0 (argument ++ CodePoint.ofChar ')' :: rest) argument.length := by
  have hclose : ∀ {mark : CodePoint} {body : Text},
      (mark = CodePoint.quote ∨ mark = CodePoint.backtick) →
      Closing mark (body ++ mark :: CodePoint.ofChar ')' :: rest) (body.length + 1) →
      Argument none 0 (mark :: body ++ [mark] ++ CodePoint.ofChar ')' :: rest)
        (mark :: body ++ [mark]).length := by
    intro mark body hmark hbody
    have hdrop : (body ++ mark :: CodePoint.ofChar ')' :: rest).drop (body.length + 1) =
        CodePoint.ofChar ')' :: rest := by
      rw [List.append_cons]
      exact List.drop_left' (List.length_append ..)
    have h := Argument.quote hmark (.of_closing hbody (by rw [hdrop]; exact .close rest))
    simpa using h
  cases h with
  | literal => exact hclose (.inl rfl) (.literal _ t)
  | raw hmark hend => exact hclose (.inr rfl) (.raw _ t hmark hend)
  | bare hquote hmark => exact .bare rest t hquote hmark

/-! ## What becomes of the argument -/

/-- The escapes of a bare argument are undone. -/
theorem unescaped_bare : ∀ t : Text, unescaped t.bare = t
  | [] => rfl
  | c :: t => by
    have ih := unescaped_bare t
    rw [Text.bare] at ih
    rw [Text.bare, List.flatMap_cons, Text.bareCodePoint]
    split
    · rename_i hc
      have hescape : unescape c = [c] := by
        rcases hc with rfl | rfl | rfl <;> decide
      rw [List.cons_append, List.cons_append, unescaped, if_pos rfl]
      simp only [hescape, List.nil_append, ih, List.singleton_append]
    · rename_i hc
      rw [List.singleton_append, unescaped.eq_def]
      simp only [if_neg fun h => hc (.inl h), ih]

theorem isEnclosed_iff {mark : CodePoint} {t : Text} : isEnclosed mark t = true ↔
    2 ≤ t.length ∧ t.head? = some mark ∧ t.getLast? = some mark := by
  simp only [isEnclosed, Bool.and_eq_true, decide_eq_true_eq, beq_iff_eq, and_assoc]

theorem isEnclosed_self (mark : CodePoint) (body : Text) :
    isEnclosed mark (mark :: body ++ [mark]) = true :=
  isEnclosed_iff.2 ⟨by simp, rfl, List.getLast?_concat⟩

theorem isEnclosed_of_not_mem {mark : CodePoint} {t : Text} (h : mark ∉ t) :
    isEnclosed mark t = false := by
  rw [← Bool.not_eq_true, isEnclosed_iff]
  exact fun ⟨_, hhead, _⟩ => h (List.mem_of_mem_head? hhead)

/-- A bare argument holds nothing but the text and backslashes. -/
theorem mem_bare {t : Text} {c : CodePoint} (h : c ∈ t.bare) :
    c = CodePoint.backslash ∨ c ∈ t := by
  obtain ⟨d, hd, hc⟩ := List.mem_flatMap.1 h
  unfold Text.bareCodePoint at hc
  split at hc
  · rcases List.mem_cons.1 hc with rfl | hc
    · exact .inl rfl
    · obtain rfl := List.mem_singleton.1 hc
      exact .inr hd
  · obtain rfl := List.mem_singleton.1 hc
    exact .inr hd

/-- However the text is written, the argument becomes its literal. -/
theorem Writes.argumentLiteral_eq {t argument : Text} (h : Writes t argument) :
    argumentLiteral argument = t.literal := by
  unfold argumentLiteral
  cases h with
  | literal =>
    have hquote : isEnclosed CodePoint.quote t.literal = true := isEnclosed_self _ _
    rw [if_pos hquote]
  | raw hmark hend =>
    have hquote : isEnclosed CodePoint.quote t.inBackticks = false := by
      rw [← Bool.not_eq_true, isEnclosed_iff]
      exact fun ⟨_, hhead, _⟩ => absurd (Option.some.inj hhead) (by decide)
    have hmarks : isEnclosed CodePoint.backtick t.inBackticks = true := isEnclosed_self _ _
    rw [if_neg (by simp [hquote]), if_pos hmarks, Text.inBackticks, List.cons_append,
      List.drop_one, List.tail_cons, List.dropLast_concat]
  | bare hquote hmark =>
    have hne : ∀ {mark : CodePoint}, mark ≠ CodePoint.backslash → mark ∉ t →
        isEnclosed mark t.bare = false := fun hb ht =>
      isEnclosed_of_not_mem fun hm => (mem_bare hm).elim hb ht
    rw [if_neg (by simp [hne (by decide) hquote]), if_neg (by simp [hne (by decide) hmark]),
      unescaped_bare]

/-! ## The statement -/

/-- A string is not cut. -/
theorem Closing.ofText {t : Text} {n : Nat} (h : Closing CodePoint.quote t n) (depth : Nat) :
    Segments.ofText true depth t =
      (t.take n).foldr Segments.extend (Segments.ofText false depth (t.drop n)) := by
  induction h with
  | mark rest hm => rw [Segments.ofText_string _ _ hm]; rfl
  | escape c h ih => rw [Segments.ofText_backslash, ih]; rfl
  | other hb hm h ih =>
    rw [Segments.ofText_string _ _ hb, decide_eq_false hm, Bool.not_false, ih]
    rfl

/-- Plain text without semicolons is not cut. -/
theorem ofText_plain (depth : Nat) (rest : Text) : ∀ t : Text, (∀ c ∈ t, c.isPlain = true) →
    CodePoint.semicolon ∉ t → Segments.ofText false depth (t ++ rest) =
      t.foldr Segments.extend (Segments.ofText false depth rest)
  | [], _, _ => rfl
  | c :: t, hplain, hs => by
    obtain ⟨hc, hs⟩ := not_or.1 (mt List.mem_cons.2 hs)
    obtain ⟨hq, -, -, hl, hr⟩ := CodePoint.isPlain_iff.1 (hplain c List.mem_cons_self)
    have ih := ofText_plain depth rest t (fun d hd => hplain d (List.mem_cons_of_mem _ hd)) hs
    rw [List.cons_append, Segments.ofText_code, if_neg hq, if_neg hl, if_neg hr,
      if_neg fun h => hc h.1.symm, ih]
    rfl

/-- A call of `string` with a literal is not cut. -/
theorem ofText_call {body : Text} (h : Closing CodePoint.quote body body.length) (depth : Nat)
    (rest : Text) : Segments.ofText false depth (call (CodePoint.quote :: body) ++ rest) =
      (call (CodePoint.quote :: body)).foldr Segments.extend
        (Segments.ofText false depth rest) := by
  have hcall : call (CodePoint.quote :: body) ++ rest = Text.ofString "string" ++
      CodePoint.ofChar '(' :: CodePoint.quote :: (body ++ CodePoint.ofChar ')' :: rest) := by
    simp only [call, List.append_assoc]
    rfl
  have hbody := (h.append (CodePoint.ofChar ')' :: rest)).ofText (depth + 1)
  rw [List.take_left, List.drop_left, Segments.ofText_code] at hbody
  rw [hcall, ofText_plain depth _ (Text.ofString "string") (by decide) (by decide),
    Segments.ofText_code, if_neg (by decide), if_pos rfl, Segments.ofText_code, if_pos rfl, hbody]
  simp only [call, List.foldr_append]
  rfl

/-- A call of `string` with a literal is one piece. -/
theorem segments_call (t : Text) : (call t.literal).segments = [call t.literal] := by
  have hclosing : Closing CodePoint.quote (t.flatMap CodePoint.inLiteral ++ [CodePoint.quote])
      (t.flatMap CodePoint.inLiteral ++ [CodePoint.quote]).length := by
    rw [List.length_append]
    exact .literal [] t
  have hcut := ofText_call hclosing 0 []
  rwa [List.append_nil, Segments.ofText, Segments.foldr_extend, List.append_nil] at hcut

/-- However the text is written, the expression has one statement, the call with the literal. -/
theorem Writes.sources_eq {t argument : Text} (h : Writes t argument) :
    (call argument).sources = [call t.literal] := by
  have hrewrite : (call argument).withLiteralArguments = call t.literal := by
    have hcut : call argument = opening ++ (argument ++ CodePoint.ofChar ')' :: []) := by
      simp only [call, List.append_assoc]
      rfl
    have hlength := (h.argument []).argumentLength?_eq
    rw [Text.withLiteralArguments, hcut, replaceArguments_opening, hlength]
    simp only [List.take_left, h.argumentLiteral_eq]
    rw [List.drop_of_length_le (by simp), replaceArguments, List.append_nil]
    rfl
  have htrim : (call t.literal).trim = call t.literal := by
    refine Text.trim_eq_self (fun c hc => ?_) fun c hc => ?_
    · obtain rfl : CodePoint.ofChar 's' = c := Option.some.inj hc
      decide
    · obtain rfl : CodePoint.ofChar ')' = c := by
        have hlast : (call t.literal).getLast? = some (CodePoint.ofChar ')') := List.getLast?_concat
        exact Option.some.inj (hlast.symm.trans hc)
      decide
  rw [Text.sources, hrewrite, Text.statements, segments_call, List.map_singleton, htrim]
  rfl

end StringCall

end Reckon
