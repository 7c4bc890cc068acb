import Mathlib.Data.List.Induction
import Reckon.Proofs.Source.Rewriting

/-!
# Statements and what comes behind them

If the statements of a text can be read, nothing behind a semicolon at its end has any
influence on them (`Text.sources_append`) : not a string or a call that is never closed, and
not a parenthesis too many.

The reason is that the pieces between the cuts of a text make up the text
(`Segments.join_ofText`). If each piece leads from code to code (`Place.run_of_parse`), so does
the rewritten text, and then what comes behind it changes neither the rewriting
(`StringCall.replaceArguments_append`) nor the cuts (`Segments.segments_append`).
-/

namespace Reckon

open Place

namespace Segments

theorem extend_ne_nil (c : CodePoint) (l : List Text) : extend c l ≠ [] := by
  cases l <;> exact List.cons_ne_nil _ _

theorem ofText_ne_nil (quoted : Bool) (depth : Nat) (t : Text) : ofText quoted depth t ≠ [] := by
  cases t with
  | nil => exact List.cons_ne_nil _ _
  | cons c rest =>
    unfold ofText
    repeat' split
    all_goals first | exact extend_ne_nil _ _ | exact List.cons_ne_nil _ _

theorem join_extend (separator : Text) (c : CodePoint) (l : List Text) :
    Text.join separator (extend c l) = c :: Text.join separator l := by
  rcases l with - | ⟨first, - | ⟨second, others⟩⟩ <;> rfl

theorem join_nil_cons (separator : Text) {l : List Text} (h : l ≠ []) :
    Text.join separator ([] :: l) = separator ++ Text.join separator l := by
  cases l with
  | nil => exact (h rfl).elim
  | cons first others => rfl

/-- The pieces of a text make up the text. -/
theorem join_ofText (quoted : Bool) (depth : Nat) (t : Text) :
    Text.join [CodePoint.semicolon] (ofText quoted depth t) = t := by
  fun_induction ofText quoted depth t with
  | case8 quoted depth c rest _ _ _ _ h ih =>
    rw [join_nil_cons _ (ofText_ne_nil _ _ _), ih, h.1]
    rfl
  | _ => simp_all [join_extend, Text.join]

theorem ofText_backslash (depth : Nat) (c : CodePoint) (rest : Text) :
    ofText true depth (CodePoint.backslash :: c :: rest) =
      extend CodePoint.backslash (extend c (ofText true depth rest)) := by
  rw [ofText.eq_def]
  rfl

theorem ofText_string (depth : Nat) {c : CodePoint} (rest : Text)
    (hb : c ≠ CodePoint.backslash) : ofText true depth (c :: rest) =
      extend c (ofText (!decide (c = CodePoint.quote)) depth rest) := by
  rw [ofText.eq_def]
  simp only [if_pos, if_neg hb]

theorem ofText_code (depth : Nat) (c : CodePoint) (rest : Text) :
    ofText false depth (c :: rest) =
      if c = CodePoint.quote then extend c (ofText true depth rest)
      else if c = CodePoint.ofChar '(' then extend c (ofText false (depth + 1) rest)
      else if c = CodePoint.ofChar ')' then extend c (ofText false (depth - 1) rest)
      else if c = CodePoint.ofChar ';' ∧ depth = 0 then [] :: ofText false 0 rest
      else extend c (ofText false depth rest) := by
  rw [ofText.eq_def]
  rfl

theorem ofText_semicolon (rest : Text) :
    ofText false 0 (CodePoint.semicolon :: rest) = [] :: ofText false 0 rest := by
  rw [ofText_code]
  rfl

/-- The code points of a text in front of the first of some texts. -/
theorem foldr_extend (t first : Text) (others : List Text) :
    t.foldr extend (first :: others) = (t ++ first) :: others := by
  induction t with
  | nil => rfl
  | cons c t ih => rw [List.foldr_cons, ih]; rfl

/-- The pieces of a text that goes on at a place. -/
def ofPlace : Place → Text → List Text
  | .code d, t => ofText false d t
  | .string d, t => ofText true d t
  | .escape _, [] => [[]]
  | .escape d, c :: t => extend c (ofText true d t)

/-- Only a semicolon outside of strings and parentheses cuts. -/
theorem ofPlace_follow (p : Place) (c : CodePoint) (x : Text) : ofPlace p (c :: x) =
    if c = CodePoint.semicolon ∧ p = .code 0 then [] :: ofPlace p x
    else extend c (ofPlace (p.follow c) x) := by
  cases p with
  | code d =>
    rw [ofPlace, ofText_code, follow]
    by_cases hq : c = CodePoint.quote
    · subst hq
      rfl
    by_cases hl : c = CodePoint.ofChar '('
    · subst hl
      rfl
    by_cases hr : c = CodePoint.ofChar ')'
    · subst hr
      rfl
    rw [if_neg hq, if_neg hl, if_neg hr, if_neg hq, if_neg hl, if_neg hr]
    by_cases hs : c = CodePoint.ofChar ';' ∧ d = 0
    · obtain ⟨rfl, rfl⟩ := hs
      rfl
    · rw [if_neg hs, if_neg fun h => hs ⟨h.1, Place.code.inj h.2⟩]
      rfl
  | string d =>
    rw [if_neg fun h => Place.noConfusion h.2, follow]
    by_cases hb : c = CodePoint.backslash
    · subst hb
      cases x with
      | nil => rfl
      | cons e x => exact ofText_backslash d e x
    · rw [ofPlace, ofText_string _ _ hb, if_neg hb]
      by_cases hq : c = CodePoint.quote
      · rw [if_pos hq, decide_eq_true hq]
        rfl
      · rw [if_neg hq, decide_eq_false hq]
        rfl
  | escape d =>
    rw [if_neg fun h => Place.noConfusion h.2]
    rfl

theorem ofPlace_cons {p q : Place} {c : CodePoint} (h : p.step c = some q)
    (hc : ¬(c = CodePoint.semicolon ∧ p = .code 0)) (x : Text) :
    ofPlace p (c :: x) = extend c (ofPlace q x) := by
  rw [ofPlace_follow, if_neg hc, follow_of_step h]

/-- The last piece of a text that can be followed is cut off from the others wherever the text goes
on, and starts in code. -/
theorem exists_last {t : Text} {q : Place} (h : run (.code 0) t = some q) :
    ∃ (pieces : List Text) (u v : Text), t = u ++ v ∧ run (.code 0) v = some q ∧
      ∀ x, Text.segments (t ++ x) = pieces ++ v.foldr extend (ofPlace q x) := by
  induction t using List.reverseRecOn generalizing q with
  | nil =>
    obtain rfl := Option.some.inj h
    exact ⟨[], [], [], rfl, rfl, fun _ => rfl⟩
  | append_singleton t c ih =>
    obtain ⟨p, hp, hq⟩ := run_append_eq_some_iff.1 h
    obtain ⟨pieces, u, v, rfl, hv, hpieces⟩ := ih hp
    by_cases hc : c = CodePoint.semicolon ∧ p = .code 0
    · obtain ⟨rfl, rfl⟩ := hc
      obtain rfl := Option.some.inj hq
      refine ⟨pieces ++ [v], u ++ v ++ [CodePoint.semicolon], [], by simp, rfl, fun x => ?_⟩
      rw [List.append_assoc, List.singleton_append, hpieces, ofPlace, ofText_semicolon,
        foldr_extend, List.append_nil, List.append_assoc]
      rfl
    · have hstep : p.step c = some q := by simpa [run] using hq
      refine ⟨pieces, u, v ++ [c], by simp, run_append_eq_some_iff.2 ⟨p, hv, hq⟩, fun x => ?_⟩
      rw [List.append_assoc, List.singleton_append, hpieces, ofPlace_cons hstep hc,
        List.foldr_append]
      rfl

/-- Behind a text that closes what it opens, a semicolon ends a statement. -/
theorem segments_append {t : Text} (h : run (.code 0) t = some (.code 0)) (x : Text) :
    Text.segments (t ++ CodePoint.semicolon :: x) = t.segments ++ Text.segments x := by
  obtain ⟨pieces, u, v, -, -, hpieces⟩ := exists_last h
  have hend : t.segments = pieces ++ [v] := by
    have hend := hpieces []
    rwa [List.append_nil, ofPlace, ofText, foldr_extend, List.append_nil] at hend
  rw [hpieces, ofPlace, ofText_semicolon, foldr_extend, hend, List.append_nil, List.append_assoc]
  rfl

end Segments

namespace Text

/-! ## Blanks at the ends -/

theorem exists_trimStart (t : Text) : ∃ l : Text, t = l ++ t.trimStart ∧
    ∀ c ∈ l, c.isBlank = true :=
  ⟨t.takeWhile CodePoint.isBlank, List.takeWhile_append_dropWhile.symm,
    fun c hc => List.all_eq_true.1 List.all_takeWhile c hc⟩

theorem exists_trimEnd (t : Text) : ∃ r : Text, t = t.trimEnd ++ r ∧
    ∀ c ∈ r, c.isBlank = true := by
  refine ⟨(t.reverse.takeWhile CodePoint.isBlank).reverse, ?_,
    fun c hc => List.all_eq_true.1 List.all_takeWhile c (List.mem_reverse.1 hc)⟩
  rw [trimEnd, ← List.reverse_append, List.takeWhile_append_dropWhile, List.reverse_reverse]

/-- A text is its trimmed form between blanks. -/
theorem exists_trim (t : Text) : ∃ l r : Text, t = l ++ t.trim ++ r ∧
    (∀ c ∈ l, c.isBlank = true) ∧ ∀ c ∈ r, c.isBlank = true := by
  obtain ⟨l, ht, hl⟩ := t.exists_trimStart
  obtain ⟨r, hstart, hr⟩ := t.trimStart.exists_trimEnd
  refine ⟨l, r, ?_, hl, hr⟩
  rw [List.append_assoc, trim, ← hstart]
  exact ht

/-- The blanks in front of a text end where something else comes. -/
theorem trimStart_append (t : Text) {u : Text} (hu : ∀ c ∈ u.head?, c.isBlank = false) :
    (t ++ u).trimStart = t.trimStart ++ u := by
  rw [trimStart, List.dropWhile_append]
  split
  · rename_i ht
    rw [trimStart, List.isEmpty_iff.1 ht]
    cases u with
    | nil => rfl
    | cons c u => rw [List.dropWhile_cons_of_neg (by simp [hu c rfl])]; rfl
  · rfl

/-- The blanks behind a text start where something else ends. -/
theorem trimEnd_append {t : Text} (ht : ∀ c ∈ t.getLast?, c.isBlank = false) (u : Text) :
    (t ++ u).trimEnd = t ++ u.trimEnd := by
  have hreverse := trimStart_append u.reverse (u := t.reverse) (by rwa [List.head?_reverse])
  rw [trimStart, trimStart, ← List.reverse_append] at hreverse
  rw [trimEnd, hreverse, List.reverse_append, List.reverse_reverse]
  rfl

/-- Blanks at the ends of a text do not change where it leads. -/
theorem run_of_trim {t : Text} (h : run (.code 0) t.trim = some (.code 0)) :
    run (.code 0) t = some (.code 0) := by
  obtain ⟨l, r, ht, hl, hr⟩ := exists_trim t
  have hblank : ∀ {u : Text}, (∀ c ∈ u, c.isBlank = true) →
      run (.code 0) u = some (.code 0) :=
    fun hu => run_code_of_isPlain fun c hc => isPlain_of_isBlank (hu c hc)
  rw [ht, run_append, run_append, hblank hl, Option.bind_some, h, Option.bind_some, hblank hr]

/-! ## The statements of two texts -/

theorem run_join : ∀ {ts : List Text}, (∀ t ∈ ts, run (.code 0) t = some (.code 0)) →
    run (.code 0) (join [CodePoint.semicolon] ts) = some (.code 0)
  | [], _ => rfl
  | [t], h => h t List.mem_cons_self
  | t :: u :: rest, h => by
    rw [join, run_append, run_append, h t List.mem_cons_self]
    exact run_join fun w hw => h w (List.mem_cons_of_mem _ hw)

/-- A text leads from code to code if its statements do. -/
theorem run_of_statements {t : Text}
    (h : ∀ source ∈ t.statements, run (.code 0) source = some (.code 0)) :
    run (.code 0) t = some (.code 0) := by
  rw [← Segments.join_ofText false 0 t]
  refine run_join fun piece hpiece => run_of_trim ?_
  by_cases hempty : piece.trim = []
  · rw [hempty]
    rfl
  · exact h _ (List.mem_filter.2 ⟨List.mem_map_of_mem hpiece, by simpa using hempty⟩)

theorem statements_append {t : Text} (h : run (.code 0) t = some (.code 0)) (x : Text) :
    (t ++ CodePoint.semicolon :: x).statements = t.statements ++ x.statements := by
  rw [statements, Segments.segments_append h, List.map_append, List.filter_append]
  rfl

/-- The statements of an expression, whatever the limits say. -/
def sources (t : Text) : List Text := t.withLiteralArguments.statements

theorem prepare_eq_ok {limits : Limits} {t : Text}
    (hlength : (t.length : Int) ≤ limits.expressionLength)
    (hcount : (t.sources.length : Int) ≤ limits.statements) (hne : t.sources ≠ []) :
    prepare limits t = .ok t.sources := by
  have hlength := (limits.check_eq_ok_iff .expressionLength _).2 hlength
  have hcount := (limits.check_eq_ok_iff .statements _).2 hcount
  have hsome : t.sources.isEmpty = false := List.isEmpty_eq_false_iff.2 hne
  unfold sources at hcount hsome ⊢
  simp only [prepare, hlength, hcount, hsome]
  rfl

/-- An expression is refused for a limit or because it is empty, or has its statements. -/
theorem prepare_cases (limits : Limits) (t : Text) : prepare limits t = .ok t.sources ∨
    ∃ r, prepare limits t = .error r ∧
      ((∃ x, r = Report.ofExcess x) ∨ r = ⟨.empty, none, some t⟩) := by
  unfold prepare sources
  split
  · exact .inr ⟨_, rfl, .inl ⟨_, rfl⟩⟩
  simp only
  split
  · exact .inr ⟨_, rfl, .inl ⟨_, rfl⟩⟩
  split
  · exact .inr ⟨_, rfl, .inr rfl⟩
  · exact .inl rfl

/-- Statements that can be read are the same whatever comes behind a semicolon. -/
theorem sources_append {limits : Limits} {u : Text}
    (h : ∀ source ∈ u.sources, ∃ st, Statement.parse limits source = .ok st) (v : Text) :
    (u ++ CodePoint.semicolon :: v).sources = u.sources ++ v.sources := by
  have hrun : run (.code 0) u.withLiteralArguments = some (.code 0) := by
    refine run_of_statements fun source hsource => ?_
    obtain ⟨st, hst⟩ := h source hsource
    exact run_of_parse hst
  have hrewrite : (u ++ CodePoint.semicolon :: v).withLiteralArguments =
      u.withLiteralArguments ++ CodePoint.semicolon :: v.withLiteralArguments :=
    StringCall.replaceArguments_append (StringCall.pieces false u) hrun v
  rw [sources, hrewrite, statements_append hrun]
  rfl

end Text

end Reckon
