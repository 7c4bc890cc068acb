import Mathlib.Data.List.TakeWhile
import Reckon.Proofs.Source.Quoting

/-!
# Where a text is cut

A text is cut at the semicolons that stand outside of its string literals and of its open
parentheses, and nowhere else (`Segments.mem_seams_ofPlace`). This is said of every text, also of
one that no statement can be read from : a literal that is never closed goes on to the end, and a
parenthesis that closes nothing does not count (`Text.Outside`). `Place.follow` goes through any
text, where `Place.step` stops.

A piece starts in code, and each but the last one ends there with all parentheses closed
(`Segments.Chain`). Blanks at its ends can be dropped : they lead from code to code and out of no
string. So a statement is cut into itself, and the statements of a text, put together again, are cut
where they were put together (`Text.statements_exact`).
-/

namespace Reckon

namespace Text

/-! ## Outside of string literals -/

/-- The text can stand between the quotation marks of a string literal : each quotation mark in it
is escaped, and no backslash at its end escapes the closing one. -/
inductive InLiteral : Text → Prop
  | nil : InLiteral []
  | plain {b : Text} {c : CodePoint} (h : InLiteral b) (hquote : c ≠ CodePoint.quote)
    (hbackslash : c ≠ CodePoint.backslash) : InLiteral (b ++ [c])
  | escaped {b : Text} (h : InLiteral b) (c : CodePoint) :
    InLiteral (b ++ [CodePoint.backslash, c])

/-- The text ends outside of string literals, with `depth` parentheses open. One that closes
nothing does not count. -/
inductive Outside : Text → Nat → Prop
  | nil : Outside [] 0
  | literal {t b : Text} {depth : Nat} (h : Outside t depth) (hb : b.InLiteral) :
    Outside (t ++ CodePoint.quote :: b ++ [CodePoint.quote]) depth
  | left {t : Text} {depth : Nat} (h : Outside t depth) :
    Outside (t ++ [CodePoint.ofChar '(']) (depth + 1)
  | right {t : Text} {depth : Nat} (h : Outside t depth) :
    Outside (t ++ [CodePoint.ofChar ')']) (depth - 1)
  | other {t : Text} {c : CodePoint} {depth : Nat} (h : Outside t depth)
    (hquote : c ≠ CodePoint.quote) (hleft : c ≠ CodePoint.ofChar '(')
    (hright : c ≠ CodePoint.ofChar ')') : Outside (t ++ [c]) depth

/-- The places of the separators when texts are put together with one code point between them. -/
def seams (start : Nat) : List Text → List Nat
  | t :: u :: rest => (start + t.length) :: seams (start + t.length + 1) (u :: rest)
  | _ => []

end Text

namespace Place

theorem after_append (p : Place) (t u : Text) : p.after (t ++ u) = (p.after t).after u :=
  List.foldl_append

theorem after_concat (p : Place) (t : Text) (c : CodePoint) :
    p.after (t ++ [c]) = (p.after t).follow c :=
  List.foldl_append

/-- What can stand in a literal leads to where the literal goes on. -/
theorem after_inLiteral {b : Text} (h : b.InLiteral) (d : Nat) :
    (string d).after b = .string d := by
  induction h with
  | nil => rfl
  | plain h hquote hbackslash ih =>
    rw [after_concat, ih, follow, if_neg hbackslash, if_neg hquote]
  | escaped h c ih =>
    rw [after_append, ih]
    rfl

theorem after_of_outside {t : Text} {d : Nat} (h : t.Outside d) : (code 0).after t = .code d := by
  induction h with
  | nil => rfl
  | literal h hb ih =>
    rw [after_concat, List.append_cons, after_append, after_concat, ih]
    simp only [follow, if_pos, after_inLiteral hb]
    rfl
  | left h ih | right h ih =>
    rw [after_concat, ih]
    rfl
  | other h hquote hleft hright ih =>
    rw [after_concat, ih, follow, if_neg hquote, if_neg hleft, if_neg hright]

/-- The literal that a text ends in, up to a lone backslash at the end or without one. -/
theorem outside_of_after : ∀ t : Text, match (code 0).after t with
    | .code d => t.Outside d
    | .string d => ∃ u b, t = u ++ CodePoint.quote :: b ∧ u.Outside d ∧
        Text.InLiteral b
    | .escape d => ∃ u b, t = u ++ CodePoint.quote :: b ++ [CodePoint.backslash] ∧
        u.Outside d ∧ Text.InLiteral b := by
  intro t
  induction t using List.reverseRecOn with
  | nil => exact .nil
  | append_singleton t c ih =>
    rw [after_concat]
    cases hplace : (code 0).after t with
    | code d =>
      rw [hplace] at ih
      by_cases hquote : c = CodePoint.quote
      · subst hquote
        exact ⟨t, [], rfl, ih, .nil⟩
      by_cases hleft : c = CodePoint.ofChar '('
      · subst hleft
        exact ih.left
      by_cases hright : c = CodePoint.ofChar ')'
      · subst hright
        exact ih.right
      · rw [follow, if_neg hquote, if_neg hleft, if_neg hright]
        exact ih.other hquote hleft hright
    | string d =>
      rw [hplace] at ih
      obtain ⟨u, b, rfl, hu, hb⟩ := ih
      by_cases hbackslash : c = CodePoint.backslash
      · subst hbackslash
        exact ⟨u, b, rfl, hu, hb⟩
      by_cases hquote : c = CodePoint.quote
      · subst hquote
        exact hu.literal hb
      · rw [follow, if_neg hbackslash, if_neg hquote]
        exact ⟨u, b ++ [c], by simp, hu, hb.plain hquote hbackslash⟩
    | escape d =>
      rw [hplace] at ih
      obtain ⟨u, b, rfl, hu, hb⟩ := ih
      exact ⟨u, b ++ [CodePoint.backslash, c], by simp, hu, hb.escaped c⟩

/-- To end outside of literals is to lead from code to code. -/
theorem outside_iff {t : Text} {d : Nat} : t.Outside d ↔ (code 0).after t = .code d := by
  refine ⟨after_of_outside, fun h => ?_⟩
  have ht := outside_of_after t
  rwa [h] at ht

/-- A plain code point leads to code only from where it stays. -/
theorem eq_of_follow_isPlain {p : Place} {c : CodePoint} {d : Nat} (hc : c.isPlain = true)
    (h : p.follow c = .code d) : p = .code d := by
  obtain ⟨hquote, hbackslash, -, hleft, hright⟩ := CodePoint.isPlain_iff.1 hc
  cases p with
  | code e => rwa [follow, if_neg hquote, if_neg hleft, if_neg hright] at h
  | string e =>
    rw [follow, if_neg hbackslash, if_neg hquote] at h
    cases h
  | escape e => cases h

theorem eq_of_after_isPlain {p : Place} {d : Nat} : ∀ {t : Text}, (∀ c ∈ t, c.isPlain = true) →
    p.after t = .code d → p = .code d
  | [], _, h => h
  | c :: t, hplain, h => by
    obtain ⟨hc, ht⟩ := List.forall_mem_cons.1 hplain
    exact eq_of_follow_isPlain hc (eq_of_after_isPlain (p := p.follow c) ht h)

theorem after_code_isPlain {d : Nat} : ∀ {t : Text}, (∀ c ∈ t, c.isPlain = true) →
    (code d).after t = .code d
  | [], _ => rfl
  | c :: t, hplain => by
    obtain ⟨hc, ht⟩ := List.forall_mem_cons.1 hplain
    have hstep := follow_of_step (step_code_of_isPlain (d := d) hc)
    rw [after, List.foldl_cons, hstep]
    exact after_code_isPlain ht

end Place

namespace Segments

open Place

/-! ## The cuts of a text -/

theorem seams_extend (start : Nat) (c : CodePoint) {l : List Text} (h : l ≠ []) :
    Text.seams start (extend c l) = Text.seams (start + 1) l := by
  rcases l with - | ⟨first, - | ⟨second, others⟩⟩
  · exact (h rfl).elim
  · rfl
  · simp only [extend, Text.seams, List.length_cons, Nat.add_assoc, Nat.add_comm 1]

theorem seams_nil_cons (start : Nat) {l : List Text} (h : l ≠ []) :
    Text.seams start ([] :: l) = start :: Text.seams (start + 1) l := by
  cases l with
  | nil => exact (h rfl).elim
  | cons first others => rfl

theorem ofPlace_ne_nil (p : Place) (t : Text) : ofPlace p t ≠ [] := by
  cases p with
  | code d => exact ofText_ne_nil false d t
  | string d => exact ofText_ne_nil true d t
  | escape d =>
    cases t with
    | nil => exact List.cons_ne_nil _ _
    | cons c t => exact extend_ne_nil c _

/-- The pieces of a text are put together at the semicolons that lead from code with no parenthesis
open. -/
theorem mem_seams_ofPlace : ∀ (t : Text) (p : Place) (start i : Nat),
    i ∈ Text.seams start (ofPlace p t) ↔ ∃ j, i = start + j ∧
      t[j]? = some CodePoint.semicolon ∧ p.after (t.take j) = .code 0
  | [], p, start, i => by
    have hpieces : ofPlace p [] = [[]] := by cases p <;> rfl
    rw [hpieces]
    simp [Text.seams]
  | c :: t, p, start, i => by
    -- The first code point is a cut or not, and the others stand one place further on.
    have hstep : (∃ j, i = start + j ∧ (c :: t)[j]? = some CodePoint.semicolon ∧
        p.after ((c :: t).take j) = .code 0) ↔
          (i = start ∧ c = CodePoint.semicolon ∧ p = .code 0) ∨
            i ∈ Text.seams (start + 1) (ofPlace (p.follow c) t) := by
      rw [mem_seams_ofPlace t (p.follow c) (start + 1) i]
      constructor
      · rintro ⟨_ | j, rfl, hc, hplace⟩
        · exact .inl ⟨rfl, Option.some.inj hc, hplace⟩
        · exact .inr ⟨j, by omega, hc, hplace⟩
      · rintro (⟨rfl, rfl, rfl⟩ | ⟨j, rfl, hc, hplace⟩)
        · exact ⟨0, rfl, rfl, rfl⟩
        · exact ⟨j + 1, by omega, hc, hplace⟩
    rw [hstep, ofPlace_follow]
    split
    · rename_i hcut
      obtain ⟨rfl, rfl⟩ := hcut
      rw [seams_nil_cons _ (ofPlace_ne_nil _ _), List.mem_cons]
      exact or_congr_left ⟨fun h => ⟨h, rfl, rfl⟩, fun h => h.1⟩
    · rename_i hcut
      rw [seams_extend _ _ (ofPlace_ne_nil _ _)]
      exact ⟨.inr, fun h => h.resolve_left fun h => hcut h.2⟩

/-! ## Pieces -/

/-- No semicolon of the text cuts it, if it starts at the place. -/
def Uncut : Place → Text → Prop
  | _, [] => True
  | p, c :: t => ¬(c = CodePoint.semicolon ∧ p = .code 0) ∧ Uncut (p.follow c) t

theorem uncut_append {p : Place} {t u : Text} :
    Uncut p (t ++ u) ↔ Uncut p t ∧ Uncut (p.after t) u := by
  induction t generalizing p with
  | nil => exact ⟨fun h => ⟨trivial, h⟩, fun h => h.2⟩
  | cons c t ih => rw [List.cons_append, Uncut, Uncut, ih, and_assoc]; rfl

/-- What is not cut stands in front of the first piece of the rest. -/
theorem Uncut.ofPlace_append {p : Place} {t : Text} (h : Uncut p t) (x : Text) :
    ofPlace p (t ++ x) = t.foldr extend (ofPlace (p.after t) x) := by
  induction t generalizing p with
  | nil => rfl
  | cons c t ih =>
    rw [List.cons_append, ofPlace_follow, if_neg h.1, ih h.2]
    rfl

/-- The pieces are not cut themselves, and each but the last one closes what it opens. -/
inductive Chain : Place → List Text → Prop
  | last {p : Place} {t : Text} (h : Uncut p t) : Chain p [t]
  | cons {p : Place} {t : Text} {others : List Text} (h : Uncut p t) (hend : p.after t = .code 0)
    (hothers : Chain (.code 0) others) : Chain p (t :: others)

theorem Chain.extend {p : Place} {c : CodePoint} {l : List Text}
    (hc : ¬(c = CodePoint.semicolon ∧ p = .code 0)) (h : Chain (p.follow c) l) :
    Chain p (extend c l) := by
  cases h with
  | last h => exact .last ⟨hc, h⟩
  | cons h hend hothers => exact .cons ⟨hc, h⟩ hend hothers

theorem chain_ofPlace : ∀ (t : Text) (p : Place), Chain p (ofPlace p t)
  | [], p => by
    have hpieces : ofPlace p [] = [[]] := by cases p <;> rfl
    rw [hpieces]
    exact .last trivial
  | c :: t, p => by
    rw [ofPlace_follow]
    split
    · rename_i hcut
      obtain ⟨rfl, rfl⟩ := hcut
      exact .cons trivial rfl (chain_ofPlace t _)
    · rename_i hcut
      exact (chain_ofPlace t _).extend hcut

theorem Chain.uncut {p : Place} {l : List Text} (h : Chain p l) (hp : p = .code 0) :
    ∀ t ∈ l, Uncut (.code 0) t := by
  induction h with
  | last h =>
    subst hp
    exact List.forall_mem_singleton.2 h
  | cons h hend hothers ih =>
    subst hp
    exact List.forall_mem_cons.2 ⟨h, ih rfl⟩

/-- Pieces that are put together are cut apart again. -/
theorem Chain.ofPlace_join {p : Place} {l : List Text} (h : Chain p l) :
    ofPlace p (Text.join [CodePoint.semicolon] l) = l := by
  induction h with
  | @last p t h =>
    have hpieces := h.ofPlace_append []
    rw [List.append_nil] at hpieces
    rw [Text.join, hpieces, show ofPlace (p.after t) [] = [[]] by cases p.after t <;> rfl,
      foldr_extend, List.append_nil]
  | @cons p t others h hend hothers ih =>
    obtain ⟨first, rest, rfl⟩ : ∃ first rest, others = first :: rest := by
      cases hothers <;> exact ⟨_, _, rfl⟩
    rw [Text.join, List.append_assoc, h.ofPlace_append, hend, List.singleton_append,
      ofPlace_follow, if_pos ⟨rfl, rfl⟩, foldr_extend, List.append_nil, ih]

/-! ## Pieces without the blanks at their ends -/

theorem after_blank {d : Nat} {t : Text} (h : ∀ c ∈ t, c.isBlank = true) :
    (code d).after t = .code d :=
  after_code_isPlain fun c hc => isPlain_of_isBlank (h c hc)

theorem Uncut.trim {d : Nat} {t : Text} (h : Uncut (.code d) t) : Uncut (.code d) t.trim := by
  obtain ⟨l, r, ht, hl, -⟩ := t.exists_trim
  rw [ht, List.append_assoc, uncut_append, after_blank hl, uncut_append] at h
  exact h.2.1

/-- Where a piece ends in code, it does so without the blanks at its end. -/
theorem after_trim {d e : Nat} {t : Text} (h : (code d).after t = .code e) :
    (code d).after t.trim = .code e := by
  obtain ⟨l, r, ht, hl, hr⟩ := t.exists_trim
  rw [ht, List.append_assoc, after_append, after_blank hl, after_append] at h
  exact eq_of_after_isPlain (fun c hc => isPlain_of_isBlank (hr c hc)) h

/-- Trimming the pieces and dropping those that are empty leaves pieces, or nothing. -/
theorem Chain.statements {p : Place} {l : List Text} (h : Chain p l) (hp : p = .code 0) :
    (l.map Text.trim).filter (fun t => !t.isEmpty) = [] ∨
      Chain (.code 0) ((l.map Text.trim).filter fun t => !t.isEmpty) := by
  induction h with
  | @last p t h =>
    subst hp
    rw [List.map_singleton, List.filter_cons, List.filter_nil]
    split
    · exact .inr (.last h.trim)
    · exact .inl rfl
  | @cons p t others h hend hothers ih =>
    subst hp
    rw [List.map_cons, List.filter_cons]
    split
    · rcases ih rfl with hnil | hchain
      · rw [hnil]
        exact .inr (.last h.trim)
      · exact .inr (.cons h.trim (after_trim hend) hchain)
    · exact ih rfl

end Segments

namespace Text

/-! ## Statements -/

theorem trim_trim (t : Text) : t.trim.trim = t.trim := by
  have hhead : ∀ u : Text, ∀ c ∈ u.trimStart.head?, c.isBlank = false := by
    intro u c hc
    have h := List.head?_dropWhile_not CodePoint.isBlank u
    rw [← trimStart, Option.mem_def.1 hc] at h
    exact h
  refine trim_eq_self (fun c hc => ?_) fun c hc => ?_
  · obtain ⟨r, hr, -⟩ := t.trimStart.exists_trimEnd
    refine hhead t c ?_
    rw [hr, Option.mem_def, List.head?_append, ← trim, Option.mem_def.1 hc]
    rfl
  · rw [trim, trimEnd, List.getLast?_reverse] at hc
    exact hhead _ c hc

/-- A text has nothing but blanks if trimming leaves nothing. -/
theorem trim_eq_nil_iff {t : Text} : t.trim = [] ↔ t.isBlank = true := by
  rw [isBlank, List.all_eq_true]
  constructor
  · intro h
    obtain ⟨l, r, ht, hl, hr⟩ := t.exists_trim
    rw [h, List.append_nil] at ht
    intro c hc
    rw [ht] at hc
    exact (List.mem_append.1 hc).elim (hl c) (hr c)
  · intro h
    have hstart : t.trimStart = [] := List.dropWhile_eq_nil_iff.2 h
    rw [trim, hstart]
    rfl

/-- The statements of a text are its trimmed pieces without the blank ones. -/
theorem statements_eq (t : Text) :
    t.statements = (t.segments.filter fun piece => !piece.isBlank).map trim := by
  rw [statements, List.filter_map]
  congr 1
  refine List.filter_congr fun piece _ => ?_
  rw [Function.comp_apply, Bool.not_inj_iff, Bool.eq_iff_iff, List.isEmpty_iff, trim_eq_nil_iff]

theorem trim_of_mem_statements {t source : Text} (h : source ∈ t.statements) :
    source.trim = source ∧ source ≠ [] := by
  obtain ⟨hmem, hne⟩ := List.mem_filter.1 h
  obtain ⟨piece, -, rfl⟩ := List.mem_map.1 hmem
  exact ⟨trim_trim piece, by simpa using hne⟩

theorem chain_statements (t : Text) :
    t.statements = [] ∨ Segments.Chain (.code 0) t.statements :=
  (Segments.chain_ofPlace t (.code 0)).statements rfl

/-- Trimmed pieces that are not empty are the statements of what they make up. -/
theorem statements_join {l : List Text} (hchain : Segments.Chain (.code 0) l)
    (hl : ∀ source ∈ l, source.trim = source ∧ source ≠ []) :
    (join [CodePoint.semicolon] l).statements = l := by
  have hsegments : (join [CodePoint.semicolon] l).segments = l := hchain.ofPlace_join
  have hmap : l.map trim = l :=
    (List.map_congr_left fun source hsource => (hl source hsource).1).trans (List.map_id' l)
  rw [statements, hsegments, hmap, List.filter_eq_self]
  intro source hsource
  simpa using (hl source hsource).2

/-- Every text is made up of its pieces, put together at exactly those semicolons that stand outside
of string literals and of open parentheses, and its statements are the trimmed pieces that are not
blank. A statement has itself as its only statement, and statements that are put together stay the
same. -/
theorem statements_exact (t : Text) :
    (join [CodePoint.semicolon] t.segments = t ∧
      (∀ i, i ∈ seams 0 t.segments ↔
        t[i]? = some CodePoint.semicolon ∧ Outside (t.take i) 0) ∧
      t.statements = (t.segments.filter fun piece => !piece.isBlank).map trim) ∧
    (∀ source ∈ t.statements, source.statements = [source]) ∧
    (join [CodePoint.semicolon] t.statements).statements = t.statements := by
  refine ⟨⟨Segments.join_ofText false 0 t, fun i => ?_, statements_eq t⟩, fun source hsource => ?_,
    ?_⟩
  · have hseams := Segments.mem_seams_ofPlace t (.code 0) 0 i
    simp only [Nat.zero_add, exists_eq_left', ← Place.outside_iff] at hseams
    exact hseams
  · rcases t.chain_statements with hnil | hchain
    · rw [hnil] at hsource
      cases hsource
    · exact statements_join (.last (hchain.uncut rfl source hsource))
        (by simpa using trim_of_mem_statements hsource)
  · rcases t.chain_statements with hnil | hchain
    · rw [hnil]
      rfl
    · exact statements_join hchain fun source hsource => trim_of_mem_statements hsource

/-- A literal that is never closed keeps its semicolon, and the blank behind the backslash at its
end is dropped. -/
theorem statements_exact_open :
    let t : Text := "f(1;2)) ;; \x22a;\\\x22b\\ "
    let source : Text := "\x22a;\\\x22b\\"
    t.statements = [Text.ofString "f(1;2))", source] ∧ source ∈ t.statements ∧
      source.statements = [source] := by
  intro t source
  have h : t.statements = [Text.ofString "f(1;2))", source] := by decide +kernel
  have hmem : source ∈ t.statements := by simp [h]
  exact ⟨h, hmem, t.statements_exact.2.1 source hmem⟩

end Text

end Reckon
