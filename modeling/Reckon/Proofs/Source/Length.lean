import Reckon.Proofs.Source.Cut

/-!
# The length of statements

An escape in a string literal takes at most six code points (`CodePoint.length_inLiteral_le`), and
nothing else makes a text longer when the arguments of `string` become literals. Cutting and
trimming only take code points away. So a statement of an expression is at most six times as long as
the expression (`Text.length_le_of_mem_sources`).
-/

namespace Reckon

namespace CodePoint

theorem length_inLiteral_le (c : CodePoint) : c.inLiteral.length ≤ 6 := by
  unfold inLiteral
  repeat' split
  all_goals simp [unicodeEscape]

end CodePoint

namespace Text

theorem length_literal_le (t : Text) : t.literal.length ≤ 6 * t.length + 2 := by
  have hbody : (t.flatMap CodePoint.inLiteral).length ≤ 6 * t.length := by
    induction t with
    | nil => exact Nat.le_refl 0
    | cons c t ih =>
      have hc := c.length_inLiteral_le
      rw [List.flatMap_cons, List.length_append, List.length_cons]
      omega
  rw [literal, List.length_append, List.length_cons, List.length_singleton]
  omega

theorem length_trim_le (t : Text) : t.trim.length ≤ t.length := by
  obtain ⟨l, r, ht, -⟩ := t.exists_trim
  have hlength := congrArg List.length ht
  rw [List.length_append, List.length_append] at hlength
  omega

theorem length_le_join (separator : Text) {t : Text} : ∀ {ts : List Text}, t ∈ ts →
    t.length ≤ (join separator ts).length
  | [u], h => by
    obtain rfl := List.mem_singleton.1 h
    exact Nat.le_refl _
  | u :: v :: rest, h => by
    rw [join, List.length_append, List.length_append]
    rcases List.mem_cons.1 h with rfl | h
    · omega
    · have hrest := length_le_join separator h
      omega

end Text

namespace StringCall

theorem length_unescape_le (c : CodePoint) : (unescape c).length ≤ 2 := by
  unfold unescape
  repeat' split
  all_goals simp

theorem length_unescaped_le (t : Text) : (unescaped t).length ≤ t.length := by
  fun_induction unescaped t with
  | case1 => exact Nat.le_refl 0
  | case2 => exact Nat.le_refl 1
  | case3 d more ih =>
    have hd := length_unescape_le d
    rw [List.length_append, List.length_cons, List.length_cons]
    omega
  | case4 c rest _ ih => exact Nat.succ_le_succ ih

theorem length_argumentLiteral_le (t : Text) :
    (argumentLiteral t).length ≤ 6 * t.length + 2 := by
  unfold argumentLiteral
  split
  · omega
  split
  · have h := Text.length_literal_le (t.drop 1).dropLast
    rw [List.length_dropLast, List.length_drop] at h
    omega
  · have h := Text.length_literal_le (unescaped t)
    have hunescaped := length_unescaped_le t
    omega

theorem length_replaceArguments_le (joined : Bool) (t : Text) :
    (replaceArguments joined t).length ≤ 6 * t.length := by
  fun_induction replaceArguments joined t with
  | case1 => exact Nat.le_refl 0
  | case2 joined rest n ih =>
    rw [List.length_append, List.length_cons, List.length_take, List.length_cons]
    rw [List.length_drop] at ih
    omega
  | case3 joined c rest _ hcall inside n _ ih =>
    have hopening : opening.length ≤ (c :: rest).length :=
      (List.isPrefixOf_iff_prefix.1 (Bool.and_eq_true_iff.1 hcall).2).length_le
    have hargument := length_argumentLiteral_le (inside.take n)
    have hinside : inside.length = rest.length - 6 := List.length_drop
    have hseven : opening.length = 7 := rfl
    have hone : (Text.ofString ")").length = 1 := rfl
    simp only [List.length_append, List.length_cons, List.length_take, List.length_drop] at *
    omega
  | case4 joined c rest _ _ _ _ ih =>
    rw [List.length_cons, List.length_cons]
    omega
  | case5 joined c rest _ _ ih =>
    rw [List.length_cons, List.length_cons]
    omega

end StringCall

namespace Text

/-- A statement is at most as long as its expression is with its arguments made literals. -/
theorem length_le_withLiteralArguments {t source : Text} (h : source ∈ t.sources) :
    source.length ≤ t.withLiteralArguments.length := by
  obtain ⟨piece, hpiece, rfl⟩ := List.mem_map.1 (List.mem_filter.1 h).1
  calc piece.trim.length ≤ piece.length := length_trim_le piece
    _ ≤ (join [CodePoint.semicolon] t.withLiteralArguments.segments).length :=
      length_le_join _ hpiece
    _ = t.withLiteralArguments.length :=
      congrArg List.length (Segments.join_ofText false 0 t.withLiteralArguments)

/-- A statement is at most six times as long as its expression. -/
theorem length_le_of_mem_sources {t source : Text} (h : source ∈ t.sources) :
    source.length ≤ 6 * t.length :=
  Nat.le_trans (length_le_withLiteralArguments h) (StringCall.length_replaceArguments_le false t)

end Text

end Reckon
