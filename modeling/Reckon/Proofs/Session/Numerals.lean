import Reckon.Proofs.Grammar.Layout
import Reckon.Proofs.Grammar.Literals
import Reckon.Proofs.Session.Sequel

/-!
# Written numbers are expressions

A number as it is written, with a sign or without one, is an expression of one statement
(`SignedNumeral.sources_text`). The statement is read as a literal (`Statement.parse_numeral`),
and so the expression comes to the number that the literal denotes (`evaluate_numeral`).
-/

namespace Reckon

/-- Nothing is rewritten, cut or trimmed in a text of digits, points, signs and exponent letters. -/
theorem Text.sources_of_marks {t : Text} (hne : t ≠ []) (h : ∀ c ∈ t, c ∈ Numeral.marks) :
    t.sources = [t] := by
  have hmark : ∀ {d : CodePoint}, d ∉ Numeral.marks → d ∉ t := fun hd hm => hd (h _ hm)
  have hrewrite : t.withLiteralArguments = t :=
    StringCall.replaceArguments_eq_self fun hin =>
      hmark (d := CodePoint.ofChar 's') (by decide) (hin.subset (by decide))
  have hsegments : t.segments = [t] := by
    have hplain := StringCall.ofText_plain 0 [] t
      (fun c hc => Place.isPlain_of_mem_marks c (h c hc)) (hmark (by decide))
    rw [List.append_nil] at hplain
    rw [Text.segments, hplain, Segments.ofText, Segments.foldr_extend, List.append_nil]
  have htrim : t.trim = t := by
    have hblank : ∀ c ∈ Numeral.marks, c.isBlank = false := by decide
    exact Text.trim_eq_self (fun c hc => hblank c (h c (List.mem_of_mem_head? hc)))
      fun c hc => hblank c (h c (List.mem_of_mem_getLast? hc))
  rw [Text.sources, hrewrite, Text.statements, hsegments, List.map_singleton, htrim]
  simp [hne]

namespace SignedNumeral

variable {n : SignedNumeral}

theorem text_ne_nil (hn : n.numeral.WellFormed) : n.text ≠ [] := by
  obtain ⟨c, tail, htext, -⟩ := Scan.startsNumber_text hn []
  simp [text, htext]

/-- A written number is its own and only statement. -/
theorem sources_text (hn : n.numeral.WellFormed) : n.text.sources = [n.text] :=
  Text.sources_of_marks (text_ne_nil hn) fun _ => mem_marks

end SignedNumeral

variable {n : SignedNumeral}

/-- A written number is read as a literal. -/
theorem Statement.parse_numeral {limits : Limits} (h0 : limits.Nonnegative)
    (hn : n.numeral.WellFormed) (hlength : (n.text.length : Int) ≤ limits.expressionLength)
    (hnodes : 1 ≤ limits.nodes) :
    Statement.parse limits n.text = .ok ⟨.bare, .number n 0, n.text⟩ := by
  obtain ⟨s, m⟩ := n
  have hin : Statement.Within limits ⟨.bare, .number ⟨s, m⟩ 0, SignedNumeral.text ⟨s, m⟩⟩ := by
    refine ⟨hlength, fun v hv => ?_, h0 .depth, h0 .arguments, hnodes⟩
    cases s <;> simp [Expr.lexemes, Sign.lexemes] at hv
  cases s with
  | none =>
    have hlaid : Laid 0 ([] ++ [⟨.number m, 0⟩]) (SignedNumeral.text ⟨none, m⟩) := by
      have h : Laid 0 [⟨.number m, 0⟩] (m.text ++ []) :=
        .cons [] (.number m) (by simp) <| .nil _ (by simp)
      rwa [List.append_nil] at h
    exact parse_of_within h0 trivial .bare (.number m 0) (by simpa [Lexeme.WellFormed] using hn)
      hlaid (List.isChain_singleton _) hin
  | some s =>
    have hlaid : Laid 0 ([] ++ [⟨.operator s.operator, 0⟩, ⟨.number m, 1⟩])
        (SignedNumeral.text ⟨some s, m⟩) := by
      have h : Laid 0 [⟨.operator s.operator, 0⟩, ⟨.number m, 1⟩]
          ((Lexeme.operator s.operator).written ++ (m.text ++ [])) := by
        cases s <;>
          exact .cons [] (.operator _) (by simp) <| .cons [] (.number m) (by simp) <|
            .nil _ (by simp)
      rw [List.append_nil] at h
      cases s <;> exact h
    refine parse_of_within h0 trivial .bare (.signed s m 0 1)
      (by simpa [Lexeme.WellFormed] using hn) hlaid ?_ hin
    simp [Token.ResultApart]

/-- A written number comes to the number that it denotes. -/
theorem evaluate_numeral {rules : Rules} (h0 : rules.limits.Nonnegative)
    (hn : n.numeral.WellFormed) (hlength : (n.text.length : Int) ≤ rules.limits.expressionLength)
    (hstatements : 1 ≤ rules.limits.statements) (hnodes : 1 ≤ rules.limits.nodes) {d : Decimal}
    (hread : n.read rules.precision = .ok d) : (evaluate rules n.text).1 =
      Value.answer rules.precision (.number d none n.numeral.isInteger) := by
  obtain ⟨journal, hevaluate⟩ := evaluate_singleton hlength hstatements
    (SignedNumeral.sources_text hn) (Statement.parse_numeral h0 hn hlength hnodes)
  rw [hevaluate, Expr.evaluate, hread]
  rfl

end Reckon
