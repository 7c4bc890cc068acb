import Reckon.Proofs.Grammar.Layout
import Reckon.Proofs.Number.Range
import Reckon.Proofs.Session.Sequel
import Reckon.Proofs.Source.Quoting

/-!
# Calls of `string` hash the text that is written

In whatever way a text is written as the argument of `string` (`StringCall.Writes`), the call
evaluates to the hash of the text, at either precision (`evaluate_stringCall`). The one
statement of the expression is the call with the literal of the text
(`StringCall.Writes.sources_eq`), which is read as a call with one string
(`Statement.parse_stringCall`).
-/

namespace Reckon

/-! ## Reading the call -/

/-- The name of the function that hashes a text. -/
def hashName : Text := Builtin.string.name

/-- The tree of a call that hashes a text. -/
def hashCall (t : Text) : Expr := .call hashName [.string t 7] 0

/-- The limits have room for a call with one string. -/
structure Limits.Fits (limits : Limits) (t : Text) : Prop where
  /-- The call with the literal of the text is not too long. -/
  length : ((StringCall.call t.literal).length : Int) ≤ limits.expressionLength
  /-- The text is not too long. -/
  string : (t.length : Int) ≤ limits.stringLength
  /-- There can be a statement. -/
  statements : 1 ≤ limits.statements
  /-- There can be a call. -/
  depth : 1 ≤ limits.depth
  /-- There can be two nodes. -/
  nodes : 2 ≤ limits.nodes
  /-- There can be an argument. -/
  arguments : 1 ≤ limits.arguments

/-- The call with the literal of a text is read as a call with that string. -/
theorem Statement.parse_stringCall {limits : Limits} {t : Text} (h : limits.Fits t) :
    Statement.parse limits (StringCall.call t.literal) =
      .ok ⟨.bare, hashCall t, StringCall.call t.literal⟩ := by
  let ts : List Token := [⟨.name hashName, 0⟩, ⟨.left, 6⟩, ⟨.string t, 7⟩,
    ⟨.right, 7 + t.literal.length⟩]
  have hnonnegative : limits.Nonnegative := by
    have hstring := h.string
    have hlength := h.length
    have hstatements := h.statements
    have hdepth := h.depth
    have hnodes := h.nodes
    have harguments := h.arguments
    intro l
    cases l <;> simp only [Limits.bound] <;> omega
  have hspelled : (hashCall t).Spelled ts := .call hashName 0 6 _ (.one (.string t 7))
  have hwell : ∀ u ∈ [] ++ ts, u.lexeme.WellFormed := by
    have hname : hashName.IsName ∧ hashName ≠ Lexeme.resultWord :=
      ⟨⟨by decide, by decide⟩, by decide⟩
    simp [ts, Lexeme.WellFormed, hname]
  have hlaid : Laid 0 ([] ++ ts) (StringCall.call t.literal) := by
    have h : Laid 0 ts (hashName ++ (Lexeme.left.written ++ (t.literal ++
        (Lexeme.right.written ++ [])))) :=
      .cons [] (.name hashName) (by simp) <| .cons [] .left (by simp) <|
        .cons [] (.string t) (by simp) <| .cons [] .right (by simp) <| .nil _ (by simp)
    have hcall : StringCall.call t.literal = hashName ++ (Lexeme.left.written ++ (t.literal ++
        (Lexeme.right.written ++ []))) := by
      rw [StringCall.call, List.append_assoc]
      rfl
    rw [hcall]
    exact h
  refine Statement.parse_of_within hnonnegative ⟨trivial, trivial⟩ .bare hspelled hwell hlaid ?_ ?_
  · simp [ts, Token.ResultApart]
  · refine ⟨h.length, fun v hv => ?_, h.depth, h.arguments, h.nodes⟩
    have hv : v = t := by simpa [hashCall, Expr.lexemes, Expr.lexemesOfAll] using hv
    rw [hv]
    exact h.string

/-! ## Evaluating the call -/

/-- The call evaluates to the hash, in any session. -/
theorem Expr.evaluate_hashCall {rules : Rules} (hr : rules.functions = .standard) (t : Text)
    (s : Session) : ((hashCall t).evaluate rules s).1 =
      .ok (.number (Decimal.ofInt t.hash) none true) := by
  have hfind : rules.functions.find hashName = .ok .string := by
    rw [hr]
    decide
  have hcall : ∀ draw, rules.call draw hashName [.string t] =
      .ok (.number (Decimal.ofInt t.hash) none true) := by
    intro draw
    unfold Rules.call Registry.call
    rw [hfind]
    rfl
  simp only [hashCall, Expr.evaluate, Expr.evaluateAll, Evaluation.bind_apply, hfind,
    Evaluation.node, Evaluation.pure, Session.call, hcall, pure]

/-- A hash has a text as a result. -/
theorem Value.exists_result_hash (precision : Precision) (t : Text) (b : Bool) :
    ∃ text, Value.result precision (.number (Decimal.ofInt t.hash) none b) = .ok text := by
  have hcalm := Decimal.calm_hash .standard t
  cases precision with
  | standard =>
    rw [Value.result, hcalm.toDouble]
    exact ⟨_, rfl⟩
  | high =>
    have hcount : digitCount t.hash.natAbs ≤ doubleDigits :=
      digitCount_le (by decide) (hcalm.2 rfl).1
    have hprecision : ¬(Decimal.wholeDigits t.hash.natAbs 0 + Decimal.resultPlaces + 1 < 1 ∨
        999999999999999999 < Decimal.wholeDigits t.hash.natAbs 0 + Decimal.resultPlaces + 1) := by
      simp only [Decimal.wholeDigits, Decimal.adjusted, Decimal.resultPlaces]
      simp only [doubleDigits] at hcount
      omega
    have hplace : Decimal.lastPlace Decimal.resultPlaces = .ok (-50) := by decide
    rw [Value.result, Decimal.ofInt, Decimal.fixed]
    simp only [if_neg hprecision, hplace]
    exact ⟨_, rfl⟩

/-- A call of `string` evaluates to the hash of the text that its argument writes, at either
precision. Its one statement is read as a call with one string, which is the text. -/
theorem evaluate_stringCall {rules : Rules} (hr : rules.functions = .standard) {t argument : Text}
    (h : StringCall.Writes t argument) (hfits : rules.limits.Fits t)
    (hlength : ((StringCall.call argument).length : Int) ≤ rules.limits.expressionLength) :
    (∃ source, (StringCall.call argument).sources = [source] ∧
      Statement.parse rules.limits source = .ok ⟨.bare, .call "string" [.string t 7] 0, source⟩) ∧
    ∃ text, (evaluate rules (StringCall.call argument)).1 =
      .ok ⟨.number (Decimal.ofInt t.hash) none true, text⟩ := by
  have hread := Statement.parse_stringCall hfits
  refine ⟨⟨_, h.sources_eq, hread⟩, ?_⟩
  obtain ⟨journal, hevaluate⟩ :=
    evaluate_singleton hlength hfits.statements h.sources_eq hread
  obtain ⟨text, htext⟩ := Value.exists_result_hash rules.precision t true
  refine ⟨text, ?_⟩
  rw [hevaluate, Expr.evaluate_hashCall hr]
  simp only [Except.bind, Value.answer, htext]

attribute [local instance] Library.rounded

/-- A text that looks like the start of a call, with a semicolon, is written bare. -/
theorem evaluate_stringCall_bare :
    let rules : Rules := ⟨.high, {}, .standard, fun _ => .one⟩
    let t : Text := "string(;"
    (∃ source, (StringCall.call "string\\(;").sources = [source] ∧
      Statement.parse rules.limits source = .ok ⟨.bare, .call "string" [.string t 7] 0, source⟩) ∧
    ∃ text, (evaluate rules (StringCall.call "string\\(;")).1 =
      .ok ⟨.number (Decimal.ofInt t.hash) none true, text⟩ := by
  intro rules t
  have hwrites : StringCall.Writes t "string\\(;" := .bare (by decide) (by decide)
  exact evaluate_stringCall rfl hwrites
    ⟨by decide, by decide, by decide, by decide, by decide, by decide⟩ (by decide)

end Reckon
