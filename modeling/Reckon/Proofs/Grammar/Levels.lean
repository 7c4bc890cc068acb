import Reckon.Grammar.Levels
import Reckon.Proofs.Grammar.Nesting

/-!
# Levels within the limits

Each node of a tree takes a lexeme of its own, so a tree is at most as high as its statement is long
(`Expr.height_le_length`), and its evaluation enters at most three levels for each node
(`Expr.evaluationLevels_le`). Reading enters five levels at most for each open parenthesis. So the
limits bound all levels but those of the counting, and these are bounded by the length of the
statement (`Statement.levels_le`). They can be half as many : a sum of ones has a level more for
each one that is added (`Statement.lt_levels_sum`).
-/

namespace Reckon

open Reckon.Expr

/-! ## Trees -/

namespace Expr

section

variable (operands arguments : ℕ)

mutual

/-- A recursion enters a bounded number of levels for each node. -/
theorem levels_le_nodes : ∀ e : Expr,
    e.levels operands arguments ≤ (1 + max operands arguments) * e.nodes
  | .number .. | .string .. | .variable .. => by simp [levels, nodes]
  | .group inner _ => by
    have := levels_le_nodes inner
    rw [levels, nodes, Nat.mul_add]
    omega
  | .binary _ left right _ => by
    have := levels_le_nodes left
    have := levels_le_nodes right
    rw [levels, nodes, Nat.mul_add, Nat.mul_add]
    omega
  | .call _ es _ => by
    have := levelsOfAll_le_nodes es
    rw [levels, nodes, Nat.mul_add]
    omega

theorem levelsOfAll_le_nodes : ∀ es : List Expr,
    levelsOfAll operands arguments es ≤ (1 + max operands arguments) * nodesOfAll es
  | [] => Nat.zero_le _
  | e :: rest => by
    have := levels_le_nodes e
    have := levelsOfAll_le_nodes rest
    rw [levelsOfAll, nodesOfAll, Nat.mul_add]
    omega

end

end

/-- The evaluation of a tree enters at most three levels for each node. -/
theorem evaluationLevels_le (e : Expr) : e.evaluationLevels ≤ 3 * e.nodes :=
  levels_le_nodes 1 2 e

mutual

/-- A tree is written with at least as many lexemes as it has nodes. -/
theorem nodes_le_length : ∀ e : Expr, e.nodes ≤ e.lexemes.length
  | .number ⟨s, m⟩ _ => by simp [nodes, lexemes]
  | .string .. => le_rfl
  | .variable .. => le_rfl
  | .group inner _ => by
    have := nodes_le_length inner
    simp only [nodes, lexemes, List.cons_append, List.length_cons, List.length_append]
    omega
  | .binary _ left right _ => by
    have := nodes_le_length left
    have := nodes_le_length right
    simp only [nodes, lexemes, List.length_append, List.length_cons]
    omega
  | .call _ es _ => by
    have := nodesOfAll_le_length es
    simp only [nodes, lexemes, List.cons_append, List.length_cons, List.length_append]
    omega

theorem nodesOfAll_le_length : ∀ es : List Expr, nodesOfAll es ≤ (lexemesOfAll es).length
  | [] => le_rfl
  | [e] => nodes_le_length e
  | e :: f :: rest => by
    have := nodes_le_length e
    have := nodesOfAll_le_length (f :: rest)
    rw [nodesOfAll, lexemesOfAll, List.length_append, List.length_cons]
    omega

end

/-- A tree is at most as high as it has lexemes. -/
theorem height_le_length (e : Expr) : e.height ≤ e.lexemes.length := by
  have hlevels : e.levels 0 0 ≤ 1 * e.nodes := levels_le_nodes 0 0 e
  have hnodes := e.nodes_le_length
  rw [height]
  omega

end Expr

/-! ## Reading -/

theorem Enclosure.levelsOfAll_le : ∀ enclosures : List Enclosure,
    levelsOfAll enclosures ≤ 5 * enclosures.length
  | [] => le_rfl
  | ⟨_, opening⟩ :: outside => by
    have := levelsOfAll_le outside
    have : opening.levels ≤ 5 := by cases opening <;> simp [Opening.levels, operandLevels]
    rw [levelsOfAll, List.length_cons]
    omega

namespace Reader

variable {limits : Limits} {r : Reader} {ts : List Token}

/-- The tree that is counted spells all that was read. -/
theorem Accounts.counted (ha : r.Accounts ts) {next : Option Lexeme} {e : Expr}
    (h : r.counted? next = some e) : e.Spelled ts := by
  obtain ⟨⟨us, vs, ws, ho, hp, hm, rfl⟩, -⟩ := ha
  unfold counted? at h
  split at h
  · rename_i e' henclosures hexpecting
    rw [henclosures] at ho
    rw [hexpecting] at hm
    cases ho
    cases hm with
    | afterOperand hl hc hs =>
      obtain rfl := Option.some.inj h
      exact (complete_spelled hp hl hc hs).2
  · rename_i n p henclosures hexpecting
    rw [henclosures] at ho
    rw [hexpecting] at hm
    cases ho
    cases hm
    split at h
    · cases h
    · obtain rfl := Option.some.inj h
      exact (complete_spelled hp rfl (by trivial) (.variable n p)).2
  · cases h

theorem Accounts.countedLevels_le (ha : r.Accounts ts) (next : Option Lexeme) :
    r.countedLevels next ≤ ts.length := by
  unfold countedLevels
  cases h : r.counted? next with
  | none => exact Nat.zero_le _
  | some e =>
    have hlexemes := congrArg List.length (ha.counted h).map_lexeme
    have hheight := e.height_le_length
    rw [List.length_map] at hlexemes
    rw [Option.map_some, Option.getD_some]
    omega

/-- Within the limit on the depth, reading enters a bounded number of levels. -/
theorem Shallow.entered_le (hr : r.Shallow limits) :
    (r.entered : Int) ≤ 5 * limits.depth + 4 := by
  have hsum := Enclosure.levelsOfAll_le r.enclosures
  unfold Shallow at hr
  unfold entered operandLevels
  split <;> omega

/-- Reading on enters no more levels than the limit on the depth allows, and the counting at its end
no more than there are tokens, those before it included. -/
theorem Accounts.levels_le : ∀ {r : Reader} {ts : List Token}, r.Accounts ts → r.Shallow limits →
    ∀ us : List Token,
      (r.levels limits us : Int) ≤ max (5 * limits.depth + 4) ↑(ts.length + us.length)
  | r, ts, ha, hr, [] => by
    have := hr.entered_le
    have := ha.countedLevels_le none
    rw [levels, List.length_nil]
    omega
  | r, ts, ha, hr, t :: us => by
    have := hr.entered_le
    have hdescends := r.step_descends limits t
    rw [levels, List.length_cons]
    cases hstep : r.step limits t with
    | error h =>
      have := ha.countedLevels_le (some t.lexeme)
      simp only
      omega
    | ok next =>
      rw [hstep] at hdescends
      have := (ha.step hstep).levels_le (hdescends hr) us
      rw [List.length_append, List.length_singleton] at this
      simp only
      omega

end Reader

/-- A text has at least as many code points as tokens. -/
theorem Scan.length_le_of_tokensFrom {limits : Limits} : ∀ (t : Text) {p : ℕ} {ts : List Token},
    tokensFrom limits p t = .ok ts → ts.length ≤ t.length
  | [], p, ts, h => by
    rw [tokensFrom] at h
    obtain rfl := Except.ok.inj h
    exact le_rfl
  | c :: rest, p, ts, h => by
    cases hgap : c.isGap with
    | true =>
      rw [tokensFrom, if_pos hgap] at h
      exact (length_le_of_tokensFrom rest h).trans (Nat.le_succ _)
    | false =>
      obtain ⟨l, n, more, -, rfl, hmore⟩ := cons_of_tokensFrom hgap h
      have := length_le_of_tokensFrom (rest.drop (n - 1)) hmore
      rw [List.length_drop] at this
      simp only [List.length_cons]
      omega
termination_by t => t.length
decreasing_by all_goals (simp only [List.length_cons, List.length_drop]; omega)

/-- The tokens of the expression are among those of the statement. -/
theorem Form.length_ofTokens_le (ts : List Token) : (ofTokens ts).2.length ≤ ts.length := by
  unfold ofTokens
  split
  all_goals
    simp only [List.length_cons]
    omega

/-- The reading of a statement enters no more levels than the limit on the depth allows, and the
counting at its end no more than the statement has code points. -/
theorem Statement.levels_le {limits : Limits} (hdepth : 0 ≤ limits.depth) (source : Text) :
    (levels limits source : Int) ≤ max (5 * limits.depth + 4) source.length := by
  unfold levels
  cases hts : tokens limits source with
  | error h =>
    simp only
    omega
  | ok ts =>
    have hstart : Reader.start.Shallow limits := hdepth
    have hlevels := Reader.accounts_start.levels_le hstart (Form.ofTokens ts).2
    have hform := Form.length_ofTokens_le ts
    have hlength := Scan.length_le_of_tokensFrom source (Scan.tokensFrom_of_tokens hts)
    simp only [List.length_nil] at hlevels ⊢
    omega

/-! ## Sums of ones -/

/-- The number one. -/
def Numeral.one : Numeral := ⟨[1], none, none⟩

/-- One and so many more ones. -/
def Text.sum (n : ℕ) : Text := Text.ofString "1" ++ (List.replicate n (Text.ofString "+1")).flatten

/-- The lexemes of so many more ones. -/
def Lexeme.sum (n : ℕ) : List Lexeme :=
  (List.replicate n [Lexeme.operator .plus, .number .one]).flatten

theorem Text.length_sum (n : ℕ) : (sum n).length = 2 * n + 1 := by
  have hlength : (Text.ofString "+1").length = 2 := rfl
  have hone : (Text.ofString "1").length = 1 := rfl
  simp only [sum, List.length_append, List.length_flatten, List.map_replicate,
    List.sum_replicate_nat, hlength, hone]
  omega

theorem Lexeme.isChain_sum : ∀ (n : ℕ) (l : Lexeme), (l :: sum n).IsChain Meet
  | 0, l => List.isChain_singleton l
  | n + 1, l => by
    refine List.isChain_cons_cons.2 ⟨fun h => h.2, List.isChain_cons_cons.2 ⟨fun h => h.1, ?_⟩⟩
    exact isChain_sum n _

/-- The ones that are added stand one behind the other. -/
theorem exists_laid_sum : ∀ n p : ℕ, ∃ ts, ts.map Token.lexeme = Lexeme.sum n ∧
    Laid p ts (List.replicate n (Text.ofString "+1")).flatten
  | 0, p => ⟨[], rfl, .nil p fun _ h => (by cases h)⟩
  | n + 1, p => by
    obtain ⟨ts, hts, hlaid⟩ := exists_laid_sum n (p + 1 + 1)
    refine ⟨⟨.operator .plus, p⟩ :: ⟨.number .one, p + 1⟩ :: ts, ?_,
      .cons [] (.operator .plus) (fun _ h => (by cases h)) <|
        .cons [] (.number .one) (fun _ h => (by cases h)) hlaid⟩
    rw [List.map_cons, List.map_cons, hts]
    rfl

namespace Reader

/-- If all waiting operands are finished, nothing waits. -/
theorem absorb_eq_complete {k : ℕ} : ∀ {waiting : List Waiting} {e : Expr},
    (∀ w ∈ waiting, k ≤ w.op.level) → absorb k waiting e = ([], complete waiting e)
  | [], _, _ => rfl
  | w :: rest, e, h => by
    have hrest : ∀ v ∈ rest, k ≤ v.op.level := fun v hv => h v (List.mem_cons_of_mem _ hv)
    rw [absorb, if_pos (h w List.mem_cons_self), absorb_eq_complete hrest]
    rfl

/-- Each one that is added is a level more. -/
theorem le_levels_sum (limits : Limits) : ∀ (n : ℕ) {waiting : List Waiting} (e : Expr)
    {ts : List Token}, (∀ w ∈ waiting, 1 ≤ w.op.level) → ts.map Token.lexeme = Lexeme.sum n →
    (complete waiting e).height + n ≤ levels limits ⟨[], waiting, .afterOperand e⟩ ts
  | 0, waiting, e, ts, _, hts => by
    obtain rfl := List.map_eq_nil_iff.1 hts
    exact Nat.le_max_right _ _
  | n + 1, waiting, e, ts, hlevel, hts => by
    obtain ⟨⟨_, p⟩, us, rfl, rfl, hus⟩ := List.map_eq_cons_iff.1 hts
    obtain ⟨⟨_, q⟩, rest, rfl, rfl, hrest⟩ := List.map_eq_cons_iff.1 hus
    let waiting' : List Waiting := [⟨complete waiting e, .plus, p⟩]
    have hplus : step limits ⟨[], waiting, .afterOperand e⟩ ⟨.operator .plus, p⟩ =
        .ok ⟨[], waiting', .operand⟩ := by
      simp only [step, after, Operator.level, absorb_eq_complete hlevel]
      rfl
    have hone : step limits ⟨[], waiting', .operand⟩ ⟨.number .one, q⟩ =
        .ok ⟨[], waiting', .afterOperand (.number ⟨none, .one⟩ q)⟩ := rfl
    have hlevel' : ∀ w ∈ waiting', 1 ≤ w.op.level := fun w hw => by
      rw [List.mem_singleton.1 hw]
      exact le_rfl
    have ih := le_levels_sum limits n (.number ⟨none, .one⟩ q) hlevel' hrest
    have hheight : (complete waiting e).height + 1 ≤
        (complete waiting' (.number ⟨none, .one⟩ q)).height := by
      change _ ≤ 1 + max (complete waiting e).height 1
      omega
    rw [levels, hplus]
    simp only
    rw [levels, hone]
    simp only
    omega

end Reader

/-- A sum of ones that is not too long has the tokens of its lexemes. -/
theorem exists_tokens_sum {limits : Limits} {n : ℕ}
    (hlength : ((Text.sum n).length : Int) ≤ limits.expressionLength) :
    ∃ us, us.map Token.lexeme = Lexeme.sum n ∧
      tokens limits (Text.sum n) = .ok (⟨.number .one, 0⟩ :: us) := by
  obtain ⟨us, hus, hlaid⟩ := exists_laid_sum n 1
  refine ⟨us, hus, ?_⟩
  let ts : List Token := ⟨.number .one, 0⟩ :: us
  have hlexemes : ts.map Token.lexeme = .number .one :: Lexeme.sum n := by rw [List.map_cons, hus]
  have hmem : ∀ t ∈ ts, t.lexeme = .number .one ∨ t.lexeme = .operator .plus := by
    intro t ht
    have h : t.lexeme ∈ .number .one :: Lexeme.sum n := hlexemes ▸ List.mem_map_of_mem ht
    simp only [Lexeme.sum, List.mem_cons, List.mem_flatten, List.mem_replicate] at h
    aesop
  have hstrings : Scan.checkStrings limits ts = .ok () := by
    rw [Scan.checkStrings_eq_ok_iff]
    intro v hv
    obtain ⟨t, ht, hlexeme⟩ := List.mem_map.1 hv
    rcases hmem t ht with h | h <;> cases hlexeme.symm.trans h
  have hlaid' : Laid 0 ts (Text.sum n) :=
    .cons [] (.number .one) (fun _ h => (by cases h)) hlaid
  have hwell : ∀ t ∈ ts, t.lexeme.WellFormed := by
    intro t ht
    rcases hmem t ht with h | h
    · rw [h]
      exact ⟨by decide, fun _ h => (by cases h)⟩
    · rw [h]
      trivial
  have hscan := Scan.tokensFrom_laid limits hlaid' hwell
    (Token.isChain_apart (hlexemes ▸ Lexeme.isChain_sum n _))
  rw [hstrings] at hscan
  rw [tokens, (limits.check_eq_ok_iff .expressionLength _).2 hlength]
  exact hscan

/-- A sum of ones has a level for each of them, if it is not too long to be read. -/
theorem Statement.lt_levels_sum {limits : Limits} {n : ℕ}
    (hlength : ((Text.sum n).length : Int) ≤ limits.expressionLength) :
    n < levels limits (Text.sum n) := by
  obtain ⟨us, hus, hts⟩ := exists_tokens_sum hlength
  let ts : List Token := ⟨.number .one, 0⟩ :: us
  have hsum := Reader.le_levels_sum limits n (.number ⟨none, .one⟩ 0)
    (fun _ (h : _ ∈ []) => (by cases h)) hus
  have hform : (Form.ofTokens ts).2 = ts := rfl
  have hstep : Reader.start.step limits ⟨.number .one, 0⟩ =
      .ok ⟨[], [], .afterOperand (.number ⟨none, .one⟩ 0)⟩ := rfl
  have hheight : (Reader.complete [] (.number ⟨none, .one⟩ 0)).height = 1 := rfl
  rw [levels, hts]
  simp only [hform, ts]
  rw [Reader.levels, hstep]
  simp only
  omega

end Reckon
