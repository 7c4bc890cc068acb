import Reckon.Proofs.Grammar.Layout
import Reckon.Proofs.Grammar.Soundness

/-!
# What is read can be completed

Whatever the reader has read can be completed to a statement : an operand that is missing is put
in, a sign gets its number, and all parentheses are closed (`Reader.Accounts.exists_completion`). So
each of its states has read the start of a grammatical sequence of lexemes.
-/

namespace Reckon

open Reckon.Expr

/-! ## Grammatical lexemes -/

/-- The lexemes can be scanned and write a statement, whose tree is canonical. -/
def Grammatical (ls : List Lexeme) : Prop :=
  (∀ l ∈ ls, l.WellFormed) ∧ ∃ (st : Statement) (ts : List Token),
    ts.map Token.lexeme = ls ∧ st.Spelled ts ∧ st.expression.Canonical

/-- The lexemes that give a statement its form do so at any positions. -/
theorem Form.Opens.of_map_eq {f : Form} {us us' : List Token} (h : f.Opens us)
    (heq : us'.map Token.lexeme = us.map Token.lexeme) : f.Opens us' := by
  cases h with
  | bare =>
    rw [List.map_eq_nil_iff.1 heq]
    exact .bare
  | result p =>
    obtain ⟨q, rfl⟩ := exists_of_map_eq_singleton heq
    exact .result q
  | define n p q =>
    obtain ⟨p', vs, rfl, hvs⟩ := exists_of_map_eq_cons heq
    obtain ⟨q', rfl⟩ := exists_of_map_eq_singleton hvs
    exact .define n p' q'
  | equals n p q =>
    obtain ⟨p', vs, rfl, hvs⟩ := exists_of_map_eq_cons heq
    obtain ⟨q', rfl⟩ := exists_of_map_eq_singleton hvs
    exact .equals n p' q'

/-- Tokens with grammatical lexemes write a statement. -/
theorem Grammatical.exists_spelled {ts : List Token} (h : Grammatical (ts.map Token.lexeme)) :
    ∃ st : Statement, st.Spelled ts ∧ st.expression.Canonical := by
  obtain ⟨-, st, ts', hts, ⟨us, vs, rfl, hopens, hspelled⟩, hc⟩ := h
  rw [List.map_append] at hts
  obtain ⟨us', vs', rfl, hus, hvs⟩ := List.map_eq_append_iff.1 hts.symm
  obtain ⟨e, he, hs⟩ := Expr.exists_spelled st.expression (hvs.trans hspelled.map_lexeme)
  refine ⟨⟨st.form, e, []⟩, ⟨us', vs', rfl, hopens.of_map_eq hus, hs⟩, ?_⟩
  rwa [← canonical_unplaced, he, canonical_unplaced]

/-! ## Completion -/

/-- Zero, as it is written. -/
def Numeral.zero : Numeral := ⟨[0], none, none⟩

theorem Numeral.zero_wellFormed : (Lexeme.number .zero).WellFormed := by
  simp [Lexeme.WellFormed, Numeral.WellFormed, Numeral.zero]

/-- An operand that is begun or missing becomes a whole one. -/
theorem Met.exists_operand {expecting : Expecting} {ws : List Token} (h : Met expecting ws) :
    ∃ (e : Expr) (more : List Token), e.level = 3 ∧ e.Canonical ∧ e.Spelled (ws ++ more) ∧
      ∀ t ∈ more, t.lexeme.WellFormed := by
  have hzero : ∀ t ∈ [(⟨.number .zero, 0⟩ : Token)], t.lexeme.WellFormed := by
    simp [Numeral.zero_wellFormed]
  cases h with
  | operand | firstArgument =>
    exact ⟨.number ⟨none, .zero⟩ 0, _, rfl, trivial, .number .zero 0, hzero⟩
  | signedNumber s p =>
    exact ⟨.number ⟨some s, .zero⟩ p, _, rfl, trivial, .signed s .zero p 0, hzero⟩
  | afterName n p => exact ⟨.variable n p, [], rfl, trivial, .variable n p, by simp⟩
  | @afterOperand e ws hl hc hs => exact ⟨e, [], hl, hc, by rwa [List.append_nil], by simp⟩

/-- All open parentheses are closed behind a tree. -/
theorem Opened.exists_closed {enclosures : List Enclosure} {us : List Token}
    (h : Opened enclosures us) : ∀ {e : Expr} {ts : List Token}, e.Canonical → e.Spelled ts →
      ∃ (whole : Expr) (more : List Token), whole.Canonical ∧ whole.Spelled (us ++ ts ++ more) ∧
        ∀ t ∈ more, t.lexeme.WellFormed := by
  induction h with
  | nil =>
    intro e ts hc hs
    exact ⟨e, [], hc, by simpa using hs, by simp⟩
  | @group outside waiting us vs p h hw ih =>
    intro e ts hc hs
    obtain ⟨hc', hs'⟩ := Reader.complete_spelled hw (e := .group e p) rfl hc (.group p 0 hs)
    obtain ⟨whole, more, hwhole, hspelled, hmore⟩ := ih hc' hs'
    refine ⟨whole, ⟨.right, 0⟩ :: more, hwhole, by simpa using hspelled, ?_⟩
    exact List.forall_mem_cons.2 ⟨trivial, hmore⟩
  | @call outside waiting us vs args arguments n p q h hw ha ih =>
    intro e ts hc hs
    obtain ⟨hca, hsa⟩ := ha.last hc hs
    obtain ⟨hc', hs'⟩ := Reader.complete_spelled hw (e := .call n (arguments ++ [e]) p) rfl hca
      (.call n p q 0 hsa)
    obtain ⟨whole, more, hwhole, hspelled, hmore⟩ := ih hc' hs'
    refine ⟨whole, ⟨.right, 0⟩ :: more, hwhole, by simpa using hspelled, ?_⟩
    exact List.forall_mem_cons.2 ⟨trivial, hmore⟩

/-- What the reader has read is the start of a tree. -/
theorem Reader.Accounts.exists_completion {r : Reader} {ts : List Token} (h : r.Accounts ts) :
    ∃ (e : Expr) (more : List Token), e.Canonical ∧ e.Spelled (ts ++ more) ∧
      ∀ t ∈ more, t.lexeme.WellFormed := by
  obtain ⟨⟨us, vs, ws, ho, hp, hm, rfl⟩, -⟩ := h
  obtain ⟨e, more, hl, hc, hs, hmore⟩ := hm.exists_operand
  obtain ⟨hc', hs'⟩ := Reader.complete_spelled hp hl hc hs
  obtain ⟨whole, more', hwhole, hspelled, hmore'⟩ := ho.exists_closed hc' hs'
  refine ⟨whole, more ++ more', hwhole, by simpa using hspelled, fun t ht => ?_⟩
  exact (List.mem_append.1 ht).elim (hmore t) (hmore' t)

theorem Reader.Accounts.steps {limits : Limits} : ∀ {us ts : List Token} {r r' : Reader},
    r.Accounts ts → steps limits r us = .ok r' → r'.Accounts (ts ++ us)
  | [], ts, r, r', ha, h => by
    obtain rfl := Except.ok.inj h
    rwa [List.append_nil]
  | u :: us, ts, r, r', ha, h => by
    rw [steps_cons] at h
    cases hstep : r.step limits u with
    | error x =>
      rw [hstep] at h
      cases h
    | ok next =>
      rw [hstep, ok_bind] at h
      simpa using (ha.step hstep).steps h

end Reckon
