import Reckon.Proofs.Grammar.Completeness

/-!
# The reader reads nothing else

What a state of the reader has read is determined by the state : the operands in front of
each open parenthesis with their operators, the arguments that are complete, and what was
read of the operand at hand (`Reader.Accounts`). Each step adds its own token to this
account (`Reader.Accounts.step`), so at the end the whole sequence of tokens is the spelling
of the tree, and the tree is canonical because an operand only waits for an operator that
binds more tightly than the one in front of it.
-/

namespace Reckon

open Reckon.Expr

/-! ## What was read -/

/-- The tokens of waiting operands with their operators, each of which binds more tightly than
the one before. -/
inductive Pending : List Waiting → List Token → Prop
  | nil : Pending [] []
  | cons {left : Expr} {rest : List Waiting} {ts us : List Token} (op : Operator) (p : Nat)
    (h : Pending rest us) (hbelow : Below op.level rest) (hop : op.level ≤ left.level)
    (hc : left.Canonical) (hs : left.Spelled ts) :
    Pending (⟨left, op, p⟩ :: rest) (us ++ ts ++ [⟨.operator op, p⟩])

/-- The tokens of the complete arguments of an open call, with the comma behind the last. -/
inductive Begun : List Expr → List Token → Prop
  | nil : Begun [] []
  | some {arguments : List Expr} {ts : List Token} (p : Nat) (hne : arguments ≠ [])
    (hc : AllCanonical arguments) (hs : AllSpelled arguments ts) :
    Begun arguments (ts ++ [⟨.comma, p⟩])

/-- The tokens of an open call, of its last argument and of a comma make it an argument more
that is complete. -/
theorem Begun.comma {arguments : List Expr} {ts us : List Token} {e : Expr}
    (h : Begun arguments ts) (hc : e.Canonical) (hs : e.Spelled us) (p : Nat) :
    Begun (arguments ++ [e]) (ts ++ us ++ [⟨.comma, p⟩]) := by
  cases h with
  | nil => exact .some p (by simp) ⟨hc, trivial⟩ (.one hs)
  | some q hne hca hsa =>
    have hall := hsa.append_singleton q hs hne
    simpa using Begun.some p (by simp) ((allCanonical_append_singleton _ _).2 ⟨hca, hc⟩) hall

/-- A last argument completes the arguments of a call. -/
theorem Begun.last {arguments : List Expr} {ts us : List Token} {e : Expr}
    (h : Begun arguments ts) (hc : e.Canonical) (hs : e.Spelled us) :
    AllCanonical (arguments ++ [e]) ∧ AllSpelled (arguments ++ [e]) (ts ++ us) := by
  cases h with
  | nil => exact ⟨⟨hc, trivial⟩, .one hs⟩
  | some q hne hca hsa =>
    refine ⟨(allCanonical_append_singleton _ _).2 ⟨hca, hc⟩, ?_⟩
    simpa using hsa.append_singleton q hs hne

/-- The tokens up to the innermost open parenthesis. -/
inductive Opened : List Enclosure → List Token → Prop
  | nil : Opened [] []
  | group {outside : List Enclosure} {waiting : List Waiting} {us vs : List Token} (p : Nat)
    (h : Opened outside us) (hw : Pending waiting vs) :
    Opened (⟨waiting, .group p⟩ :: outside) (us ++ vs ++ [⟨.left, p⟩])
  | call {outside : List Enclosure} {waiting : List Waiting} {us vs ts : List Token}
    {arguments : List Expr} (n : Text) (p q : Nat) (h : Opened outside us)
    (hw : Pending waiting vs) (ha : Begun arguments ts) :
    Opened (⟨waiting, .call n p arguments⟩ :: outside)
      (us ++ vs ++ ⟨.name n, p⟩ :: ⟨.left, q⟩ :: ts)

/-- The tokens of the operand at hand. -/
inductive Met : Expecting → List Token → Prop
  | operand : Met .operand []
  | firstArgument : Met .firstArgument []
  | signedNumber (s : Sign) (p : Nat) : Met (.signedNumber s p) [⟨.operator s.operator, p⟩]
  | afterName (n : Text) (p : Nat) : Met (.afterName n p) [⟨.name n, p⟩]
  | afterOperand {e : Expr} {ts : List Token} (hl : e.level = 3) (hc : e.Canonical)
    (hs : e.Spelled ts) : Met (.afterOperand e) ts

/-- The reader has read these tokens. -/
structure Reader.Accounts (r : Reader) (ts : List Token) : Prop where
  /-- The tokens are those of the three parts of the state. -/
  parts : ∃ us vs ws, Opened r.enclosures us ∧ Pending r.waiting vs ∧ Met r.expecting ws ∧
    ts = us ++ vs ++ ws
  /-- A first argument is only expected directly behind the parenthesis of a call. -/
  first : r.expecting = .firstArgument → r.waiting = [] ∧
    ∃ waiting n p outside, r.enclosures = ⟨waiting, .call n p []⟩ :: outside

namespace Reader

theorem accounts_start : start.Accounts [] :=
  ⟨⟨[], [], [], .nil, .nil, .operand, rfl⟩, by simp [start]⟩

/-! ## Absorbing -/

/-- Finishing waiting operands keeps the tokens, and what is left waits below the level. -/
theorem exists_absorb {k : Nat} {waiting : List Waiting} {us : List Token}
    (h : Pending waiting us) {e : Expr} {ts : List Token} (hbelow : Below e.level waiting)
    (hc : e.Canonical) (hs : e.Spelled ts) : ∃ us' ts', Pending (absorb k waiting e).1 us' ∧
      Below k (absorb k waiting e).1 ∧ (absorb k waiting e).2.Canonical ∧
      (absorb k waiting e).2.Spelled ts' ∧ min k e.level ≤ (absorb k waiting e).2.level ∧
      us ++ ts = us' ++ ts' := by
  induction h generalizing e ts with
  | nil => exact ⟨[], ts, .nil, below_nil k, hc, hs, Nat.min_le_right _ _, rfl⟩
  | @cons left rest lefts us op p h hb hop hcl hsl ih =>
    rw [below_cons] at hbelow
    rw [absorb]
    split
    · rename_i hk
      have hce : (Expr.binary op left e p).Canonical := ⟨⟨hop, hcl⟩, hbelow, hc⟩
      obtain ⟨us', ts', hp', hb', hc', hs', hl', heq⟩ :=
        ih (e := .binary op left e p) hb hce (.binary op p hsl hs)
      refine ⟨us', ts', hp', hb', hc', hs', ?_, ?_⟩
      · have hk' : k ≤ op.level := hk
        have hmin : min k op.level ≤ (absorb k rest (.binary op left e p)).2.level := hl'
        exact Nat.le_trans (by omega) hmin
      · rw [← heq]
        simp
    · rename_i hk
      refine ⟨_, ts, .cons op p h hb hop hcl hsl, ?_, hc, hs, Nat.min_le_right _ _, rfl⟩
      rw [below_cons]
      exact Nat.lt_of_not_le hk

/-- Finishing all waiting operands leaves one tree with all their tokens. -/
theorem complete_spelled {waiting : List Waiting} {us ts : List Token} {e : Expr}
    (h : Pending waiting us) (hl : e.level = 3) (hc : e.Canonical) (hs : e.Spelled ts) :
    (complete waiting e).Canonical ∧ (complete waiting e).Spelled (us ++ ts) := by
  have hbelow : Below e.level waiting := fun w _ => by
    rw [hl]
    exact Nat.lt_succ_of_le w.op.level_le
  obtain ⟨us', ts', hp', hb', hc', hs', -, heq⟩ := exists_absorb (k := 0) h hbelow hc hs
  -- Nothing waits below the lowest level.
  have hnil : (absorb 0 waiting e).1 = [] := by
    cases hw : (absorb 0 waiting e).1 with
    | nil => rfl
    | cons w rest =>
      rw [hw, below_cons] at hb'
      exact (Nat.not_lt_zero _ hb').elim
  rw [hnil] at hp'
  cases hp'
  rw [heq]
  exact ⟨hc', hs'⟩

/-! ## Steps -/

variable {limits : Limits} {r r' : Reader}

theorem accounts_openWith (us vs ws : List Token) {opening : Opening} {next : Expecting}
    (h : openWith limits r opening next = .ok r')
    (ho : Opened (⟨r.waiting, opening⟩ :: r.enclosures) (us ++ vs ++ ws)) (hm : Met next [])
    (hfirst : next = .firstArgument → ∃ n p, opening = .call n p []) :
    r'.Accounts (us ++ vs ++ ws) := by
  rw [openWith_eq, bind_eq_ok_iff] at h
  obtain rfl := Except.ok.inj h.2
  refine ⟨⟨_, [], [], ho, .nil, hm, by simp⟩, fun hn => ⟨rfl, ?_⟩⟩
  obtain ⟨n, p, rfl⟩ := hfirst hn
  exact ⟨_, n, p, _, rfl⟩

/-- A token where an operand must start begins one. -/
theorem accounts_operand {us vs : List Token} {t : Token} (ho : Opened r.enclosures us)
    (hp : Pending r.waiting vs) (h : operand limits r t = .ok r') :
    r'.Accounts (us ++ vs ++ [t]) := by
  obtain ⟨l, q⟩ := t
  have begun : ∀ {next : Expecting}, Met next [⟨l, q⟩] → next ≠ .firstArgument →
      Except.ok ({ r with expecting := next } : Reader) = (.ok r' : Except Halt Reader) →
      r'.Accounts (us ++ vs ++ [⟨l, q⟩]) := by
    intro next hm hne heq
    obtain rfl := Except.ok.inj heq
    exact ⟨⟨us, vs, _, ho, hp, hm, rfl⟩, fun h => (hne h).elim⟩
  cases l with
  | number n => exact begun (.afterOperand rfl (by trivial) (.number n q)) (by simp) h
  | string v => exact begun (.afterOperand rfl (by trivial) (.string v q)) (by simp) h
  | name n => exact begun (.afterName n q) (by simp) h
  | left => exact accounts_openWith _ _ _ h (.group q ho hp) .operand (by simp)
  | operator op =>
    simp only [operand] at h
    cases hs : op.sign? with
    | none => simp [hs] at h
    | some s =>
      rw [hs] at h
      rw [Operator.eq_operator_of_sign? hs] at begun ⊢
      exact begun (.signedNumber s q) (by simp) h
  | result | equals | define | right | comma => simp [operand] at h

theorem accounts_endCall {outside : List Enclosure} {waiting : List Waiting} {n : Text}
    {p : Nat} (q q' : Nat) {arguments : List Expr} {us vs ts : List Token}
    (ho : Opened outside us) (hp : Pending waiting vs) (hc : AllCanonical arguments)
    (hs : AllSpelled arguments ts) (h : endCall limits outside waiting n p arguments = .ok r') :
    r'.Accounts (us ++ vs ++ (⟨.name n, p⟩ :: ⟨.left, q⟩ :: ts ++ [⟨.right, q'⟩])) := by
  rw [endCall_eq, bind_eq_ok_iff] at h
  obtain rfl := Except.ok.inj h.2
  exact ⟨⟨us, vs, _, ho, hp, .afterOperand rfl hc (.call n p q q' hs), rfl⟩, by simp⟩

/-- A token behind an operand goes on with the tree around it. -/
theorem accounts_after {us vs ws : List Token} {e : Expr} {t : Token}
    (ho : Opened r.enclosures us) (hp : Pending r.waiting vs) (hl : e.level = 3)
    (hc : e.Canonical) (hs : e.Spelled ws) (h : after limits r e t = .ok r') :
    r'.Accounts (us ++ vs ++ ws ++ [t]) := by
  obtain ⟨enclosures, waiting, expecting⟩ := r
  obtain ⟨l, q⟩ := t
  have hwhole := complete_spelled hp hl hc hs
  simp only [after] at h
  split at h
  · rename_i op
    obtain rfl := Except.ok.inj h
    have hbelow : Below e.level waiting := fun w _ => by
      rw [hl]
      exact Nat.lt_succ_of_le w.op.level_le
    obtain ⟨us', ts', hp', hb', hc', hs', hl', heq⟩ := exists_absorb (k := op.level) hp hbelow hc hs
    have hlevel : op.level ≤ (absorb op.level waiting e).2.level := by
      have := op.level_le
      rw [hl] at hl'
      dsimp only at hl'
      omega
    refine ⟨⟨us, _, [], ho, .cons op q hp' hb' hlevel hc' hs', .operand, ?_⟩, by simp⟩
    rw [List.append_assoc us, heq]
    simp
  · rename_i w p outside
    obtain rfl := Except.ok.inj h
    cases ho with
    | group _ ho hw =>
      refine ⟨⟨_, _, _, ho, hw, .afterOperand rfl hwhole.1 (.group p q hwhole.2), ?_⟩, by simp⟩
      simp
  · rename_i w n p arguments outside
    cases ho with
    | call _ _ q' ho hw ha =>
      obtain ⟨hca, hsa⟩ := ha.last hwhole.1 hwhole.2
      simpa using accounts_endCall q' q ho hw hca hsa h
  · rename_i w n p arguments outside
    obtain rfl := Except.ok.inj h
    cases ho with
    | call _ _ q' ho hw ha =>
      refine ⟨⟨_, [], [], .call n p q' ho hw (ha.comma hwhole.1 hwhole.2 q), .nil, .operand, ?_⟩,
        by simp⟩
      simp
  · split at h <;> cases h

/-- A step adds its token to the account. -/
theorem Accounts.step {ts : List Token} {t : Token} (ha : r.Accounts ts)
    (h : r.step limits t = .ok r') : r'.Accounts (ts ++ [t]) := by
  obtain ⟨⟨us, vs, ws, ho, hp, hm, rfl⟩, hfirst⟩ := ha
  obtain ⟨enclosures, waiting, expecting⟩ := r
  cases hm with
  | operand => simpa using accounts_operand ho hp h
  | firstArgument =>
    obtain ⟨rfl, w, n, p, outside, rfl⟩ := hfirst rfl
    simp only [Reader.step] at h
    split at h
    · rename_i hright heq
      obtain ⟨l, q⟩ := t
      obtain rfl : l = .right := hright
      cases heq
      cases hp
      cases ho with
      | call _ _ q' ho hw ha =>
        cases ha with
        | nil => simpa using accounts_endCall q' q ho hw (by trivial) .nil h
        | some _ hne => exact (hne rfl).elim
    · simpa using accounts_operand ho hp h
  | signedNumber s p =>
    obtain ⟨l, q⟩ := t
    simp only [Reader.step] at h
    split at h
    · rename_i n
      obtain rfl := Except.ok.inj h
      exact ⟨⟨us, vs, _, ho, hp, .afterOperand rfl trivial (.signed s n p q), by simp⟩, by simp⟩
    · cases h
  | afterName n p =>
    obtain ⟨l, q⟩ := t
    simp only [Reader.step] at h
    split at h
    · have hopen := accounts_openWith us vs [⟨.name n, p⟩, ⟨.left, q⟩] h
        (.call n p q ho hp .nil) .firstArgument fun _ => ⟨n, p, rfl⟩
      simpa using hopen
    · exact accounts_after ho hp rfl (by trivial) (.variable n p) h
  | afterOperand hl hc hs => exact accounts_after ho hp hl hc hs h

/-- With no parenthesis open, all that was read spells the tree. -/
theorem spelled_of_closed {us vs ws : List Token} {e whole : Expr} {position : Nat}
    (ho : Opened r.enclosures us) (hp : Pending r.waiting vs) (hl : e.level = 3)
    (hc : e.Canonical) (hs : e.Spelled ws)
    (h : closed limits r.enclosures (complete r.waiting e) position = .ok whole) :
    whole.Canonical ∧ whole.Spelled (us ++ vs ++ ws) := by
  obtain ⟨enclosures, waiting, expecting⟩ := r
  cases ho with
  | nil =>
    simp only [closed] at h
    split at h
    · cases h
    · obtain rfl := Except.ok.inj h
      exact complete_spelled hp hl hc hs
  | group | call => simp [closed] at h

/-- A state that finishes has read the spelling of its tree. -/
theorem Accounts.finish {ts : List Token} {e : Expr} {position : Nat} (ha : r.Accounts ts)
    (h : r.finish limits position = .ok e) : e.Canonical ∧ e.Spelled ts := by
  obtain ⟨⟨us, vs, ws, ho, hp, hm, rfl⟩, -⟩ := ha
  obtain ⟨enclosures, waiting, expecting⟩ := r
  cases hm with
  | operand | firstArgument | signedNumber s p => cases h
  | afterName n p => exact spelled_of_closed ho hp rfl (by trivial) (.variable n p) h
  | afterOperand hl hc hs => exact spelled_of_closed ho hp hl hc hs h

theorem Accounts.run {position : Nat} {e : Expr} : ∀ {r : Reader} {ts us : List Token},
    r.Accounts ts → r.run limits position us = .ok e → e.Canonical ∧ e.Spelled (ts ++ us)
  | _, _, [], ha, h => by
    rw [List.append_nil]
    exact ha.finish h
  | r, ts, u :: us, ha, h => by
    rw [Reader.run] at h
    split at h
    · cases h
    · rename_i next hstep
      simpa using (ha.step hstep).run h

end Reader

theorem Expr.spelled_of_ofTokens {limits : Limits} {position : Nat} {ts : List Token} {e : Expr}
    (h : Expr.ofTokens limits position ts = .ok e) : e.Canonical ∧ e.Spelled ts :=
  Reader.accounts_start.run h

namespace Statement

variable {limits : Limits} {source : Text} {st : Statement}

theorem parse_eq_ok_iff :
    parse limits source = .ok st ↔ ∃ ts, tokens limits source = .ok ts ∧
      Expr.ofTokens limits source.length (Form.ofTokens ts).2 = .ok st.expression ∧
      st.form = (Form.ofTokens ts).1 ∧ st.source = source := by
  unfold parse read
  cases tokens limits source with
  | error h => simp [Except.mapError]
  | ok ts =>
    obtain ⟨form, expression, text⟩ := st
    simp only [Except.ok.injEq, exists_eq_left']
    cases Expr.ofTokens limits source.length (Form.ofTokens ts).2 with
    | error h => simp [Except.mapError]
    | ok e =>
      simp only [Except.mapError, Except.ok.injEq, Statement.mk.injEq]
      constructor
      · rintro ⟨rfl, rfl, rfl⟩
        exact ⟨rfl, rfl, rfl⟩
      · rintro ⟨rfl, rfl, rfl⟩
        exact ⟨rfl, rfl, rfl⟩

/-- The tokens of a source that is read spell the statement, whose tree is canonical. -/
theorem spelled_of_parse (h : parse limits source = .ok st) :
    ∃ ts, tokens limits source = .ok ts ∧ st.Spelled ts ∧ st.expression.Canonical := by
  obtain ⟨ts, hts, hread, hform, -⟩ := parse_eq_ok_iff.1 h
  obtain ⟨us, hus, hopens⟩ := Form.exists_of_ofTokens ts
  obtain ⟨hc, hs⟩ := Expr.spelled_of_ofTokens hread
  exact ⟨ts, hts, ⟨us, _, hus, hform ▸ hopens, hs⟩, hc⟩

/-- A source that is read is the statement token by token : its tokens, in order and with
their positions, are the word or the target in front of the tree and then the spelling of
the tree. The tree groups by level and to the left, and no other statement with such a tree
has the same tokens. -/
theorem parse_sound (h : parse limits source = .ok st) :
    ∃ ts, tokens limits source = .ok ts ∧ st.source = source ∧ st.Spelled ts ∧
      st.expression.Canonical ∧
      ∀ other : Statement, other.Spelled ts → other.expression.Canonical →
        other.form = st.form ∧ other.expression = st.expression := by
  obtain ⟨ts, hts, hs, hc⟩ := spelled_of_parse h
  obtain ⟨-, -, -, -, hsource⟩ := parse_eq_ok_iff.1 h
  exact ⟨ts, hts, hsource, hs, hc, fun other ho hco => Spelled.unique hc hco hs ho⟩

/-- The first minus is a sign, the second an operator, and the power binds loosest. -/
theorem parse_sound_signed :
    let source : Text := "-1-2^x"
    let st : Statement := ⟨.bare, .binary .power (.binary .minus
      (.number ⟨some .minus, ⟨[1], none, none⟩⟩ 0) (.number ⟨none, ⟨[2], none, none⟩⟩ 3) 2)
      (.variable "x" 5) 4, source⟩
    parse {} source = .ok st ∧ ∃ ts, tokens {} source = .ok ts ∧ st.source = source ∧
      st.Spelled ts ∧ st.expression.Canonical ∧
      ∀ other : Statement, other.Spelled ts → other.expression.Canonical →
        other.form = st.form ∧ other.expression = st.expression := by
  intro source st
  have h : parse {} source = .ok st := parse_eq_ok_iff.2
    ⟨[⟨.operator .minus, 0⟩, ⟨.number ⟨[1], none, none⟩, 1⟩, ⟨.operator .minus, 2⟩,
      ⟨.number ⟨[2], none, none⟩, 3⟩, ⟨.operator .power, 4⟩, ⟨.name "x", 5⟩],
      by decide +kernel, rfl, rfl, rfl⟩
  exact ⟨h, parse_sound h⟩

end Statement

end Reckon
