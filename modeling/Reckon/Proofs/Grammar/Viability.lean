import Reckon.Proofs.Grammar.Completion
import Reckon.Proofs.Grammar.Munch
import Reckon.Proofs.Grammar.Positions

/-!
# The first token that cannot stand

The start of a statement is viable if some grammatical statement goes on from there. What the
reader has read is viable, since each of its states can be completed
(`Reader.Accounts.exists_completion`), and with what it refuses it is not, since it reads every
canonical tree (`Reader.run_spelled`). So it stops at the first place with which no grammatical
statement goes on (`unfit_of_refuses`), and where there is such a place it stops
(`Statement.parse_fault`). The fault is reported there, except that a sign without its number is
reported itself.
-/

namespace Reckon

open Reckon.Expr

/-! ## Viable starts -/

/-- The lexemes of a statement and the end behind them. -/
def ended (ls : List Lexeme) : List (Option Lexeme) := ls.map some ++ [none]

/-- A grammatical statement starts like this. -/
def Viable (s : List (Option Lexeme)) : Prop := ∃ whole, Grammatical whole ∧ s <+: ended whole

/-- Some grammatical statement starts with what stands before the place `k`, but none with that and
what stands there. -/
def Unfit (s : List (Option Lexeme)) (k : Nat) : Prop :=
  k < s.length ∧ Viable (s.take k) ∧ ¬ Viable (s.take (k + 1))

/-- An operand may end with the lexeme. -/
def Lexeme.EndsOperand : Lexeme → Prop
  | .number _ | .string _ | .name _ | .right => True
  | _ => False

/-- In front of the place `k` stands a sign where an operand starts, and at the place no number. -/
def LoneSignBefore (s : List (Option Lexeme)) (k : Nat) : Prop :=
  ∃ (before : List Lexeme) (op : Operator), s.take k = (before ++ [Lexeme.operator op]).map some ∧
    op.sign? ≠ none ∧ (∀ l ∈ before.getLast?, ¬ l.EndsOperand) ∧
    ∀ n, s[k]? ≠ some (some (.number n))

theorem Viable.shorten {s s' : List (Option Lexeme)} (h : Viable s) (hs : s' <+: s) : Viable s' :=
  let ⟨whole, hwhole, hpre⟩ := h
  ⟨whole, hwhole, hs.trans hpre⟩

theorem Unfit.le {s : List (Option Lexeme)} {j k : Nat} (hj : Unfit s j) (hk : Unfit s k) :
    j ≤ k := by
  by_contra hlt
  exact hk.2.2 (hj.2.1.shorten (List.take_prefix_take_left (by omega)))

theorem Unfit.unique {s : List (Option Lexeme)} {j k : Nat} (hj : Unfit s j) (hk : Unfit s k) :
    j = k := le_antisymm (hj.le hk) (hk.le hj)

section

variable (ls ms : List Lexeme)

theorem ended_append : ended (ls ++ ms) = ls.map some ++ ended ms := by simp [ended]

theorem take_ended : (ended (ls ++ ms)).take ls.length = ls.map some := by
  rw [ended_append, List.take_left' (by simp)]

theorem getElem?_ended : (ended (ls ++ ms))[ls.length]? = some ms.head? := by
  rw [ended_append, List.getElem?_append_right (by simp), List.length_map, Nat.sub_self]
  cases ms <;> rfl

theorem take_succ_ended : (ended (ls ++ ms)).take (ls.length + 1) = ls.map some ++ [ms.head?] := by
  rw [ended_append, ← List.length_map (f := some), List.take_length_add_append]
  cases ms <;> rfl

end

/-- What goes on to a place of a whole is a start of it, and the place shows what stands there. -/
theorem exists_of_prefix_ended {x : Option Lexeme} : ∀ {ls whole : List Lexeme},
    ls.map some ++ [x] <+: ended whole → ∃ ms, whole = ls ++ ms ∧ ms.head? = x
  | [], whole, h => by
    refine ⟨whole, rfl, ?_⟩
    cases whole with
    | nil => exact (List.cons_prefix_cons.1 h).1.symm
    | cons w whole => exact (List.cons_prefix_cons.1 h).1.symm
  | l :: ls, [], h => by
    cases (List.cons_prefix_cons.1 h).1
  | l :: ls, w :: whole, h => by
    obtain ⟨hl, hprefix⟩ := List.cons_prefix_cons.1 h
    obtain ⟨ms, rfl, hms⟩ := exists_of_prefix_ended hprefix
    exact ⟨ms, by rw [Option.some.inj hl, List.cons_append], hms⟩

/-- A whole statement is viable up to its end. -/
theorem Grammatical.not_unfit {ls : List Lexeme} (h : Grammatical ls) (k : Nat) :
    ¬ Unfit (ended ls) k := fun hk => hk.2.2 ⟨ls, h, List.take_prefix _ _⟩

/-! ## Refusals -/

namespace Reader

variable {limits : Limits} {position p : Nat} {f : Fault} {r r' : Reader}

/-- The next token, or the end if there is none, is refused with a fault. -/
def Refuses (limits : Limits) (position : Nat) (r : Reader) (post : List Token) (f : Fault)
    (p : Nat) : Prop :=
  match post with
  | [] => r.finish limits position = .error (.fault f p)
  | t :: _ => r.step limits t = .error (.fault f p)

theorem exists_refuses : ∀ {ts : List Token} {r : Reader},
    r.run limits position ts = .error (.fault f p) → ∃ pre post r', ts = pre ++ post ∧
      steps limits r pre = .ok r' ∧ Refuses limits position r' post f p
  | [], r, h => ⟨[], [], r, rfl, rfl, h⟩
  | t :: ts, r, h => by
    rw [run] at h
    split at h
    · rename_i g hstep
      obtain rfl := Except.error.inj h
      exact ⟨[], t :: ts, r, rfl, rfl, hstep⟩
    · rename_i next hstep
      obtain ⟨pre, post, r', rfl, hsteps, hrefuses⟩ := exists_refuses h
      exact ⟨t :: pre, post, r', rfl, by rw [steps_cons, hstep, ok_bind, hsteps], hrefuses⟩

/-- What is refused is refused whatever comes behind it. -/
theorem Refuses.run_eq {pre post more : List Token} (h : Refuses limits position r' post f p)
    (hsteps : steps limits r pre = .ok r') (hmore : more.head? = post.head?) :
    r.run limits position (pre ++ more) = .error (.fault f p) := by
  rw [run_eq_steps, steps_append, hsteps, ok_bind, ← run_eq_steps]
  cases post with
  | nil =>
    obtain rfl := List.head?_eq_none_iff.1 hmore
    exact h
  | cons t post =>
    obtain ⟨more, rfl⟩ := List.head?_eq_some_iff.1 hmore
    have hstep : r'.step limits t = .error (.fault f p) := h
    rw [run, hstep]

/-- The spelling of a canonical tree meets no fault. -/
theorem run_spelled_ne_fault {e : Expr} {ts : List Token} (hc : e.Canonical) (hs : e.Spelled ts) :
    start.run limits position ts ≠ .error (.fault f p) := by
  rw [run_spelled limits hc hs]
  intro h
  have hexcess : (Halt.fault f p).IsExcess limits := by
    rcases bind_eq_error_iff.1 h with h | ⟨_, -, h⟩
    · exact isExcess_of_checkNesting e h
    · rcases bind_eq_error_iff.1 h with h | ⟨_, -, h⟩
      · exact Limits.isExcess_of_guard h
      · cases h
  obtain ⟨x, hx, -⟩ := hexcess
  cases hx

end Reader

/-! ## Unfit places -/

section

variable {limits : Limits} {position p : Nat} {f : Fault} {r : Reader} {form : Form}
  {us pre post : List Token}

/-- Two tokens decide that a statement has no form of its own. -/
theorem Form.ofTokens_cons_cons {a b : Token} {ts : List Token}
    (h : (Form.ofTokens (a :: b :: ts)).1 = .bare) (ts' : List Token) :
    Form.ofTokens (a :: b :: ts') = (.bare, a :: b :: ts') := by
  obtain ⟨l, q⟩ := a
  obtain ⟨m, q'⟩ := b
  cases l with
  | result => cases h
  | name n =>
    cases m with
    | define | equals => cases h
    | _ => rfl
  | _ => rfl

/-- The form of a statement does not depend on what comes behind a token that is refused : a name
alone, which may have a form or none, is not refused. -/
theorem Form.ofTokens_of_refuses {more : List Token} (hopens : form.Opens us)
    (hform : Form.ofTokens (us ++ (pre ++ post)) = (form, pre ++ post))
    (hsteps : Reader.steps limits .start pre = .ok r)
    (h : r.Refuses limits position post f p) (hmore : more.head? = post.head?) :
    Form.ofTokens (us ++ (pre ++ more)) = (form, pre ++ more) := by
  cases post with
  | nil =>
    obtain rfl := List.head?_eq_none_iff.1 hmore
    exact hform
  | cons t post =>
    obtain ⟨more, rfl⟩ := List.head?_eq_some_iff.1 hmore
    cases hopens with
    | result | define | equals => rfl
    | bare =>
      have hbare := congrArg Prod.fst hform
      rcases pre with _ | ⟨a, _ | ⟨b, pre⟩⟩
      · obtain rfl := Except.ok.inj hsteps
        obtain ⟨l, q⟩ := t
        cases l with
        | name n => cases h
        | result => cases hbare
        | _ => rfl
      · exact Form.ofTokens_cons_cons hbare more
      · exact Form.ofTokens_cons_cons hbare (pre ++ t :: more)

/-- Lexemes that start as those of some tokens do, or end as soon, are those of tokens that start
alike. -/
theorem exists_tokens_of_head {ls : List Lexeme} (h : ls.head? = (post.map Token.lexeme).head?) :
    ∃ more : List Token, more.map Token.lexeme = ls ∧ more.head? = post.head? := by
  cases post with
  | nil => exact ⟨[], (List.head?_eq_none_iff.1 h).symm, rfl⟩
  | cons t post =>
    obtain ⟨rest, rfl⟩ := List.head?_eq_some_iff.1 h
    exact ⟨t :: rest.map fun l => ⟨l, 0⟩, by simp [Function.comp_def], rfl⟩

/-- What the reader has read is viable. -/
theorem viable_of_steps (hopens : form.Opens us) (hw : ∀ t ∈ us ++ pre, t.lexeme.WellFormed)
    (hsteps : Reader.steps limits .start pre = .ok r) :
    Viable (((us ++ pre).map Token.lexeme).map some) := by
  obtain ⟨e, more, hc, hs, hmore⟩ := (Reader.accounts_start.steps hsteps).exists_completion
  rw [List.nil_append] at hs
  refine ⟨(us ++ pre ++ more).map Token.lexeme, ⟨fun l hl => ?_, ⟨form, e, []⟩, _, rfl,
    ⟨us, pre ++ more, List.append_assoc _ _ _, hopens, hs⟩, hc⟩, ?_⟩
  · obtain ⟨t, ht, rfl⟩ := List.mem_map.1 hl
    exact (List.mem_append.1 ht).elim (hw t) (hmore t)
  · have heq : (us ++ pre ++ more).map Token.lexeme =
        (us ++ pre).map Token.lexeme ++ more.map Token.lexeme := List.map_append
    rw [heq, ended_append]
    exact List.prefix_append _ _

/-- With what is refused it is not viable : the reader would refuse a grammatical statement. -/
theorem not_viable_of_refuses (hopens : form.Opens us)
    (hform : Form.ofTokens (us ++ (pre ++ post)) = (form, pre ++ post))
    (hsteps : Reader.steps limits .start pre = .ok r) (h : r.Refuses limits position post f p) :
    ¬ Viable (((us ++ pre).map Token.lexeme).map some ++ [(post.map Token.lexeme).head?]) := by
  rintro ⟨whole, hwhole, hprefix⟩
  obtain ⟨ms, rfl, hms⟩ := exists_of_prefix_ended hprefix
  obtain ⟨more, rfl, hmore⟩ := exists_tokens_of_head hms
  rw [← List.map_append, List.append_assoc] at hwhole
  obtain ⟨st, ⟨us', vs, heq, hopens', hs⟩, hc⟩ := hwhole.exists_spelled
  have hcut := Form.ofTokens_of_refuses hopens hform hsteps h hmore
  rw [heq, hopens'.ofTokens hs] at hcut
  obtain ⟨-, rfl⟩ := Prod.mk.inj hcut
  exact Reader.run_spelled_ne_fault hc hs (h.run_eq hsteps hmore)

/-- The place of what the reader refuses is unfit. -/
theorem unfit_of_refuses (hopens : form.Opens us)
    (hform : Form.ofTokens (us ++ (pre ++ post)) = (form, pre ++ post))
    (hw : ∀ t ∈ us ++ pre, t.lexeme.WellFormed)
    (hsteps : Reader.steps limits .start pre = .ok r) (h : r.Refuses limits position post f p) :
    Unfit (ended ((us ++ (pre ++ post)).map Token.lexeme)) (us ++ pre).length := by
  rw [← List.append_assoc, List.map_append, ← List.length_map (f := Token.lexeme)]
  refine ⟨by simp [ended], ?_, ?_⟩
  · rw [take_ended]
    exact viable_of_steps hopens hw hsteps
  · rw [take_succ_ended]
    exact not_viable_of_refuses hopens hform hsteps h

end

/-! ## Signs -/

/-- What must come next, in outline. -/
inductive Turn where
  /-- An operand. -/
  | operand
  /-- The number of a sign. -/
  | number
  /-- What follows an operand. -/
  | rest
  deriving DecidableEq

/-- The outline of what must come next. -/
def Expecting.turn : Expecting → Turn
  | .operand | .firstArgument => .operand
  | .signedNumber .. => .number
  | .afterName .. | .afterOperand _ => .rest

/-- What must come behind a lexeme that is not refused. -/
def Lexeme.turn (before : Turn) : Lexeme → Turn
  | .number _ | .string _ | .name _ | .right => .rest
  | .operator op => if before = .operand ∧ op.sign? ≠ none then .number else .operand
  | _ => .operand

namespace Lexeme

variable {l : Lexeme} {before : Turn}

theorem turn_eq_rest_iff : l.turn before = .rest ↔ l.EndsOperand := by
  cases l <;> simp [turn, EndsOperand]
  split <;> simp

theorem turn_eq_number_iff : l.turn before = .number ↔
    before = .operand ∧ ∃ op, l = .operator op ∧ op.sign? ≠ none := by
  cases l <;> simp [turn]

end Lexeme

namespace Reader

variable {limits : Limits} {r next : Reader} {t : Token}

theorem operand_turn (h : operand limits r t = .ok next) :
    next.expecting.turn = t.lexeme.turn .operand := by
  obtain ⟨l, q⟩ := t
  cases l with
  | number n | string v | name n =>
    obtain rfl := Except.ok.inj h
    rfl
  | left =>
    rw [expecting_openWith h]
    rfl
  | operator op =>
    simp only [operand] at h
    cases hs : op.sign? with
    | none => simp [hs] at h
    | some s =>
      rw [hs] at h
      obtain rfl := Except.ok.inj h
      simp [Lexeme.turn, Expecting.turn, hs]
  | result | equals | define | right | comma => cases h

theorem after_turn {e : Expr} (h : after limits r e t = .ok next) :
    next.expecting.turn = t.lexeme.turn .rest := by
  unfold after at h
  simp only at h
  split at h
  · rename_i hl
    obtain rfl := Except.ok.inj h
    rw [hl]
    rfl
  · rename_i hl _
    obtain rfl := Except.ok.inj h
    rw [hl]
    rfl
  · rename_i hl _
    rw [expecting_endCall h, hl]
    rfl
  · rename_i hl _
    obtain rfl := Except.ok.inj h
    rw [hl]
    rfl
  · split at h <;> cases h

/-- A step turns as its lexeme says. -/
theorem step_turn (h : r.step limits t = .ok next) :
    next.expecting.turn = t.lexeme.turn r.expecting.turn := by
  obtain ⟨enclosures, waiting, expecting⟩ := r
  cases expecting with
  | operand => exact operand_turn h
  | firstArgument =>
    simp only [step] at h
    split at h
    · rename_i hl
      rw [expecting_endCall h, hl]
      rfl
    · exact operand_turn h
  | signedNumber s q =>
    simp only [step] at h
    split at h
    · rename_i hl
      obtain rfl := Except.ok.inj h
      rw [hl]
      rfl
    · cases h
  | afterName n q =>
    simp only [step] at h
    split at h
    · rename_i hl
      rw [expecting_openWith h, hl]
      rfl
    · exact after_turn h
  | afterOperand e => exact after_turn h

theorem steps_append_singleton {us : List Token} {r' : Reader} :
    steps limits r (us ++ [t]) = .ok r' ↔
      ∃ r₀, steps limits r us = .ok r₀ ∧ r₀.step limits t = .ok r' := by
  have hone : ∀ r₀, steps limits r₀ [t] = r₀.step limits t := fun r₀ => by
    rw [steps_cons]
    cases r₀.step limits t <;> rfl
  rw [steps_append]
  cases steps limits r us <;> simp [-steps_cons, hone]

/-- The sign that waits for its number is the last token. -/
theorem position_of_sign {us : List Token} {r : Reader} {s : Sign} {p : Nat}
    (hsteps : steps limits start us = .ok r) (hs : r.expecting = .signedNumber s p) :
    ∃ us' u, us = us' ++ [u] ∧ p = u.position := by
  induction us using List.reverseRecOn with
  | nil =>
    obtain rfl := Except.ok.inj hsteps
    cases hs
  | append_singleton us u =>
    obtain ⟨r₀, -, hstep⟩ := steps_append_singleton.1 hsteps
    exact ⟨us, u, rfl, step_sign hstep hs⟩

section

variable {form : Form} {us pre : List Token}

/-- An operand has just ended if the last lexeme may end one. -/
theorem turn_eq_rest_iff (hopens : form.Opens us) (hsteps : steps limits start pre = .ok r) :
    r.expecting.turn = .rest ↔
      ∃ l ∈ ((us ++ pre).map Token.lexeme).getLast?, l.EndsOperand := by
  induction pre using List.reverseRecOn with
  | nil =>
    obtain rfl := Except.ok.inj hsteps
    cases hopens <;> simp [start, Expecting.turn, Lexeme.EndsOperand]
  | append_singleton pre u =>
    obtain ⟨r₀, -, hstep⟩ := steps_append_singleton.1 hsteps
    rw [step_turn hstep, Lexeme.turn_eq_rest_iff, ← List.append_assoc, List.map_append]
    simp

/-- Only a number is taken for a sign. -/
theorem exists_number_of_step (h : r.step limits t = .ok next) (hr : r.expecting.turn = .number) :
    ∃ n, t.lexeme = .number n := by
  obtain ⟨enclosures, waiting, expecting⟩ := r
  cases expecting with
  | signedNumber s q =>
    simp only [step] at h
    split at h
    · rename_i n hl
      exact ⟨n, hl⟩
    · cases h
  | operand | firstArgument | afterName n q | afterOperand e => cases hr

/-- A number is awaited if the last lexeme is a sign where an operand starts. -/
theorem turn_eq_number_iff (hopens : form.Opens us) (hsteps : steps limits start pre = .ok r) :
    r.expecting.turn = .number ↔ ∃ (before : List Lexeme) (op : Operator),
      (us ++ pre).map Token.lexeme = before ++ [Lexeme.operator op] ∧ op.sign? ≠ none ∧
        ∀ l ∈ before.getLast?, ¬ l.EndsOperand := by
  rcases List.eq_nil_or_concat' pre with rfl | ⟨pre, u, rfl⟩
  · obtain rfl := Except.ok.inj hsteps
    refine iff_of_false (by simp [start, Expecting.turn]) ?_
    rintro ⟨before, op, heq, -⟩
    have hlast := congrArg List.getLast? heq
    cases hopens <;> simp at hlast
  obtain ⟨r₀, hsteps₀, hstep⟩ := steps_append_singleton.1 hsteps
  have hrest := turn_eq_rest_iff hopens hsteps₀
  rw [step_turn hstep, Lexeme.turn_eq_number_iff, ← List.append_assoc, List.map_append]
  constructor
  · rintro ⟨hoperand, op, hu, hsign⟩
    refine ⟨_, op, by rw [List.map_singleton, hu], hsign, fun l hl hends => ?_⟩
    rw [hrest.2 ⟨l, hl, hends⟩] at hoperand
    cases hoperand
  · rintro ⟨before, op, heq, hsign, hbefore⟩
    obtain ⟨rfl, hu⟩ := List.append_inj' heq rfl
    have hu : u.lexeme = .operator op := List.singleton_inj.1 hu
    refine ⟨?_, op, hu, hsign⟩
    cases hturn : r₀.expecting.turn with
    | operand => rfl
    | number =>
      obtain ⟨n, hn⟩ := exists_number_of_step hstep hturn
      rw [hu] at hn
      cases hn
    | rest =>
      obtain ⟨l, hl, hends⟩ := hrest.1 hturn
      exact (hbefore l hl hends).elim

end

/-! ## Places of faults -/

section

variable {position p : Nat} {f : Fault} {post : List Token}

/-- A sign is refused itself if no number comes. -/
theorem Refuses.of_number (h : r.Refuses limits position post f p)
    (hr : r.expecting.turn = .number) : (∃ s, r.expecting = .signedNumber s p) ∧
      ∀ n, (post.map Token.lexeme).head? ≠ some (.number n) := by
  obtain ⟨enclosures, waiting, expecting⟩ := r
  cases expecting with
  | signedNumber s q =>
    cases post with
    | nil =>
      obtain ⟨-, rfl⟩ := Halt.fault.inj (Except.error.inj h)
      exact ⟨⟨s, rfl⟩, by simp⟩
    | cons t post =>
      simp only [Refuses, step] at h
      split at h
      · cases h
      · rename_i hl
        obtain ⟨-, rfl⟩ := Halt.fault.inj (Except.error.inj h)
        exact ⟨⟨s, rfl⟩, fun n hn => hl n (Option.some.inj hn)⟩
  | operand | firstArgument | afterName n q | afterOperand e => cases hr

/-- Anything else that is refused is so where it stands. -/
theorem Refuses.position_eq (h : r.Refuses limits position post f p)
    (hr : r.expecting.turn ≠ .number) : (post.map Token.position ++ [position])[0]? = some p := by
  have hsign : ¬ ∃ s, r.expecting = .signedNumber s p := by
    rintro ⟨s, hs⟩
    rw [hs] at hr
    exact hr rfl
  cases post with
  | nil =>
    obtain rfl := (finish_fault h).2.resolve_right hsign
    rfl
  | cons t post =>
    obtain rfl := (step_fault h).2.resolve_right hsign
    rfl

/-- What is refused is refused by its kind. -/
theorem Refuses.exists_grammar (h : r.Refuses limits position post f p) :
    ∃ g, f = .grammar g := by
  cases post with
  | nil => exact (finish_fault h).1
  | cons t post => exact (step_fault h).1

end

end Reader

section

variable {limits : Limits} {position p : Nat} {f : Fault} {r : Reader} {form : Form}
  {us pre post : List Token} (hopens : form.Opens us)
  (hsteps : Reader.steps limits .start pre = .ok r) (h : r.Refuses limits position post f p)

include hopens hsteps h

/-- The refused place is behind a sign without its number if the reader awaits one. -/
theorem loneSignBefore_iff :
    LoneSignBefore (ended ((us ++ (pre ++ post)).map Token.lexeme)) (us ++ pre).length ↔
      r.expecting.turn = .number := by
  have hturn := Reader.turn_eq_number_iff hopens hsteps
  rw [← List.append_assoc, List.map_append, ← List.length_map (f := Token.lexeme)]
  unfold LoneSignBefore
  rw [take_ended, getElem?_ended]
  constructor
  · rintro ⟨before, op, heq, hsign, hbefore, -⟩
    have hls := List.map_injective_iff.2 (fun _ _ => Option.some.inj) heq
    exact hturn.2 ⟨before, op, hls, hsign, hbefore⟩
  · intro hnumber
    obtain ⟨before, op, heq, hsign, hbefore⟩ := hturn.1 hnumber
    exact ⟨before, op, congrArg _ heq, hsign, hbefore,
      fun n hn => (h.of_number hnumber).2 n (Option.some.inj hn)⟩

/-- The fault is at the refused place, or at the sign in front of it. -/
theorem position_of_refuses :
    let s := ended ((us ++ (pre ++ post)).map Token.lexeme)
    let positions := (us ++ (pre ++ post)).map Token.position ++ [position]
    (LoneSignBefore s (us ++ pre).length → positions[(us ++ pre).length - 1]? = some p) ∧
      (¬ LoneSignBefore s (us ++ pre).length → positions[(us ++ pre).length]? = some p) := by
  intro s positions
  rw [loneSignBefore_iff hopens hsteps h]
  constructor
  · intro hnumber
    obtain ⟨⟨sign, hsign⟩, -⟩ := h.of_number hnumber
    obtain ⟨pre', u, rfl, rfl⟩ := Reader.position_of_sign hsteps hsign
    have hpositions : positions = (us ++ pre').map Token.position ++
        u.position :: (post.map Token.position ++ [position]) := by simp [positions]
    have hlength : (us ++ (pre' ++ [u])).length - 1 = ((us ++ pre').map Token.position).length := by
      simp
    rw [hpositions, hlength, List.getElem?_append_right (Nat.le_refl _), Nat.sub_self]
    rfl
  · intro hnumber
    have hpositions : positions = (us ++ pre).map Token.position ++
        (post.map Token.position ++ [position]) := by simp [positions]
    rw [hpositions, ← List.length_map (f := Token.position),
      List.getElem?_append_right (Nat.le_refl _), Nat.sub_self]
    exact h.position_eq hnumber

end

/-! ## Statements -/

namespace Statement

variable {limits : Limits} {source : Text}

theorem parse_eq_error {ts : List Token} {h : Halt} (hts : tokens limits source = .ok ts)
    (hread : Expr.ofTokens limits source.length (Form.ofTokens ts).2 = .error h) :
    parse limits source = .error (h.report source) := by
  unfold parse read
  rw [hts]
  simp only [hread]
  rfl

theorem wellFormed_of_tokens {ts : List Token} (hts : tokens limits source = .ok ts) :
    ∀ t ∈ ts, t.lexeme.WellFormed := fun t ht =>
  let ⟨_, _, _, _, hscan⟩ := exists_scan_of_tokens hts t ht
  Scan.scan_wellFormed hscan

/-- A statement whose characters make tokens and that exceeds no limit. If a grammatical statement
goes on as its tokens do up to some place, but not with what stands there, which may be the end,
then the reading of the statement fails there : the fault is one of grammar, and its position is
that of the place, except that a sign where an operand starts that has no number behind it is
reported itself. If there is no such place, the statement is read. -/
theorem parse_fault {ts : List Token} (hts : tokens limits source = .ok ts)
    (hlimits : ∀ x, parse limits source ≠ .error (Report.ofExcess x)) :
    let s := ended (ts.map Token.lexeme)
    let positions := ts.map Token.position ++ [source.length]
    (∀ k, Unfit s k → ∃ (g : GrammarFault) (p : Nat),
      parse limits source = .error ⟨.grammar g, some (p : Int), some source⟩ ∧
        (LoneSignBefore s k → positions[k - 1]? = some p) ∧
        (¬ LoneSignBefore s k → positions[k]? = some p)) ∧
    ((¬ ∃ k, Unfit s k) → ∃ st, parse limits source = .ok st) := by
  intro s positions
  have hw := wellFormed_of_tokens hts
  cases hread : Expr.ofTokens limits source.length (Form.ofTokens ts).2 with
  | ok e =>
    have hparse : parse limits source = .ok ⟨(Form.ofTokens ts).1, e, source⟩ :=
      parse_eq_ok_iff.2 ⟨ts, hts, hread, rfl, rfl⟩
    obtain ⟨ts', hts', hspelled, hc⟩ := spelled_of_parse hparse
    obtain rfl := Except.ok.inj (hts.symm.trans hts')
    have hgrammatical : Grammatical (ts.map Token.lexeme) :=
      ⟨fun l hl => let ⟨t, ht, heq⟩ := List.mem_map.1 hl; heq ▸ hw t ht, _, ts, rfl, hspelled, hc⟩
    exact ⟨fun k hk => (hgrammatical.not_unfit k hk).elim, fun _ => ⟨_, hparse⟩⟩
  | error h =>
    have hparse := parse_eq_error hts hread
    cases h with
    | exceeded x => exact absurd hparse (hlimits x)
    | fault f p =>
      obtain ⟨us, hus, hopens⟩ := Form.exists_of_ofTokens ts
      obtain ⟨pre, post, r, hrest, hsteps, hrefuses⟩ := Reader.exists_refuses hread
      rw [hrest] at hus
      subst hus
      have hform : Form.ofTokens (us ++ (pre ++ post)) =
        ((Form.ofTokens (us ++ (pre ++ post))).1, pre ++ post) := Prod.ext rfl hrest
      have hpre : ∀ t ∈ us ++ pre, t.lexeme.WellFormed := fun t ht =>
        hw t (by simpa using Or.imp_right Or.inl (List.mem_append.1 ht))
      have hunfit := unfit_of_refuses hopens hform hpre hsteps hrefuses
      obtain ⟨g, rfl⟩ := hrefuses.exists_grammar
      refine ⟨fun k hk => ?_, fun hnone => (hnone ⟨_, hunfit⟩).elim⟩
      obtain rfl := hk.unique hunfit
      exact ⟨g, p, hparse, position_of_refuses hopens hsteps hrefuses⟩

/-- The minus among the arguments has no number behind it : the name cannot stand there. -/
theorem parse_fault_sign :
    let source : Text := "f(1,-x"
    let ts : List Token := [⟨.name "f", 0⟩, ⟨.left, 1⟩, ⟨.number ⟨[1], none, none⟩, 2⟩,
      ⟨.comma, 3⟩, ⟨.operator .minus, 4⟩, ⟨.name "x", 5⟩]
    let s := ended (ts.map Token.lexeme)
    tokens {} source = .ok ts ∧ (∀ x, parse {} source ≠ .error (Report.ofExcess x)) ∧
      Unfit s 5 ∧ LoneSignBefore s 5 ∧
      ∃ g : GrammarFault, parse {} source = .error ⟨.grammar g, some 4, some source⟩ := by
  intro source ts s
  have hts : tokens {} source = .ok ts := by decide +kernel
  have hparse : parse {} source = .error ⟨.grammar (.loneSign .minus), some 4, some source⟩ :=
    parse_eq_error hts rfl
  have hlimits : ∀ x, parse {} source ≠ .error (Report.ofExcess x) := by
    intro x h
    rw [hparse] at h
    cases h
  have hsteps : ∃ r, Reader.steps {} .start (ts.take 5) = .ok r ∧
      r.Refuses {} 6 (ts.drop 5) (.grammar (.loneSign .minus)) 4 := ⟨_, rfl, rfl⟩
  obtain ⟨r, hr, hrefuses⟩ := hsteps
  have hunfit : Unfit s 5 := unfit_of_refuses .bare rfl
    (fun t ht => wellFormed_of_tokens hts t (List.mem_of_mem_take ht)) hr hrefuses
  have hsign : LoneSignBefore s 5 :=
    ⟨(ts.take 4).map Token.lexeme, .minus, rfl, by decide, by simp [ts, Lexeme.EndsOperand],
      fun n h => by cases h⟩
  obtain ⟨g, p, hg, hp, -⟩ := (parse_fault hts hlimits).1 5 hunfit
  obtain rfl : 4 = p := Option.some.inj (hp hsign)
  exact ⟨hts, hlimits, hunfit, hsign, g, hg⟩

end Statement

end Reckon
