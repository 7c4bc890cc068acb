import Reckon.Proofs.Grammar.Layout
import Reckon.Proofs.Grammar.Soundness
import Reckon.Proofs.Number.Range

/-!
# Limits of a statement

The reader opens a parenthesis only where the limit on the depth allows it, so whatever its tokens
are, it never reads inside more parentheses and calls (`Reader.steps_shallow`), and where it is
refused for this limit, it had reached it : the depth that is reported is one more
(`Statement.excess_of_read`). A statement that is read keeps the limits on one statement
(`Statement.within_of_parse`).
-/

namespace Reckon

/-! ## Depth -/

/-- The reader is inside no more parentheses and calls than the limit allows. -/
def Reader.Shallow (limits : Limits) (r : Reader) : Prop :=
  (r.enclosures.length : Int) ≤ limits.depth

/-- The limits that the reader is refused for are those on arguments, on nodes and on the depth, and
from a depth within its limit it gets one too deep. -/
def Halt.OfReading (limits : Limits) (r : Reader) : Halt → Prop
  | .fault .. => True
  | .exceeded x => x.limit = .arguments ∨ x.limit = .nodes ∨
    x.limit = .depth ∧ (r.Shallow limits → x = ⟨.depth, limits.depth, limits.depth + 1⟩)

namespace Reader

variable (limits : Limits)

variable {limits} in
theorem Shallow.of_le {r next : Reader} (hr : r.Shallow limits)
    (h : next.enclosures.length ≤ r.enclosures.length) : next.Shallow limits := by
  unfold Shallow at hr ⊢
  omega

/-- The depth stays within its limit, or the reader is refused as `Halt.OfReading` says. -/
def Descends (r : Reader) : Except Halt Reader → Prop :=
  Ends (fun next => r.Shallow limits → next.Shallow limits) (Halt.OfReading limits r)

theorem openWith_descends (r : Reader) (opening : Opening) (next : Expecting) :
    r.Descends limits (openWith limits r opening next) := by
  unfold openWith
  split
  · rename_i x hx
    obtain ⟨hlt, rfl⟩ := Limits.check_eq_error_iff.1 hx
    refine .inr (.inr ⟨rfl, fun h => ?_⟩)
    have hdepth : ((r.enclosures.length + 1 : Nat) : Int) = limits.depth + 1 := by
      simp only [Shallow] at h
      simp only [Limits.bound] at hlt
      omega
    rw [Limits.bound, hdepth]
  · rename_i hok
    exact fun _ => (limits.check_eq_ok_iff .depth _).1 hok

theorem endCall_descends (r : Reader) {outside : List Enclosure}
    (h : outside.length ≤ r.enclosures.length) (waiting : List Waiting) (n : Text) (p : Nat)
    (arguments : List Expr) : r.Descends limits (endCall limits outside waiting n p arguments) := by
  unfold endCall
  split
  · rename_i x hx
    obtain ⟨-, rfl⟩ := Limits.check_eq_error_iff.1 hx
    exact .inl rfl
  · exact fun hr => hr.of_le h

theorem operand_descends (r : Reader) (t : Token) :
    r.Descends limits (operand limits r t) := by
  unfold operand
  split
  · exact id
  · exact id
  · exact id
  · exact openWith_descends limits r _ _
  · split
    · exact id
    · trivial
  · trivial

theorem closed_ofReading (r : Reader) (enclosures : List Enclosure) (e : Expr) (p : Nat) :
    Ends (fun _ => True) (Halt.OfReading limits r) (closed limits enclosures e p) := by
  unfold closed
  split
  · trivial
  · trivial
  · split
    · rename_i x hx
      obtain ⟨-, rfl⟩ := Limits.check_eq_error_iff.1 hx
      exact .inr (.inl rfl)
    · trivial

theorem after_descends (r : Reader) (e : Expr) (t : Token) :
    r.Descends limits (after limits r e t) := by
  unfold after
  split
  · exact id
  · rename_i waiting p outside _ hr
    exact fun h => h.of_le (hr ▸ Nat.le_succ outside.length)
  · rename_i waiting n p arguments outside _ hr
    exact endCall_descends limits r (hr ▸ Nat.le_succ outside.length) _ _ _ _
  · rename_i waiting n p arguments outside _ hr
    exact fun h => h.of_le (hr ▸ le_rfl)
  · have h := closed_ofReading limits r r.enclosures (complete r.waiting e) t.position
    simp only
    split
    · rename_i g hg
      rw [hg] at h
      exact h
    · trivial

theorem step_descends (r : Reader) (t : Token) : r.Descends limits (r.step limits t) := by
  unfold step
  split
  · exact operand_descends limits r t
  · split
    · rename_i waiting n p arguments outside _ hr
      exact endCall_descends limits r (hr ▸ Nat.le_succ outside.length) _ _ _ _
    · exact operand_descends limits r t
  · split
    · exact id
    · trivial
  · split
    · exact openWith_descends limits r _ _
    · exact after_descends limits r _ t
  · exact after_descends limits r _ t

theorem finish_ofReading (r : Reader) (p : Nat) :
    Ends (fun _ => True) (Halt.OfReading limits r) (r.finish limits p) := by
  unfold finish
  split
  · trivial
  · trivial
  · trivial
  · exact closed_ofReading limits r _ _ p
  · exact closed_ofReading limits r _ _ p

/-- Whatever the tokens are, the reader stays within the limit on the depth. -/
theorem steps_shallow : ∀ {ts : List Token} {r next : Reader}, steps limits r ts = .ok next →
    r.Shallow limits → next.Shallow limits
  | [], r, next, h, hr => by
    obtain rfl := Except.ok.inj h
    exact hr
  | t :: ts, r, next, h, hr => by
    have hstep := step_descends limits r t
    rw [steps_cons] at h
    cases ht : r.step limits t with
    | error g =>
      rw [ht] at h
      cases h
    | ok r' =>
      rw [ht] at h hstep
      exact steps_shallow h (hstep hr)

theorem run_ofReading (p : Nat) : ∀ (ts : List Token) (r : Reader),
    Ends (fun _ => True) (Halt.OfReading limits r) (r.run limits p ts)
  | [], r => finish_ofReading limits r p
  | t :: ts, r => by
    have hstep := step_descends limits r t
    rw [run]
    split
    · rename_i h ht
      rw [ht] at hstep
      exact hstep
    · rename_i next ht
      rw [ht] at hstep
      refine (run_ofReading p ts next).mono (fun _ h => h) fun g hg => ?_
      cases g with
      | fault => trivial
      | exceeded x =>
        exact hg.imp_right fun h => h.imp_right fun h => ⟨h.1, fun hr => h.2 (hstep hr)⟩

end Reader

/-! ## Limits -/

theorem Scan.excess_of_tokensFrom (limits : Limits) (position : Nat) (t : Text) :
    Ends (fun _ => True) (fun h => ∀ x, h = .exceeded x → x.limit = .stringLength)
      (tokensFrom limits position t) := by
  fun_induction tokensFrom limits position t with
  | case1 => trivial
  | case2 _ _ _ _ ih => exact ih
  | case3 => exact fun x hx => nomatch hx
  | case4 position c rest _ l n _ x hx =>
    cases l with
    | string v =>
      obtain ⟨-, rfl⟩ := Limits.check_eq_error_iff.1 hx
      rintro _ ⟨⟩
      rfl
    | _ => cases hx
  | case5 position c rest _ l n _ _ h hmore ih =>
    rw [hmore] at ih
    exact ih
  | case6 => trivial

namespace Statement

variable {limits : Limits} {source : Text}

/-- A statement is refused for its length, for a string in it, or by the reader. -/
theorem excess_of_read {x : Excess} (h : read limits source = .error (.exceeded x)) :
    (limits.expressionLength < source.length ∧
        x = ⟨.expressionLength, limits.expressionLength, source.length⟩) ∨
      x.limit = .stringLength ∨ (Halt.exceeded x).OfReading limits .start := by
  unfold read at h
  split at h
  · rename_i g hg
    obtain rfl := Except.error.inj h
    unfold tokens at hg
    split at hg
    · rename_i y hy
      obtain rfl := Halt.exceeded.inj (Except.error.inj hg)
      exact .inl (Limits.check_eq_error_iff.1 hy)
    · have htokens := Scan.excess_of_tokensFrom limits 0 source
      rw [hg] at htokens
      exact .inr (.inl (htokens x rfl))
  · rename_i ts _
    have hrun := Reader.run_ofReading limits source.length (Form.ofTokens ts).2 .start
    simp only at h
    split at h
    · rename_i g hg
      obtain rfl := Except.error.inj h
      rw [← Expr.ofTokens, hg] at hrun
      exact .inr (.inr hrun)
    · cases h

/-- A statement that is read keeps the limit on its nodes, whatever the limits are. -/
theorem nodes_le_of_parse {st : Statement} (h : parse limits source = .ok st) :
    (st.expression.nodes : Int) ≤ limits.nodes := by
  obtain ⟨ts, -, hread, -, -⟩ := parse_eq_ok_iff.1 h
  obtain ⟨hc, hs⟩ := Expr.spelled_of_ofTokens hread
  rw [Expr.ofTokens, Reader.run_spelled limits hc hs, bind_eq_ok_iff, bind_eq_ok_iff] at hread
  exact (limits.guard_eq_ok_iff .nodes _).1 hread.2.1

/-- A statement that is read keeps the limits on one statement. -/
theorem within_of_parse (h0 : limits.Nonnegative) {st : Statement}
    (h : parse limits source = .ok st) : st.Within limits := by
  obtain ⟨ts, hts, hread, -, hsource⟩ := parse_eq_ok_iff.1 h
  obtain ⟨us, hus, -⟩ := Form.exists_of_ofTokens ts
  obtain ⟨hc, hs⟩ := Expr.spelled_of_ofTokens hread
  rw [Expr.ofTokens, Reader.run_spelled limits hc hs, bind_eq_ok_iff, bind_eq_ok_iff] at hread
  obtain ⟨hnesting, -⟩ := hread
  obtain ⟨hdepth, hwidth⟩ :=
    (Expr.checkNesting_eq_ok_iff (h0 .arguments) st.expression (h0 .depth)).1 hnesting
  rw [Nat.zero_add] at hdepth
  refine ⟨hsource ▸ Scan.length_le_of_tokens hts, fun v hv => ?_, hdepth, hwidth,
    nodes_le_of_parse h⟩
  rw [← hs.map_lexeme] at hv
  obtain ⟨t, ht, hlexeme⟩ := List.mem_map.1 hv
  have hmem : t ∈ ts := hus ▸ List.mem_append_right us ht
  have hcheck := Scan.checkString_of_tokensFrom source (Scan.tokensFrom_of_tokens hts) t hmem
  exact Scan.checkString_eq_ok_iff.1 hcheck v hlexeme

end Statement

end Reckon
