import Reckon.Proofs.Grammar.Spelling

/-!
# The reader reads every canonical tree

Read from a state that expects an operand, the spelling of a canonical tree leaves the
waiting operands of the tree on top of those that waited before (`Expr.spine`), and its last
operand just read (`Expr.lastOperand`). What follows finishes them : absorbing the spine into
the last operand gives the tree back (`absorb_spine`).

The only checks on the way are those of the depth and of the arguments, in the order in
which the tree is read (`Expr.checkNesting`), so the limits decide alone whether the tree is
read (`Reader.run_spelled`). A sequence of tokens spells at most one canonical tree
(`Expr.Spelled.unique`).
-/

namespace Reckon

@[simp] theorem ok_bind {ε α β : Type} (a : α) (f : α → Except ε β) :
    (Except.ok a >>= f) = f a := rfl

@[simp] theorem error_bind {ε α β : Type} (x : ε) (f : α → Except ε β) :
    (Except.error x >>= f) = .error x := rfl

theorem bind_eq_ok_iff {ε β : Type} {x : Except ε Unit} {f : Unit → Except ε β} {b : β} :
    x >>= f = .ok b ↔ x = .ok () ∧ f () = .ok b := by
  cases x <;> simp

theorem bind_eq_error_iff {ε α β : Type} {x : Except ε α} {f : α → Except ε β} {e : ε} :
    x >>= f = .error e ↔ x = .error e ∨ ∃ a, x = .ok a ∧ f a = .error e := by
  cases x <;> simp

namespace Limits

variable (limits : Limits)

/-- Stops the reading if a size is above its bound. -/
def guard (limit : Limit) (actual : Int) : Except Halt Unit :=
  (limits.check limit actual).mapError .exceeded

theorem guard_eq_ok_iff (limit : Limit) (actual : Int) :
    limits.guard limit actual = .ok () ↔ actual ≤ limits.bound limit := by
  rw [← check_eq_ok_iff, guard]
  cases limits.check limit actual <;> simp [Except.mapError]

end Limits

/-- The halt is for a limit with a greater size than its bound. -/
def Halt.IsExcess (limits : Limits) (h : Halt) : Prop :=
  ∃ x : Excess, h = .exceeded x ∧ x.bound = limits.bound x.limit ∧ x.bound < x.actual

theorem Limits.isExcess_of_guard {limits : Limits} {limit : Limit} {actual : Int} {h : Halt}
    (hg : limits.guard limit actual = .error h) : h.IsExcess limits := by
  unfold guard check at hg
  split at hg
  · rename_i hlt
    obtain rfl := Except.error.inj hg
    exact ⟨_, rfl, rfl, hlt⟩
  · cases hg

namespace Expr

/-! ## Spines -/

/-- The operands of a tree that wait while its last operand is read, the nearest first. -/
def spine : Expr → List Waiting
  | .binary op left right p => right.spine ++ [⟨left, op, p⟩]
  | _ => []

/-- The last operand of a tree. -/
def lastOperand : Expr → Expr
  | .binary _ _ right _ => right.lastOperand
  | e => e

/-- What the reader expects when it has just read the last operand of a tree. -/
def readTo (e : Expr) : Expecting :=
  match e.lastOperand with
  | .variable n p => .afterName n p
  | e => .afterOperand e

end Expr

/-- The nearest waiting operand, if there is one, waits for an operator below a level. -/
def Below (k : Nat) (waiting : List Waiting) : Prop := ∀ w ∈ waiting.head?, w.op.level < k

@[simp] theorem below_nil (k : Nat) : Below k [] := by simp [Below]

@[simp] theorem below_cons (k : Nat) (w : Waiting) (rest : List Waiting) :
    Below k (w :: rest) ↔ w.op.level < k := by simp [Below]

theorem Below.mono {k m : Nat} {waiting : List Waiting} (h : Below k waiting) (hkm : k ≤ m) :
    Below m waiting := fun w hw => Nat.lt_of_lt_of_le (h w hw) hkm

namespace Reader

open Reckon.Expr

theorem absorb_of_below {k : Nat} {waiting : List Waiting} (h : Below k waiting) (e : Expr) :
    absorb k waiting e = (waiting, e) := by
  cases waiting with
  | nil => rfl
  | cons w rest =>
    rw [below_cons] at h
    rw [absorb, if_neg (by omega)]

/-- A spine is absorbed into its tree. -/
theorem absorb_spine {k : Nat} : ∀ {e : Expr}, e.Canonical → k ≤ e.level →
    ∀ waiting, absorb k (e.spine ++ waiting) e.lastOperand = absorb k waiting e
  | .number .., _, _, _ | .string .., _, _, _ | .variable .., _, _, _ | .group .., _, _, _
  | .call .., _, _, _ => by simp [spine, lastOperand]
  | .binary op left right p, hc, hk, waiting => by
    have hop : k ≤ op.level := hk
    have ih := absorb_spine hc.2.2 (Nat.le_trans hop (Nat.le_of_lt hc.2.1))
      (⟨left, op, p⟩ :: waiting)
    rw [spine, lastOperand, List.append_assoc, List.singleton_append, ih, absorb, if_pos hop]

theorem complete_spine {e : Expr} (hc : e.Canonical) : complete e.spine e.lastOperand = e := by
  have := absorb_spine hc (Nat.zero_le _) []
  rw [List.append_nil] at this
  rw [complete, this]
  rfl

/-! ## Steps -/

/-- Reads tokens from a state on. -/
def steps (limits : Limits) (r : Reader) (ts : List Token) : Except Halt Reader :=
  ts.foldlM (fun r t => r.step limits t) r

variable (limits : Limits)

@[simp] theorem steps_nil (r : Reader) : steps limits r [] = .ok r := rfl

@[simp] theorem steps_cons (r : Reader) (t : Token) (ts : List Token) :
    steps limits r (t :: ts) = r.step limits t >>= fun r => steps limits r ts := by
  simp [steps]

theorem steps_append (r : Reader) (ts us : List Token) :
    steps limits r (ts ++ us) = steps limits r ts >>= fun r => steps limits r us := by
  simp [steps]

theorem run_eq_steps (position : Nat) : ∀ (r : Reader) (ts : List Token),
    run limits position r ts = steps limits r ts >>= fun r => r.finish limits position
  | _, [] => rfl
  | r, t :: ts => by
    rw [run, steps_cons]
    cases r.step limits t with
    | error h => rfl
    | ok next => exact run_eq_steps position next ts

theorem openWith_eq (r : Reader) (opening : Opening) (next : Expecting) :
    openWith limits r opening next = limits.guard .depth (r.enclosures.length + 1 : Nat) >>=
      fun _ => .ok ⟨⟨r.waiting, opening⟩ :: r.enclosures, [], next⟩ := by
  unfold openWith Limits.guard
  cases limits.check .depth (r.enclosures.length + 1 : Nat) <;> rfl

theorem endCall_eq (outside : List Enclosure) (waiting : List Waiting) (name : Text)
    (position : Nat) (arguments : List Expr) :
    endCall limits outside waiting name position arguments =
      limits.guard .arguments arguments.length >>=
        fun _ => .ok ⟨outside, waiting, .afterOperand (.call name arguments position)⟩ := by
  unfold endCall Limits.guard
  cases limits.check .arguments arguments.length <;> rfl

/-- After a complete tree a token other than `(` comes after its last operand. -/
theorem step_readTo (enclosures : List Enclosure) (waiting : List Waiting) (e : Expr)
    {t : Token} (ht : t.lexeme ≠ .left) :
    step limits ⟨enclosures, waiting, e.readTo⟩ t =
      after limits ⟨enclosures, waiting, e.readTo⟩ e.lastOperand t := by
  unfold step readTo
  split <;> rename_i h
  all_goals split at h <;> simp_all

/-- The token behind a complete tree absorbs its spine. -/
theorem step_operator {enclosures : List Enclosure} {waiting : List Waiting} {e : Expr}
    {op : Operator} (p : Nat) (hc : e.Canonical) (hop : op.level ≤ e.level)
    (hw : Below op.level waiting) :
    step limits ⟨enclosures, e.spine ++ waiting, e.readTo⟩ ⟨.operator op, p⟩ =
      .ok ⟨enclosures, ⟨e, op, p⟩ :: waiting, .operand⟩ := by
  rw [step_readTo _ _ _ _ (by simp)]
  simp only [after, absorb_spine hc hop, absorb_of_below hw]

theorem step_right_group {outside : List Enclosure} {waiting : List Waiting} {e : Expr}
    (p q : Nat) (hc : e.Canonical) :
    step limits ⟨⟨waiting, .group p⟩ :: outside, e.spine, e.readTo⟩ ⟨.right, q⟩ =
      .ok ⟨outside, waiting, .afterOperand (.group e p)⟩ := by
  rw [step_readTo _ _ _ _ (by simp)]
  simp only [after, complete_spine hc]

theorem step_right_call {outside : List Enclosure} {waiting : List Waiting} {e : Expr}
    (n : Text) (p q : Nat) (arguments : List Expr) (hc : e.Canonical) :
    step limits ⟨⟨waiting, .call n p arguments⟩ :: outside, e.spine, e.readTo⟩ ⟨.right, q⟩ =
      endCall limits outside waiting n p (arguments ++ [e]) := by
  rw [step_readTo _ _ _ _ (by simp)]
  simp only [after, complete_spine hc]

theorem step_comma {outside : List Enclosure} {waiting : List Waiting} {e : Expr}
    (n : Text) (p q : Nat) (arguments : List Expr) (hc : e.Canonical) :
    step limits ⟨⟨waiting, .call n p arguments⟩ :: outside, e.spine, e.readTo⟩ ⟨.comma, q⟩ =
      .ok ⟨⟨waiting, .call n p (arguments ++ [e])⟩ :: outside, [], .operand⟩ := by
  rw [step_readTo _ _ _ _ (by simp)]
  simp only [after, complete_spine hc]

/-- The first argument of a call is read like any operand. -/
theorem step_firstArgument (enclosures : List Enclosure) (waiting : List Waiting)
    {t : Token} (ht : t.lexeme ≠ .right) :
    step limits ⟨enclosures, waiting, .firstArgument⟩ t =
      step limits ⟨enclosures, waiting, .operand⟩ t := by
  have hop : operand limits ⟨enclosures, waiting, .firstArgument⟩ t =
      operand limits ⟨enclosures, waiting, .operand⟩ t := rfl
  simp only [step]
  split
  · contradiction
  · exact hop

end Reader

/-! ## Nesting -/

namespace Expr

variable (limits : Limits)

mutual

/-- The checks while a tree is read inside `d` groups and calls, in their order. -/
def checkNesting (d : Nat) : Expr → Except Halt Unit
  | .number .. => .ok ()
  | .string .. => .ok ()
  | .variable .. => .ok ()
  | .group inner _ => do
    limits.guard .depth (d + 1 : Nat)
    inner.checkNesting (d + 1)
  | .binary _ left right _ => do
    left.checkNesting d
    right.checkNesting d
  | .call _ arguments _ => do
    limits.guard .depth (d + 1 : Nat)
    checkNestingOfAll (d + 1) arguments
    limits.guard .arguments arguments.length

/-- The checks while the arguments of a call are read. -/
def checkNestingOfAll (d : Nat) : List Expr → Except Halt Unit
  | [] => .ok ()
  | e :: rest => do
    e.checkNesting d
    checkNestingOfAll d rest

end

variable {limits}

mutual

/-- Inside groups and calls within the bound, a tree passes its checks if the whole depth and
all calls are within their bounds. -/
theorem checkNesting_eq_ok_iff (ha : 0 ≤ limits.arguments) : ∀ (e : Expr) {d : Nat},
    (d : Int) ≤ limits.depth → (e.checkNesting limits d = .ok () ↔
      ((d + e.depth : Nat) : Int) ≤ limits.depth ∧ (e.width : Int) ≤ limits.arguments)
  | .number .., d, hd | .string .., d, hd | .variable .., d, hd => by
    simp [checkNesting, depth, width, hd, ha]
  | .group inner _, d, hd => by
    rw [checkNesting, bind_eq_ok_iff]
    simp only [Limits.guard_eq_ok_iff, Limits.bound, depth, width]
    constructor
    · rintro ⟨hd', hi⟩
      have ih := (checkNesting_eq_ok_iff ha inner hd').1 hi
      omega
    · rintro ⟨hd', hw⟩
      have hin : ((d + 1 : Nat) : Int) ≤ limits.depth := by omega
      exact ⟨hin, (checkNesting_eq_ok_iff ha inner hin).2 (by omega)⟩
  | .binary _ left right _, d, hd => by
    rw [checkNesting, bind_eq_ok_iff]
    simp only [checkNesting_eq_ok_iff ha left hd, checkNesting_eq_ok_iff ha right hd, depth, width]
    constructor
    · rintro ⟨hl, hr⟩
      omega
    · rintro ⟨hd', hw⟩
      exact ⟨by omega, by omega⟩
  | .call _ arguments _, d, hd => by
    rw [checkNesting, bind_eq_ok_iff]
    simp only [bind_eq_ok_iff, Limits.guard_eq_ok_iff, Limits.bound, depth, width]
    constructor
    · rintro ⟨hd', hi, hn⟩
      have ih := (checkNestingOfAll_eq_ok_iff ha arguments hd').1 hi
      omega
    · rintro ⟨hd', hw⟩
      have hin : ((d + 1 : Nat) : Int) ≤ limits.depth := by omega
      exact ⟨hin, (checkNestingOfAll_eq_ok_iff ha arguments hin).2 (by omega), by omega⟩

theorem checkNestingOfAll_eq_ok_iff (ha : 0 ≤ limits.arguments) : ∀ (es : List Expr) {d : Nat},
    (d : Int) ≤ limits.depth → (checkNestingOfAll limits d es = .ok () ↔
      ((d + depthOfAll es : Nat) : Int) ≤ limits.depth ∧ (widthOfAll es : Int) ≤ limits.arguments)
  | [], d, hd => by simp [checkNestingOfAll, depthOfAll, widthOfAll, hd, ha]
  | e :: rest, d, hd => by
    rw [checkNestingOfAll, bind_eq_ok_iff]
    simp only [checkNesting_eq_ok_iff ha e hd, checkNestingOfAll_eq_ok_iff ha rest hd, depthOfAll,
      widthOfAll]
    constructor
    · rintro ⟨he, hr⟩
      omega
    · rintro ⟨hd', hw⟩
      exact ⟨by omega, by omega⟩

end

mutual

/-- A check that fails is one of a limit. -/
theorem isExcess_of_checkNesting : ∀ (e : Expr) {d : Nat} {h : Halt},
    e.checkNesting limits d = .error h → h.IsExcess limits
  | .number .., _, _, he | .string .., _, _, he | .variable .., _, _, he => by cases he
  | .group inner _, _, _, he => by
    rcases bind_eq_error_iff.1 he with he | ⟨_, -, he⟩
    · exact Limits.isExcess_of_guard he
    · exact isExcess_of_checkNesting inner he
  | .binary _ left right _, _, _, he => by
    rcases bind_eq_error_iff.1 he with he | ⟨_, -, he⟩
    · exact isExcess_of_checkNesting left he
    · exact isExcess_of_checkNesting right he
  | .call _ arguments _, _, _, he => by
    rcases bind_eq_error_iff.1 he with he | ⟨_, -, he⟩
    · exact Limits.isExcess_of_guard he
    · rcases bind_eq_error_iff.1 he with he | ⟨_, -, he⟩
      · exact isExcess_of_checkNestingOfAll arguments he
      · exact Limits.isExcess_of_guard he

theorem isExcess_of_checkNestingOfAll : ∀ (es : List Expr) {d : Nat} {h : Halt},
    checkNestingOfAll limits d es = .error h → h.IsExcess limits
  | [], _, _, he => by cases he
  | e :: rest, _, _, he => by
    rcases bind_eq_error_iff.1 he with he | ⟨_, -, he⟩
    · exact isExcess_of_checkNesting e he
    · exact isExcess_of_checkNestingOfAll rest he

end

end Expr

namespace Reader

open Reckon.Expr

variable (limits : Limits)

/-- From the opening of a call on its arguments are read like from an operand on. -/
theorem steps_firstArgument {arguments : List Expr} {ts : List Token}
    {enclosures : List Enclosure} {waiting : List Waiting} {n : Text} {p q : Nat}
    (h : AllSpelled arguments ts)
    (hs : arguments ≠ [] →
      steps limits ⟨⟨waiting, .call n p []⟩ :: enclosures, [], .operand⟩ (ts ++ [⟨.right, q⟩]) =
        checkNestingOfAll limits (enclosures.length + 1) arguments >>=
          fun _ => endCall limits enclosures waiting n p ([] ++ arguments)) :
    steps limits ⟨⟨waiting, .call n p []⟩ :: enclosures, [], .firstArgument⟩
        (ts ++ [⟨.right, q⟩]) =
      checkNestingOfAll limits (enclosures.length + 1) arguments >>=
        fun _ => endCall limits enclosures waiting n p arguments := by
  cases arguments with
  | nil =>
    cases h
    simp only [List.nil_append, steps_cons, step, checkNestingOfAll, ok_bind]
    cases endCall limits enclosures waiting n p [] <;> rfl
  | cons e rest =>
    obtain ⟨t, us, rfl, ht⟩ := h.exists_cons
    have hs := hs (by simp)
    rw [List.cons_append, steps_cons] at hs ⊢
    rw [step_firstArgument limits _ _ ht, hs, List.nil_append]

mutual

/-- Reading the spelling of a canonical tree makes the checks of the tree and leaves its
spine on the waiting operands. -/
theorem steps_spelled : ∀ {e : Expr} {ts : List Token}, e.Canonical → e.Spelled ts →
    ∀ (enclosures : List Enclosure) (waiting : List Waiting), Below e.level waiting →
      steps limits ⟨enclosures, waiting, .operand⟩ ts =
        e.checkNesting limits enclosures.length >>=
          fun _ => .ok ⟨enclosures, e.spine ++ waiting, e.readTo⟩
  | .number .., _, _, h, _, _, _ => by
    cases h with
    | number n p => rfl
    | signed s n p q => cases s <;> rfl
  | .string .., _, _, h, _, _, _ => by cases h; rfl
  | .variable .., _, _, h, _, _, _ => by cases h; rfl
  | .group inner p, _, hc, h, enclosures, waiting, _ => by
    cases h with
    | group _ q h =>
      have ih :=
        steps_spelled (e := inner) hc h (⟨waiting, .group p⟩ :: enclosures) [] (below_nil _)
      have hleft : step limits ⟨enclosures, waiting, .operand⟩ ⟨.left, p⟩ =
          openWith limits ⟨enclosures, waiting, .operand⟩ (.group p) .operand := rfl
      rw [List.cons_append, steps_cons, hleft, openWith_eq, checkNesting]
      cases limits.guard .depth (enclosures.length + 1 : Nat) with
      | error x => rfl
      | ok _ =>
        simp only [ok_bind, steps_append, ih, List.length_cons]
        cases inner.checkNesting limits (enclosures.length + 1) with
        | error x => rfl
        | ok _ =>
          simp only [ok_bind, List.append_nil, steps_cons,
            step_right_group (e := inner) limits p q hc]
          rfl
  | .binary op left right p, _, hc, h, enclosures, waiting, hw => by
    cases h with
    | binary _ _ hl hr =>
      have ihl := steps_spelled hc.1.2 hl enclosures waiting (hw.mono hc.1.1)
      have ihr := steps_spelled hc.2.2 hr enclosures (⟨left, op, p⟩ :: waiting)
        ((below_cons _ _ _).2 hc.2.1)
      rw [steps_append, ihl, checkNesting]
      cases left.checkNesting limits enclosures.length with
      | error x => rfl
      | ok _ =>
        simp only [ok_bind, steps_cons, step_operator limits p hc.1.2 hc.1.1 hw, ihr]
        cases right.checkNesting limits enclosures.length with
        | error x => rfl
        | ok _ => simp [spine, readTo, lastOperand]
  | .call n arguments p, _, hc, h, enclosures, waiting, _ => by
    cases h with
    | call _ _ q r h =>
      have ih := steps_firstArgument limits h fun hne =>
        steps_arguments hc h hne [] enclosures waiting n p r
      have hleft : step limits ⟨enclosures, waiting, .afterName n p⟩ ⟨.left, q⟩ =
          openWith limits ⟨enclosures, waiting, .afterName n p⟩ (.call n p []) .firstArgument := rfl
      have hname : step limits ⟨enclosures, waiting, .operand⟩ ⟨.name n, p⟩ =
          .ok ⟨enclosures, waiting, .afterName n p⟩ := rfl
      rw [List.cons_append, steps_cons, hname, ok_bind, List.cons_append, steps_cons, hleft,
        openWith_eq, checkNesting]
      cases limits.guard .depth (enclosures.length + 1 : Nat) with
      | error x => rfl
      | ok _ =>
        simp only [ok_bind, ih]
        cases checkNestingOfAll limits (enclosures.length + 1) arguments with
        | error x => rfl
        | ok _ =>
          simp only [ok_bind, endCall_eq]
          cases limits.guard .arguments arguments.length <;> rfl

/-- Reading the arguments of a call from one on and the parenthesis behind them ends the
call. -/
theorem steps_arguments : ∀ {arguments : List Expr} {ts : List Token}, AllCanonical arguments →
    AllSpelled arguments ts → arguments ≠ [] → ∀ (before : List Expr)
      (enclosures : List Enclosure) (waiting : List Waiting) (n : Text) (p q : Nat),
      steps limits ⟨⟨waiting, .call n p before⟩ :: enclosures, [], .operand⟩
          (ts ++ [⟨.right, q⟩]) =
        checkNestingOfAll limits (enclosures.length + 1) arguments >>=
          fun _ => endCall limits enclosures waiting n p (before ++ arguments)
  | [], _, _, _, hne, _, _, _, _, _, _ => (hne rfl).elim
  | [e], _, hc, h, _, before, enclosures, waiting, n, p, q => by
    cases h with
    | one h =>
      have ih := steps_spelled hc.1 h (⟨waiting, .call n p before⟩ :: enclosures) [] (below_nil _)
      rw [steps_append, ih, checkNestingOfAll, checkNestingOfAll, List.length_cons]
      cases e.checkNesting limits (enclosures.length + 1) with
      | error x => rfl
      | ok _ =>
        simp only [ok_bind, List.append_nil, steps_cons, step_right_call limits n p q before hc.1]
        cases endCall limits enclosures waiting n p (before ++ [e]) <;> rfl
  | e :: f :: rest, _, hc, h, _, before, enclosures, waiting, n, p, q => by
    cases h with
    | more c h hs =>
      have ih := steps_spelled hc.1 h (⟨waiting, .call n p before⟩ :: enclosures) [] (below_nil _)
      have ihs := steps_arguments hc.2 hs (by simp) (before ++ [e]) enclosures waiting n p q
      rw [List.append_assoc, steps_append, ih, checkNestingOfAll, List.length_cons]
      cases e.checkNesting limits (enclosures.length + 1) with
      | error x => rfl
      | ok _ =>
        simp only [ok_bind, List.append_nil, List.cons_append, steps_cons,
          step_comma limits n p c before hc.1, ihs]
        simp

end

/-- At the end of a statement the size of the tree is checked. -/
theorem finish_readTo {e : Expr} (hc : e.Canonical) (position : Nat) :
    finish limits ⟨[], e.spine, e.readTo⟩ position =
      limits.guard .nodes e.nodes >>= fun _ => .ok e := by
  have hclosed : closed limits [] (complete e.spine e.lastOperand) position =
      limits.guard .nodes e.nodes >>= fun _ => .ok e := by
    rw [complete_spine hc, closed, Limits.guard]
    cases limits.check .nodes e.nodes <;> rfl
  rw [← hclosed, finish, readTo]
  split <;> rename_i h <;> split at h <;> simp_all

/-- Read from the start, the spelling of a canonical tree gives the tree, unless a check of
the limits stops it. -/
theorem run_spelled {e : Expr} {ts : List Token} (hc : e.Canonical) (h : e.Spelled ts)
    (position : Nat) : start.run limits position ts =
      e.checkNesting limits 0 >>= fun _ => limits.guard .nodes e.nodes >>= fun _ => .ok e := by
  have hsteps := steps_spelled limits hc h [] [] (below_nil _)
  rw [run_eq_steps, start, hsteps, List.length_nil]
  cases e.checkNesting limits 0 with
  | error x => rfl
  | ok _ => rw [ok_bind, ok_bind, ok_bind, List.append_nil, finish_readTo limits hc]

end Reader

/-- A sequence of tokens spells at most one canonical tree. -/
theorem Expr.Spelled.unique {e f : Expr} {ts : List Token} (he : e.Canonical) (hf : f.Canonical)
    (hse : e.Spelled ts) (hsf : f.Spelled ts) : e = f := by
  -- Under limits that neither tree reaches the reader answers with both of them.
  let limits : Limits :=
    { depth := (e.depth + f.depth : Nat), nodes := (e.nodes + f.nodes : Nat),
      arguments := (e.width + f.width : Nat) }
  have read : ∀ g : Expr, g.Canonical → g.Spelled ts → g.depth ≤ e.depth + f.depth →
      g.width ≤ e.width + f.width → g.nodes ≤ e.nodes + f.nodes →
      Reader.start.run limits 0 ts = .ok g := by
    intro g hg hs hd hw hn
    have hnest : g.checkNesting limits 0 = .ok () :=
      (checkNesting_eq_ok_iff (Int.natCast_nonneg _) g (Int.natCast_nonneg _)).2
        ⟨by rw [Nat.zero_add]; exact Int.ofNat_le.2 hd, Int.ofNat_le.2 hw⟩
    have hnodes : limits.guard .nodes g.nodes = .ok () :=
      (limits.guard_eq_ok_iff _ _).2 (Int.ofNat_le.2 hn)
    rw [Reader.run_spelled limits hg hs, hnest, ok_bind, hnodes, ok_bind]
  have h := (read e he hse (by omega) (by omega) (by omega)).symm.trans
    (read f hf hsf (by omega) (by omega) (by omega))
  exact Except.ok.inj h

/-! ## Statements -/

/-- The lexeme stands in expressions, not only in front of them. -/
def Lexeme.InExpression (l : Lexeme) : Prop := l ≠ .result ∧ l ≠ .define ∧ l ≠ .equals

namespace Expr

mutual

theorem inExpression_of_mem : ∀ (e : Expr), ∀ l ∈ e.lexemes, l.InExpression
  | .number ⟨none, _⟩ _, l, hl | .number ⟨some _, _⟩ _, l, hl | .string .., l, hl
  | .variable .., l, hl => by
    simp only [lexemes, Sign.lexemes, List.mem_append, List.mem_singleton, List.not_mem_nil,
      false_or] at hl
    rcases hl with rfl | rfl <;> simp [Lexeme.InExpression]
  | .group inner _, l, hl => by
    simp only [lexemes, List.mem_append, List.mem_cons, List.not_mem_nil, or_false] at hl
    rcases hl with (rfl | hl) | rfl
    · simp [Lexeme.InExpression]
    · exact inExpression_of_mem inner l hl
    · simp [Lexeme.InExpression]
  | .binary op left right _, l, hl => by
    simp only [lexemes, List.mem_append, List.mem_cons] at hl
    rcases hl with hl | rfl | hl
    · exact inExpression_of_mem left l hl
    · simp [Lexeme.InExpression]
    · exact inExpression_of_mem right l hl
  | .call n arguments _, l, hl => by
    simp only [lexemes, List.mem_append, List.mem_cons, List.not_mem_nil, or_false] at hl
    rcases hl with (rfl | rfl | hl) | rfl
    · simp [Lexeme.InExpression]
    · simp [Lexeme.InExpression]
    · exact inExpression_of_memAll arguments l hl
    · simp [Lexeme.InExpression]

theorem inExpression_of_memAll : ∀ (es : List Expr), ∀ l ∈ lexemesOfAll es, l.InExpression
  | [], _, hl => by cases hl
  | [e], l, hl => inExpression_of_mem e l hl
  | e :: f :: rest, l, hl => by
    simp only [lexemesOfAll, List.mem_append, List.mem_cons] at hl
    rcases hl with hl | rfl | hl
    · exact inExpression_of_mem e l hl
    · simp [Lexeme.InExpression]
    · exact inExpression_of_memAll (f :: rest) l hl

end

theorem Spelled.inExpression {e : Expr} {ts : List Token} (h : e.Spelled ts) :
    ∀ t ∈ ts, t.lexeme.InExpression := fun t ht =>
  inExpression_of_mem e t.lexeme (h.map_lexeme ▸ List.mem_map_of_mem ht)

end Expr

theorem Form.ofTokens_of_inExpression {ts : List Token} (h : ∀ t ∈ ts, t.lexeme.InExpression) :
    Form.ofTokens ts = (.bare, ts) := by
  unfold Form.ofTokens
  split
  · exact ((h _ List.mem_cons_self).1 rfl).elim
  · exact ((h _ (List.mem_cons_of_mem _ List.mem_cons_self)).2.1 rfl).elim
  · exact ((h _ (List.mem_cons_of_mem _ List.mem_cons_self)).2.2 rfl).elim
  · rfl

/-- The tokens of a statement are cut where its expression starts. -/
theorem Form.Opens.ofTokens {f : Form} {us vs : List Token} {e : Expr} (hf : f.Opens us)
    (he : e.Spelled vs) : Form.ofTokens (us ++ vs) = (f, vs) := by
  cases hf with
  | bare => exact Form.ofTokens_of_inExpression he.inExpression
  | result p => rfl
  | define n p q => rfl
  | equals n p q => rfl

theorem Form.exists_of_ofTokens (ts : List Token) :
    ∃ us, ts = us ++ (Form.ofTokens ts).2 ∧ (Form.ofTokens ts).1.Opens us := by
  unfold Form.ofTokens
  split
  · exact ⟨_, rfl, .result _⟩
  · exact ⟨_, rfl, .define _ _ _⟩
  · exact ⟨_, rfl, .equals _ _ _⟩
  · exact ⟨[], rfl, .bare⟩

/-- A sequence of tokens spells at most one statement with a canonical tree. -/
theorem Statement.Spelled.unique {st other : Statement} {ts : List Token}
    (hc : st.expression.Canonical) (hc' : other.expression.Canonical) (h : st.Spelled ts)
    (h' : other.Spelled ts) : other.form = st.form ∧ other.expression = st.expression := by
  obtain ⟨us, vs, rfl, hf, he⟩ := h
  obtain ⟨us', vs', heq, hf', he'⟩ := h'
  have hcut : (st.form, vs) = (other.form, vs') := by
    rw [← hf.ofTokens he, heq, hf'.ofTokens he']
  obtain ⟨hform, rfl⟩ := Prod.mk.inj hcut
  exact ⟨hform.symm, Expr.Spelled.unique hc' hc he' he⟩

end Reckon
