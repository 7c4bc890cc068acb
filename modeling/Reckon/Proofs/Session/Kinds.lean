import Reckon.Number.Elementary.Rounded
import Reckon.Proofs.Grammar.Soundness
import Reckon.Proofs.Number.Range
import Reckon.Proofs.Session.Execution

/-!
# Kinds are known before evaluation

The kind of an expression can be read off it if the kinds of the variables are known
(`Expr.kind?`). Every operator on two numbers gives a plain number, an imaginary part or not;
only `complex` gives a complex number, and parentheses, assignments and variables keep it.

An expression that has a value has a kind, and it is that of the value (`Expr.evaluate_kind`).
An expression that has a kind has a value of it, unless a divisor is zero, a string becomes
too long or, with high precision, decimal arithmetic signals (`Expr.evaluate_calm`). So a
session whose statements have kinds under the assignments before them goes on as these kinds
say (`Session.run_kinds`).
-/

namespace Reckon

/-- The kinds of the variables that are bound. -/
abbrev Kinds := Text → Option Kind

/-- The kind of the operator on operands of two kinds. -/
def Operator.kind? (op : Operator) (k l : Kind) : Option Kind :=
  if k ≠ .string ∧ l ≠ .string then some .number
  else if op = .plus ∧ k = .string ∧ l = .string then some .string
  else none

/-- The kind of the function at arguments of the given kinds. -/
def Builtin.kind? : Builtin → List Kind → Option Kind
  | .rand, [] => some .number
  | .complex, [k, l] => if k ≠ .string ∧ l ≠ .string then some .complex else none
  | .pow, [k, l] => if k ≠ .string ∧ l ≠ .string then some .number else none
  | .im, [k] => if k = .complex then some .number else none
  | .string, [k] => if k = .string then some .number else none
  | .re, [k] | .sqrt, [k] | .sin, [k] | .cos, [k] | .tan, [k] | .log, [k] | .exp, [k] =>
    if k ≠ .string then some .number else none
  | _, _ => none

namespace Expr

mutual

/-- The kind of an expression, if its variables are bound, its calls name functions with the
right number of arguments, and its operands and arguments have the right kinds. -/
def kind? (Γ : Kinds) : Expr → Option Kind
  | .number .. => some .number
  | .string .. => some .string
  | .variable n _ => Γ n
  | .group inner _ => inner.kind? Γ
  | .binary op left right _ => do
    let k ← left.kind? Γ
    let l ← right.kind? Γ
    op.kind? k l
  | .call n arguments _ => do
    let b ← Registry.standard.lookup n
    let ks ← kindsOfAll? Γ arguments
    b.kind? ks

/-- The kinds of several expressions. -/
def kindsOfAll? (Γ : Kinds) : List Expr → Option (List Kind)
  | [] => some []
  | e :: rest => do
    let k ← e.kind? Γ
    let ks ← kindsOfAll? Γ rest
    return k :: ks

end

end Expr

/-- The kinds of the values of the variables. -/
def Environment.kinds (B : Environment) : Kinds := fun n => (B.get? n).map Value.kind

/-- What a statement of the form does to the kinds of the variables. -/
def Form.updateKinds : Form → Kind → Kinds → Kinds
  | .binding target, k, Γ => fun n => if n = target then some k else Γ n
  | .bare, _, Γ => Γ
  | .result, _, Γ => Γ

/-- The kinds of the variables are kept up with the variables. -/
theorem Form.kinds_update (form : Form) (v : Value) (B : Environment) :
    (form.update v B).kinds = form.updateKinds v.kind B.kinds := by
  cases form with
  | binding target =>
    funext n
    simp only [update, updateKinds, Environment.kinds]
    by_cases h : n = target
    · subst h
      rw [Environment.get?_bind_self, if_pos rfl]
      rfl
    · rw [Environment.get?_bind_of_ne _ _ h, if_neg h]
  | bare => rfl
  | result => rfl

/-! ## Kinds of outcomes -/

theorem Value.kind_number_ne (r : Decimal) (i : Option Decimal) (b : Bool) :
    (Value.number r i b).kind ≠ .string := by
  cases i <;> simp [kind]

theorem Operator.apply_kind {library : Library} (precision : Precision) (limits : Limits)
    (op : Operator) (x y : Value) :
    Ends (fun v => op.kind? x.kind y.kind = some v.kind) (fun _ => True)
      (op.apply precision limits x y) := by
  cases x with
  | number a i b =>
    cases y with
    | number c j d =>
      have hk : op.kind? (Value.number a i b).kind (Value.number c j d).kind = some .number :=
        if_pos ⟨Value.kind_number_ne a i b, Value.kind_number_ne c j d⟩
      rw [hk]
      simp only [apply]
      cases op.onDecimals precision a c with
      | error t => trivial
      | ok d => rfl
    | string t =>
      simp only [apply]
      split <;> trivial
  | string s =>
    cases y with
    | number c j d =>
      simp only [apply]
      split <;> trivial
    | string t =>
      simp only [apply]
      split
      · subst op
        unfold joined
        cases limits.check .stringLength (s ++ t).length with
        | error e => trivial
        | ok _ => rfl
      · trivial

namespace Builtin

variable {library : Library}

/-- A function of doubles gives a plain number. -/
theorem onDouble_kind (f : Double → Double) (d : Decimal) :
    Ends (fun v => v.kind = .number) (fun _ => True) (onDouble f d) := by
  unfold onDouble
  cases d.toDouble with
  | error s => trivial
  | ok x => rfl

theorem ofReal_kind (b : Builtin) (precision : Precision) (d : Decimal) :
    Ends (fun v => v.kind = .number) (fun _ => True) (b.ofReal precision d) := by
  unfold ofReal
  split
  · cases d.squareRoot with
    | error s => trivial
    | ok r => rfl
  all_goals first | exact onDouble_kind _ _ | rfl

theorem imaginaryPart_kind (v : Value) :
    Ends (fun w => Builtin.im.kind? [v.kind] = some w.kind) (fun _ => True) (imaginaryPart v) := by
  rcases v with ⟨r, - | i, k⟩ | t
  · trivial
  · rfl
  · trivial

theorem hashOf_kind (v : Value) :
    Ends (fun w => Builtin.string.kind? [v.kind] = some w.kind) (fun _ => True) (hashOf v) := by
  cases v with
  | number r i k => trivial
  | string t => rfl

/-- A function of one number takes every value but a string, and gives a plain number. -/
theorem kind?_singleton {b : Builtin} (h : b.arity = 1) (him : b ≠ .im) (hs : b ≠ .string)
    {k : Kind} (hk : k ≠ .string) : b.kind? [k] = some .number := by
  cases b <;> simp_all [arity, kind?]

theorem ofReals_kind {b : Builtin} (h : b.arity = 2) (x y : Decimal) {k l : Kind}
    (hk : k ≠ .string) (hl : l ≠ .string) :
    Ends (fun v => b.kind? [k, l] = some v.kind) (fun _ => True) (b.ofReals x y) := by
  have hkl : k ≠ .string ∧ l ≠ .string := ⟨hk, hl⟩
  cases b with
  | pow =>
    simp only [ofReals]
    cases Operator.onDoubles Double.power x y with
    | error t => trivial
    | ok d => exact if_pos hkl
  | complex => exact if_pos hkl
  | _ => cases h

/-- What a function yields at the right number of arguments has the kind of the function. -/
theorem apply_kind [Library] (b : Builtin) (precision : Precision) (draw : Double) (vs : List Value)
    (h : vs.length = b.arity) :
    Ends (fun v => b.kind? (vs.map Value.kind) = some v.kind) (fun _ => True)
      (b.apply precision draw vs) := by
  rcases vs with - | ⟨v, - | ⟨w, - | ⟨u, vs⟩⟩⟩
  · cases b with
    | rand => rfl
    | _ => cases h
  · simp only [apply, List.map_cons, List.map_nil]
    split
    · exact imaginaryPart_kind v
    · exact hashOf_kind v
    · rename_i him hs
      cases v with
      | number r i k =>
        have hk := kind?_singleton h.symm him hs (Value.kind_number_ne r i k)
        exact (ofReal_kind b precision r).mono (fun v hv => by rw [hk, hv]) fun _ h => h
      | string t => trivial
  · simp only [apply, List.map_cons, List.map_nil]
    cases v with
    | number r i k =>
      cases w with
      | number q j l =>
        exact ofReals_kind h.symm r q (Value.kind_number_ne r i k) (Value.kind_number_ne q j l)
      | string t => trivial
    | string s => trivial
  · cases b <;> cases h

end Builtin

namespace Registry

/-- What a call yields has the kind of the function that it names. -/
theorem call_kind {library : Library} (precision : Precision) (draw : Double) (n : Text)
    (vs : List Value) :
    Ends (fun v => ∃ b, standard.lookup n = some b ∧ b.kind? (vs.map Value.kind) = some v.kind)
      (fun _ => True) (standard.call precision draw n vs) := by
  unfold call find
  cases hb : standard.lookup n with
  | none => trivial
  | some b =>
    simp only
    split
    · rename_i hlen
      exact (b.apply_kind precision draw vs hlen).mono (fun v hv => ⟨b, rfl, hv⟩) fun _ h => h
    · trivial

end Registry

/-! ## Evaluation -/

namespace Evaluation

variable {α β : Type} {B : Environment} {P : α → Prop} {Q : β → Prop} {F : Failure → Prop}

/-- With the variables `B`, the computation ends as the properties say, and with the same
variables. -/
def Ends (B : Environment) (P : α → Prop) (F : Failure → Prop) (x : Evaluation α) : Prop :=
  ∀ s : Session, s.bindings = B → (x s).2.bindings = B ∧ Reckon.Ends P F (x s).1

theorem ends_pure {a : α} (h : P a) : Ends B P F (Evaluation.pure a) := keeps_pure h

theorem ends_node {x : Except Trouble α} {T : Trouble → Prop} (position : Nat)
    (h : Reckon.Ends P T x) (hT : ∀ t, T t → ∀ source, F (t.located source position)) :
    Ends B P F (node position x) :=
  keeps_node position h fun t ht s _ => hT t ht s.source

theorem Ends.bind {x : Evaluation α} {f : α → Evaluation β} (h : Ends B P F x)
    (hf : ∀ a, P a → Ends B Q F (f a)) : Ends B Q F (x >>= f) :=
  Keeps.bind h hf

end Evaluation

theorem Evaluation.Ends.and {α : Type} {B : Environment} {P Q : α → Prop} {F G : Failure → Prop}
    {x : Evaluation α} (h : Evaluation.Ends B P F x) (h' : Evaluation.Ends B Q G x) :
    Evaluation.Ends B (fun a => P a ∧ Q a) F x := by
  intro s hs
  obtain ⟨hb, hp⟩ := h s hs
  obtain ⟨-, hq⟩ := h' s hs
  refine ⟨hb, ?_⟩
  rcases hx : (x s).1 with e | a
  · rw [hx] at hp
    exact hp
  · rw [hx] at hp hq
    exact ⟨hp, hq⟩

namespace Session

variable {rules : Rules} {B : Environment}

theorem read_ends {P : Value → Prop} {F : Failure → Prop} (n : Text) (p : Nat)
    (h : ∀ v, B.get? n = some v → P v)
    (hF : B.get? n = none →
      ∀ source, F ((Trouble.fault (.undefinedVariable n)).located source p)) :
    Evaluation.Ends B P F (Session.read n p) := by
  rintro s rfl
  unfold Session.read
  cases hn : s.bindings.get? n with
  | none => exact ⟨rfl, hF hn _⟩
  | some v => exact ⟨rfl, h v hn⟩

theorem call_ends {P : Value → Prop} {T : Trouble → Prop} {F : Failure → Prop} (n : Text)
    (p : Nat) (vs : List Value)
    (h : ∀ draw, Reckon.Ends P T (rules.call draw n vs))
    (hT : ∀ t, T t → ∀ source, F (t.located source p)) :
    Evaluation.Ends B P F (Session.call rules n p vs) :=
  call_keeps n p vs (fun _ hs => hs) h fun t ht s _ => hT t ht s.source

end Session

namespace Expr

variable {rules : Rules}

mutual

/-- An expression that has a value has a kind, and it is that of the value. -/
theorem evaluate_kind (hr : rules.functions = .standard) (B : Environment) : ∀ e : Expr,
    Evaluation.Ends B (fun v => e.kind? B.kinds = some v.kind) (fun _ => True) (e.evaluate rules)
  | .number n p => by
    refine Evaluation.ends_node p (T := fun _ => True) ?_ fun _ _ _ => trivial
    cases n.read rules.precision with
    | error s => trivial
    | ok d => rfl
  | .string v p => Evaluation.ends_pure rfl
  | .variable n p => by
    refine Session.read_ends n p (fun v hv => ?_) fun _ _ => trivial
    rw [kind?, Environment.kinds, hv]
    rfl
  | .group inner p => evaluate_kind hr B inner
  | .binary op left right p => by
    refine (evaluate_kind hr B left).bind fun x hx => (evaluate_kind hr B right).bind fun y hy => ?_
    refine Evaluation.ends_node (T := fun _ => True) p ?_ fun _ _ _ => trivial
    rw [kind?, hx, hy]
    exact op.apply_kind _ _ x y
  | .call n arguments p => by
    refine (Evaluation.ends_node (P := fun _ => True) (T := fun _ => True) p ?_
      fun _ _ _ => trivial).bind fun _ _ => (evaluateAll_kinds hr B arguments).bind fun vs hvs => ?_
    · cases rules.functions.find n <;> trivial
    · refine Session.call_ends (T := fun _ => True) n p vs (fun draw => ?_) fun _ _ _ => trivial
      rw [Rules.call, hr]
      refine (Registry.call_kind _ draw n vs).mono ?_ fun _ h => h
      rintro v ⟨b, hb, hv⟩
      rw [kind?, hb, hvs]
      exact hv

theorem evaluateAll_kinds (hr : rules.functions = .standard) (B : Environment) :
    ∀ es : List Expr, Evaluation.Ends B
      (fun vs => kindsOfAll? B.kinds es = some (vs.map Value.kind)) (fun _ => True)
      (evaluateAll rules es)
  | [] => Evaluation.ends_pure rfl
  | e :: rest => by
    refine (evaluate_kind hr B e).bind fun v hv =>
      (evaluateAll_kinds hr B rest).bind fun vs hvs => ?_
    refine Evaluation.ends_pure ?_
    rw [kindsOfAll?, hv, hvs]
    rfl

end

end Expr

/-! ## Progress -/

/-- The numbers of the value are calm. -/
def Value.Calm (precision : Precision) : Value → Prop
  | .number r i _ => r.Calm precision ∧ ∀ d, i = some d → d.Calm precision
  | .string _ => True

/-- All values of the variables are calm. -/
def Environment.Calm (precision : Precision) (B : Environment) : Prop :=
  ∀ n v, B.get? n = some v → v.Calm precision

theorem Form.calm_update {precision : Precision} (form : Form) {v : Value} {B : Environment}
    (hv : v.Calm precision) (hB : B.Calm precision) : (form.update v B).Calm precision := by
  intro n w hw
  rcases form.get?_update hw with rfl | hw
  · exact hv
  · exact hB n w hw

/-- How an evaluation can fail where the kinds are right : a division by zero at a position, a
string that becomes too long, and with high precision a signal of decimal arithmetic. -/
def Failure.Allowed (precision : Precision) : Failure → Prop
  | .report r =>
    (∃ position source, r = ⟨.divisionByZero, some position, some source⟩) ∨
      ∃ e : Excess, e.limit = .stringLength ∧ r = Report.ofExcess e
  | .signal s => precision = .high ∧ (s = .overflow ∨ s = .invalidOperation)

theorem Trouble.Allowed.located {precision : Precision} (position : Nat) (t : Trouble)
    (h : t.Allowed precision) (source : Text) : (t.located source position).Allowed precision := by
  cases t with
  | fault f =>
    obtain rfl : f = .divisionByZero := h
    exact .inl ⟨_, _, rfl⟩
  | exceeded e => exact .inr ⟨e, h, rfl⟩
  | signal s => exact h

variable {precision : Precision}

theorem Value.exists_number {v : Value} (h : v.kind ≠ .string) : ∃ r i b, v = .number r i b := by
  cases v with
  | number r i b => exact ⟨r, i, b, rfl⟩
  | string t => exact (h rfl).elim

theorem Value.exists_string {v : Value} (h : v.kind = .string) : ∃ t, v = .string t := by
  cases v with
  | number r i b => exact (Value.kind_number_ne r i b h).elim
  | string t => exact ⟨t, rfl⟩

theorem Value.exists_complex {v : Value} (h : v.kind = .complex) :
    ∃ r i b, v = .number r (some i) b := by
  rcases v with ⟨r, - | i, b⟩ | t
  · cases h
  · exact ⟨r, i, b, rfl⟩
  · cases h

theorem Value.calm_real {d : Decimal} (h : d.Calm precision) : (Value.real d).Calm precision :=
  ⟨h, fun _ h => by cases h⟩

namespace Operator

/-- An operator with a kind has two numbers or joins two strings. -/
theorem cases_of_kind? {op : Operator} {k l m : Kind} (h : op.kind? k l = some m) :
    (k ≠ .string ∧ l ≠ .string) ∨ op = .plus ∧ k = .string ∧ l = .string := by
  unfold kind? at h
  split at h
  · rename_i hn
    exact .inl hn
  split at h
  · rename_i hs
    exact .inr hs
  · cases h

theorem joined_calm (limits : Limits) (s t : Text) :
    Ends (Value.Calm precision) (Trouble.Allowed precision) (joined limits s t) := by
  unfold joined
  split
  · rename_i e h
    obtain ⟨-, rfl⟩ := Limits.check_eq_error_iff.1 h
    rfl
  · trivial

/-- An operator on calm operands of the right kinds goes wrong in the allowed ways only. -/
theorem apply_calm {library : Library} (limits : Limits) {op : Operator} {x y : Value} {k : Kind}
    (hk : op.kind? x.kind y.kind = some k) (hx : x.Calm precision) (hy : y.Calm precision) :
    Ends (Value.Calm precision) (Trouble.Allowed precision) (op.apply precision limits x y) := by
  rcases cases_of_kind? hk with ⟨hl, hr⟩ | ⟨rfl, hl, hr⟩
  · obtain ⟨a, i, b, rfl⟩ := Value.exists_number hl
    obtain ⟨c, j, d, rfl⟩ := Value.exists_number hr
    rcases (op.onDecimals_ends hx.1 hy.1).value_or_error with ⟨d, hop, hd⟩ | ⟨t, hop, ht⟩
    · simp only [apply, hop]
      exact Value.calm_real hd
    · simp only [apply, hop]
      exact ht
  · obtain ⟨s, rfl⟩ := Value.exists_string hl
    obtain ⟨t, rfl⟩ := Value.exists_string hr
    exact joined_calm limits s t

end Operator

namespace Builtin

variable {library : Library}

theorem onDouble_calm (f : Double → Double) {d : Decimal} (hd : d.Calm precision) :
    Ends (Value.Calm precision) (Trouble.Allowed precision) (onDouble f d) := by
  rw [onDouble, hd.toDouble]
  exact Value.calm_real (Decimal.calm_toDecimal _ _)

theorem ofReal_calm (b : Builtin) {d : Decimal} (hd : d.Calm precision) :
    Ends (Value.Calm precision) (Trouble.Allowed precision) (b.ofReal precision d) := by
  unfold ofReal
  split
  · rcases d.squareRoot_ends.value_or_error with ⟨r, hroot, hr⟩ | ⟨s, hroot, hs⟩
    · rw [hroot]
      exact Value.calm_real ⟨hr, fun h => by cases h⟩
    · rw [hroot]
      exact ⟨rfl, .inl hs⟩
  all_goals first | exact onDouble_calm _ hd | exact Value.calm_real hd

theorem ofReals_calm (b : Builtin) {x y : Decimal} (hx : x.Calm precision)
    (hy : y.Calm precision) :
    Ends (Value.Calm precision) (Trouble.Allowed precision) (b.ofReals x y) := by
  unfold ofReals
  split
  · rcases (Operator.onDoubles_ends Double.power hx hy).value_or_error
      with ⟨d, hpow, hd⟩ | ⟨t, hpow, ht⟩
    · rw [hpow]
      exact Value.calm_real hd
    · rw [hpow]
      exact ht
  · refine ⟨hx, fun d hd => ?_⟩
    obtain rfl := Option.some.inj hd
    exact hy

theorem cases_of_kind?_singleton {b : Builtin} {k m : Kind} (h : b.kind? [k] = some m) :
    (b = .im ∧ k = .complex) ∨ (b = .string ∧ k = .string) ∨
      (b ≠ .im ∧ b ≠ .string ∧ k ≠ .string) := by
  cases b <;> simp_all [kind?]

theorem ne_of_kind?_pair {b : Builtin} {k l m : Kind} (h : b.kind? [k, l] = some m) :
    k ≠ .string ∧ l ≠ .string := by
  cases b <;> simp_all [kind?]

/-- A function with a kind has the right number of arguments. -/
theorem length_of_kind? {b : Builtin} {ks : List Kind} {m : Kind} (h : b.kind? ks = some m) :
    ks.length = b.arity := by
  rcases ks with - | ⟨k, - | ⟨l, - | ⟨n, ks⟩⟩⟩ <;> cases b <;> first | rfl | cases h

/-- A function at calm arguments of the right kinds goes wrong in the allowed ways only. -/
theorem apply_calm {b : Builtin} (draw : Double) {vs : List Value} {m : Kind}
    (hk : b.kind? (vs.map Value.kind) = some m) (hvs : ∀ v ∈ vs, v.Calm precision) :
    Ends (Value.Calm precision) (Trouble.Allowed precision) (b.apply precision draw vs) := by
  rcases vs with - | ⟨v, - | ⟨w, rest⟩⟩
  · exact Value.calm_real (Decimal.calm_toDecimal _ _)
  · have hv := hvs v List.mem_cons_self
    rcases cases_of_kind?_singleton hk with ⟨rfl, h⟩ | ⟨rfl, h⟩ | ⟨him, hs, h⟩
    · obtain ⟨r, i, k, rfl⟩ := Value.exists_complex h
      exact Value.calm_real (hv.2 i rfl)
    · obtain ⟨t, rfl⟩ := Value.exists_string h
      exact ⟨Decimal.calm_hash _ t, fun _ h => by cases h⟩
    · obtain ⟨r, i, k, rfl⟩ := Value.exists_number h
      simp only [apply]
      exact ofReal_calm b hv.1
  · have hlen := length_of_kind? hk
    obtain rfl : rest = [] := by
      rcases rest with - | ⟨u, rest⟩
      · rfl
      · cases b <;> cases hlen
    obtain ⟨hl, hr⟩ := ne_of_kind?_pair hk
    obtain ⟨r, i, k, rfl⟩ := Value.exists_number hl
    obtain ⟨q, j, l, rfl⟩ := Value.exists_number hr
    exact ofReals_calm b (hvs _ List.mem_cons_self).1
      (hvs _ (List.mem_cons_of_mem _ List.mem_cons_self)).1

end Builtin

/-- A call of a function that exists goes wrong as the function does. -/
theorem Registry.call_calm {library : Library} {n : Text} {b : Builtin} (draw : Double)
    {vs : List Value} {m : Kind} (hn : standard.lookup n = some b)
    (hk : b.kind? (vs.map Value.kind) = some m) (hvs : ∀ v ∈ vs, v.Calm precision) :
    Ends (Value.Calm precision) (Trouble.Allowed precision)
      (standard.call precision draw n vs) := by
  have hlen := Builtin.length_of_kind? hk
  rw [List.length_map] at hlen
  rw [call, find, hn]
  simp only [if_pos hlen]
  exact Builtin.apply_calm draw hk hvs

namespace Expr

variable {rules : Rules} {B : Environment}

mutual

/-- An expression that has a kind goes wrong in the allowed ways only. -/
theorem evaluate_calm (hr : rules.functions = .standard) (hB : B.Calm rules.precision) :
    ∀ {e : Expr} {k : Kind}, e.kind? B.kinds = some k →
    Evaluation.Ends B (Value.Calm rules.precision) (Failure.Allowed rules.precision)
      (e.evaluate rules)
  | .number n p, k, hk => by
    refine Evaluation.ends_node p ?_ (Trouble.Allowed.located p)
    rcases (n.read_ends rules.precision).value_or_error with ⟨d, hread, hd⟩ | ⟨s, hread, hs⟩
    · rw [hread]
      exact ⟨hd, fun _ h => by cases h⟩
    · rw [hread]
      exact ⟨hs.1, .inr hs.2⟩
  | .string v p, k, hk => Evaluation.ends_pure trivial
  | .variable n p, k, hk => by
    refine Session.read_ends n p (hB n) fun hn => ?_
    rw [kind?, Environment.kinds, hn] at hk
    cases hk
  | .group inner p, k, hk => evaluate_calm hr hB (e := inner) hk
  | .binary op left right p, k, hk => by
    rw [kind?] at hk
    obtain ⟨kl, hl, hk⟩ := Option.bind_eq_some_iff.1 hk
    obtain ⟨kr, hr', hk⟩ := Option.bind_eq_some_iff.1 hk
    refine ((evaluate_calm hr hB hl).and (evaluate_kind hr B left)).bind fun x ⟨hx, hkx⟩ =>
      ((evaluate_calm hr hB hr').and (evaluate_kind hr B right)).bind fun y ⟨hy, hky⟩ => ?_
    obtain rfl := Option.some.inj (hl.symm.trans hkx)
    obtain rfl := Option.some.inj (hr'.symm.trans hky)
    exact Evaluation.ends_node p (Operator.apply_calm _ hk hx hy) (Trouble.Allowed.located p)
  | .call n arguments p, k, hk => by
    rw [kind?] at hk
    obtain ⟨b, hb, hk⟩ := Option.bind_eq_some_iff.1 hk
    obtain ⟨ks, hks, hk⟩ := Option.bind_eq_some_iff.1 hk
    refine (Evaluation.ends_node (P := fun _ => True) p ?_ (Trouble.Allowed.located p)).bind
      fun _ _ => ((evaluateAll_calm hr hB hks).and (evaluateAll_kinds hr B arguments)).bind
        fun vs ⟨hvs, hkvs⟩ => ?_
    · rw [hr, Registry.find, hb]
      trivial
    · obtain rfl := Option.some.inj (hks.symm.trans hkvs)
      refine Session.call_ends n p vs (fun draw => ?_) (Trouble.Allowed.located p)
      rw [Rules.call, hr]
      exact Registry.call_calm draw hb hk hvs

theorem evaluateAll_calm (hr : rules.functions = .standard) (hB : B.Calm rules.precision) :
    ∀ {es : List Expr} {ks : List Kind}, kindsOfAll? B.kinds es = some ks →
    Evaluation.Ends B (fun vs => ∀ v ∈ vs, v.Calm rules.precision)
      (Failure.Allowed rules.precision) (evaluateAll rules es)
  | [], ks, hk => Evaluation.ends_pure fun _ h => by cases h
  | e :: rest, ks, hk => by
    rw [kindsOfAll?] at hk
    obtain ⟨k, he, hk⟩ := Option.bind_eq_some_iff.1 hk
    obtain ⟨ks, hks, hk⟩ := Option.bind_eq_some_iff.1 hk
    refine (evaluate_calm hr hB he).bind fun v hv =>
      (evaluateAll_calm hr hB hks).bind fun vs hvs => ?_
    exact Evaluation.ends_pure (List.forall_mem_cons.2 ⟨hv, hvs⟩)

end

end Expr

/-! ## Sessions -/

namespace Session

/-- Each statement has a kind under the assignments before it. -/
def Kinded (Γ : Kinds) : List Statement → Prop
  | [] => True
  | st :: rest => ∃ k, st.expression.kind? Γ = some k ∧ Kinded (st.form.updateKinds k Γ) rest

/-- The trace goes as the kinds say : each value has the kind of its statement, and then the
variables have the kinds that the assignments give them; a failure is an allowed one, and
leaves the variables as they were. -/
def Follows (precision : Precision) (Γ : Kinds) : List Step → Prop
  | [] => True
  | step :: rest => ∃ k, step.statement.expression.kind? Γ = some k ∧
    (∀ v, step.outcome = .ok v → v.kind = k ∧
      step.after.bindings.kinds = step.statement.form.updateKinds k Γ) ∧
    (∀ f, step.outcome = .error f → f.Allowed precision ∧ step.after.bindings.kinds = Γ) ∧
    Follows precision (step.statement.form.updateKinds k Γ) rest

variable {rules : Rules}

/-- A statement ends as its expression does; if that has a value, the form may bind it. -/
theorem execute_ends {P : Value → Prop} {F : Failure → Prop} {st : Statement} {s : Session}
    (h : Evaluation.Ends s.bindings P F (st.expression.evaluate rules)) (index : Nat) :
    Ends (fun v => P v ∧ (execute rules index st s).2.bindings = st.form.update v s.bindings)
      (fun f => F f ∧ (execute rules index st s).2.bindings = s.bindings)
      (execute rules index st s).1 := by
  have hend := h { s with source := st.source } rfl
  rw [execute_eq]
  rcases hx : st.expression.evaluate rules { s with source := st.source } with ⟨f | v, u⟩
  · rw [hx] at hend
    exact ⟨hend.2, hend.1⟩
  · rw [hx] at hend
    exact ⟨hend.2, by rw [← hend.1]⟩

/-- A statement that yields a value has a kind under the variables it is executed with, and
it is that of the value. -/
theorem execute_kind (hr : rules.functions = .standard) {index : Nat} {st : Statement}
    {s t : Session} {v : Value} (h : execute rules index st s = (.ok v, t)) :
    st.expression.kind? s.bindings.kinds = some v.kind ∧
      t.bindings = st.form.update v s.bindings := by
  have hend := execute_ends (Expr.evaluate_kind hr s.bindings st.expression) index
  rw [h] at hend
  exact hend

/-- A statement with a kind goes wrong in the allowed ways only, and changes no variable then. -/
theorem execute_calm (hr : rules.functions = .standard) (index : Nat) {st : Statement}
    {s : Session} {k : Kind} (hs : s.bindings.Calm rules.precision)
    (hk : st.expression.kind? s.bindings.kinds = some k) :
    Ends (fun v => v.Calm rules.precision) (fun f => f.Allowed rules.precision ∧
      (execute rules index st s).2.bindings = s.bindings) (execute rules index st s).1 :=
  (execute_ends (Expr.evaluate_calm hr hs hk) index).mono (fun _ h => h.1) fun _ h => h

/-- The invariant of a run : the variables are calm, and have the kinds that the assignments
so far give them. -/
theorem follows_steps (hr : rules.functions = .standard) :
    ∀ (sts : List Statement) (index : Nat) {Γ : Kinds} {s : Session},
    s.bindings.Calm rules.precision → s.bindings.kinds = Γ →
    Kinded Γ ((steps rules index sts s).map Step.statement) →
    Follows rules.precision Γ (steps rules index sts s)
  | [], _, _, _, _, _, _ => trivial
  | st :: rest, index, Γ, s, hs, hΓ, hk => by
    subst hΓ
    have hs' : (s.noted (.statementParsed index (st.expression.outline 0))).bindings.Calm
        rules.precision := hs
    rw [steps] at hk ⊢
    rcases hx : execute rules index st (s.noted
      (.statementParsed index (st.expression.outline 0))) with ⟨f | v, t⟩
    · rw [hx] at hk
      obtain ⟨k, hst, -⟩ := hk
      have hcalm := execute_calm hr index hs' hst
      rw [hx] at hcalm
      refine ⟨k, hst, fun _ h => (by cases h), fun g hg => ?_, trivial⟩
      obtain rfl := Except.error.inj hg
      exact ⟨hcalm.1, congrArg Environment.kinds hcalm.2⟩
    · rw [hx] at hk
      obtain ⟨k, hst, hrest⟩ := hk
      have hcalm := execute_calm hr index hs' hst
      rw [hx] at hcalm
      obtain ⟨hkind, hbindings⟩ := execute_kind hr hx
      obtain rfl := Option.some.inj (hst.symm.trans hkind)
      have hΓ : t.bindings.kinds = st.form.updateKinds v.kind s.bindings.kinds := by
        rw [hbindings, Form.kinds_update]
        rfl
      refine ⟨v.kind, hst, fun w hw => ?_, fun _ h => (by cases h), ?_⟩
      · obtain rfl := Except.ok.inj hw
        exact ⟨rfl, hΓ⟩
      · by_cases hform : st.form = .result
        · simp only [if_pos hform]
          trivial
        · simp only [if_neg hform] at hrest ⊢
          refine follows_steps hr rest (index + 1) ?_ hΓ hrest
          rw [hbindings]
          exact Form.calm_update st.form hcalm hs'

/-- A trace that follows the kinds ends in the allowed ways. -/
theorem allowed_of_follows {precision : Precision} : ∀ {trace : List Step} {Γ : Kinds},
    Follows precision Γ trace →
    ∀ step ∈ trace, ∀ f, step.outcome = .error f → f.Allowed precision
  | [], _, _, _, hmem, _, _ => by cases hmem
  | first :: rest, Γ, ⟨k, _, _, hf, hrest⟩, step, hmem, f, hstep => by
    rcases List.mem_cons.1 hmem with rfl | hmem
    · exact (hf f hstep).1
    · exact allowed_of_follows hrest step hmem f hstep

/-- Statements that all have kinds have them as far as they are executed. -/
theorem Kinded.steps : ∀ {sts : List Statement} {Γ : Kinds}, Kinded Γ sts →
    ∀ (index : Nat) (s : Session), Kinded Γ ((steps rules index sts s).map Step.statement)
  | [], _, _, _, _ => trivial
  | st :: rest, Γ, ⟨k, hst, hrest⟩, index, s => by
    rw [Session.steps]
    rcases execute rules index st _ with ⟨f | v, t⟩
    · exact ⟨k, hst, trivial⟩
    · refine ⟨k, hst, ?_⟩
      by_cases hform : st.form = .result
      · simp only [if_pos hform]
        trivial
      · simp only [if_neg hform]
        exact hrest.steps (index + 1) t

theorem exists_mem_of_lastOutcome {trace : List Step} {f : Failure}
    (h : lastOutcome none trace = .error f) (hne : trace ≠ []) :
    ∃ step ∈ trace, step.outcome = .error f := by
  unfold lastOutcome at h
  cases hlast : trace.getLast? with
  | none => exact (hne (List.getLast?_eq_none_iff.1 hlast)).elim
  | some step =>
    rw [hlast] at h
    exact ⟨step, List.mem_of_getLast? hlast, h⟩

/-- Type soundness. If the statements of a new session that are executed have kinds under the
assignments before them, every step follows the kinds, and the run can fail only with a
division by zero, with a string that becomes too long or, with high precision, with a signal
of decimal arithmetic; a run without statements has no value. Conversely a statement that
yields a value has a kind under the variables that it is executed with, and its value has
that kind. -/
theorem run_kinds (hr : rules.functions = .standard) :
    (∀ (sources : List Text) (sts : List Statement),
      List.Forall₂ (fun source st => Statement.parse rules.limits source = .ok st) sources sts →
      Kinded (fun _ => none) ((steps rules 0 sts {}).map Step.statement) →
      Follows rules.precision (fun _ => none) (steps rules 0 sts {}) ∧
        (run rules sources {}).1 = lastOutcome none (steps rules 0 sts {}) ∧
        (sts ≠ [] → ∀ f, (run rules sources {}).1 = .error f → f.Allowed rules.precision)) ∧
      ∀ (index : Nat) (st : Statement) (s t : Session) (v : Value),
        execute rules index st s = (.ok v, t) →
        st.expression.kind? s.bindings.kinds = some v.kind ∧
          t.bindings.kinds = st.form.updateKinds v.kind s.bindings.kinds := by
  refine ⟨fun sources sts hread hk => ?_, fun index st s t v h => ?_⟩
  · have hcalm : Environment.Calm rules.precision [] := fun _ _ h => by cases h
    have hfollows := follows_steps hr sts 0 (s := {}) hcalm rfl hk
    have hrun := runFrom_eq_steps hread 0 none {}
    refine ⟨hfollows, hrun, fun hne f hf => ?_⟩
    rw [run, hrun] at hf
    have htrace : steps rules 0 sts {} ≠ [] := by
      obtain ⟨st, rest, rfl⟩ := List.exists_cons_of_ne_nil hne
      rw [steps]
      rcases execute rules 0 st _ with ⟨_ | _, _⟩ <;> simp
    obtain ⟨step, hmem, hstep⟩ := exists_mem_of_lastOutcome hf htrace
    exact allowed_of_follows hfollows step hmem f hstep
  · obtain ⟨hkind, hbindings⟩ := execute_kind hr h
    exact ⟨hkind, by rw [hbindings, Form.kinds_update]⟩

attribute [local instance] Library.rounded

/-- A complex number is bound, read, and taken apart. -/
theorem run_kinds_complex :
    let rules : Rules := ⟨.standard, {}, .standard, fun _ => .one⟩
    let sts : List Statement :=
      [⟨.binding "z", .call "complex" [.number ⟨none, ⟨[1], none, none⟩⟩ 11,
          .number ⟨none, ⟨[2], none, none⟩⟩ 13] 3, "z:=complex(1,2)"⟩,
        ⟨.result, .binary .plus (.call "im" [.variable "z" 10] 7)
          (.number ⟨none, ⟨[1], none, none⟩⟩ 13) 12, "return im(z)+1"⟩]
    Follows .standard (fun _ => none) (steps rules 0 sts {}) ∧
      (run rules ["z:=complex(1,2)", "return im(z)+1"] {}).1 =
        lastOutcome none (steps rules 0 sts {}) := by
  intro rules sts
  have hfirst : Statement.parse {} "z:=complex(1,2)" = .ok sts[0] :=
    Statement.parse_eq_ok_iff.2 ⟨[⟨.name "z", 0⟩, ⟨.define, 1⟩, ⟨.name "complex", 3⟩, ⟨.left, 10⟩,
      ⟨.number ⟨[1], none, none⟩, 11⟩, ⟨.comma, 12⟩, ⟨.number ⟨[2], none, none⟩, 13⟩,
      ⟨.right, 14⟩], by decide +kernel, rfl, rfl, rfl⟩
  have hsecond : Statement.parse {} "return im(z)+1" = .ok sts[1] :=
    Statement.parse_eq_ok_iff.2 ⟨[⟨.result, 0⟩, ⟨.name "im", 7⟩, ⟨.left, 9⟩, ⟨.name "z", 10⟩,
      ⟨.right, 11⟩, ⟨.operator .plus, 12⟩, ⟨.number ⟨[1], none, none⟩, 13⟩],
      by decide +kernel, rfl, rfl, rfl⟩
  have hk : Kinded (fun _ => none) sts := by
    refine ⟨.complex, ?_, .number, ?_, trivial⟩
    · decide
    · decide
  have hr : rules.functions = .standard := rfl
  obtain ⟨hfollows, hrun, -⟩ := (run_kinds hr).1 _ sts
    (.cons hfirst (.cons hsecond .nil)) (hk.steps 0 {})
  exact ⟨hfollows, hrun⟩

end Session

end Reckon
