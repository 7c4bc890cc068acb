import Reckon.Proofs.Grammar.Literals
import Reckon.Proofs.Session.Kinds

/-!
# What all numbers of a session have in common

Doubles, hashes and literals are what the numbers of a session come from. A property of numbers is
closed (`Decimal.Closed`) if doubles and hashes have it and operators and roots keep it; the
functions of doubles keep it then too, for their values are doubles. If the literals of an
expression and the variables have a closed property, the value of the expression has it
(`Expr.evaluate_closed`), and so has what a run of statements yields (`Session.runFrom_closed`). The
signals that come up on the way are only those that the property allows.
-/

namespace Reckon

/-- A signal that a computation fails with is one of these. -/
def Failure.SignalsOnly (S : Signal → Prop) : Failure → Prop
  | .signal s => S s
  | .report _ => True

theorem Trouble.SignalsOnly.located {S : Signal → Prop} {t : Trouble} (h : t.SignalsOnly S)
    (source : Text) (position : Nat) : (t.located source position).SignalsOnly S := by
  cases t with
  | fault f => trivial
  | exceeded e => trivial
  | signal s => exact h

/-- Doubles and hashes have the property, operators and roots keep it, and where numbers have it
arithmetic gives no other signals than these. -/
structure Decimal.Closed (precision : Precision) (P : Decimal → Prop) (S : Signal → Prop) :
    Prop where
  /-- Doubles have the property. -/
  double : ∀ x : Double, P x.toDecimal
  /-- Hashes have the property. -/
  hash : ∀ t : Text, P (ofInt t.hash)
  /-- Operators keep the property. -/
  operator : ∀ [Library] (op : Operator) (a b : Decimal), P a → P b →
    Ends P (Trouble.SignalsOnly S) (op.onDecimals precision a b)
  /-- The numbers are operands of functions of doubles. -/
  operand : ∀ d, P d → Ends (fun _ => True) S d.toDouble
  /-- Roots of decimals keep the property. -/
  root : precision = .high → ∀ d, P d → Ends P S d.squareRoot

/-- All numbers of the value have the property. -/
def Value.All (P : Decimal → Prop) : Value → Prop
  | .number r i _ => P r ∧ ∀ d, i = some d → P d
  | .string _ => True

/-- All numbers of the variables have the property. -/
def Environment.All (P : Decimal → Prop) (B : Environment) : Prop :=
  ∀ n v, B.get? n = some v → v.All P

variable {precision : Precision} {P : Decimal → Prop} {S : Signal → Prop}

theorem Value.all_real {d : Decimal} (h : P d) : (Value.real d).All P :=
  ⟨h, fun _ h => (by cases h)⟩

theorem Environment.all_update {B : Environment} (form : Form) {v : Value} (hv : v.All P)
    (hB : B.All P) : (form.update v B).All P := by
  intro n w hw
  rcases form.get?_update hw with rfl | hw
  · exact hv
  · exact hB n w hw

/-! ## Operations and calls -/

theorem Operator.apply_closed {library : Library} (h : Decimal.Closed precision P S)
    (limits : Limits) (op : Operator) {x y : Value} (hx : x.All P) (hy : y.All P) :
    Ends (Value.All P) (Trouble.SignalsOnly S) (op.apply precision limits x y) := by
  unfold apply
  split
  · rename_i a _ _ b _ _
    have hop := h.operator op a b hx.1 hy.1
    split
    · rename_i t ht
      rw [ht] at hop
      exact hop
    · rename_i d hd
      rw [hd] at hop
      exact Value.all_real hop
  split
  · split
    · unfold joined
      split <;> trivial
    · trivial
  · trivial

namespace Builtin

variable {library : Library} (b : Builtin) {d e : Decimal} {v : Value}

theorem onDouble_closed (h : Decimal.Closed precision P S) (f : Double → Double) (hd : P d) :
    Ends (Value.All P) (Trouble.SignalsOnly S) (onDouble f d) := by
  have hoperand := h.operand d hd
  unfold onDouble
  split
  · rename_i s hs
    rw [hs] at hoperand
    exact hoperand
  · exact Value.all_real (h.double _)

theorem ofReal_closed (h : Decimal.Closed precision P S) (hd : P d) :
    Ends (Value.All P) (Trouble.SignalsOnly S) (b.ofReal precision d) := by
  unfold ofReal
  split
  · have hroot := h.root rfl d hd
    split
    · rename_i s hs
      rw [hs] at hroot
      exact hroot
    · rename_i r hr
      rw [hr] at hroot
      exact Value.all_real hroot
  all_goals first | exact onDouble_closed h _ hd | exact Value.all_real hd

theorem ofReals_closed (h : Decimal.Closed precision P S) (hd : P d) (he : P e) :
    Ends (Value.All P) (Trouble.SignalsOnly S) (b.ofReals d e) := by
  unfold ofReals
  split
  · have hpower := h.operator .power d e hd he
    rw [Operator.onDecimals] at hpower
    split
    · rename_i t ht
      rw [ht] at hpower
      exact hpower
    · rename_i r hr
      rw [hr] at hpower
      exact Value.all_real hpower
  · refine ⟨hd, fun i hi => ?_⟩
    obtain rfl := Option.some.inj hi
    exact he

theorem realPart_closed (hv : v.All P) :
    Ends P (Trouble.SignalsOnly S) (b.realPart v) := by
  cases v with
  | number r i k => exact hv.1
  | string t => trivial

/-- A function keeps the property. -/
theorem apply_closed (h : Decimal.Closed precision P S) (draw : Double) {vs : List Value}
    (hvs : ∀ v ∈ vs, v.All P) :
    Ends (Value.All P) (Trouble.SignalsOnly S) (b.apply precision draw vs) := by
  unfold apply
  split
  · exact Value.all_real (h.double _)
  · rename_i v
    have hv := hvs v (List.mem_singleton_self v)
    split
    · rcases v with ⟨r, - | i, k⟩ | t
      · trivial
      · exact Value.all_real (hv.2 i rfl)
      · trivial
    · cases v with
      | number r i k => trivial
      | string t => exact ⟨h.hash t, fun _ h => (by cases h)⟩
    · have hreal : Ends P (Trouble.SignalsOnly S) _ := b.realPart_closed hv
      split
      · rename_i t ht
        rw [ht] at hreal
        exact hreal
      · rename_i d hd
        rw [hd] at hreal
        exact b.ofReal_closed h hreal
  · rename_i v w _
    have hv : Ends P (Trouble.SignalsOnly S) _ := b.realPart_closed (hvs v List.mem_cons_self)
    have hw : Ends P (Trouble.SignalsOnly S) _ :=
      b.realPart_closed (hvs w (List.mem_cons_of_mem _ List.mem_cons_self))
    split
    · rename_i t ht
      rw [ht] at hv
      exact hv
    · rename_i t ht _
      rw [ht] at hw
      exact hw
    · rename_i x y hx hy
      rw [hx] at hv
      rw [hy] at hw
      exact b.ofReals_closed h hv hw

end Builtin

namespace Registry

theorem find_signalsOnly (functions : Registry) (n : Text) :
    Ends (fun _ => True) (Trouble.SignalsOnly S) (functions.find n) := by
  unfold find
  split <;> trivial

theorem call_closed {library : Library} (h : Decimal.Closed precision P S) (functions : Registry)
    (draw : Double) (n : Text) {vs : List Value} (hvs : ∀ v ∈ vs, v.All P) :
    Ends (Value.All P) (Trouble.SignalsOnly S) (functions.call precision draw n vs) := by
  have hfind : Ends _ (Trouble.SignalsOnly S) _ := functions.find_signalsOnly n
  unfold call
  split
  · rename_i t ht
    rw [ht] at hfind
    exact hfind
  · rename_i b _
    split
    · exact b.apply_closed h draw hvs
    · trivial

end Registry

/-! ## Expressions -/

namespace Expr

variable {rules : Rules} {B : Environment}

mutual

/-- If the literals and the variables have a closed property, an expression has it. -/
theorem evaluate_closed (h : Decimal.Closed rules.precision P S) (hB : B.All P) : ∀ e : Expr,
    (∀ n ∈ e.numerals, Ends P S (n.read rules.precision)) →
    Evaluation.Ends B (Value.All P) (Failure.SignalsOnly S) (e.evaluate rules)
  | .number n p, hn => by
    refine Evaluation.ends_node p (T := Trouble.SignalsOnly S) ?_ fun _ ht s => ht.located s p
    have hread := hn n (List.mem_singleton_self n)
    cases hd : n.read rules.precision with
    | error s =>
      rw [hd] at hread
      exact hread
    | ok d =>
      rw [hd] at hread
      exact ⟨hread, fun _ h => (by cases h)⟩
  | .string v p, _ => Evaluation.ends_pure trivial
  | .variable n p, _ => Session.read_ends n p (hB n) fun _ _ => trivial
  | .group inner p, hn => evaluate_closed h hB inner hn
  | .binary op left right p, hn => by
    refine (evaluate_closed h hB left fun n hl => hn n (List.mem_append_left _ hl)).bind
      fun x hx => (evaluate_closed h hB right fun n hr => hn n (List.mem_append_right _ hr)).bind
        fun y hy => ?_
    exact Evaluation.ends_node p (op.apply_closed h rules.limits hx hy) fun _ ht s => ht.located s p
  | .call n arguments p, hn => by
    refine (Evaluation.ends_node p (rules.functions.find_signalsOnly n)
      fun _ ht s => ht.located s p).bind fun _ _ =>
        (evaluateAll_closed h hB arguments hn).bind fun vs hvs => ?_
    exact Session.call_ends n p vs (fun draw => Registry.call_closed h _ draw n hvs)
      fun _ ht s => ht.located s p

theorem evaluateAll_closed (h : Decimal.Closed rules.precision P S) (hB : B.All P) :
    ∀ es : List Expr, (∀ n ∈ numeralsOfAll es, Ends P S (n.read rules.precision)) →
    Evaluation.Ends B (fun vs => ∀ v ∈ vs, v.All P) (Failure.SignalsOnly S) (evaluateAll rules es)
  | [], _ => Evaluation.ends_pure fun _ h => (by cases h)
  | e :: rest, hn =>
    (evaluate_closed h hB e fun n he => hn n (List.mem_append_left _ he)).bind fun _ hv =>
      (evaluateAll_closed h hB rest fun n hr => hn n (List.mem_append_right _ hr)).bind
        fun _ hvs => Evaluation.ends_pure (List.forall_mem_cons.2 ⟨hv, hvs⟩)

end

end Expr

/-! ## Runs -/

namespace Session

variable {rules : Rules}

/-- The literals of the statements that can be read have the property. -/
def LiteralsEnd (rules : Rules) (P : Decimal → Prop) (S : Signal → Prop) (sources : List Text) :
    Prop :=
  ∀ source ∈ sources, ∀ st, Statement.parse rules.limits source = .ok st →
    ∀ n ∈ st.expression.numerals, Ends P S (n.read rules.precision)

/-- A run from variables with a closed property yields a value with it. -/
theorem runFrom_closed (h : Decimal.Closed rules.precision P S) : ∀ (sources : List Text)
    {index : Nat} {last : Option Value} {s : Session}, LiteralsEnd rules P S sources →
    s.bindings.All P → (∀ w, last = some w → w.All P) →
    Ends (Value.All P) (Failure.SignalsOnly S) (runFrom rules index last sources s).1
  | [], _, last, _, _, _, hlast => by
    cases last with
    | none => trivial
    | some w => exact hlast w rfl
  | source :: rest, index, last, s, hn, hs, hlast => by
    cases hst : Statement.parse rules.limits source with
    | error r =>
      rw [runFrom_cons_of_error hst]
      trivial
    | ok st =>
      rw [runFrom_cons hst]
      have hend := execute_ends (s := s.noted (.statementParsed index (st.expression.outline 0)))
        (Expr.evaluate_closed h hs st.expression (hn source List.mem_cons_self st hst)) index
      rcases hx : execute rules index st
        (s.noted (.statementParsed index (st.expression.outline 0))) with ⟨f | w, t⟩
      · rw [hx] at hend
        exact hend.1
      · rw [hx] at hend
        simp only
        split
        · exact hend.1
        · refine runFrom_closed h rest (fun source hsource => hn source
            (List.mem_cons_of_mem _ hsource)) ?_ (fun u hu => Option.some.inj hu ▸ hend.1)
          rw [hend.2]
          exact Environment.all_update st.form hend.1 hs

end Session

end Reckon
