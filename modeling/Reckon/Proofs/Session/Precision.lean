import Reckon.Proofs.Number.Agreement
import Reckon.Proofs.Number.Literal
import Reckon.Proofs.Session.Faults

/-!
# What the precision does not change

Standard and high precision read literals differently, work out `%` and `sqrt` differently, and
write results differently. A session that does nothing of this runs alike at both : if the code
that is executed has only literals that are doubles, no `%` and no call of `sqrt`
(`Expr.Blind`), both runs come to values that agree or to the same failure, and to sessions that
agree (`Session.run_precision`).

The two runs are compared step by step. Values that agree (`Value.Agrees`) may be written with
different decimals, so variables may differ in this way too, and every operator and every function
has to be blind to it. Nothing else in two sessions that agree (`Session.Agrees`) differs.
-/

namespace Reckon

/-- Two outcomes are values in a relation or the same error. -/
inductive Corresponds {ε α β : Type} (R : α → β → Prop) : Except ε α → Except ε β → Prop
  | value {a : α} {b : β} (h : R a b) : Corresponds R (.ok a) (.ok b)
  | error (e : ε) : Corresponds R (.error e) (.error e)

theorem corresponds_self {ε α : Type} (x : Except ε α) : Corresponds (· = ·) x x := by
  cases x with
  | ok a => exact .value rfl
  | error e => exact .error e

/-! ## Values that agree -/

namespace Value

/-- The values are the same text, or numbers of which all parts agree. -/
inductive Agrees : Value → Value → Prop
  | number {r r' : Decimal} {i i' : Option Decimal} (hr : r.Agrees r')
      (hi : Option.Rel Decimal.Agrees i i') (k : Bool) : Agrees (.number r i k) (.number r' i' k)
  | string (t : Text) : Agrees (.string t) (.string t)

variable {v v' : Value}

theorem agrees_real {d d' : Decimal} (h : d.Agrees d') : (real d).Agrees (real d') :=
  .number h .none _

theorem Agrees.kind_eq (h : v.Agrees v') : v.kind = v'.kind := by
  cases h with
  | number _ hi _ => cases hi <;> rfl
  | string t => rfl

theorem Agrees.sort_eq (h : v.Agrees v') : v.sort = v'.sort := by
  cases h <;> rfl

end Value

/-! ## Operations and functions -/

/-- An operator other than the remainder comes to values that agree, or to the same trouble. -/
theorem Operator.apply_agrees [Library] (limits : Limits) {op : Operator} (hop : op ≠ .modulo)
    {x x' y y' : Value} (hx : x.Agrees x') (hy : y.Agrees y') :
    Corresponds Value.Agrees (op.apply .standard limits x y) (op.apply .high limits x' y') := by
  have hkinds := And.intro hx.kind_eq hy.kind_eq
  cases hx with
  | @number a a' _ _ ha _ k =>
    cases hy with
    | @number b b' _ _ hb _ l =>
      simp only [apply, onDecimals_agrees .standard .high hop ha hb]
      have hdouble := op.onDecimals_double .high a' b'
      cases h : op.onDecimals .high a' b' with
      | error t => exact .error t
      | ok d =>
        rw [h] at hdouble
        obtain ⟨x, rfl⟩ := hdouble
        exact .value (Value.agrees_real (Decimal.agrees_toDecimal x))
    | string t =>
      simp only [apply, hkinds.1]
      split <;> exact .error _
  | string s =>
    cases hy with
    | @number b b' _ _ hb _ l =>
      simp only [apply, hkinds.2]
      split <;> exact .error _
    | string t =>
      simp only [apply]
      split
      · unfold joined
        split
        · exact .error _
        · exact .value (.string _)
      · exact .error _

namespace Builtin

variable {library : Library} (b : Builtin) {v v' w w' : Value} {d d' : Decimal}

theorem onDouble_agrees (f : Double → Double) (h : d.Agrees d') :
    Corresponds Value.Agrees (onDouble f d) (onDouble f d') := by
  unfold onDouble
  rw [h.toDouble_eq]
  split
  · exact .error _
  · exact .value (Value.agrees_real (Decimal.agrees_toDecimal _))

variable {b} in
theorem ofReal_agrees (hb : b ≠ .sqrt) (h : d.Agrees d') :
    Corresponds Value.Agrees (b.ofReal .standard d) (b.ofReal .high d') := by
  cases b
  case sqrt => exact absurd rfl hb
  case sin | cos | tan | log | exp => exact onDouble_agrees _ h
  all_goals exact .value (Value.agrees_real h)

theorem imaginaryPart_agrees (h : v.Agrees v') :
    Corresponds Value.Agrees (imaginaryPart v) (imaginaryPart v') := by
  cases h with
  | number hr hi k =>
    cases hi with
    | none => exact .error _
    | some hi => exact .value (Value.agrees_real hi)
  | string t => exact .error _

theorem hashOf_agrees (h : v.Agrees v') : Corresponds Value.Agrees (hashOf v) (hashOf v') := by
  have hkind := h.kind_eq
  cases h with
  | number _ _ k =>
    simp only [hashOf, mismatch, hkind]
    exact .error _
  | string t => exact .value (.number (Decimal.agrees_ofInt _) .none _)

theorem ofReals_agrees {e e' : Decimal} (hd : d.Agrees d') (he : e.Agrees e') :
    Corresponds Value.Agrees (b.ofReals d e) (b.ofReals d' e') := by
  unfold ofReals
  split
  · rw [Operator.onDoubles_agrees _ hd he]
    have hdouble := Operator.onDecimals_double .high .power d' e'
    simp only [Operator.onDecimals] at hdouble
    split
    · exact .error _
    · rename_i x hx
      rw [hx] at hdouble
      obtain ⟨y, rfl⟩ := hdouble
      exact .value (Value.agrees_real (Decimal.agrees_toDecimal y))
  · exact .value (.number hd (.some he) _)

variable {b} in
/-- A function other than the square root comes to values that agree, or to the same trouble. -/
theorem apply_agrees (hb : b ≠ .sqrt) (draw : Double) {vs vs' : List Value}
    (h : List.Forall₂ Value.Agrees vs vs') :
    Corresponds Value.Agrees (b.apply .standard draw vs) (b.apply .high draw vs') := by
  cases h with
  | nil => exact .value (Value.agrees_real (Decimal.agrees_toDecimal draw))
  | cons hv hrest =>
    cases hrest with
    | nil =>
      simp only [apply]
      split
      · exact imaginaryPart_agrees hv
      · exact hashOf_agrees hv
      · cases hv with
        | number hr _ _ => exact ofReal_agrees hb hr
        | string t => exact .error _
    | cons hw _ =>
      cases hv with
      | number hr _ _ =>
        cases hw with
        | number hr' _ _ => exact b.ofReals_agrees hr hr'
        | string t => exact .error _
      | string t => exact .error _

end Builtin

namespace Registry

/-- A call of a function other than the square root comes to values that agree, or to the same
trouble. -/
theorem call_agrees [Library] {n : Text} (hn : n ≠ Builtin.sqrt.name) (draw : Double)
    {vs vs' : List Value} (h : List.Forall₂ Value.Agrees vs vs') :
    Corresponds Value.Agrees (standard.call .standard draw n vs)
      (standard.call .high draw n vs') := by
  unfold call
  cases hfind : standard.find n with
  | error t => exact .error t
  | ok b =>
    have hb : b ≠ .sqrt := fun hb => hn (by rw [← name_of_find hfind, hb])
    simp only [h.length_eq]
    split
    · exact Builtin.apply_agrees hb draw h
    · exact .error _

end Registry

/-! ## Sessions that agree -/

namespace Environment

/-- The same names are bound to values that agree. -/
def Agrees (B B' : Environment) : Prop :=
  List.Forall₂ (fun p q => p.1 = q.1 ∧ p.2.Agrees q.2) B B'

variable {B B' : Environment}

theorem Agrees.get? (h : B.Agrees B') (n : Text) :
    Option.Rel Value.Agrees (B.get? n) (B'.get? n) := by
  induction h with
  | nil => exact .none
  | @cons p q _ _ hpq _ ih =>
    obtain ⟨m, v⟩ := p
    obtain ⟨m', v'⟩ := q
    obtain ⟨rfl, hv⟩ := hpq
    rw [get?_cons, get?_cons]
    split
    · exact .some hv
    · exact ih

theorem Agrees.bind (h : B.Agrees B') (n : Text) {v v' : Value} (hv : v.Agrees v') :
    (B.bind n v).Agrees (B'.bind n v') := by
  induction h with
  | nil => exact .cons ⟨rfl, hv⟩ .nil
  | @cons p q _ _ hpq hrest ih =>
    obtain ⟨m, w⟩ := p
    obtain ⟨m', w'⟩ := q
    obtain ⟨rfl, hw⟩ := hpq
    unfold Environment.bind
    split
    · exact .cons ⟨rfl, hv⟩ hrest
    · split
      · exact .cons ⟨rfl, hv⟩ (.cons ⟨rfl, hw⟩ hrest)
      · exact .cons ⟨rfl, hw⟩ ih

theorem Agrees.update (h : B.Agrees B') (form : Form) {v v' : Value} (hv : v.Agrees v') :
    (form.update v B).Agrees (form.update v' B') := by
  cases form with
  | binding target => exact h.bind target hv
  | bare => exact h
  | result => exact h

end Environment

namespace Session

/-- The variables agree, and everything else is the same : the functions that were called, the
draws that were taken, the statement to which failures belong, and what was noted down. -/
structure Agrees (s t : Session) : Prop where
  /-- The variables agree. -/
  bindings : s.bindings.Agrees t.bindings
  /-- The same functions were called. -/
  called : s.called = t.called
  /-- The same number of draws was taken. -/
  drawn : s.drawn = t.drawn
  /-- The statement is the same. -/
  source : s.source = t.source
  /-- The journal is the same. -/
  journal : s.journal = t.journal

variable {s t : Session}

theorem Agrees.noted (h : s.Agrees t) (e : Event) : (s.noted e).Agrees (t.noted e) where
  bindings := h.bindings
  called := h.called
  drawn := h.drawn
  source := h.source
  journal := congrArg (· ++ [e]) h.journal

end Session

namespace Evaluation

variable {α β γ δ : Type} {R : α → β → Prop} {Q : γ → δ → Prop}

/-- Two computations came to values in a relation or to the same failure, and to sessions that
agree. -/
inductive Agree (R : α → β → Prop) : Except Failure α × Session → Except Failure β × Session → Prop
  | value {a : α} {b : β} {s t : Session} (h : R a b) (hs : s.Agrees t) :
      Agree R (.ok a, s) (.ok b, t)
  | failure (f : Failure) {s t : Session} (hs : s.Agrees t) : Agree R (.error f, s) (.error f, t)

theorem agree_node {x : Except Trouble α} {y : Except Trouble β} {s t : Session} (position : Nat)
    (h : Corresponds R x y) (hs : s.Agrees t) :
    Agree R (node position x s) (node position y t) := by
  cases h with
  | value h => exact .value h hs
  | error e =>
    unfold node
    rw [hs.source]
    exact .failure _ hs

theorem node_eq_ok {x : Except Trouble α} {position : Nat} {a : α} {s t : Session}
    (h : node position x s = (.ok a, t)) : x = .ok a ∧ s = t := by
  cases x with
  | ok b =>
    obtain ⟨ha, hs⟩ := Prod.mk.inj h
    exact ⟨congrArg _ (Except.ok.inj ha), hs⟩
  | error e => cases (Prod.mk.inj h).1

theorem Agree.bind {x : Evaluation α} {y : Evaluation β} {f : α → Evaluation γ}
    {g : β → Evaluation δ} {s t : Session} (h : Agree R (x s) (y t))
    (hfg : ∀ a s', x s = (.ok a, s') → ∀ b t', R a b → s'.Agrees t' → Agree Q (f a s') (g b t')) :
    Agree Q ((x >>= f) s) ((y >>= g) t) := by
  rw [bind_apply, bind_apply]
  generalize hx : x s = o, y t = o' at h
  cases h with
  | value hab hs => exact hfg _ _ hx _ _ hab hs
  | failure e hs => exact .failure e hs

end Evaluation

/-! ## The code that is executed -/

namespace Expr

/-- The operation of the node does not depend on the precision : a literal is a double, an operator
is not `%`, and a function is not `sqrt`. -/
def Blind : Expr → Prop
  | .number n _ => n.numeral.Moderate ∧ IsDouble n.written.value
  | .binary op .. => op ≠ .modulo
  | .call name .. => name ≠ Builtin.sqrt.name
  | _ => True

mutual

/-- Every node of which the operation is carried out, when the expression is evaluated in the
session, has the property. What stands behind a failure is not evaluated. -/
def Executes (P : Expr → Prop) (rules : Rules) : Expr → Session → Prop
  | .number n p, _ => P (.number n p)
  | .string v p, _ => P (.string v p)
  | .variable n p, _ => P (.variable n p)
  | .group inner p, s => inner.Executes P rules s ∧ P (.group inner p)
  | .binary op left right p, s => left.Executes P rules s ∧
      ∀ x t, left.evaluate rules s = (.ok x, t) → right.Executes P rules t ∧
        ∀ y u, right.evaluate rules t = (.ok y, u) → P (.binary op left right p)
  | .call n arguments p, s => ∀ b, rules.functions.find n = .ok b →
      ExecutesAll P rules arguments s ∧
        ∀ vs t, evaluateAll rules arguments s = (.ok vs, t) → P (.call n arguments p)

/-- The same of several expressions, evaluated from left to right. -/
def ExecutesAll (P : Expr → Prop) (rules : Rules) : List Expr → Session → Prop
  | [], _ => True
  | e :: rest, s => e.Executes P rules s ∧
      ∀ v t, e.evaluate rules s = (.ok v, t) → ExecutesAll P rules rest t

end

end Expr

/-- Every node of which the operation is carried out in a run has the property. A statement behind
a failure or behind `return` is not executed. -/
def Session.Executes (P : Expr → Prop) (rules : Rules) : Nat → List Text → Session → Prop
  | _, [], _ => True
  | index, source :: rest, s => ∀ st, Statement.parse rules.limits source = .ok st →
      let s := s.noted (.statementParsed index (st.expression.outline 0))
      st.expression.Executes P rules { s with source := st.source } ∧
        ∀ v t, Session.execute rules index st s = (.ok v, t) → st.form ≠ .result →
          Session.Executes P rules (index + 1) rest t

/-! ## Runs that agree -/

open Evaluation

section

variable {library : Library} {limits : Limits} {draws : Nat → Double}

namespace Session

theorem read_agrees (n : Text) (p : Nat) {s t : Session} (hs : s.Agrees t) :
    Agree Value.Agrees (read n p s) (read n p t) := by
  refine agree_node p ?_ hs
  have h := hs.bindings.get? n
  generalize s.bindings.get? n = x, t.bindings.get? n = y at h
  cases h with
  | some h => exact .value h
  | none => exact .error _

theorem call_agrees {n : Text} (hn : n ≠ Builtin.sqrt.name) (p : Nat) {vs vs' : List Value}
    (h : List.Forall₂ Value.Agrees vs vs') {s t : Session} (hs : s.Agrees t) :
    Agree Value.Agrees (call ⟨.standard, limits, .standard, draws⟩ n p vs s)
      (call ⟨.high, limits, .standard, draws⟩ n p vs' t) := by
  have hcall := Registry.call_agrees hn (draws s.drawn) h
  unfold call Rules.call
  simp only [← hs.drawn]
  generalize Registry.call _ .standard _ _ _ = x, Registry.call _ .high _ _ _ = y at hcall
  cases hcall with
  | value hv =>
    refine .value hv ⟨hs.bindings, ?_, ?_, hs.source, hs.journal⟩
    · simp only [afterCall, hs.called]
    · simp only [afterCall, hs.drawn]
  | error e =>
    simp only [hs.source]
    exact .failure _ hs

end Session

namespace Expr

/-- A literal that is a double is read as decimals that agree. -/
theorem read_agrees {n : SignedNumeral} (hn : n.numeral.Moderate) (h : IsDouble n.written.value) :
    ∃ d d', n.read .standard = .ok d ∧ n.read .high = .ok d' ∧ d.Agrees d' := by
  obtain ⟨c, e, hread, hsize⟩ := SignedNumeral.exists_read .standard hn h
  obtain ⟨d, f, hread', hsize'⟩ := SignedNumeral.exists_read .high hn h
  exact ⟨_, _, hread, hread', .finite _ (hsize.trans hsize'.symm)⟩

mutual

/-- An expression of which the executed nodes are blind to the precision comes to values that
agree, or to the same failure. -/
theorem evaluate_agrees : ∀ (e : Expr) {s t : Session}, s.Agrees t →
    e.Executes Blind ⟨.standard, limits, .standard, draws⟩ s →
    Agree Value.Agrees (e.evaluate ⟨.standard, limits, .standard, draws⟩ s)
      (e.evaluate ⟨.high, limits, .standard, draws⟩ t)
  | .number n p, s, t, hs, h => by
    obtain ⟨d, d', hd, hd', hagree⟩ := read_agrees h.1 h.2
    rw [evaluate, evaluate]
    refine agree_node p ?_ hs
    simp only [hd, hd']
    exact .value (.number hagree .none _)
  | .string v _, _, _, hs, _ => .value (.string v) hs
  | .variable n p, _, _, hs, _ => Session.read_agrees n p hs
  | .group inner _, _, _, hs, h => evaluate_agrees inner hs h.1
  | .binary op left right p, _, _, hs, h => by
    refine (evaluate_agrees left hs h.1).bind fun x s' hx x' t' hxx' hs' => ?_
    obtain ⟨hright, hop⟩ := h.2 x s' hx
    refine (evaluate_agrees right hs' hright).bind fun y s'' hy y' t'' hyy' hs'' => ?_
    exact agree_node p (op.apply_agrees limits (hop y s'' hy) hxx' hyy') hs''
  | .call n arguments p, _, _, hs, h => by
    refine (agree_node p (corresponds_self _) hs).bind fun b s' hb _ _ _ hs' => ?_
    obtain ⟨hfind, rfl⟩ := node_eq_ok hb
    obtain ⟨harguments, hname⟩ := h b hfind
    refine (evaluateAll_agrees arguments hs' harguments).bind fun vs s' hvs vs' t' hagree hs' => ?_
    exact Session.call_agrees (hname vs s' hvs) p hagree hs'

theorem evaluateAll_agrees : ∀ (es : List Expr) {s t : Session}, s.Agrees t →
    ExecutesAll Blind ⟨.standard, limits, .standard, draws⟩ es s →
    Agree (List.Forall₂ Value.Agrees) (evaluateAll ⟨.standard, limits, .standard, draws⟩ es s)
      (evaluateAll ⟨.high, limits, .standard, draws⟩ es t)
  | [], _, _, hs, _ => .value .nil hs
  | e :: rest, _, _, hs, h =>
    (evaluate_agrees e hs h.1).bind fun v s' hv _ _ hvv' hs' =>
      (evaluateAll_agrees rest hs' (h.2 v s' hv)).bind fun _ _ _ _ _ hvs hs'' =>
        .value (.cons hvv' hvs) hs''

end

end Expr

namespace Session

theorem execute_agrees (index : Nat) {st : Statement} {s t : Session} (hs : s.Agrees t)
    (h : st.expression.Executes Expr.Blind ⟨.standard, limits, .standard, draws⟩
      { s with source := st.source }) :
    Agree Value.Agrees (execute ⟨.standard, limits, .standard, draws⟩ index st s)
      (execute ⟨.high, limits, .standard, draws⟩ index st t) := by
  have hstart : Session.Agrees { s with source := st.source } { t with source := st.source } :=
    ⟨hs.bindings, hs.called, hs.drawn, rfl, hs.journal⟩
  have hagree := Expr.evaluate_agrees st.expression hstart h
  rw [execute_eq, execute_eq]
  generalize Expr.evaluate _ _ { s with source := st.source } = o,
    Expr.evaluate _ _ { t with source := st.source } = o' at hagree
  cases hagree with
  | value hv hs' =>
    refine .value hv ⟨hs'.bindings.update st.form hv, hs'.called, hs'.drawn, hs'.source, ?_⟩
    simp only [hs'.journal, hv.sort_eq]
  | failure f hs' => exact .failure f hs'

/-- Runs from sessions that agree agree, if the executed code is blind to the precision. -/
theorem runFrom_agrees : ∀ (sources : List Text) {index : Nat} {last last' : Option Value}
    {s t : Session}, Option.Rel Value.Agrees last last' → s.Agrees t →
    Session.Executes Expr.Blind ⟨.standard, limits, .standard, draws⟩ index sources s →
    Agree Value.Agrees (runFrom ⟨.standard, limits, .standard, draws⟩ index last sources s)
      (runFrom ⟨.high, limits, .standard, draws⟩ index last' sources t)
  | [], _, _, _, _, _, hlast, hs, _ => by
    cases hlast with
    | some hv => exact .value hv hs
    | none => exact .failure _ hs
  | source :: rest, index, _, _, s, t, _, hs, h => by
    cases hst : Statement.parse limits source with
    | error r =>
      rw [@runFrom_cons_of_error ⟨.standard, limits, .standard, draws⟩ _ _ hst,
        @runFrom_cons_of_error ⟨.high, limits, .standard, draws⟩ _ _ hst]
      exact .failure _ hs
    | ok st =>
      obtain ⟨hexecuted, hrest⟩ := h st hst
      rw [@runFrom_cons ⟨.standard, limits, .standard, draws⟩ _ _ hst,
        @runFrom_cons ⟨.high, limits, .standard, draws⟩ _ _ hst]
      have hagree := execute_agrees index (hs.noted _) hexecuted
      generalize hx : execute _ index st (s.noted _) = o, execute _ index st (t.noted _) = o'
        at hagree
      cases hagree with
      | failure f hs' => exact .failure f hs'
      | value hv hs' =>
        by_cases hform : st.form = .result
        · simp only [if_pos hform]
          exact .value hv (hs'.noted _)
        · simp only [if_neg hform]
          exact runFrom_agrees rest (.some hv) hs' (hrest _ _ hx hform)

/-- A sequence of statements, of which the executed code has only literals that are doubles, no `%`
and no call of `sqrt`, runs alike at both precisions with the same draws : to values that agree or
to the same failure, and to sessions with variables that agree and with the same calls, draws and
journal. -/
theorem run_precision (limits : Limits) (draws : Nat → Double) (sources : List Text)
    (h : Session.Executes Expr.Blind ⟨.standard, limits, .standard, draws⟩ 0 sources {}) :
    Agree Value.Agrees (run ⟨.standard, limits, .standard, draws⟩ sources {})
      (run ⟨.high, limits, .standard, draws⟩ sources {}) :=
  runFrom_agrees sources .none ⟨.nil, rfl, rfl, rfl, rfl⟩ h

end Session

end

namespace Session

attribute [local instance] Library.rounded

/-- A variable keeps the zeros of `0.50` with high precision only, and a draw is taken before the
divisor is found to be zero. -/
theorem run_precision_division :
    let standard : Rules := ⟨.standard, {}, .standard, fun _ => .one⟩
    let high : Rules := ⟨.high, {}, .standard, fun _ => .one⟩
    let sources : List Text := ["x:=0.50", "rand()/(x-x)"]
    Session.Executes Expr.Blind standard 0 sources {} ∧
      Agree Value.Agrees (run standard sources {}) (run high sources {}) := by
  intro standard high sources
  have hfirst : Statement.parse {} "x:=0.50" = .ok ⟨.binding "x",
      .number ⟨none, ⟨[0], some [5, 0], none⟩⟩ 3, "x:=0.50"⟩ :=
    Statement.parse_eq_ok_iff.2 ⟨[⟨.name "x", 0⟩, ⟨.define, 1⟩,
      ⟨.number ⟨[0], some [5, 0], none⟩, 3⟩], by decide +kernel, rfl, rfl, rfl⟩
  have hsecond : Statement.parse {} "rand()/(x-x)" = .ok ⟨.bare,
      .binary .divide (.call "rand" [] 0)
        (.group (.binary .minus (.variable "x" 8) (.variable "x" 10) 9) 7) 6, "rand()/(x-x)"⟩ :=
    Statement.parse_eq_ok_iff.2 ⟨[⟨.name "rand", 0⟩, ⟨.left, 4⟩, ⟨.right, 5⟩,
      ⟨.operator .divide, 6⟩, ⟨.left, 7⟩, ⟨.name "x", 8⟩, ⟨.operator .minus, 9⟩, ⟨.name "x", 10⟩,
      ⟨.right, 11⟩], by decide +kernel, rfl, rfl, rfl⟩
  have hdouble : IsDouble (SignedNumeral.written ⟨none, ⟨[0], some [5, 0], none⟩⟩).value := by
    have hdecimal : (Double.finite false ⟨0x3FE0000000000000, by decide⟩).toDecimal =
        .finite false 5 (-1) := by decide +kernel
    convert isDouble_of_toDecimal hdecimal using 1
    norm_num [Decimal.value, SignedNumeral.written, SignedNumeral.negative, withSign,
      Numeral.coefficient, Numeral.exponent, digitsValue]
  have h : Session.Executes Expr.Blind standard 0 sources {} := by
    intro st hst
    obtain rfl := Except.ok.inj (hst.symm.trans hfirst)
    refine ⟨⟨⟨by decide, by decide⟩, hdouble⟩, fun v t ht hform st hst => ?_⟩
    obtain rfl := Except.ok.inj (hst.symm.trans hsecond)
    have hrand : (Expr.call "rand" [] 0).Blind := show Text.ofString "rand" ≠ _ by decide
    have hop : ∀ op left right p, op ≠ .modulo → (Expr.binary op left right p).Blind :=
      fun _ _ _ _ h => h
    exact ⟨⟨fun _ _ => ⟨trivial, fun _ _ _ => hrand⟩, fun _ _ _ =>
      ⟨⟨⟨trivial, fun _ _ _ => ⟨trivial, fun _ _ _ => hop _ _ _ _ (by decide)⟩⟩, trivial⟩,
        fun _ _ _ => hop _ _ _ _ (by decide)⟩⟩, fun _ _ _ _ => trivial⟩
  exact ⟨h, run_precision {} _ sources h⟩

end Session

end Reckon
