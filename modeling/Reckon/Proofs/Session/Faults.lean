import Reckon.Proofs.Grammar.Positions
import Reckon.Proofs.Number.Range
import Reckon.Proofs.Session.Sequel

/-!
# Faults are reported where they are

A report on a statement that cannot be read, or whose evaluation fails, names the statement and
a position in it (`evaluate_located`). The statement is the first that does not succeed : those
before it were read and executed, and none of them returned. When an evaluation fails, what the
fault is about stands at the position : the name of the variable or the function, or the
operator (`Fault.subjects`).

The reason is that every node of a tree that is read stands in the statement where its position
says (`Statement.standsIn_of_parse`), and that a fault gets its place from the node whose own
operation or call goes wrong (`Expr.evaluate_faults`). Operations and calls know what they are
about and not where they stand (`Trouble.About`), so what is around the node cannot move the
place.
-/

namespace Reckon

/-- The fault is one of an evaluation. -/
def Fault.IsEvaluation : Fault → Prop
  | .evaluation _ => True
  | .undefinedVariable _ => True
  | .unknownFunction _ => True
  | .stringOperator _ => True
  | .divisionByZero => True
  | .function .. => True
  | .arity .. => True
  | .kind .. => True
  | _ => False

/-- What a fault of an evaluation can be about : the name of a variable or a function, or an
operator. -/
def Fault.subjects : Fault → List Text
  | .undefinedVariable name => [name]
  | .unknownFunction name => [name]
  | .stringOperator operator => [operator]
  | .divisionByZero => [Operator.divide.text, Operator.modulo.text]
  | .function name _ => [name]
  | .arity name _ _ => [name]
  | .kind name _ _ => [name]
  | _ => []

/-- A fault in the trouble is about the text, and a limit is that on strings. -/
def Trouble.About (w : Text) : Trouble → Prop
  | .fault f => w ∈ f.subjects
  | .exceeded x => x.limit = .stringLength
  | .signal _ => True

/-- A report on the statement has a position, and what the fault is about stands there; a
report of a limit has no place. -/
def Failure.Located (source : Text) : Failure → Prop
  | .report r => (∃ x, r = Report.ofExcess x) ∨ ∃ p : Nat, r.position = some (p : Int) ∧
      r.statement = some source ∧ ∃ w ∈ r.fault.subjects, source.HasAt p w
  | .signal _ => True

/-- A trouble about what stands at a position is located there. -/
theorem Trouble.About.located {w source : Text} {p : Nat} (hw : source.HasAt p w) :
    ∀ t : Trouble, t.About w → (t.located source p).Located source
  | .fault _, h => .inr ⟨p, rfl, rfl, w, h, hw⟩
  | .exceeded x, _ => .inl ⟨x, rfl⟩
  | .signal _, _ => trivial

/-! ## Operations and calls -/

namespace Operator

variable (precision : Precision) (op : Operator)

theorem rounded_about (w : Text) (x : Except Signal Decimal) :
    Ends (fun _ => True) (Trouble.About w) (rounded x) := by
  cases x <;> trivial

theorem onDoubles_about (w : Text) (f : Double → Double → Double) (a b : Decimal) :
    Ends (fun _ => True) (Trouble.About w) (onDoubles f a b) := by
  unfold onDoubles
  split <;> trivial

/-- A divisor that is refused is one of a division or of a remainder. -/
theorem checkDivisor_about (hop : op = .divide ∨ op = .modulo) (b : Decimal) :
    Ends (fun _ => True) (Trouble.About op.text) (checkDivisor b) := by
  unfold checkDivisor
  split
  · trivial
  split
  · rcases hop with rfl | rfl <;> simp [Ends, Trouble.About, Fault.subjects]
  · trivial

theorem onDecimals_about [Library] (a b : Decimal) :
    Ends (fun _ => True) (Trouble.About op.text) (op.onDecimals precision a b) := by
  rcases op.onDecimals_cases precision a b with ⟨x, h⟩ | ⟨f, h⟩ | ⟨hop, t, hb, h⟩ <;> rw [h]
  · exact rounded_about _ x
  · exact onDoubles_about _ f a b
  · have hcheck := checkDivisor_about op hop b
    rwa [hb] at hcheck

/-- What goes wrong in an operation is about its operator. -/
theorem apply_about {library : Library} (limits : Limits) (x y : Value) :
    Ends (fun _ => True) (Trouble.About op.text) (op.apply precision limits x y) := by
  unfold apply
  split
  · rename_i a _ _ b _ _
    have h := op.onDecimals_about precision a b
    split
    · rename_i t ht
      rw [ht] at h
      exact h
    · trivial
  split
  · split
    · unfold joined
      split
      · rename_i x hx
        obtain ⟨-, rfl⟩ := Limits.check_eq_error_iff.1 hx
        rfl
      · trivial
    · exact List.mem_singleton.2 rfl
  · exact List.mem_singleton.2 rfl

end Operator

namespace Builtin

variable {library : Library} (b : Builtin)

theorem onDouble_about (w : Text) (f : Double → Double) (d : Decimal) :
    Ends (fun _ => True) (Trouble.About w) (onDouble f d) := by
  unfold onDouble
  split <;> trivial

theorem ofReal_about (w : Text) (precision : Precision) (d : Decimal) :
    Ends (fun _ => True) (Trouble.About w) (b.ofReal precision d) := by
  unfold ofReal
  split
  · split <;> trivial
  all_goals first | exact onDouble_about _ _ _ | trivial

theorem ofReals_about (w : Text) (x y : Decimal) :
    Ends (fun _ => True) (Trouble.About w) (b.ofReals x y) := by
  unfold ofReals
  split
  · have h := Operator.onDoubles_about w Double.power x y
    split
    · rename_i t ht
      rw [ht] at h
      exact h
    · trivial
  · trivial

theorem realPart_about (v : Value) :
    Ends (fun _ => True) (Trouble.About b.name) (b.realPart v) := by
  unfold realPart
  split
  · trivial
  · exact List.mem_singleton.2 rfl

/-- What goes wrong in a function is about its name. -/
theorem apply_about (precision : Precision) (draw : Double) (vs : List Value) :
    Ends (fun _ => True) (Trouble.About b.name) (b.apply precision draw vs) := by
  unfold apply
  split
  · trivial
  · rename_i v
    split
    · unfold imaginaryPart
      split <;> first | trivial | exact List.mem_singleton.2 rfl
    · unfold hashOf
      split <;> first | trivial | exact List.mem_singleton.2 rfl
    · have h := b.realPart_about v
      split
      · rename_i t ht
        rw [ht] at h
        exact h
      · exact b.ofReal_about _ _ _
  · rename_i v w _
    have hv := b.realPart_about v
    have hw := b.realPart_about w
    cases hx : b.realPart v with
    | error t =>
      rw [hx] at hv
      exact hv
    | ok x =>
      cases hy : b.realPart w with
      | error t =>
        rw [hy] at hw
        exact hw
      | ok y => exact b.ofReals_about _ x y

end Builtin

namespace Registry

/-- In the standard registry every function has its own name. -/
theorem name_of_find {n : Text} {b : Builtin} (h : standard.find n = .ok b) : b.name = n := by
  unfold find at h
  split at h
  · rename_i c hc
    obtain rfl := Except.ok.inj h
    obtain ⟨l, m, hlm, -⟩ := List.lookup_eq_some_iff.1 hc
    have hmem : (n, c) ∈ standard := by
      rw [hlm]
      exact List.mem_append_right l List.mem_cons_self
    obtain ⟨d, -, hd⟩ := List.mem_map.1 hmem
    obtain ⟨rfl, rfl⟩ := Prod.mk.inj hd
    rfl
  · cases h

theorem find_about (n : Text) : Ends (fun _ => True) (Trouble.About n) (standard.find n) := by
  unfold find
  split
  · trivial
  · exact List.mem_singleton.2 rfl

/-- What goes wrong in a call is about the name that is called. -/
theorem call_about {library : Library} (precision : Precision) (draw : Double) (n : Text)
    (vs : List Value) :
    Ends (fun _ => True) (Trouble.About n) (standard.call precision draw n vs) := by
  have hfind := find_about n
  unfold call
  split
  · rename_i t ht
    rw [ht] at hfind
    exact hfind
  · rename_i b hb
    split
    · rw [← name_of_find hb]
      exact b.apply_about precision draw vs
    · exact List.mem_singleton.2 rfl

/-- What goes wrong in a call is about some text. -/
theorem call_ends {library : Library} (functions : Registry) (precision : Precision)
    (draw : Double) (n : Text) (vs : List Value) :
    Ends (fun _ => True) (fun t => ∃ w, t.About w) (functions.call precision draw n vs) := by
  unfold call find
  cases functions.lookup n with
  | none => exact ⟨n, List.mem_singleton.2 rfl⟩
  | some b =>
    simp only
    split
    · exact (b.apply_about precision draw vs).mono (fun _ h => h) fun t ht => ⟨b.name, ht⟩
    · exact ⟨n, List.mem_singleton.2 rfl⟩

end Registry

/-! ## Evaluation -/

namespace Expr

variable (rules : Rules) {I : Session → Prop} {F : Failure → Prop}

mutual

/-- An evaluation keeps what a completed call keeps, and fails with what is about some text. -/
theorem evaluate_keeps (hI : ∀ n s, I s → I (s.afterCall rules n))
    (hF : ∀ t : Trouble, (∃ w, t.About w) → ∀ s, I s → ∀ p, F (t.located s.source p)) :
    ∀ e : Expr, Evaluation.Keeps I (fun _ => True) F (e.evaluate rules)
  | .number n p => by
    refine Evaluation.keeps_node (T := fun t => ∃ x, t = .signal x) p ?_ ?_
    · cases n.read rules.precision with
      | error s => exact ⟨s, rfl⟩
      | ok d => trivial
    · rintro _ ⟨x, rfl⟩ s hs
      exact hF (.signal x) ⟨[], trivial⟩ s hs p
  | .string _ _ => Evaluation.keeps_pure trivial
  | .variable n p => by
    intro s hs
    unfold evaluate Session.read
    cases s.bindings.get? n with
    | none => exact ⟨hs, hF _ ⟨n, List.mem_singleton.2 rfl⟩ s hs p⟩
    | some v => exact ⟨hs, trivial⟩
  | .group inner _ => evaluate_keeps hI hF inner
  | .binary op left right p =>
    (evaluate_keeps hI hF left).bind fun x _ => (evaluate_keeps hI hF right).bind fun y _ =>
      Evaluation.keeps_node p (op.apply_about rules.precision rules.limits x y)
        fun t ht s hs => hF t ⟨op.text, ht⟩ s hs p
  | .call n arguments p => by
    refine Evaluation.Keeps.bind (P := fun _ => True) (fun s hs => ?_) fun _ _ =>
      (evaluateAll_keeps hI hF arguments).bind fun vs _ => ?_
    · unfold Registry.find
      cases rules.functions.lookup n with
      | none => exact ⟨hs, hF _ ⟨n, List.mem_singleton.2 rfl⟩ s hs p⟩
      | some b => exact ⟨hs, trivial⟩
    · exact Session.call_keeps n p vs (hI n)
        (fun draw => rules.functions.call_ends rules.precision draw n vs)
        fun t ht s hs => hF t ht s hs p

theorem evaluateAll_keeps (hI : ∀ n s, I s → I (s.afterCall rules n))
    (hF : ∀ t : Trouble, (∃ w, t.About w) → ∀ s, I s → ∀ p, F (t.located s.source p)) :
    ∀ es : List Expr, Evaluation.Keeps I (fun _ => True) F (evaluateAll rules es)
  | [] => Evaluation.keeps_pure trivial
  | e :: es =>
    (evaluate_keeps hI hF e).bind fun _ _ =>
      (evaluateAll_keeps hI hF es).bind fun _ _ => Evaluation.keeps_pure trivial

end

end Expr

/-- What can go wrong at the nodes of a tree is in `B`, with the name or the operator of the
node. -/
structure Rules.Blames (rules : Rules) (B : Text → Trouble → Prop) : Prop where
  /-- A variable is not bound. -/
  read : ∀ n, B n (.fault (.undefinedVariable n))
  /-- An operation goes wrong. -/
  apply : ∀ op x y, Ends (fun _ => True) (B op.text) (rules.apply op x y)
  /-- A name is that of no function. -/
  find : ∀ n, Ends (fun _ => True) (B n) (rules.functions.find n)
  /-- A call goes wrong. -/
  call : ∀ n draw vs, Ends (fun _ => True) (B n) (rules.call draw n vs)

namespace Rules

variable {rules : Rules}

theorem blames_about (hr : rules.functions = .standard) : rules.Blames fun w t => t.About w where
  read _ := List.mem_singleton.2 rfl
  apply op x y := op.apply_about rules.precision rules.limits x y
  find n := hr ▸ Registry.find_about n
  call n draw vs := by
    rw [call, hr]
    exact Registry.call_about rules.precision draw n vs

/-- Whatever the functions are, what goes wrong does so at some node. -/
theorem blames_any (rules : Rules) : rules.Blames fun _ _ => True where
  read _ := trivial
  apply _ _ _ := Ends.any _
  find _ := Ends.any _
  call _ _ _ := Ends.any _

end Rules

namespace Expr

variable {rules : Rules} {source : Text} {B : Text → Trouble → Prop} {F : Failure → Prop}

mutual

/-- An evaluation fails at the node that goes wrong, however deep in the tree that is. -/
theorem evaluate_faults (hB : rules.Blames B) (hsignal : ∀ x, F (.signal x))
    (hF : ∀ w p, source.HasAt p w → ∀ t, B w t → F (t.located source p)) :
    ∀ {e : Expr}, e.StandsIn source →
      Evaluation.Keeps (fun s => s.source = source) (fun _ => True) F (e.evaluate rules)
  | .number n p, _ => by
    -- Only a signal can come from a number, and that has no place.
    refine Evaluation.keeps_node (T := fun t => ∃ x, t = .signal x) p ?_ ?_
    · cases n.read rules.precision with
      | error s => exact ⟨s, rfl⟩
      | ok d => trivial
    · rintro _ ⟨x, rfl⟩ s _
      exact hsignal x
  | .string v p, _ => Evaluation.keeps_pure trivial
  | .variable n p, h => by
    rintro s rfl
    unfold evaluate Session.read
    cases s.bindings.get? n with
    | none => exact ⟨rfl, hF n p h _ (hB.read n)⟩
    | some v => exact ⟨rfl, trivial⟩
  | .group inner p, h => evaluate_faults hB hsignal hF (e := inner) h
  | .binary op left right p, h => by
    refine (evaluate_faults hB hsignal hF h.1).bind fun x _ =>
      (evaluate_faults hB hsignal hF h.2.2).bind fun y _ => ?_
    refine Evaluation.keeps_node p (hB.apply op x y) ?_
    rintro t ht s rfl
    exact hF op.text p h.2.1 t ht
  | .call n arguments p, h => by
    have hlocated : ∀ t : Trouble, B n t → ∀ s : Session, s.source = source →
        F (t.located s.source p) := by
      rintro t ht s rfl
      exact hF n p h.1 t ht
    exact (Evaluation.keeps_node (P := fun _ => True) p (hB.find n) hlocated).bind fun _ _ =>
      (evaluateAll_faults hB hsignal hF h.2).bind fun vs _ =>
        Session.call_keeps n p vs (fun s hs => hs) (fun draw => hB.call n draw vs) hlocated

theorem evaluateAll_faults (hB : rules.Blames B) (hsignal : ∀ x, F (.signal x))
    (hF : ∀ w p, source.HasAt p w → ∀ t, B w t → F (t.located source p)) :
    ∀ {es : List Expr}, AllStandIn source es →
      Evaluation.Keeps (fun s => s.source = source) (fun _ => True) F (evaluateAll rules es)
  | [], _ => Evaluation.keeps_pure trivial
  | _ :: _, h =>
    (evaluate_faults hB hsignal hF h.1).bind fun _ _ =>
      (evaluateAll_faults hB hsignal hF h.2).bind fun _ _ => Evaluation.keeps_pure trivial

end

end Expr

/-! ## Sessions -/

/-- The report is on the statement, at a position in it or at its end; if an evaluation failed,
what the fault is about stands there. -/
def Report.Locates (r : Report) (source : Text) : Prop :=
  r.statement = some source ∧ ∃ p : Nat, r.position = some (p : Int) ∧ p ≤ source.length ∧
    (r.fault.IsEvaluation → ∃ w ∈ r.fault.subjects, w <+: source.drop p)

namespace Session

variable {rules : Rules} {r : Report} {source : Text}

/-- A statement that cannot be read exceeds a limit, or the report has the place of the fault. -/
theorem report_of_parse {limits : Limits} (h : Statement.parse limits source = .error r) :
    (∃ x, r = Report.ofExcess x) ∨ ∃ (f : Fault) (p : Nat), f.IsMalformed ∧ p ≤ source.length ∧
      r = ⟨f, some p, some source⟩ := by
  unfold Statement.parse at h
  cases hread : Statement.read limits source with
  | ok st =>
    rw [hread] at h
    cases h
  | error g =>
    rw [hread] at h
    obtain rfl := Except.error.inj h
    cases g with
    | fault f p =>
      obtain ⟨hf, hp⟩ := Statement.fault_of_read hread
      exact .inr ⟨f, p, hf, hp, rfl⟩
    | exceeded x => exact .inl ⟨x, rfl⟩

/-- A statement whose evaluation fails does so with what goes wrong at one of its nodes. -/
theorem failure_of_execute {B : Text → Trouble → Prop} {F : Failure → Prop} (hB : rules.Blames B)
    (hsignal : ∀ x, F (.signal x))
    (hF : ∀ w p, source.HasAt p w → ∀ t, B w t → F (t.located source p)) {st : Statement}
    (hst : Statement.parse rules.limits source = .ok st) {index : Nat} {s t : Session} {f : Failure}
    (h : execute rules index st s = (.error f, t)) : F f := by
  have hfaults := Expr.evaluate_faults hB hsignal hF (Statement.standsIn_of_parse hst)
    { s with source := st.source } (Statement.parse_eq_ok_iff.1 hst).choose_spec.2.2.2
  rw [execute_eq] at h
  rcases hx : st.expression.evaluate rules { s with source := st.source } with ⟨g | v, u⟩
  · rw [hx] at h hfaults
    obtain rfl := Except.error.inj (Prod.mk.inj h).1
    exact hfaults.2
  · rw [hx] at h
    cases h

/-- A statement that cannot be read is reported with the place of the fault. -/
theorem locates_of_parse {limits : Limits} (h : Statement.parse limits source = .error r)
    (hf : r.fault.IsMalformed ∨ r.fault.IsEvaluation) : r.Locates source := by
  rcases report_of_parse h with ⟨x, rfl⟩ | ⟨f, p, hm, hp, rfl⟩
  · exact (hf.elim id id).elim
  · refine ⟨rfl, p, rfl, hp, fun he => ?_⟩
    cases f <;> first | exact he.elim | exact hm.elim

/-- A statement whose evaluation fails is reported with the place of what went wrong. -/
theorem locates_of_execute (hr : rules.functions = .standard) {st : Statement}
    (hst : Statement.parse rules.limits source = .ok st) {index : Nat} {s t : Session}
    (h : execute rules index st s = (.error (.report r), t))
    (hf : r.fault.IsMalformed ∨ r.fault.IsEvaluation) : r.Locates source := by
  have hlocated := failure_of_execute (F := Failure.Located source) (Rules.blames_about hr)
    (fun _ => trivial) (fun _ _ hw t ht => Trouble.About.located hw t ht) hst h
  rcases hlocated with ⟨x, rfl⟩ | ⟨p, hp, hs, w, hw, hat⟩
  · exact (hf.elim id id).elim
  · exact ⟨hs, p, hp, Nat.le_of_lt hat.1, fun _ => ⟨w, hw, hat.2⟩⟩

/-- A run that fails does so at its first statement that does not succeed. -/
theorem runFrom_located (hr : rules.functions = .standard)
    (hf : r.fault.IsMalformed ∨ r.fault.IsEvaluation) {sources : List Text} {index : Nat}
    {last : Option Value} {s : Session}
    (h : (runFrom rules index last sources s).1 = .error (.report r)) :
    ∃ before source after sts, sources = before ++ source :: after ∧
      List.Forall₂ (fun source st => Statement.parse rules.limits source = .ok st) before sts ∧
      Succeeds (steps rules index sts s) ∧ (∀ st ∈ sts, st.form ≠ .result) ∧
      r.Locates source := by
  rcases exists_of_runFrom_error sources h with
    ⟨-, -, hempty⟩ | ⟨before, source, after, sts, hsources, hread, hok, hforms, hsource⟩
  · obtain rfl := Failure.report.inj hempty
    exact (hf.elim id id).elim
  refine ⟨before, source, after, sts, hsources, hread, hok, hforms, ?_⟩
  rcases hsource with ⟨r', hr', hreport, -⟩ | ⟨st, i, hst, hx⟩
  · obtain rfl := Failure.report.inj hreport
    exact locates_of_parse hr' hf
  · exact locates_of_execute hr hst hx hf

end Session

/-- A report on a statement that cannot be read or whose evaluation fails is on one of the
statements of the expression, at a position in it or at its end. All statements before it were
read and executed with success, and none of them returned. If an evaluation failed, the
statement goes on at the position with what the fault is about : the name of the variable or of
the function, or the operator. -/
theorem evaluate_located {rules : Rules} (hr : rules.functions = .standard) {t : Text} {r : Report}
    (h : (evaluate rules t).1 = .error (.report r))
    (hf : r.fault.IsMalformed ∨ r.fault.IsEvaluation) :
    ∃ before source after sts, t.sources = before ++ source :: after ∧
      List.Forall₂ (fun source st => Statement.parse rules.limits source = .ok st) before sts ∧
      Session.Succeeds (Session.steps rules 0 sts {}) ∧ (∀ st ∈ sts, st.form ≠ .result) ∧
      r.statement = some source ∧ ∃ p : Nat, r.position = some (p : Int) ∧ p ≤ source.length ∧
        (r.fault.IsEvaluation → ∃ w ∈ r.fault.subjects, w <+: source.drop p) := by
  have hrun : (Session.run rules t.sources {}).1 = .error (.report r) := by
    rcases evaluate_cases rules t with ⟨r', hr', ⟨x, rfl⟩ | rfl⟩ | hrun
    · obtain rfl := Failure.report.inj (Except.error.inj (hr'.symm.trans h))
      exact (hf.elim id id).elim
    · obtain rfl := Failure.report.inj (Except.error.inj (hr'.symm.trans h))
      exact (hf.elim id id).elim
    · rw [hrun] at h
      rcases hx : Session.run rules t.sources {} with ⟨f | v, s⟩
      · rw [hx] at h
        exact congrArg _ (Except.error.inj h)
      · -- A value that has no text is a signal and no report.
        rw [hx] at h
        simp only [Except.bind, Value.answer] at h
        split at h <;> cases h
  exact Session.runFrom_located hr hf hrun

attribute [local instance] Library.rounded

/-- A division by zero in an argument, in parentheses, in the second statement. -/
theorem evaluate_located_nested :
    let rules : Rules := ⟨.standard, {}, .standard, fun _ => .one⟩
    let t : Text := "x:=0;1+sqrt(( 2/x ))"
    let r : Report := ⟨.divisionByZero, some 10, some "1+sqrt(( 2/x ))"⟩
    (evaluate rules t).1 = .error (.report r) ∧
    ∃ before source after sts, t.sources = before ++ source :: after ∧
      List.Forall₂ (fun source st => Statement.parse rules.limits source = .ok st) before sts ∧
      Session.Succeeds (Session.steps rules 0 sts {}) ∧ (∀ st ∈ sts, st.form ≠ .result) ∧
      r.statement = some source ∧ ∃ p : Nat, r.position = some (p : Int) ∧ p ≤ source.length ∧
        (r.fault.IsEvaluation → ∃ w ∈ r.fault.subjects, w <+: source.drop p) := by
  intro rules t r
  have h : (evaluate rules t).1 = .error (.report r) := by decide +kernel
  exact ⟨h, evaluate_located rfl h (.inr trivial)⟩

end Reckon
