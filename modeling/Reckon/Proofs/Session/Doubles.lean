import Reckon.Proofs.Number.Agreement
import Reckon.Proofs.Session.Faults
import Reckon.Proofs.Session.Numbers
import Reckon.Proofs.Session.Points

/-!
# Numbers of standard precision

At standard precision the numbers of a session are doubles, written out exactly
(`Decimal.Doubled`), with one exception : the hash of a string is a word of 64 bits, and a double
has fewer. A hash is made by `string` alone, and no operator and no function but `re`, `im` and
`complex` lets a number through as it is (`Builtin.Carries`). So every number at a point of a run is
a double, or the hash of a string that was handed to `string` on the way there
(`Session.run_doubles`).
-/

namespace Reckon

/-! ## Decimals that are doubles -/

/-- The decimal is exactly a double. -/
structure Decimal.Doubled (d : Decimal) : Prop where
  /-- There is a double with this decimal. -/
  double : ∃ x : Double, d = x.toDecimal
  /-- A finite one has no more places than its value needs. -/
  places : ∀ s c e, d = .finite s c e → e ≤ 0 ∧ (e < 0 → ¬ 10 ∣ c)
  /-- Rounding it to a double changes nothing. -/
  rounded : d.toNearestDouble = d

theorem Decimal.doubled_toDecimal (x : Double) : x.toDecimal.Doubled where
  double := ⟨x, rfl⟩
  places _ _ _ h := Double.places_toDecimal h
  rounded := by rw [toNearestDouble, Double.ofDecimal_toDecimal]

/-- The value of an operator is a string or a double. -/
theorem Operator.doubled_apply {library : Library} {precision : Precision} {limits : Limits}
    {op : Operator} {x y v : Value} (h : op.apply precision limits x y = .ok v) :
    v.All Decimal.Doubled := by
  unfold apply at h
  split at h
  · rename_i a _ _ b _ _
    have hdouble := op.onDecimals_double precision a b
    split at h
    · cases h
    · rename_i d hd
      rw [hd] at hdouble
      obtain ⟨z, rfl⟩ := hdouble
      obtain rfl := Except.ok.inj h
      exact Value.all_real (Decimal.doubled_toDecimal z)
  split at h
  · split at h
    · unfold joined at h
      split at h
      · cases h
      · obtain rfl := Except.ok.inj h
        trivial
    · cases h
  · cases h

namespace Builtin

/-- The functions that compute with doubles. -/
def computing : List Builtin := [.sqrt, .pow, .rand, .sin, .cos, .tan, .log, .exp]

theorem find_name (b : Builtin) : Registry.standard.find b.name = .ok b := by
  cases b <;> decide +kernel

theorem name_injective : Function.Injective name := fun b c h =>
  Except.ok.inj ((find_name b).symm.trans (h ▸ find_name c))

/-- The function lets the numbers of its arguments through as they are, or hashes a string. -/
inductive Carries : Builtin → List Value → Value → Prop
  | string (t : Text) : Carries .string [.string t] (.number (Decimal.ofInt t.hash) none true)
  | re (r : Decimal) (i : Option Decimal) (k : Bool) : Carries .re [.number r i k] (.real r)
  | im (r i : Decimal) (k : Bool) : Carries .im [.number r (some i) k] (.real i)
  | complex (r r' : Decimal) (i i' : Option Decimal) (k k' : Bool) :
    Carries .complex [.number r i k, .number r' i' k'] (.number r (some r') false)

variable {library : Library} {b : Builtin} {v w : Value} {d : Decimal}

theorem doubled_onDouble {f : Double → Double} (h : onDouble f d = .ok v) :
    v.All Decimal.Doubled := by
  unfold onDouble at h
  split at h
  · cases h
  · obtain rfl := Except.ok.inj h
    exact Value.all_real (Decimal.doubled_toDecimal _)

theorem doubled_power {d e : Decimal} (h : ofReals .pow d e = .ok v) : v.All Decimal.Doubled := by
  have hdouble : Ends _ _ (Operator.onDoubles Double.power d e) :=
    Operator.onDecimals_double .standard .power d e
  unfold ofReals at h
  split at h
  · split at h
    · cases h
    · rename_i z hz
      rw [hz] at hdouble
      obtain ⟨x, rfl⟩ := hdouble
      obtain rfl := Except.ok.inj h
      exact Value.all_real (Decimal.doubled_toDecimal x)
  · rename_i hb
    exact (hb rfl).elim

/-- A function with the right number of arguments computes in doubles, or carries. -/
theorem doubled_or_carries {draw : Double} {vs : List Value} (hvs : vs.length = b.arity)
    (h : b.apply .standard draw vs = .ok v) : v.All Decimal.Doubled ∨ b.Carries vs v := by
  rcases vs with - | ⟨x, - | ⟨y, - | ⟨z, vs⟩⟩⟩
  · obtain rfl := Except.ok.inj h
    exact .inl (Value.all_real (Decimal.doubled_toDecimal draw))
  · cases b with
    | sqrt | sin | cos | tan | log | exp =>
      cases x with
      | number r i k => exact .inl (doubled_onDouble h)
      | string t => cases h
    | re =>
      cases x with
      | number r i k =>
        obtain rfl := Except.ok.inj h
        exact .inr (.re r i k)
      | string t => cases h
    | im =>
      rcases x with ⟨r, - | i, k⟩ | t
      · cases h
      · obtain rfl := Except.ok.inj h
        exact .inr (.im r i k)
      · cases h
    | string =>
      cases x with
      | number r i k => cases h
      | string t =>
        obtain rfl := Except.ok.inj h
        exact .inr (.string t)
    | rand | pow | complex => cases hvs
  · rcases x with ⟨r, i, k⟩ | t
    · rcases y with ⟨r', i', k'⟩ | t'
      · cases b with
        | pow => exact .inl (doubled_power h)
        | complex =>
          obtain rfl := Except.ok.inj h
          exact .inr (.complex r r' i i' k k')
        | sqrt | rand | sin | cos | tan | log | exp | re | im | string => cases hvs
      · cases h
    · cases y <;> cases h
  · cases b <;> cases hvs

end Builtin

/-! ## Runs -/

namespace Action

/-- The action lets numbers through : it looks up a variable, or calls a function that carries. -/
inductive Carries (stack : List Value) (s : Session) : Action → Value → Prop
  | read {n : Text} (p : Nat) {v : Value} (h : s.bindings.get? n = some v) :
    Carries stack s (.read n p) v
  | call {b : Builtin} {k : Nat} (p : Nat) {v : Value} (h : b.Carries (stack.take k).reverse v) :
    Carries stack s (.call b.name k p) v

/-- Among the actions is a call of `string` with the text. -/
def Hashes (rules : Rules) (done : List Action) (t : Text) : Prop :=
  ∃ before k p after stack s, done = before ++ .call Builtin.string.name k p :: after ∧
    performAll rules before [] {} = (.ok stack, s) ∧ (stack.take k).reverse = [.string t]

variable {library : Library} {limits : Limits} {draws : Nat → Double} {rules : Rules}
  {done : List Action} {stack : List Value} {s : Session}

theorem Hashes.append {t : Text} (h : Hashes rules done t) (more : List Action) :
    Hashes rules (done ++ more) t := by
  obtain ⟨before, k, p, after, stack, s, rfl, hbefore, hstack⟩ := h
  exact ⟨before, k, p, after ++ more, stack, s, by simp, hbefore, hstack⟩

/-- An action yields doubles, or lets numbers through. -/
theorem Yields.doubled_or_carries {a : Action} {v : Value}
    (h : a.Yields ⟨.standard, limits, .standard, draws⟩ stack s v) :
    v.All Decimal.Doubled ∨ a.Carries stack s v := by
  cases h with
  | @number n p d h =>
    obtain rfl := Except.ok.inj h
    exact .inl ⟨Decimal.doubled_toDecimal _, fun _ h => (by cases h)⟩
  | string w => exact .inl trivial
  | read p h => exact .inr (.read p h)
  | operator p hstack h => exact .inl (Operator.doubled_apply h)
  | @call n k p v h =>
    unfold Rules.call Registry.call at h
    split at h
    · cases h
    · rename_i b hb
      obtain rfl := Registry.name_of_find hb
      split at h
      · rename_i hlength
        exact (Builtin.doubled_or_carries hlength h).imp_right (.call p)
      · cases h

end Action

/-- The decimal is a double, or the hash of a string that `string` was called with before. -/
def Decimal.Stored (rules : Rules) (done : List Action) (d : Decimal) : Prop :=
  d.Doubled ∨ ∃ t, Action.Hashes rules done t ∧ d = .ofInt t.hash ∧
    -2 ^ 63 ≤ t.hash ∧ t.hash < 2 ^ 63

theorem Decimal.Stored.append {rules : Rules} {done : List Action} {d : Decimal}
    (h : d.Stored rules done) (more : List Action) : d.Stored rules (done ++ more) :=
  h.imp_right fun ⟨t, ht, hd⟩ => ⟨t, ht.append more, hd⟩

theorem Value.All.mono {P Q : Decimal → Prop} {v : Value} (h : v.All P) (hPQ : ∀ d, P d → Q d) :
    v.All Q := by
  cases v with
  | number r i k => exact ⟨hPQ r h.1, fun d hd => hPQ d (h.2 d hd)⟩
  | string t => trivial

namespace Action

variable {library : Library} {limits : Limits} {draws : Nat → Double} {rules : Rules}
  {actions done : List Action} {stack : List Value} {s : Session}

/-- What lets numbers through yields numbers that were stored, or hashes a string. -/
theorem Carries.stored {a : Action} {v : Value}
    (hdone : performAll rules done [] {} = (.ok stack, s))
    (hall : Session.AllValues (Value.All (Decimal.Stored rules done)) stack s)
    (h : a.Carries stack s v) : v.All (Decimal.Stored rules (done ++ [a])) := by
  cases h with
  | read p h => exact (hall.bindings _ (Environment.mem_of_get? h)).mono fun d hd => hd.append _
  | @call b k p v h =>
    have hargs : ∀ w ∈ (stack.take k).reverse, w.All (Decimal.Stored rules done) := fun w hw =>
      hall.stack w (List.mem_of_mem_take (List.mem_reverse.1 hw))
    generalize hvs : (stack.take k).reverse = vs at h hargs
    cases h with
    | string t =>
      have ht : Hashes rules (done ++ [.call Builtin.string.name k p]) t :=
        ⟨done, k, p, [], stack, s, rfl, hdone, hvs⟩
      exact ⟨.inr ⟨t, ht, rfl, t.hash_bounds⟩, fun _ h => (by cases h)⟩
    | re r i k => exact Value.all_real ((hargs _ List.mem_cons_self).1.append _)
    | im r i k => exact Value.all_real (((hargs _ List.mem_cons_self).2 i rfl).append _)
    | complex r r' i i' k k' =>
      refine ⟨(hargs _ List.mem_cons_self).1.append _, fun d hd => ?_⟩
      obtain rfl := Option.some.inj hd
      exact (hargs _ (List.mem_cons_of_mem _ List.mem_cons_self)).1.append _

/-- A function that computes does not carry. -/
theorem Carries.not_computing {b : Builtin} {k p : Nat} {v : Value}
    (h : Carries stack s (.call b.name k p) v) : b ∉ Builtin.computing := by
  generalize hn : b.name = n at h
  cases h with
  | @call c k p v h =>
    obtain rfl := Builtin.name_injective hn
    generalize (stack.take k).reverse = vs at h
    cases h <;> decide

/-- At every point all numbers are stored ones. -/
theorem Reaches.stored (h : Reaches ⟨.standard, limits, .standard, draws⟩ actions done stack s) :
    Session.AllValues (Value.All (Decimal.Stored ⟨.standard, limits, .standard, draws⟩ done))
      stack s := by
  refine h.allValues (P := fun done => Value.All (Decimal.Stored _ done))
    (fun done a v hv => hv.mono fun d hd => hd.append _) fun done a stack s v _ hdone hall hv => ?_
  rcases hv.doubled_or_carries with hdoubled | hcarries
  · exact hdoubled.mono fun d hd => .inl hd
  · exact hcarries.stored hdone.2 hall

end Action

/-- At every point of a run at standard precision all numbers are doubles, or hashes of strings that
`string` was called with before : those on the stack, where the arguments of the next call are, and
those of the variables. What is carried out at the point yields a value in the place of those that
it takes, or leaves the values and may bind the last one. It yields doubles, or it looks up a
variable or calls `string`, `re`, `im` or `complex` and lets numbers through; so operators, and the
functions that compute, yield doubles. The run ends or fails at a point, with the last value
there. -/
theorem Session.run_doubles {library : Library} (limits : Limits) (draws : Nat → Double)
    (sources : List Text) :
    let rules : Rules := ⟨.standard, limits, .standard, draws⟩
    (∀ done stack s, Action.Reaches rules (plan limits 0 sources) done stack s →
      AllValues (Value.All (Decimal.Stored rules done)) stack s ∧
      ∀ (a : Action) next t, a.perform rules stack s = (.ok next, t) →
        (∃ v, next = v :: stack.drop a.taken ∧ t.bindings = s.bindings ∧
          (v.All Decimal.Doubled ∨ a.Carries stack s v) ∧
          (∀ op p, a = .operator op p → v.All Decimal.Doubled) ∧
          ∀ b ∈ Builtin.computing, ∀ k p, a = .call b.name k p → v.All Decimal.Doubled) ∨
        next = stack ∧ (t.bindings = s.bindings ∨ ∃ index st v, a = .finish index st ∧
          stack.head? = some v ∧ t.bindings = st.form.update v s.bindings)) ∧
    ∃ done stack, Action.Reaches rules (plan limits 0 sources) done stack (run rules sources {}).2 ∧
      AllValues (Value.All (Decimal.Stored rules done)) stack (run rules sources {}).2 ∧
      ∀ v, (run rules sources {}).1 = .ok v →
        stack.head? = some v ∧ v.All (Decimal.Stored rules done) := by
  intro rules
  constructor
  · intro done stack s h
    refine ⟨h.stored, fun a next t ha => ?_⟩
    rcases Action.perform_cases ha with ⟨v, hv, hnext, hbindings⟩ | hkept
    · have hkind := hv.doubled_or_carries
      refine .inl ⟨v, hnext, hbindings, hkind, ?_, ?_⟩
      · rintro op p rfl
        exact hkind.resolve_right nofun
      · rintro b hb k p rfl
        exact hkind.resolve_right fun h => h.not_computing hb
    · exact .inr hkept
  · obtain ⟨done, stack, h, hvalue⟩ := exists_reached rules sources
    exact ⟨done, stack, h, h.stored, fun v hv =>
      ⟨hvalue v hv, h.stored.stack v (List.mem_of_mem_head? (hvalue v hv))⟩⟩

/-- A hash need not be a double. -/
example : ¬ (Decimal.ofInt (Text.hash "a longer string")).Doubled := fun h =>
  absurd h.rounded (by decide +kernel)

end Reckon
