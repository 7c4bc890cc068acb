import Reckon.Value

/-!
# Environments

An environment binds names to values and lists them in the order of their code points. What
is looked up after a binding is that binding, and every other name is as before
(`get?_bind_self`, `get?_bind_of_ne`).
-/

namespace Reckon

/-- Names bound to values, in the order of the names. -/
abbrev Environment := List (Text × Value)

namespace Environment

/-- The value of a name. -/
def get? (env : Environment) (name : Text) : Option Value := env.lookup name

/-- The environment with one more binding, or with a changed one. -/
def bind (name : Text) (value : Value) : Environment → Environment
  | [] => [(name, value)]
  | (n, v) :: rest =>
    if n = name then (name, value) :: rest
    else if name.precedes n then (name, value) :: (n, v) :: rest
    else (n, v) :: bind name value rest

theorem get?_nil (name : Text) : get? [] name = none := rfl

theorem get?_cons (n : Text) (v : Value) (rest : Environment) (name : Text) :
    get? ((n, v) :: rest) name = if name = n then some v else get? rest name := by
  unfold get?
  rw [List.lookup_cons]
  by_cases h : name = n
  · simp [h]
  · simp [h, beq_eq_false_iff_ne.mpr h]

theorem get?_bind_self (env : Environment) (name : Text) (value : Value) :
    (env.bind name value).get? name = some value := by
  induction env with
  | nil => simp [bind, get?_cons]
  | cons p rest ih =>
    obtain ⟨n, v⟩ := p
    unfold bind
    split
    · simp [get?_cons]
    · split
      · simp [get?_cons]
      · rename_i h _
        rw [get?_cons, if_neg (Ne.symm h), ih]

theorem get?_bind_of_ne (env : Environment) {name other : Text} (value : Value)
    (h : other ≠ name) : (env.bind name value).get? other = env.get? other := by
  induction env with
  | nil => simp [bind, get?_cons, h, get?_nil]
  | cons p rest ih =>
    obtain ⟨n, v⟩ := p
    unfold bind
    split
    · rename_i hn
      subst hn
      simp [get?_cons, h]
    · split
      · rw [get?_cons, if_neg h]
      · rw [get?_cons, get?_cons, ih]

end Environment

end Reckon
