import Reckon.Proofs.Source.Place

/-!
# Calls in trees and in their tokens

A name with an opening parenthesis behind it is the start of a call. So if the two are neighbours
among the tokens of a statement, its tree has the call in it, and the tokens behind the two are
those of the arguments and of the parenthesis that closes them (`Statement.Spelled.exists_call`). If
these are a string and a closing parenthesis, the string is the only argument, for no tree starts
with a string and goes on with what closes more than the tree opens (`Expr.AllSpelled.eq_string`).
-/

namespace Reckon

/-- Two neighbours in a list of two parts are in the first part, between the parts, or in the second
part. -/
theorem cases_neighbours {α : Type} {x y : α} {l m us vs : List α}
    (h : us ++ vs = l ++ x :: y :: m) :
    (∃ k, us = l ++ x :: y :: k ∧ m = k ++ vs) ∨ (us = l ++ [x] ∧ vs = y :: m) ∨
      ∃ k, vs = k ++ x :: y :: m := by
  rcases List.append_eq_append_iff.1 h with ⟨k, -, hk⟩ | ⟨k, hk, hvs⟩
  · exact .inr (.inr ⟨k, hk⟩)
  rcases k with - | ⟨z, - | ⟨w, k⟩⟩
  · exact .inr (.inr ⟨[], hvs.symm⟩)
  · obtain ⟨rfl, htail⟩ := List.cons.inj hvs
    exact .inr (.inl ⟨hk, htail.symm⟩)
  · obtain ⟨rfl, htail⟩ := List.cons.inj hvs
    obtain ⟨rfl, hm⟩ := List.cons.inj htail
    exact .inl ⟨k, hk, hm⟩

namespace Expr

mutual

/-- The trees in a tree, and the tree itself. -/
def subtrees : Expr → List Expr
  | .number n p => [.number n p]
  | .string v p => [.string v p]
  | .variable n p => [.variable n p]
  | .group inner p => .group inner p :: inner.subtrees
  | .binary op left right p => .binary op left right p :: (left.subtrees ++ right.subtrees)
  | .call n arguments p => .call n arguments p :: subtreesOfAll arguments

/-- The trees in several trees. -/
def subtreesOfAll : List Expr → List Expr
  | [] => []
  | e :: rest => e.subtrees ++ subtreesOfAll rest

end

/-- Among the trees is a call of the name at the position, and the tokens start with those of its
arguments and of the closing parenthesis. -/
def Calls (n : Text) (p : Nat) (trees : List Expr) (ts : List Token) : Prop :=
  ∃ arguments us r vs, .call n arguments p ∈ trees ∧ AllSpelled arguments us ∧
    ts = us ++ ⟨.right, r⟩ :: vs

theorem Calls.mono {n : Text} {p : Nat} {trees trees' : List Expr} {ts : List Token}
    (h : Calls n p trees ts) (hsub : trees ⊆ trees') : Calls n p trees' ts :=
  let ⟨arguments, us, r, vs, hcall, hs⟩ := h
  ⟨arguments, us, r, vs, hsub hcall, hs⟩

theorem Calls.append {n : Text} {p : Nat} {trees : List Expr} {ts : List Token}
    (h : Calls n p trees ts) (more : List Token) : Calls n p trees (ts ++ more) := by
  obtain ⟨arguments, us, r, vs, hcall, hs, rfl⟩ := h
  exact ⟨arguments, us, r, vs ++ more, hcall, hs, by simp⟩

mutual

/-- A name and a parenthesis among the tokens of a tree start a call in the tree. -/
theorem Spelled.exists_call : ∀ {e : Expr} {ts l m : List Token} {n : Text} {p q : Nat},
    e.Spelled ts → ts = l ++ ⟨.name n, p⟩ :: ⟨.left, q⟩ :: m → Calls n p e.subtrees m
  | .number .., _, l, _, _, _, _, h, heq => by
    cases h with
    | number => rcases l with - | ⟨_, - | _⟩ <;> cases heq
    | signed => rcases l with - | ⟨_, - | ⟨_, - | _⟩⟩ <;> cases heq
  | .string .., _, l, _, _, _, _, h, heq => by
    cases h
    rcases l with - | ⟨_, - | _⟩ <;> cases heq
  | .variable .., _, l, _, _, _, _, h, heq => by
    cases h
    rcases l with - | ⟨_, - | _⟩ <;> cases heq
  | .group inner _, _, l, m, _, _, _, h, heq => by
    cases h with
    | group p q h =>
      rcases cases_neighbours heq with ⟨k, hk, rfl⟩ | ⟨-, hright⟩ | ⟨k, hk⟩
      · rcases l with - | ⟨_, l⟩
        · cases hk
        · exact ((h.exists_call (List.cons.inj hk).2).mono (List.subset_cons_self ..)).append _
      · cases hright
      · rcases k with - | ⟨_, - | _⟩ <;> cases hk
  | .binary _ left right _, _, l, m, _, _, _, h, heq => by
    cases h with
    | binary op p hl hr =>
      rcases cases_neighbours heq with ⟨k, hk, rfl⟩ | ⟨-, hop⟩ | ⟨k, hk⟩
      · exact ((hl.exists_call hk).mono
          (List.subset_cons_of_subset _ (List.subset_append_left ..))).append _
      · cases hop
      · rcases k with - | ⟨_, k⟩
        · cases hk
        · exact (hr.exists_call (List.cons.inj hk).2).mono
            (List.subset_cons_of_subset _ (List.subset_append_right ..))
  | .call .., _, l, m, _, _, _, h, heq => by
    cases h with
    | call n p q r h =>
      rcases l with - | ⟨_, - | ⟨_, l⟩⟩
      · obtain ⟨hname, hrest⟩ := List.cons.inj heq
        obtain ⟨hn, rfl⟩ := Token.mk.inj hname
        obtain rfl := Lexeme.name.inj hn
        exact ⟨_, _, _, [], List.mem_cons_self, h, (List.cons.inj hrest).2.symm⟩
      · cases heq
      · have hrest := (List.cons.inj (List.cons.inj heq).2).2
        rcases cases_neighbours hrest with ⟨k, hk, rfl⟩ | ⟨-, hright⟩ | ⟨k, hk⟩
        · exact ((h.exists_call hk).mono (List.subset_cons_self ..)).append _
        · cases hright
        · rcases k with - | ⟨_, - | _⟩ <;> cases hk

theorem AllSpelled.exists_call : ∀ {es : List Expr} {ts l m : List Token} {n : Text} {p q : Nat},
    AllSpelled es ts → ts = l ++ ⟨.name n, p⟩ :: ⟨.left, q⟩ :: m → Calls n p (subtreesOfAll es) m
  | [], _, l, _, _, _, _, h, heq => by
    cases h
    rcases l with - | ⟨_, - | _⟩ <;> cases heq
  | [e], _, l, m, _, _, _, h, heq => by
    cases h with
    | one h => exact (h.exists_call heq).mono (List.subset_append_left ..)
  | e :: f :: rest, _, l, m, _, _, _, h, heq => by
    cases h with
    | more p h hs =>
      rcases cases_neighbours heq with ⟨k, hk, rfl⟩ | ⟨-, hcomma⟩ | ⟨k, hk⟩
      · exact ((h.exists_call hk).mono (List.subset_append_left ..)).append _
      · cases hcomma
      · rcases k with - | ⟨_, k⟩
        · cases hk
        · exact (hs.exists_call (List.cons.inj hk).2).mono (List.subset_append_right ..)

end

/-- A tree that starts with a string is the string, or does not go on with a closing parenthesis. -/
theorem Spelled.string_or {e : Expr} {v : Text} {p : Nat} {ts : List Token}
    (h : e.Spelled (⟨.string v, p⟩ :: ts)) :
    (ts = [] ∧ e = .string v p) ∨ ∃ t ts', ts = t :: ts' ∧ t.lexeme ≠ .right := by
  rcases ts with - | ⟨t, ts⟩
  · refine .inl ⟨rfl, ?_⟩
    generalize hts : [(⟨.string v, p⟩ : Token)] = ts at h
    cases h with
    | string => cases hts; rfl
    | binary op q hl hr =>
      obtain ⟨t, rest, rfl, -⟩ := hl.exists_cons
      rcases rest with - | _ <;> cases hts
    | _ => cases hts
  · refine .inr ⟨t, ts, rfl, fun hright => ?_⟩
    have hdepth := Place.foldlM_lexemes e 0
    rw [← h.map_lexeme, List.map_cons, List.map_cons, hright] at hdepth
    cases hdepth

/-- If the tokens of arguments and the parenthesis behind them start with a string and a closing
parenthesis, the string is the only argument. -/
theorem AllSpelled.eq_string {arguments : List Expr} {us vs ws : List Token} {v : Text}
    {p q r : Nat} (h : AllSpelled arguments us)
    (heq : us ++ ⟨.right, r⟩ :: vs = ⟨.string v, p⟩ :: ⟨.right, q⟩ :: ws) :
    arguments = [.string v p] := by
  cases h with
  | nil => cases heq
  | one h =>
    obtain ⟨t, us, rfl, -⟩ := h.exists_cons
    obtain ⟨rfl, hrest⟩ := List.cons.inj heq
    rcases h.string_or with ⟨-, rfl⟩ | ⟨t, ts, rfl, ht⟩
    · rfl
    · exact (ht (congrArg Token.lexeme (List.cons.inj hrest).1)).elim
  | more c h hs =>
    obtain ⟨t, us, rfl, -⟩ := h.exists_cons
    obtain ⟨rfl, hrest⟩ := List.cons.inj heq
    rcases h.string_or with ⟨rfl, -⟩ | ⟨t, ts, rfl, ht⟩
    · cases hrest
    · exact (ht (congrArg Token.lexeme (List.cons.inj hrest).1)).elim

end Expr

/-- A name and a parenthesis among the tokens of a statement start a call in its tree. -/
theorem Statement.Spelled.exists_call {st : Statement} {l m : List Token} {n : Text} {p q : Nat}
    (h : st.Spelled (l ++ ⟨.name n, p⟩ :: ⟨.left, q⟩ :: m)) :
    Expr.Calls n p st.expression.subtrees m := by
  obtain ⟨form, e, text⟩ := st
  obtain ⟨us, vs, heq, hform, he⟩ := h
  rcases cases_neighbours heq.symm with ⟨k, rfl, -⟩ | ⟨rfl, -⟩ | ⟨k, rfl⟩
  · generalize hl : l ++ ⟨.name n, p⟩ :: ⟨.left, q⟩ :: k = us at hform
    cases hform <;> rcases l with - | ⟨_, - | ⟨_, - | _⟩⟩ <;> cases hl
  · generalize hl : l ++ [(⟨.name n, p⟩ : Token)] = us at hform
    cases hform <;> rcases l with - | ⟨_, - | ⟨_, - | _⟩⟩ <;> cases hl
  · exact he.exists_call rfl

end Reckon
