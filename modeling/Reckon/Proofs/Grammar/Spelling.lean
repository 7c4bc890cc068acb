import Mathlib.Tactic.Common
import Reckon.Grammar.Reading

/-!
# Canonical trees and their spellings

`Expr.Spelled e ts` says that the tokens `ts` write the tree `e` : its operands in order
with each operator between its two, a parenthesis at both ends of a group and of the
arguments of a call, a comma between two arguments, and the sign of a number as a token of
its own in front of it. Every node has the position of its token. `Expr.lexemes` is the same
without positions.

A tree is canonical (`Expr.Canonical`) if the operands of each operator bind tightly enough
to stand next to it without parentheses : the left one at least as tightly as the operator,
the right one more tightly. There are three levels of operators (`Operator.level`), and all
else binds more tightly than any of them. Spellings alone are ambiguous, but a sequence of
tokens spells at most one canonical tree.
-/

namespace Reckon

/-- The operator that looks like the sign. -/
def Sign.operator : Sign → Operator
  | .plus => .plus
  | .minus => .minus

theorem Operator.eq_operator_of_sign? {op : Operator} {s : Sign} (h : op.sign? = some s) :
    op = s.operator := by
  cases op <;> cases s <;> simp_all [Operator.sign?, Sign.operator]

/-- The sign of a number as lexemes. -/
def Sign.lexemes : Option Sign → List Lexeme
  | none => []
  | some s => [.operator s.operator]

namespace Expr

/-! ## Shape -/

/-- How tightly a tree binds at its root. -/
def level : Expr → Nat
  | .binary op .. => op.level
  | _ => 3

mutual

/-- At each operator the left operand binds at least as tightly and the right one more
tightly. -/
def Canonical : Expr → Prop
  | .number .. => True
  | .string .. => True
  | .variable .. => True
  | .group inner _ => inner.Canonical
  | .binary op left right _ =>
    (op.level ≤ left.level ∧ left.Canonical) ∧ op.level < right.level ∧ right.Canonical
  | .call _ arguments _ => AllCanonical arguments

/-- All of the trees are canonical. -/
def AllCanonical : List Expr → Prop
  | [] => True
  | e :: rest => e.Canonical ∧ AllCanonical rest

end

theorem allCanonical_append_singleton (es : List Expr) (e : Expr) :
    AllCanonical (es ++ [e]) ↔ AllCanonical es ∧ e.Canonical := by
  induction es with
  | nil => simp [AllCanonical]
  | cons f es ih => simp [AllCanonical, ih, and_assoc]

mutual

/-- The greatest number of groups and calls around a place in a tree. -/
def depth : Expr → Nat
  | .number .. => 0
  | .string .. => 0
  | .variable .. => 0
  | .group inner _ => inner.depth + 1
  | .binary _ left right _ => max left.depth right.depth
  | .call _ arguments _ => depthOfAll arguments + 1

/-- The greatest depth of several trees. -/
def depthOfAll : List Expr → Nat
  | [] => 0
  | e :: rest => max e.depth (depthOfAll rest)

end

mutual

/-- The greatest number of arguments of a call in a tree. -/
def width : Expr → Nat
  | .number .. => 0
  | .string .. => 0
  | .variable .. => 0
  | .group inner _ => inner.width
  | .binary _ left right _ => max left.width right.width
  | .call _ arguments _ => max (widthOfAll arguments) arguments.length

/-- The greatest width of several trees. -/
def widthOfAll : List Expr → Nat
  | [] => 0
  | e :: rest => max e.width (widthOfAll rest)

end

mutual

/-- The tree with all positions forgotten. -/
def unplaced : Expr → Expr
  | .number n _ => .number n 0
  | .string v _ => .string v 0
  | .variable n _ => .variable n 0
  | .group inner _ => .group inner.unplaced 0
  | .binary op left right _ => .binary op left.unplaced right.unplaced 0
  | .call n arguments _ => .call n (unplacedAll arguments) 0

/-- The trees with all positions forgotten. -/
def unplacedAll : List Expr → List Expr
  | [] => []
  | e :: rest => e.unplaced :: unplacedAll rest

end

/-! ## Spellings -/

mutual

/-- The lexemes that write a tree. -/
def lexemes : Expr → List Lexeme
  | .number n _ => Sign.lexemes n.sign ++ [.number n.numeral]
  | .string v _ => [.string v]
  | .variable n _ => [.name n]
  | .group inner _ => .left :: inner.lexemes ++ [.right]
  | .binary op left right _ => left.lexemes ++ .operator op :: right.lexemes
  | .call n arguments _ => .name n :: .left :: lexemesOfAll arguments ++ [.right]

/-- The lexemes that write the arguments of a call. -/
def lexemesOfAll : List Expr → List Lexeme
  | [] => []
  | [e] => e.lexemes
  | e :: f :: rest => e.lexemes ++ .comma :: lexemesOfAll (f :: rest)

end

mutual

/-- The tokens write the tree, and its nodes have the positions of their tokens. -/
inductive Spelled : Expr → List Token → Prop
  | number (n : Numeral) (p : Nat) : Spelled (.number ⟨none, n⟩ p) [⟨.number n, p⟩]
  | signed (s : Sign) (n : Numeral) (p q : Nat) :
    Spelled (.number ⟨some s, n⟩ p) [⟨.operator s.operator, p⟩, ⟨.number n, q⟩]
  | string (v : Text) (p : Nat) : Spelled (.string v p) [⟨.string v, p⟩]
  | variable (n : Text) (p : Nat) : Spelled (.variable n p) [⟨.name n, p⟩]
  | group {inner : Expr} {ts : List Token} (p q : Nat) (h : Spelled inner ts) :
    Spelled (.group inner p) (⟨.left, p⟩ :: ts ++ [⟨.right, q⟩])
  | binary {left right : Expr} {ts us : List Token} (op : Operator) (p : Nat)
    (hl : Spelled left ts) (hr : Spelled right us) :
    Spelled (.binary op left right p) (ts ++ ⟨.operator op, p⟩ :: us)
  | call {arguments : List Expr} {ts : List Token} (n : Text) (p q r : Nat)
    (h : AllSpelled arguments ts) :
    Spelled (.call n arguments p) (⟨.name n, p⟩ :: ⟨.left, q⟩ :: ts ++ [⟨.right, r⟩])

/-- The tokens write the arguments of a call. -/
inductive AllSpelled : List Expr → List Token → Prop
  | nil : AllSpelled [] []
  | one {e : Expr} {ts : List Token} (h : Spelled e ts) : AllSpelled [e] ts
  | more {e f : Expr} {rest : List Expr} {ts us : List Token} (p : Nat) (h : Spelled e ts)
    (hs : AllSpelled (f :: rest) us) :
    AllSpelled (e :: f :: rest) (ts ++ ⟨.comma, p⟩ :: us)

end

mutual

/-- A spelling without positions is the lexemes of the tree. -/
theorem Spelled.map_lexeme : ∀ {e : Expr} {ts : List Token}, e.Spelled ts →
    ts.map Token.lexeme = e.lexemes
  | .number .., _, h => by cases h <;> rfl
  | .string .., _, h => by cases h; rfl
  | .variable .., _, h => by cases h; rfl
  | .group .., _, h => by
    cases h with
    | group p q h => simp [lexemes, h.map_lexeme]
  | .binary .., _, h => by
    cases h with
    | binary op p hl hr => simp [lexemes, hl.map_lexeme, hr.map_lexeme]
  | .call .., _, h => by
    cases h with
    | call n p q r h => simp [lexemes, h.map_lexeme]

theorem AllSpelled.map_lexeme : ∀ {es : List Expr} {ts : List Token}, AllSpelled es ts →
    ts.map Token.lexeme = lexemesOfAll es
  | [], _, h => by cases h; rfl
  | [_], _, h => by
    cases h with
    | one h => simp [lexemesOfAll, h.map_lexeme]
  | _ :: _ :: _, _, h => by
    cases h with
    | more p h hs => simp [lexemesOfAll, h.map_lexeme, hs.map_lexeme]

end

/-- One more argument behind a comma. -/
theorem AllSpelled.append_singleton {e : Expr} {us : List Token} (p : Nat) (he : e.Spelled us) :
    ∀ {es : List Expr} {ts : List Token}, AllSpelled es ts → es ≠ [] →
      AllSpelled (es ++ [e]) (ts ++ ⟨.comma, p⟩ :: us)
  | [], _, _, hne => (hne rfl).elim
  | [_], _, h, _ => by
    cases h with
    | one h => exact .more p h (.one he)
  | _ :: _ :: _, _, h, _ => by
    cases h with
    | more q h hs =>
      have := hs.append_singleton p he (by simp)
      simpa using .more q h this

/-- A spelling starts with a token, and not with a closing parenthesis. -/
theorem Spelled.exists_cons : ∀ {e : Expr} {ts : List Token}, e.Spelled ts →
    ∃ t rest, ts = t :: rest ∧ t.lexeme ≠ .right
  | .number .., _, h => by cases h <;> simp
  | .string .., _, h => by cases h; simp
  | .variable .., _, h => by cases h; simp
  | .group .., _, h => by cases h; simp
  | .binary .., _, h => by
    cases h with
    | binary op p hl hr =>
      obtain ⟨t, rest, rfl, ht⟩ := hl.exists_cons
      exact ⟨t, _, rfl, ht⟩
  | .call .., _, h => by cases h; simp

theorem AllSpelled.exists_cons {e : Expr} {es : List Expr} {ts : List Token}
    (h : AllSpelled (e :: es) ts) : ∃ t rest, ts = t :: rest ∧ t.lexeme ≠ .right := by
  cases h with
  | one h => exact h.exists_cons
  | more p h hs =>
    obtain ⟨t, rest, rfl, ht⟩ := h.exists_cons
    exact ⟨t, _, rfl, ht⟩

/-- Tokens whose lexemes start with a given one can be cut behind it. -/
theorem exists_of_map_eq_cons {ts : List Token} {l : Lexeme} {ls : List Lexeme}
    (h : ts.map Token.lexeme = l :: ls) :
    ∃ p us, ts = ⟨l, p⟩ :: us ∧ us.map Token.lexeme = ls := by
  obtain ⟨t, us, rfl, rfl, hu⟩ := List.map_eq_cons_iff.1 h
  exact ⟨t.position, us, rfl, hu⟩

/-- Tokens that write a single lexeme are a single token. -/
theorem exists_of_map_eq_singleton {ts : List Token} {l : Lexeme}
    (h : ts.map Token.lexeme = [l]) : ∃ p, ts = [⟨l, p⟩] := by
  obtain ⟨p, us, rfl, hu⟩ := exists_of_map_eq_cons h
  exact ⟨p, by rw [List.map_eq_nil_iff.1 hu]⟩

/-- Tokens whose lexemes have a given one in the middle can be cut around it. -/
theorem exists_of_map_eq_append_cons {ts : List Token} {ls ms : List Lexeme} {l : Lexeme}
    (h : ts.map Token.lexeme = ls ++ l :: ms) :
    ∃ us p vs, ts = us ++ ⟨l, p⟩ :: vs ∧ us.map Token.lexeme = ls ∧
      vs.map Token.lexeme = ms := by
  obtain ⟨us, ws, rfl, hu, hw⟩ := List.map_eq_append_iff.1 h
  obtain ⟨p, vs, rfl, hv⟩ := exists_of_map_eq_cons hw
  exact ⟨us, p, vs, rfl, hu, hv⟩

/-- Tokens whose lexemes end with a given one can be cut in front of it. -/
theorem exists_of_map_eq_append_singleton {ts : List Token} {ls : List Lexeme} {l : Lexeme}
    (h : ts.map Token.lexeme = ls ++ [l]) :
    ∃ us p, ts = us ++ [⟨l, p⟩] ∧ us.map Token.lexeme = ls := by
  obtain ⟨us, p, vs, rfl, hu, hv⟩ := exists_of_map_eq_append_cons h
  exact ⟨us, p, by rw [List.map_eq_nil_iff.1 hv], hu⟩

mutual

/-- The lexemes of a tree at any positions spell a tree that differs in positions only. -/
theorem exists_spelled : ∀ (e : Expr) {ts : List Token}, ts.map Token.lexeme = e.lexemes →
    ∃ e' : Expr, e'.unplaced = e.unplaced ∧ e'.Spelled ts
  | .number ⟨none, n⟩ _, ts, h => by
    obtain ⟨p, rfl⟩ := exists_of_map_eq_singleton h
    exact ⟨.number ⟨none, n⟩ p, rfl, .number n p⟩
  | .number ⟨some s, n⟩ _, ts, h => by
    obtain ⟨p, us, rfl, hu⟩ := exists_of_map_eq_cons h
    obtain ⟨q, rfl⟩ := exists_of_map_eq_singleton hu
    exact ⟨.number ⟨some s, n⟩ p, rfl, .signed s n p q⟩
  | .string v _, ts, h => by
    obtain ⟨p, rfl⟩ := exists_of_map_eq_singleton h
    exact ⟨.string v p, rfl, .string v p⟩
  | .variable n _, ts, h => by
    obtain ⟨p, rfl⟩ := exists_of_map_eq_singleton h
    exact ⟨.variable n p, rfl, .variable n p⟩
  | .group inner _, ts, h => by
    obtain ⟨p, us, rfl, hu⟩ := exists_of_map_eq_cons h
    obtain ⟨vs, q, rfl, hv⟩ := exists_of_map_eq_append_singleton hu
    obtain ⟨inner', hi, hs⟩ := exists_spelled inner hv
    exact ⟨.group inner' p, by simp [unplaced, hi], .group p q hs⟩
  | .binary op left right _, ts, h => by
    obtain ⟨us, p, vs, rfl, hu, hv⟩ := exists_of_map_eq_append_cons h
    obtain ⟨left', hl, hsl⟩ := exists_spelled left hu
    obtain ⟨right', hr, hsr⟩ := exists_spelled right hv
    exact ⟨.binary op left' right' p, by simp [unplaced, hl, hr], .binary op p hsl hsr⟩
  | .call n arguments _, ts, h => by
    obtain ⟨p, us, rfl, hu⟩ := exists_of_map_eq_cons h
    obtain ⟨q, vs, rfl, hv⟩ := exists_of_map_eq_cons hu
    obtain ⟨ws, r, rfl, hw⟩ := exists_of_map_eq_append_singleton hv
    obtain ⟨arguments', ha, hs⟩ := exists_allSpelled arguments hw
    exact ⟨.call n arguments' p, by simp [unplaced, ha], .call n p q r hs⟩

theorem exists_allSpelled : ∀ (es : List Expr) {ts : List Token},
    ts.map Token.lexeme = lexemesOfAll es →
    ∃ es' : List Expr, unplacedAll es' = unplacedAll es ∧ AllSpelled es' ts
  | [], ts, h => by
    obtain rfl := List.map_eq_nil_iff.1 h
    exact ⟨[], rfl, .nil⟩
  | [e], ts, h => by
    obtain ⟨e', he, hs⟩ := exists_spelled e h
    exact ⟨[e'], by simp [unplacedAll, he], .one hs⟩
  | e :: f :: rest, ts, h => by
    obtain ⟨us, p, vs, rfl, hu, hv⟩ := exists_of_map_eq_append_cons h
    obtain ⟨e', he, hs⟩ := exists_spelled e hu
    obtain ⟨es', hes, hss⟩ := exists_allSpelled (f :: rest) hv
    -- The trees behind the comma are as many as before, so there is a first one.
    obtain ⟨f', rest', rfl⟩ : ∃ f' rest', es' = f' :: rest' := by
      cases es' with
      | nil => simp [unplacedAll] at hes
      | cons f' rest' => exact ⟨f', rest', rfl⟩
    exact ⟨e' :: f' :: rest', by rw [unplacedAll, he, hes]; rfl, .more p hs hss⟩

end

end Expr

/-! ## Statements -/

/-- The tokens in front of the expression give a statement its form. -/
inductive Form.Opens : Form → List Token → Prop
  | bare : Form.Opens .bare []
  | result (p : Nat) : Form.Opens .result [⟨.result, p⟩]
  | define (n : Text) (p q : Nat) : Form.Opens (.binding n) [⟨.name n, p⟩, ⟨.define, q⟩]
  | equals (n : Text) (p q : Nat) : Form.Opens (.binding n) [⟨.name n, p⟩, ⟨.equals, q⟩]

/-- The tokens write the statement. -/
def Statement.Spelled (st : Statement) (ts : List Token) : Prop :=
  ∃ us vs, ts = us ++ vs ∧ st.form.Opens us ∧ st.expression.Spelled vs

end Reckon
