import Mathlib.Algebra.BigOperators.Fin
import Mathlib.Data.Int.ModEq
import Mathlib.Tactic.Ring
import Reckon.Proofs.Number.Range

/-!
# The hash as a polynomial

The hash of a text is the value at `31` of the polynomial that has the code points of the text as
its coefficients (`Text.polynomial`), wrapped to a signed word of 64 bits (`Text.hash_eq_bmod`). To
wrap respects sums and products, so it is all the same how often a hash is wrapped on the way, and
whether to a signed or to an unsigned word, as long as the last word is signed (`Text.hash_wraps`).
-/

namespace Reckon.Text

open Finset

/-- The polynomial of the text at `31` : the last code point counts once, and each one `31` times as
much as the one behind it. -/
def polynomial (t : Text) : Int := ∑ i : Fin t.length, (t[i].val : Int) * 31 ^ (t.length - 1 - i)

theorem polynomial_cons (c : CodePoint) (t : Text) :
    polynomial (c :: t) = c.val * 31 ^ t.length + polynomial t := by
  simp only [polynomial, List.length_cons, Fin.sum_univ_succ]
  simp [Nat.sub_sub, Nat.add_comm]

theorem polynomial_append (s t : Text) :
    polynomial (s ++ t) = s.polynomial * 31 ^ t.length + t.polynomial := by
  induction s with
  | nil => simp [polynomial]
  | cons c s ih =>
    rw [List.cons_append, polynomial_cons, polynomial_cons, ih, List.length_append]
    ring

/-- One more code point is one step of the rolling hash. -/
theorem polynomial_append_singleton (t : Text) (c : CodePoint) :
    polynomial (t ++ [c]) = t.polynomial * 31 + c.val := by
  rw [polynomial_append]
  simp [polynomial]

/-- The unsigned word of a text, wrapped at each code point, is the polynomial wrapped once. -/
theorem word_eq_emod (t : Text) :
    ((t.foldl (fun h c => (h * 31 + c.val) % 2 ^ 64) 0 : Nat) : Int) = t.polynomial % 2 ^ 64 := by
  induction t using List.reverseRecOn with
  | nil => rfl
  | append_singleton t c ih =>
    rw [List.foldl_append, polynomial_append_singleton, List.foldl_cons, List.foldl_nil]
    rw [Int.natCast_emod, Int.natCast_add, Int.natCast_mul, ih]
    exact ((Int.mod_modEq _ _).mul_right 31).add_right _

/-- The hash is the polynomial as a signed word. -/
theorem hash_eq_bmod (t : Text) : t.hash = t.polynomial.bmod (2 ^ 64) := by
  unfold hash
  generalize hw : t.foldl _ 0 = w
  have hword : (w : Int) = t.polynomial % 2 ^ 64 :=
    (congrArg Nat.cast hw.symm).trans (word_eq_emod t)
  simp only [Int.bmod]
  push_cast
  split <;> split <;> omega

/-- The rolling hash that is wrapped to a signed word of 64 bits at each code point. -/
def signedHash (t : Text) : Int := t.foldl (fun h c => Int.bmod (h * 31 + c.val) (2 ^ 64)) 0

theorem signedHash_eq_bmod (t : Text) : t.signedHash = t.polynomial.bmod (2 ^ 64) := by
  induction t using List.reverseRecOn with
  | nil => rfl
  | append_singleton t c ih =>
    rw [signedHash] at ih
    rw [signedHash, List.foldl_append, List.foldl_cons, List.foldl_nil, ih,
      polynomial_append_singleton]
    rw [Int.add_bmod, Int.bmod_mul_bmod, ← Int.add_bmod]

/-- A hash is congruent to the polynomial. -/
theorem hash_modEq (t : Text) : t.hash ≡ t.polynomial [ZMOD 2 ^ 64] := by
  rw [hash_eq_bmod]
  exact Int.bmod_emod

/-- The hash of a text is a signed word of 64 bits that is congruent to the polynomial of the text.
It is what comes of wrapping to a signed word at each code point, and the hash of two texts, one
behind the other, is made of their hashes. -/
theorem hash_wraps (s t : Text) :
    (-2 ^ 63 ≤ t.hash ∧ t.hash < 2 ^ 63) ∧
    t.hash ≡ ∑ i : Fin t.length, (t[i].val : Int) * 31 ^ (t.length - 1 - i) [ZMOD 2 ^ 64] ∧
    t.hash = t.signedHash ∧
    hash (s ++ t) ≡ s.hash * 31 ^ t.length + t.hash [ZMOD 2 ^ 64] := by
  refine ⟨t.hash_bounds, t.hash_modEq, ?_, ?_⟩
  · rw [hash_eq_bmod, signedHash_eq_bmod]
  · calc hash (s ++ t)
        ≡ polynomial (s ++ t) [ZMOD 2 ^ 64] := hash_modEq _
      _ = s.polynomial * 31 ^ t.length + t.polynomial := polynomial_append s t
      _ ≡ s.hash * 31 ^ t.length + t.hash [ZMOD 2 ^ 64] :=
        ((hash_modEq s).symm.mul_right _).add (hash_modEq t).symm

end Reckon.Text
