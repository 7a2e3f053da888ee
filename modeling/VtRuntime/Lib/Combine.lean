import Mathlib.Algebra.BigOperators.Group.Finset.Basic
import Mathlib.Algebra.Group.WithOne.Defs

/-!
# Combining values by an operator

Values are combined from the left by an operator that need not have a neutral element.  If the
operator is associative and commutative, this is a sum with a zero adjoined, so that it depends on
the values only.
-/

namespace VtRuntime.Lib

universe u

variable {α : Type u}

/-- The values of a list, combined by `f` from the left. -/
def combination (f : α → α → α) : List α → Option α
  | [] => none
  | x :: xs => some (xs.foldl f x)

/-- An associative and commutative operator as an addition. -/
abbrev addOf (f : α → α → α) [Std.Associative f] [Std.Commutative f] : AddCommSemigroup α where
  add := f
  add_assoc := Std.Associative.assoc
  add_comm := Std.Commutative.comm

variable [AddCommSemigroup α]

theorem coe_foldl_add (xs : List α) (x : α) :
    ((xs.foldl (· + ·) x : α) : WithZero α) = x + (xs.map WithZero.coe).sum := by
  induction xs generalizing x with
  | nil => simp
  | cons y ys ih => rw [List.foldl_cons, ih, WithZero.coe_add, List.map_cons,
      List.sum_cons, add_assoc]

theorem combination_add (l : List α) : combination (· + ·) l = (l.map WithZero.coe).sum := by
  cases l with
  | nil => rfl
  | cons x xs =>
    rw [List.map_cons, List.sum_cons, ← coe_foldl_add]
    rfl

end VtRuntime.Lib
