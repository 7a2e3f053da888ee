import Mathlib.Algebra.GroupWithZero.Nat
import Mathlib.Algebra.Order.BigOperators.Group.Finset
import Mathlib.Data.Fintype.BigOperators

/-!
# Totals over the nodes of a system

A step of a distributed system changes the entry of one node, so a total over all
nodes changes by what that entry changes by.
-/

namespace VtRuntime.Lib

open Finset

universe u v

variable {N : Type u} [Fintype N] [DecidableEq N] {M : Type v}

/-- The total after an increase at one index. -/
theorem sum_increase_at [AddCommMonoid M] {f g : N → M} {t : M} (n : N)
    (h : ∀ m, m ≠ n → g m = f m) (hn : g n = t + f n) : ∑ m, g m = t + ∑ m, f m := by
  have hrest : ∑ m ∈ Finset.univ.erase n, g m = ∑ m ∈ Finset.univ.erase n, f m :=
    sum_congr rfl fun m hm => h m (ne_of_mem_erase hm)
  rw [← add_sum_erase _ g (mem_univ n), ← add_sum_erase _ f
    (mem_univ n), hrest, hn, add_assoc]

variable [AddCommGroup M]

/-- The total after a change at one index. -/
theorem sum_change_at {f g : N → M} (n : N) (h : ∀ m, m ≠ n → g m = f m) :
    ∑ m, g m = ∑ m, f m + (g n - f n) := by
  rw [sum_increase_at n h (sub_add_cancel (g n) (f n)).symm, add_comm]

omit [DecidableEq N] in
/-- A pointwise bound with equal totals is attained everywhere. -/
theorem eq_of_sum_le [PartialOrder M] [IsOrderedCancelAddMonoid M] {f g : N → M}
    (h : ∀ m, f m ≤ g m) (hs : ∑ m, g m ≤ ∑ m, f m) (n : N) : f n = g n := by
  have := (sum_eq_sum_iff_of_le fun m _ => h m).mp
    (le_antisymm (sum_le_sum fun m _ => h m) hs)
  exact this n (mem_univ n)

/-- A total over the nodes of a list. -/
theorem sum_ite_mem_list {l : List N} (f : N → ℕ) :
    ∑ n, (if n ∈ l then f n else 0) = ∑ n ∈ l.toFinset, f n := by
  rw [← sum_filter]
  refine sum_congr ?_ fun _ _ => rfl
  ext n
  simp

/-- The groups of a list have the weight of the list. -/
theorem sum_map_filter {α : Type*} (node : α → N) (g : α → ℕ) (l : List α) :
    ∑ n, ((l.filter (node · = n)).map g).sum = (l.map g).sum := by
  induction l with
  | nil => simp
  | cons a l ih =>
    have hsplit : ∀ n, (((a :: l).filter (node · = n)).map g).sum =
        (if node a = n then g a else 0) + ((l.filter (node · = n)).map g).sum := by
      intro n
      by_cases h : node a = n <;> simp [h]
    rw [sum_congr rfl fun n _ => hsplit n, sum_add_distrib, ih]
    simp

end VtRuntime.Lib
