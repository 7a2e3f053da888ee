import VtRuntime.Lib.Sum
import Mathlib.Algebra.Order.Field.Basic
import Mathlib.Algebra.BigOperators.Field

/-!
# List scheduling

Jobs are placed one after the other, each on a machine that has least load.  No machine is then
loaded much above the average.
-/

namespace VtRuntime.Lib

open Function

universe u v

variable {N : Type u} [Fintype N] {K : Type v} [Field K]

/-- The average load of the machines. -/
def average (f : N → K) : K := (∑ n, f n) / Fintype.card N

variable [LinearOrder K] [IsStrictOrderedRing K]

/-- A least load is at most the average. -/
theorem le_average {f : N → K} {n : N} (h : ∀ m, f n ≤ f m) : f n ≤ average f := by
  have hpos : (0 : K) < Fintype.card N := by
    exact_mod_cast Fintype.card_pos_iff.mpr ⟨n⟩
  rw [average, le_div_iff₀ hpos, mul_comm, ← nsmul_eq_mul, ← Finset.card_univ]
  exact Finset.card_nsmul_le_sum _ _ _ fun m _ => h m

theorem average_mono {f g : N → K} (h : ∀ m, f m ≤ g m) : average f ≤ average g :=
  div_le_div_of_nonneg_right (Finset.sum_le_sum fun m _ => h m) (Nat.cast_nonneg _)

variable [DecidableEq N]

/-- A job of length `w` is placed on a machine of least load.  The bound for the loads is a load `B`
that a machine had at the start, or the average and the length `L` of a longest job. -/
theorem place_le {f : N → K} {n : N} {w B L : K} (hf : ∀ m, f m ≤ max B (average f + L))
    (hmin : ∀ m, f n ≤ f m) (hw : 0 ≤ w) (hL : w ≤ L) (m : N) :
    update f n (f n + w) m ≤
      max B (average (update f n (f n + w)) + L) := by
  have hle : ∀ m, f m ≤ update f n (f n + w) m := by
    refine (forall_update_iff _ fun m x => f m ≤ x).mpr ⟨?_, fun _ _ => le_rfl⟩
    exact le_add_of_nonneg_right hw
  have havg : average f ≤ average (update f n (f n + w)) := average_mono hle
  by_cases hm : m = n
  · subst hm
    rw [update_self]
    exact le_max_of_le_right (add_le_add ((le_average hmin).trans havg) hL)
  · rw [update_of_ne hm]
    exact (hf m).trans (max_le_max le_rfl (add_le_add havg le_rfl))

end VtRuntime.Lib
