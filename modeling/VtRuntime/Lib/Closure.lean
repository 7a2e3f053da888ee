import Mathlib.Data.Set.Card

/-!
# Successors and their closure

A relation in which the successors of one point change, as an adjacency list does when an edge is
added or dropped.

## Main results

* `transGen_reduce` — an edge may be dropped when another edge and one of its target imply it.
* `ncard_change` — how the number of points with a property changes with one point.
-/

namespace VtRuntime.Lib

universe u

variable {α : Type u}

/-- The edge from `p` to `s` is added, and those edges from `p` are dropped that `s` has as well. -/
theorem transGen_reduce {R R' : α → α → Prop} {p s : α} (hne : p ≠ s)
    (hother : ∀ x y, x ≠ p → (R' x y ↔ R x y)) (hp : ∀ y, R' p y ↔ y = s ∨ R p y ∧ ¬ R s y) :
    Relation.TransGen R' = Relation.TransGen fun x y => R x y ∨ x = p ∧ y = s := by
  have hnew : R' p s := (hp s).mpr (.inl rfl)
  apply le_antisymm
  · apply Relation.TransGen.mono
    intro x y hxy
    by_cases hx : x = p
    · subst hx
      obtain rfl | ⟨hR, -⟩ := (hp y).mp hxy
      · exact .inr ⟨rfl, rfl⟩
      · exact .inl hR
    · exact .inl ((hother x y hx).mp hxy)
  · apply Relation.TransGen.lift' id
    rintro x y (hR | ⟨rfl, rfl⟩)
    · by_cases hx : x = p
      · subst hx
        by_cases hs : R s y
        -- the dropped edge is the path through the new successor
        · exact .tail (.single hnew) ((hother s y hne.symm).mpr hs)
        · exact .single ((hp y).mpr (.inr ⟨hR, hs⟩))
      · exact .single ((hother x y hx).mpr hR)
    · exact .single hnew

/-- Two properties that differ at one point at most. -/
theorem ncard_change [Finite α] {P Q : α → Prop} [DecidablePred P] [DecidablePred Q] (p : α)
    (h : ∀ x, x ≠ p → (Q x ↔ P x)) :
    ((Set.ncard {x | Q x} : ℕ) : ℤ) =
      (Set.ncard {x | P x} : ℕ) + ((if Q p then 1 else 0) - if P p then 1 else 0) := by
  have hrest : {x | Q x} \ {p} = {x | P x} \ {p} := by
    ext x
    simp only [Set.mem_sdiff, Set.mem_ofPred_eq, Set.mem_singleton_iff]
    exact and_congr_left fun hx => h x hx
  have hcount : ∀ (S : α → Prop) [DecidablePred S], ((Set.ncard {x | S x} : ℕ) : ℤ) =
      (Set.ncard ({x | S x} \ {p}) : ℕ) + if S p then 1 else 0 := by
    intro S _
    split
    · next hS => exact_mod_cast (Set.ncard_sdiff_singleton_add_one (s := {x | S x}) hS).symm
    · next hS =>
      rw [Set.sdiff_singleton_eq_self (by simpa using hS)]
      simp
  rw [hcount Q, hcount P, hrest]
  omega

end VtRuntime.Lib
