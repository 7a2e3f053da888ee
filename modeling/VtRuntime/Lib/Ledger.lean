import Mathlib.Data.List.Nodup
import Mathlib.Data.List.Perm.Basic

/-!
# Items that are at one place

In a system that neither loses nor copies what is handed around, every item is at one place.  A step
puts an item that is nowhere at a place, takes an item away, or moves it.
-/

namespace VtRuntime.Lib

universe u v

variable {P : Type u} {ι : Type v} {held held' : P → List ι} {x : ι} {q : P}

/-- Every item is at one place at most, and once there. -/
structure Ledger (held : P → List ι) : Prop where
  nodup : ∀ p, (held p).Nodup
  unique : ∀ p q x, x ∈ held p → x ∈ held q → p = q

namespace Ledger

/-- An item that is nowhere is put at a place. -/
theorem put (h : Ledger held) (hx : ∀ p, x ∉ held p) (hq : (held' q).Perm (x :: held q))
    (hrest : ∀ p, p ≠ q → (held' p).Perm (held p)) : Ledger held' := by
  have hmem : ∀ p y, y ∈ held' p → y ∈ held p ∨ p = q ∧ y = x := by
    intro p y hy
    by_cases hp : p = q
    · subst hp
      rcases List.mem_cons.mp (hq.mem_iff.mp hy) with rfl | hy
      · exact .inr ⟨rfl, rfl⟩
      · exact .inl hy
    · exact .inl ((hrest p hp).mem_iff.mp hy)
  constructor
  · intro p
    by_cases hp : p = q
    · subst hp
      exact hq.nodup_iff.mpr (List.nodup_cons.mpr ⟨hx p, h.nodup p⟩)
    · exact (hrest p hp).nodup_iff.mpr (h.nodup p)
  · intro p p' y hy hy'
    rcases hmem p y hy with hy | ⟨rfl, rfl⟩
    · rcases hmem p' y hy' with hy' | ⟨rfl, rfl⟩
      · exact h.unique p p' y hy hy'
      · exact absurd hy (hx p)
    · rcases hmem p' y hy' with hy' | ⟨rfl, -⟩
      · exact absurd hy' (hx p')
      · rfl

/-- An item is taken away from its place. -/
theorem take (h : Ledger held) (hq : (held q).Perm (x :: held' q))
    (hrest : ∀ p, p ≠ q → (held' p).Perm (held p)) : Ledger held' ∧ ∀ p, x ∉ held' p := by
  have hmem : ∀ p y, y ∈ held' p → y ∈ held p := by
    intro p y hy
    by_cases hp : p = q
    · subst hp
      exact hq.mem_iff.mpr (List.mem_cons_of_mem x hy)
    · exact (hrest p hp).mem_iff.mp hy
  refine ⟨⟨?_, fun p p' y hy hy' => h.unique p p' y (hmem p y hy) (hmem p' y hy')⟩, ?_⟩
  · intro p
    by_cases hp : p = q
    · subst hp
      exact (List.nodup_cons.mp (hq.nodup_iff.mp (h.nodup p))).2
    · exact (hrest p hp).nodup_iff.mpr (h.nodup p)
  · intro p hx
    have hp := h.unique p q x (hmem p x hx) (hq.mem_iff.mpr List.mem_cons_self)
    subst hp
    exact (List.nodup_cons.mp (hq.nodup_iff.mp (h.nodup p))).1 hx

end Ledger

end VtRuntime.Lib
