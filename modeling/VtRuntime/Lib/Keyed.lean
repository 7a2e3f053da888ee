import VtRuntime.Lib.Sum
import Mathlib.Algebra.BigOperators.Fin
import Mathlib.Data.List.AList

/-!
# Entries with a key

Entries that are put into a map one after the other, and entries that are grouped by a node before
they are sent.
-/

namespace VtRuntime.Lib

open List

universe u v

section Map

variable {α : Type u} {β : Type v} [DecidableEq α]

/-- Put entries into a map.  A later entry replaces an earlier one with the same key. -/
def insertAll (m : AList fun _ : α => β) (l : List (α × β)) : AList fun _ : α => β :=
  l.foldl (fun m p => m.insert p.1 p.2) m

/-- The entries and the map agree with a relation that gives a key one value. -/
theorem lookup_insertAll {R : α → β → Prop} (hR : ∀ k a b, R k a → R k b → a = b)
    {m : AList fun _ : α => β} {l : List (α × β)} (hm : ∀ k v, m.lookup k = some v → R k v)
    (hl : ∀ p ∈ l, R p.1 p.2) (k : α) (v : β) :
    (insertAll m l).lookup k = some v ↔ m.lookup k = some v ∨ (k, v) ∈ l := by
  induction l generalizing m with
  | nil => simp [insertAll]
  | cons p l ih =>
    obtain ⟨a, b⟩ := p
    have hab : R a b := hl (a, b) mem_cons_self
    have hinsert : ∀ k v, (m.insert a b).lookup k = some v ↔
        m.lookup k = some v ∨ (k, v) = (a, b) := by
      intro k v
      by_cases hk : k = a
      · subst hk
        rw [AList.lookup_insert, Option.some_inj, Prod.mk.injEq]
        constructor
        · rintro rfl
          exact .inr ⟨rfl, rfl⟩
        · rintro (hv | ⟨-, rfl⟩)
          · exact hR k b v hab (hm k v hv)
          · rfl
      · rw [AList.lookup_insert_ne hk, Prod.mk.injEq]
        exact ⟨.inl, fun h => h.resolve_right fun h => hk h.1⟩
    have hm' : ∀ k v, (m.insert a b).lookup k = some v → R k v := by
      intro k v hv
      rcases (hinsert k v).mp hv with hv | hv
      · exact hm k v hv
      · obtain ⟨rfl, rfl⟩ := Prod.mk.inj hv
        exact hab
    have hrest := ih hm' fun p hp => hl p (mem_cons_of_mem _ hp)
    rw [insertAll, foldl_cons, ← insertAll, hrest, hinsert, mem_cons, or_assoc]

end Map

variable {N : ℕ} {α : Type u}

/-- The non-empty groups of a list, in the order of their nodes. -/
def groupBy (node : α → Fin N) (l : List α) : List (Fin N × List α) :=
  ((List.finRange N).map fun n => (n, l.filter (node · = n))).filter fun g => !g.2.isEmpty

theorem length_groupBy (node : α → Fin N) (l : List α) : (groupBy node l).length ≤ N := by
  refine (length_filter_le _ _).trans ?_
  rw [length_map, length_finRange]

theorem mem_groupBy {node : α → Fin N} {l : List α} {n : Fin N} {g : List α} :
    (n, g) ∈ groupBy node l ↔ g = l.filter (node · = n) ∧ g ≠ [] := by
  simp only [groupBy, mem_filter, mem_map, mem_finRange, true_and, Prod.mk.injEq,
    Bool.not_eq_true', isEmpty_eq_false_iff]
  constructor
  · rintro ⟨⟨_, rfl, rfl⟩, hne⟩
    exact ⟨rfl, hne⟩
  · rintro ⟨rfl, hne⟩
    exact ⟨⟨n, rfl, rfl⟩, hne⟩

/-- The members of a group are those of the list with its node. -/
theorem node_of_mem_groupBy {node : α → Fin N} {l : List α} {n : Fin N} {g : List α} {a : α}
    (hg : (n, g) ∈ groupBy node l) (ha : a ∈ g) : a ∈ l ∧ node a = n := by
  rw [(mem_groupBy.mp hg).1, mem_filter] at ha
  exact ⟨ha.1, of_decide_eq_true ha.2⟩

theorem exists_mem_groupBy (node : α → Fin N) {l : List α} {a : α} (ha : a ∈ l) :
    ∃ g, (node a, g) ∈ groupBy node l ∧ a ∈ g := by
  have hmem : a ∈ l.filter (node · = node a) := mem_filter.mpr ⟨ha, decide_eq_true rfl⟩
  exact ⟨_, mem_groupBy.mpr ⟨rfl, ne_nil_of_mem hmem⟩, hmem⟩

theorem sum_groupBy (node : α → Fin N) (g : α → ℕ) (l : List α) :
    ((groupBy node l).map fun p => (p.2.map g).sum).sum = (l.map g).sum := by
  rw [← sum_map_filter node g l, Fin.sum_univ_def, groupBy, filter_map, map_map]
  -- The empty groups have no weight.
  induction List.finRange N with
  | nil => rfl
  | cons n nodes ih =>
    by_cases hn : l.filter (node · = n) = []
    · simpa [hn] using ih
    · simpa [hn] using ih

end VtRuntime.Lib
