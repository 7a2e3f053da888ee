import Mathlib.Data.List.Nodup
import Mathlib.Logic.Relation

/-!
# Walks in a graph

A graph is given by the list of successors of each vertex.  A walk is the list of the vertices that
it visits.
-/

namespace VtRuntime.Lib

open List Relation

universe u

variable {R : Type u}

/-- The edges of the graph. -/
def Edge (succ : R → List R) (r s : R) : Prop := s ∈ succ r

/-- The vertices that a walk from `r` visits. -/
inductive Walk (succ : R → List R) : R → List R → Prop
  | single (r : R) : Walk succ r [r]
  | cons {r s : R} {l : List R} : s ∈ succ r → Walk succ s l → Walk succ r (r :: l)

variable {succ : R → List R} {r s : R} {l : List R}

namespace Walk

theorem reaches (h : Walk succ r l) (hs : s ∈ l) : ReflTransGen (Edge succ) r s := by
  induction h with
  | single r =>
    rw [mem_singleton.mp hs]
  | cons hedge _ ih =>
    rcases mem_cons.mp hs with rfl | hs
    · exact .refl
    · exact .head hedge (ih hs)

/-- A walk that visits a vertex twice has gone round a cycle. -/
theorem exists_cycle (h : Walk succ r l) (hl : ¬ l.Nodup) :
    ∃ s, ReflTransGen (Edge succ) r s ∧ TransGen (Edge succ) s s := by
  induction h with
  | single r => exact absurd (nodup_singleton r) hl
  | @cons r s l hedge hwalk ih =>
    by_cases hr : r ∈ l
    · exact ⟨r, .refl, .head' hedge (hwalk.reaches hr)⟩
    · obtain ⟨t, ht, hcycle⟩ := ih fun hnodup => hl (nodup_cons.mpr ⟨hr, hnodup⟩)
      exact ⟨t, .head hedge ht, hcycle⟩

end Walk

theorem exists_walk (h : ReflTransGen (Edge succ) r s) : ∃ l, Walk succ r l ∧ s ∈ l := by
  induction h using ReflTransGen.head_induction_on with
  | refl => exact ⟨[s], .single s, mem_singleton_self s⟩
  | head hedge _ ih =>
    obtain ⟨l, hl, hs⟩ := ih
    exact ⟨_ :: l, .cons hedge hl, mem_cons_of_mem _ hs⟩

theorem exists_walk_not_nodup_iff : (∃ l, Walk succ r l ∧ ¬ l.Nodup) ↔
    ∃ s, ReflTransGen (Edge succ) r s ∧ TransGen (Edge succ) s s := by
  constructor
  · rintro ⟨l, hwalk, hl⟩
    exact hwalk.exists_cycle hl
  · rintro ⟨s, hs, hcycle⟩
    induction hs using ReflTransGen.head_induction_on with
    | refl =>
      obtain ⟨t, hst, hts⟩ := TransGen.head'_iff.mp hcycle
      obtain ⟨l, hwalk, hmem⟩ := exists_walk hts
      exact ⟨s :: l, .cons hst hwalk, fun hnodup => (nodup_cons.mp hnodup).1 hmem⟩
    | head hedge _ ih =>
      obtain ⟨l, hwalk, hl⟩ := ih
      exact ⟨_ :: l, .cons hedge hwalk, fun hnodup => hl (nodup_cons.mp hnodup).2⟩

end VtRuntime.Lib
