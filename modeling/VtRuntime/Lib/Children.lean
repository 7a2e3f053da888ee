import VtRuntime.Lib.Acyclic
import VtRuntime.Lib.Lists

/-!
# Lists of children

Every node has a list of children.  In a forest a node is in one of these lists at most, and there
once.  What is passed from a node to its children, and on, comes once to every node below it.
-/

namespace VtRuntime.Lib

open List

universe u

variable {N : Type u} {kids : N → List N} {m n p : N}

/-- A node is a child of one node at most, once, and no node is below itself. -/
structure KidForest (kids : N → List N) : Prop where
  nodup : ∀ m, (kids m).Nodup
  parent : ∀ {m m' c}, c ∈ kids m → c ∈ kids m' → m = m'
  acyclic : Acyclic fun c m => c ∈ kids m

open Classical in
/-- Whether `n` is `m` or below it. -/
noncomputable def spans (kids : N → List N) (m n : N) : ℕ :=
  if Relation.ReflTransGen (fun c m => c ∈ kids m) n m then 1 else 0

theorem spans_self (m : N) : spans kids m m = 1 := if_pos .refl

/-- A node without a parent is below no other node. -/
theorem spans_of_top (hn : ∀ p, n ∉ kids p) (hne : n ≠ m) : spans kids m n = 0 := by
  refine if_neg ?_
  intro h
  rcases h.cases_head with rfl | ⟨p, hp, -⟩
  · exact hne rfl
  · exact hn p hp

namespace KidForest

variable (h : KidForest kids)
include h

/-- A node is below those above its parent. -/
theorem spans_kid (hn : n ∈ kids p) (hne : n ≠ m) : spans kids m n = spans kids m p := by
  have hiff : Relation.ReflTransGen (fun c m => c ∈ kids m) n m ↔
      Relation.ReflTransGen (fun c m => c ∈ kids m) p m := by
    constructor
    · intro hnm
      rcases hnm.cases_head with rfl | ⟨q, hq, hqm⟩
      · exact absurd rfl hne
      · rwa [h.parent hn hq]
    · exact .head hn
  classical
  exact if_congr hiff rfl rfl

/-- A parent is not below its child. -/
theorem spans_above (hn : n ∈ kids m) : spans kids n m = 0 := if_neg (h.acyclic.not_reaches hn)

/-- A node spans itself and what its children span. -/
theorem spans_eq [DecidableEq N] (m n : N) :
    spans kids m n = (if m = n then 1 else 0) + ((kids m).map (spans kids · n)).sum := by
  induction n using h.acyclic.induction with
  | hstep n ih =>
    by_cases hmn : n = m
    · subst hmn
      have hzero : ∀ c ∈ kids n, spans kids c n = 0 := fun c hc => h.spans_above hc
      rw [spans_self, if_pos rfl, sum_eq_zero (forall_mem_map.mpr hzero), Nat.add_zero]
    rw [if_neg (Ne.symm hmn), Nat.zero_add]
    by_cases hp : ∃ p, n ∈ kids p
    · obtain ⟨p, hp⟩ := hp
      by_cases hpm : p = m
      · -- the node is one of the children, and the others do not span it
        subst hpm
        have hone : ∀ c ∈ kids p, spans kids c n = if c = n then 1 else 0 := by
          intro c hc
          by_cases hcn : c = n
          · rw [if_pos hcn, hcn, spans_self]
          · rw [if_neg hcn, h.spans_kid hp (Ne.symm hcn), h.spans_above hc]
        rw [h.spans_kid hp hmn, spans_self, map_congr_left hone, sum_map_eq_count,
          count_eq_one_of_mem (h.nodup p) hp]
      · have hsame : ∀ c ∈ kids m, spans kids c n = spans kids c p := by
          intro c hc
          refine h.spans_kid hp ?_
          rintro rfl
          exact hpm (h.parent hp hc)
        rw [h.spans_kid hp hmn, map_congr_left hsame, ih p hp, if_neg (Ne.symm hpm),
          Nat.zero_add]
    · have htop : ∀ p, n ∉ kids p := fun p hmem => hp ⟨p, hmem⟩
      have hzero : ∀ c ∈ kids m, spans kids c n = 0 := by
        intro c hc
        refine spans_of_top htop ?_
        rintro rfl
        exact htop m hc
      rw [spans_of_top htop hmn, sum_eq_zero (forall_mem_map.mpr hzero)]

end KidForest

end VtRuntime.Lib
