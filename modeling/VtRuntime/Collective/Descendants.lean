import VtRuntime.Collective.Scatter

/-!
# The number of descendants

`getNumDescendants` of a node counts the nodes below it.  Without an argument it adds up the
numbers of the children of this node and leaves out the children themselves, so it is right on a
leaf only.
-/

namespace VtRuntime.Collective

open Lib VtRuntime.Group List Relation

/-- `Tree::getNumDescendants` without an argument, from the children that `setupTree` stores. -/
def getNumDescendantsHere (numNodes thisNode : ℕ) : ℕ :=
  ((treeChildren numNodes thisNode).map (getNumDescendants numNodes)).sum

/-- The path from `m` to node 0 passes through `n`. -/
def PassesThrough (m n : ℕ) : Prop := ReflTransGen (fun a b => a ≠ 0 ∧ (a - 1) / 2 = b) m n

open Classical in
/-- The other nodes whose path passes through a node. -/
noncomputable def numBelow (numNodes n : ℕ) : ℕ :=
  ((Finset.range numNodes).filter fun m => m ≠ n ∧ PassesThrough m n).card

variable {numNodes m n : ℕ}

theorem passesThrough_iff (hm : m < numNodes) :
    PassesThrough m n ↔ ReflTransGen (fun c m => c ∈ treeChildren numNodes m) m n := by
  constructor
  · intro h
    induction h using ReflTransGen.head_induction_on with
    | refl => exact .refl
    | head hab _ ih =>
      exact .head (mem_treeChildren.mpr ⟨hm, hab.1, hab.2⟩) (ih (by omega))
  · exact ReflTransGen.mono (fun c m hc => (mem_treeChildren.mp hc).2) m n

theorem numBelow_eq (hn : n < numNodes) : numBelow numNodes n = getNumDescendants numNodes n := by
  classical
  have hsum := sum_spans hn
  rw [← Finset.add_sum_erase _ _ (Finset.mem_range.mpr hn), spans_self, Nat.add_comm,
    Nat.add_right_cancel_iff] at hsum
  rw [← hsum, numBelow, Finset.card_filter, ← Finset.add_sum_erase _ _ (Finset.mem_range.mpr hn),
    if_neg (fun h => h.1 rfl), Nat.zero_add]
  refine Finset.sum_congr rfl fun m hm => ?_
  rw [Finset.mem_erase, Finset.mem_range] at hm
  exact if_congr ((and_iff_right hm.1).trans (passesThrough_iff hm.2)) rfl rfl

theorem sum_numBelow (n : ℕ) :
    ((treeChildren numNodes n).map fun c => numBelow numNodes c + 1).sum =
    getNumDescendants numNodes n := by
  rw [getNumDescendants_eq]
  refine congrArg _ (map_congr_left fun c hc => ?_)
  rw [numBelow_eq (mem_treeChildren.mp hc).1]

theorem getNumDescendantsHere_add (numNodes n : ℕ) : getNumDescendantsHere numNodes n +
    (treeChildren numNodes n).length = getNumDescendants numNodes n := by
  rw [getNumDescendants, map_attach_eq_pmap, pmap_eq_map]
  rfl

/-- Both functions are right if and only if the node has no children. -/
theorem numDescendants_iff (hn : n < numNodes) :
    (getNumDescendants numNodes n = numBelow numNodes n ∧
      getNumDescendantsHere numNodes n = numBelow numNodes n ∧
      ((treeChildren numNodes n).map fun c => numBelow numNodes c + 1).sum = numBelow numNodes n) ↔
    numNodes ≤ 2 * n + 1 := by
  have hadd := getNumDescendantsHere_add numNodes n
  have hlen : (treeChildren numNodes n).length = 0 ↔ numNodes ≤ 2 * n + 1 := by
    rw [treeChildren]
    split_ifs <;> simp <;> omega
  rw [sum_numBelow, numBelow_eq hn, ← hlen]
  omega

/-- The leaf 3 of five nodes. -/
theorem numDescendants_leaf : getNumDescendantsHere 5 3 = numBelow 5 3 :=
  ((numDescendants_iff (by decide)).mpr (by decide)).2.1

/-- With two nodes, node 0 counts none below it. -/
theorem numDescendants_two : getNumDescendantsHere 2 0 = 0 ∧ numBelow 2 0 = 1 := by
  have hadd := getNumDescendantsHere_add 2 0
  have hzero : getNumDescendants 2 0 + 1 = 2 := getNumDescendants_zero (by decide)
  have hlen : (treeChildren 2 0).length = 1 := rfl
  rw [numBelow_eq (by decide)]
  omega

end VtRuntime.Collective
