import Mathlib.Data.Int.ConditionallyCompleteOrder
import Mathlib.Data.Int.Interval
import Mathlib.Data.List.Monad
import Mathlib.Order.ConditionallyCompleteLattice.Basic

/-!
# The tree of the hierarchical balancer

Every node computes its parent and its children in a binary tree of all nodes.  A node that has no
children in the tree has final children instead: every node is a final child of one of these, its
bottom parent, and starts by reporting to it.

Node numbers have 16 bits.  They are integers here, narrowed where the source stores them.

The tree is right for an even number of nodes below 2 ^ 14.  If the number of nodes is odd the
bottom parent of the last node is one past the last node.  From 2 ^ 14 nodes on, the number of a
child overflows on node 2 ^ 14 - 1, which then has a child with a negative number.
-/

namespace VtRuntime.Balance

open Finset

/-- The value of a variable of type `NodeType`, a signed integer of 16 bits. -/
def narrow (x : ℤ) : ℤ := x.bmod (2 ^ 16)

def hierlbNary : ℕ := 2

def hierlbRoot : ℤ := 0

/-- What `setupTree` computes.  A child comes with `final_child`. -/
structure HierNode where
  parent : ℤ
  bottomParent : ℤ
  children : List (ℤ × Bool)

/-- An entry is made if the key is new. -/
def emplace (children : List (ℤ × Bool)) (child : ℤ) (finalChild : Bool) : List (ℤ × Bool) :=
  if child ∈ children.map Prod.fst then children else children ++ [(child, finalChild)]

/-- The number of nodes, rounded up. -/
def factor (numNodes : ℤ) : ℤ :=
  let factor := narrow (numNodes.tdiv hierlbNary * hierlbNary)
  if factor < numNodes then narrow (factor + hierlbNary) else factor

variable (numNodes thisNode : ℤ)

/-- The children of a node in the tree. -/
def treeChildren : List (ℤ × Bool) :=
  (List.range hierlbNary).foldl (fun children node =>
    let child := narrow (thisNode * hierlbNary + node + 1)
    if child < numNodes then emplace children child false else children) []

/-- The final children of a node. -/
def finalChildren : List (ℤ × Bool) :=
  (List.range hierlbNary).foldl (fun children node =>
    let child := narrow (thisNode * hierlbNary + node + 1 - factor numNodes - 1)
    if child < numNodes ∧ child ≥ 0 then emplace children child true else children) []

def setupTree : HierNode where
  parent := narrow ((thisNode - 1).tdiv hierlbNary)
  bottomParent := narrow ((thisNode + 1 + factor numNodes - 1).tdiv hierlbNary)
  children :=
    if treeChildren numNodes thisNode = [] then finalChildren numNodes thisNode
    else treeChildren numNodes thisNode

/-- What is expected of the nodes `0`, …, `numNodes - 1`.  A node reports to its bottom parent, and
every node but the root to its parent. -/
structure TreeWellFormed (numNodes : ℤ) : Prop where
  bottomParent : ∀ n, 0 ≤ n → n < numNodes →
    0 ≤ (setupTree numNodes n).bottomParent ∧ (setupTree numNodes n).bottomParent < numNodes ∧
      (setupTree numNodes (setupTree numNodes n).bottomParent).children.count (n, true) = 1
  parent : ∀ n, 0 ≤ n → n < numNodes → n ≠ hierlbRoot →
    0 ≤ (setupTree numNodes n).parent ∧ (setupTree numNodes n).parent < numNodes ∧
      (setupTree numNodes (setupTree numNodes n).parent).children.count (n, false) = 1
  reports : ∀ n, 0 ≤ n → n < numNodes →
    (setupTree numNodes n).children.length =
      ((Ico 0 numNodes).filter fun i => (setupTree numNodes i).bottomParent = n).card +
      ((Ico 0 numNodes).filter fun i =>
        i ≠ hierlbRoot ∧ (setupTree numNodes i).parent = n).card
  root : ∀ n, 0 ≤ n → n < numNodes →
    ∃ k, (fun i => (setupTree numNodes i).parent)^[k] n = hierlbRoot

/-! ## Even numbers of nodes -/

theorem narrow_eq {x : ℤ} (h₁ : -2 ^ 15 ≤ x) (h₂ : x < 2 ^ 15) : narrow x = x := by
  rw [narrow, Int.bmod_eq_of_le] <;> omega

variable {N n : ℤ}

theorem factor_of_even (h2 : 2 ≤ N) (hN : N < 2 ^ 15) (he : N % 2 = 0) : factor N = N := by
  have htdiv : N.tdiv 2 = N / 2 := Int.tdiv_eq_ediv_of_nonneg (by omega)
  have hmul : N / 2 * 2 = N := by omega
  have hnarrow : narrow N = N := narrow_eq (by omega) hN
  simp only [factor, hierlbNary, Nat.cast_ofNat, htdiv, hmul, hnarrow, lt_irrefl, if_false]

/-- The two rounds of the loop over the children in the tree. -/
theorem treeChildren_eq (N n : ℤ) : treeChildren N n =
    (fun l => if narrow (n * 2 + 1 + 1) < N then emplace l (narrow (n * 2 + 1 + 1)) false else l)
      (if narrow (n * 2 + 1) < N then [(narrow (n * 2 + 1), false)] else []) := by
  simp [treeChildren, hierlbNary, List.range_succ, emplace]

theorem finalChildren_eq (N n : ℤ) : finalChildren N n =
    (fun c l => if c < N ∧ c ≥ 0 then emplace l c true else l)
      (narrow (n * 2 + 1 + 1 - factor N - 1))
      (if narrow (n * 2 + 1 - factor N - 1) < N ∧ narrow (n * 2 + 1 - factor N - 1) ≥ 0 then
        [(narrow (n * 2 + 1 - factor N - 1), true)] else []) := by
  simp [finalChildren, hierlbNary, List.range_succ, emplace]

section Even

variable (h2 : 2 ≤ N) (hN : N < 2 ^ 14) (he : N % 2 = 0) (h0 : 0 ≤ n) (hn : n < N)
include h2 hN he h0 hn

theorem bottomParent_of_even : (setupTree N n).bottomParent = (n + N) / 2 := by
  have htdiv : (n + 1 + N - 1).tdiv 2 = (n + 1 + N - 1) / 2 :=
    Int.tdiv_eq_ediv_of_nonneg (by omega)
  rw [setupTree, factor_of_even h2 (by omega) he]
  simp only [hierlbNary, Nat.cast_ofNat, htdiv]
  rw [narrow_eq (by omega) (by omega)]
  omega

omit h2 he h0 in
theorem parent_of_pos (hpos : 0 < n) : (setupTree N n).parent = (n - 1) / 2 := by
  have htdiv : (n - 1).tdiv 2 = (n - 1) / 2 := Int.tdiv_eq_ediv_of_nonneg (by omega)
  simp only [setupTree, hierlbNary, Nat.cast_ofNat, htdiv]
  rw [narrow_eq (by omega) (by omega)]

theorem children_of_even : (setupTree N n).children =
    if 2 * n + 2 < N then [(2 * n + 1, false), (2 * n + 2, false)]
    else if 2 * n + 1 < N then [(2 * n + 1, false)]
    else [(2 * n - N, true), (2 * n - N + 1, true)] := by
  have h₁ : narrow (n * 2 + 1) = 2 * n + 1 := by rw [narrow_eq] <;> omega
  have h₂ : narrow (n * 2 + 1 + 1) = 2 * n + 2 := by rw [narrow_eq] <;> omega
  have htree : treeChildren N n =
      if 2 * n + 2 < N then [(2 * n + 1, false), (2 * n + 2, false)]
      else if 2 * n + 1 < N then [(2 * n + 1, false)] else [] := by
    rw [treeChildren_eq, h₁, h₂]
    split_ifs
    · simp [emplace]
    · omega
    · rfl
    · rfl
  rw [setupTree, htree]
  split_ifs with h₃ h₄
  · simp_all
  · rfl
  · simp_all
  · rfl
  · -- a leaf: its final children are two nodes
    have h₅ : narrow (n * 2 + 1 - N - 1) = 2 * n - N := by rw [narrow_eq] <;> omega
    have h₆ : narrow (n * 2 + 1 + 1 - N - 1) = 2 * n - N + 1 := by rw [narrow_eq] <;> omega
    have h₇ : 2 * n - N < N ∧ 2 * n - N ≥ 0 := by omega
    have h₈ : 2 * n - N + 1 < N ∧ 2 * n - N + 1 ≥ 0 := by omega
    rw [finalChildren_eq, factor_of_even h2 (by omega) he, h₅, h₆, if_pos h₇]
    simp only [if_pos h₈]
    simp [emplace]
  · simp_all

end Even

/-- The nodes that report to a leaf are its final children, those that report to another node its
children in the tree. -/
theorem reports_of_even (h2 : 2 ≤ N) (hN : N < 2 ^ 14) (he : N % 2 = 0) (h0 : 0 ≤ n) (hn : n < N) :
    (setupTree N n).children.length =
      ((Ico 0 N).filter fun i => (setupTree N i).bottomParent = n).card +
      ((Ico 0 N).filter fun i => i ≠ hierlbRoot ∧ (setupTree N i).parent = n).card := by
  have hbottom : (Ico 0 N).filter (fun i => (setupTree N i).bottomParent = n) =
      if 2 * n + 1 < N then ∅ else {2 * n - N, 2 * n - N + 1} := by
    ext i
    simp only [mem_filter, mem_Ico]
    constructor
    · rintro ⟨⟨hi0, hiN⟩, hb⟩
      rw [bottomParent_of_even h2 hN he hi0 hiN] at hb
      rw [if_neg (by omega)]
      simp only [mem_insert, mem_singleton]
      omega
    · intro hi
      split_ifs at hi with hleaf
      · simp at hi
      · simp only [mem_insert, mem_singleton] at hi
        have hi0 : 0 ≤ i := by omega
        have hiN : i < N := by omega
        refine ⟨⟨hi0, hiN⟩, ?_⟩
        rw [bottomParent_of_even h2 hN he hi0 hiN]
        omega
  have hparent : (Ico 0 N).filter
      (fun i => i ≠ hierlbRoot ∧ (setupTree N i).parent = n) =
      (Icc (2 * n + 1) (2 * n + 2)).filter (· < N) := by
    ext i
    simp only [mem_filter, mem_Ico, mem_Icc]
    constructor
    · rintro ⟨⟨hi0, hiN⟩, hne, hp⟩
      rw [hierlbRoot] at hne
      rw [parent_of_pos hN hiN (by omega)] at hp
      omega
    · rintro ⟨⟨hi1, hi2⟩, hiN⟩
      refine ⟨⟨by omega, hiN⟩, by rw [hierlbRoot]; omega, ?_⟩
      rw [parent_of_pos hN hiN (by omega)]
      omega
  rw [hbottom, hparent, children_of_even h2 hN he h0 hn]
  split_ifs with hboth hone hone
  · rw [filter_true_of_mem fun i hi => by rw [mem_Icc] at hi; omega]
    simp
  · omega
  · have hset : (Icc (2 * n + 1) (2 * n + 2)).filter (· < N) = {2 * n + 1} := by
      ext i
      simp only [mem_filter, mem_Icc, mem_singleton]
      omega
    rw [hset]
    simp
  · rw [filter_false_of_mem fun i hi => by rw [mem_Icc] at hi; omega,
      card_pair (by omega)]
    simp

theorem treeWellFormed_of_even (h2 : 2 ≤ N) (hN : N < 2 ^ 14) (he : N % 2 = 0) :
    TreeWellFormed N := by
  refine ⟨fun n h0 hn => ?_, fun n h0 hn hne => ?_, fun n h0 hn => reports_of_even h2 hN he h0 hn,
    fun n h0 hn => ?_⟩
  · rw [bottomParent_of_even h2 hN he h0 hn]
    refine ⟨by omega, by omega, ?_⟩
    rw [children_of_even h2 hN he (by omega) (by omega), if_neg (by omega), if_neg (by omega)]
    have hcases : n = 2 * ((n + N) / 2) - N ∨ n = 2 * ((n + N) / 2) - N + 1 := by omega
    rw [List.count_cons, List.count_cons, List.count_nil]
    rcases hcases with h | h <;> simp only [beq_iff_eq, Prod.mk.injEq, and_true] <;>
      split_ifs <;> omega
  · rw [hierlbRoot] at hne
    rw [parent_of_pos hN hn (by omega)]
    refine ⟨by omega, by omega, ?_⟩
    rw [children_of_even h2 hN he (by omega) (by omega)]
    split_ifs
    · rw [List.count_cons, List.count_cons, List.count_nil]
      simp only [beq_iff_eq, Prod.mk.injEq, and_true]
      split_ifs <;> omega
    · have h : n = 2 * ((n - 1) / 2) + 1 := by omega
      rw [← h]
      simp
    · omega
  · -- the parent has a smaller number
    obtain ⟨k, rfl⟩ := Int.eq_ofNat_of_zero_le h0
    induction k using Nat.strong_induction_on with
    | _ k ih =>
      by_cases hk : k = 0
      · exact ⟨0, by simp [hk, hierlbRoot]⟩
      · have hp := parent_of_pos hN hn (by omega)
        obtain ⟨j, hj⟩ := ih ((k - 1) / 2) (by omega) (by omega) (by omega)
        refine ⟨j + 1, ?_⟩
        rw [Function.iterate_succ_apply, hp]
        have : (((k - 1) / 2 : ℕ) : ℤ) = ((k : ℤ) - 1) / 2 := by omega
        rw [← this]
        exact hj

/-! ## Other numbers of nodes -/

/-- The bottom parent of the last node is no node if the number of nodes is odd. -/
theorem even_of_treeWellFormed (h2 : 2 ≤ N) (hN : N < 2 ^ 15) (h : TreeWellFormed N) :
    N % 2 = 0 := by
  by_contra hodd
  obtain ⟨hlow, hhigh, -⟩ := h.bottomParent (N - 1) (by omega) (by omega)
  have htdiv : N.tdiv 2 = N / 2 := Int.tdiv_eq_ediv_of_nonneg (by omega)
  have hmul : narrow (N / 2 * 2) = N - 1 := by rw [narrow_eq] <;> omega
  have hf : factor N = narrow (N + 1) := by
    simp only [factor, hierlbNary, Nat.cast_ofNat, htdiv, hmul]
    rw [if_pos (by omega)]
    congr 1
    omega
  by_cases hlast : N = 2 ^ 15 - 1
  · -- here the number of nodes, rounded up, overflows
    subst hlast
    revert hlow
    decide
  · have hfactor : factor N = N + 1 := by rw [hf, narrow_eq] <;> omega
    have htdiv' : (N - 1 + 1 + (N + 1) - 1).tdiv 2 = N := by
      rw [Int.tdiv_eq_ediv_of_nonneg (by omega)]
      omega
    rw [setupTree, hfactor] at hhigh
    simp only [hierlbNary, Nat.cast_ofNat, htdiv'] at hhigh
    rw [narrow_eq (by omega) hN] at hhigh
    omega

/-- Node 2 ^ 14 - 1 has a child with a negative number, so that it has no final children. -/
theorem lt_of_treeWellFormed (h2 : 2 ≤ N) (hN : N < 2 ^ 15) (h : TreeWellFormed N) :
    N < 2 ^ 14 := by
  have he := even_of_treeWellFormed h2 hN h
  by_contra hlarge
  have h₁ : narrow (16383 * 2 + 1) = 32767 := by decide
  have h₂ : narrow (16383 * 2 + 1 + 1) = -32768 := by decide
  have htree : treeChildren N 16383 = [(-32768, false)] := by
    rw [treeChildren_eq, h₁, h₂, if_neg (by omega)]
    simp only
    rw [if_pos (by omega)]
    rfl
  have hchildren : (setupTree N 16383).children = [(-32768, false)] := by
    rw [setupTree, htree]
    rfl
  obtain ⟨-, -, hcount⟩ := h.bottomParent (32766 - N) (by omega) (by omega)
  have hbottom : (setupTree N (32766 - N)).bottomParent = 16383 := by
    have hsum : 32766 - N + 1 + N - 1 = 32766 := by omega
    rw [setupTree, factor_of_even h2 hN he]
    simp only [hierlbNary, Nat.cast_ofNat, hsum]
    decide
  rw [hbottom, hchildren] at hcount
  simp at hcount

/-- The tree is as expected if and only if the number of nodes is even and below 2 ^ 14. -/
theorem treeWellFormed_iff (numNodes : Int16) (h2 : 2 ≤ numNodes.toInt) :
    TreeWellFormed numNodes.toInt ↔ numNodes.toInt % 2 = 0 ∧ numNodes.toInt < 2 ^ 14 := by
  have hN : numNodes.toInt < 2 ^ 15 := numNodes.toInt_lt
  constructor
  · exact fun h => ⟨even_of_treeWellFormed h2 hN h, lt_of_treeWellFormed h2 hN h⟩
  · exact fun ⟨he, hlt⟩ => treeWellFormed_of_even h2 hlt he

/-- Six nodes. -/
theorem treeWellFormed_six : TreeWellFormed (6 : Int16).toInt :=
  (treeWellFormed_iff 6 (by decide)).mpr (by decide)

/-- Of three nodes the last one has bottom parent 3. -/
theorem not_treeWellFormed_three : (setupTree 3 2).bottomParent = 3 ∧ ¬TreeWellFormed 3 := by
  have hb : (setupTree 3 2).bottomParent = 3 := by decide
  refine ⟨hb, fun h => ?_⟩
  have := (h.bottomParent 2 (by decide) (by decide)).2.1
  rw [hb] at this
  exact absurd this (by decide)

end VtRuntime.Balance
