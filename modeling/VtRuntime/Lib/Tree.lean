import Mathlib.Data.Fintype.Card
import Mathlib.Data.Finset.Max

/-!
# Rooted spanning trees and forests

A spanning tree of a set of nodes is a parent function whose every chain ends at the
root; a depth that drops by one towards the root says so.  In a forest only some nodes have
a parent, and nodes are attached and detached while a system runs.

## Main definitions

* `SpanningTree N` — the parent function with its depth.
* `SpanningTree.children`, `SpanningTree.numChildren`.
* `SpanningTree.Below` — the descendants of a node.
* `SpanningTree.induction` — a property of the root's children that passes from each
  other node to its children holds of every node but the root.
* `SpanningTree.induction_down` — a property of the root that passes from a node to its children
  holds of every node.
* `SpanningTree.induction_up` — a property that passes from the children of a node to the node
  holds of every node.
* `SpanningTree.star` — the tree in which every other node is a child of the root.
* `Forest parent` — the nodes with their parents form a forest.
-/

namespace VtRuntime.Lib

universe u

/-- A spanning tree of the nodes `N`.  The parent of the root is not used. -/
structure SpanningTree (N : Type u) where
  root : N
  parent : N → N
  depth : N → ℕ
  depth_parent : ∀ n, n ≠ root → depth (parent n) < depth n

namespace SpanningTree

variable {N : Type u} (T : SpanningTree N)

/-- What holds of the root's children and passes from a node to its children holds of
every node but the root. -/
theorem induction {P : N → Prop}
    (h : ∀ n, n ≠ T.root → (T.parent n ≠ T.root → P (T.parent n)) → P n) :
    ∀ n, n ≠ T.root → P n := by
  intro n hn
  induction hd : T.depth n using Nat.strong_induction_on generalizing n with
  | _ d ih => exact h n hn (ih _ (hd ▸ T.depth_parent n hn) _ · rfl)

/-- What holds of the root and passes from a node to its children holds of every node. -/
@[elab_as_elim]
theorem induction_down {P : N → Prop} (hroot : P T.root)
    (hstep : ∀ n, n ≠ T.root → P (T.parent n) → P n) (n : N) : P n := by
  by_cases hn : n = T.root
  · exact hn ▸ hroot
  · refine T.induction ?_ n hn
    intro n hn ih
    by_cases hp : T.parent n = T.root
    · exact hstep n hn (hp ▸ hroot)
    · exact hstep n hn (ih hp)

/-- A chain of parents leads from `c` to `p`, which is another node. -/
def Below (p c : N) : Prop := Relation.TransGen (fun a b => a ≠ T.root ∧ T.parent a = b) c p

variable {T}

theorem below_parent {n : N} (h : n ≠ T.root) : T.Below (T.parent n) n := .single ⟨h, rfl⟩

theorem Below.up {p c : N} (h : T.Below p c) (hp : p ≠ T.root) : T.Below (T.parent p) c :=
  .tail h ⟨hp, rfl⟩

theorem Below.depth_lt {p c : N} (h : T.Below p c) : T.depth p < T.depth c := by
  induction h with
  | single hb =>
    obtain ⟨hroot, rfl⟩ := hb
    exact T.depth_parent _ hroot
  | tail _ hb ih =>
    obtain ⟨hroot, rfl⟩ := hb
    exact (T.depth_parent _ hroot).trans ih

theorem Below.ne {p c : N} (h : T.Below p c) : c ≠ p := by
  rintro rfl
  exact absurd h.depth_lt (Nat.lt_irrefl _)

/-- The root is not below any node. -/
theorem Below.ne_root {p c : N} (h : T.Below p c) : c ≠ T.root := by
  obtain ⟨_, hb, _⟩ := Relation.TransGen.head'_iff.mp h
  exact hb.1

/-- What is below a node is not a sibling of the node. -/
theorem Below.parent_ne {n c : N} (h : T.Below n c) (hn : n ≠ T.root) :
    T.parent c ≠ T.parent n := by
  obtain ⟨b, ⟨_, rfl⟩, hb⟩ := Relation.TransGen.head'_iff.mp h
  have hlt := T.depth_parent n hn
  intro heq
  rcases Relation.reflTransGen_iff_eq_or_transGen.mp hb with rfl | hb
  · exact absurd hlt (heq ▸ Nat.lt_irrefl _)
  · have hlt' := Below.depth_lt hb
    rw [heq] at hlt'
    omega

variable (T)

variable [Fintype N] [DecidableEq N]

/-- The children of a node. -/
def children (n : N) : Finset N :=
  Finset.univ.filter fun c => c ≠ T.root ∧ T.parent c = n

def numChildren (n : N) : ℕ := (T.children n).card

@[simp] theorem mem_children {n c : N} : c ∈ T.children n ↔ c ≠ T.root ∧ T.parent c = n := by
  simp [children]

/-- What passes from the children of a node to the node holds of every node. -/
@[elab_as_elim]
theorem induction_up {P : N → Prop} (h : ∀ n, (∀ c ∈ T.children n, P c) → P n) (n : N) : P n := by
  classical
  by_contra hn
  -- the deepest node that violates the property has no child that does
  obtain ⟨m, hm, hmax⟩ := Finset.exists_max_image (Finset.univ.filter fun n => ¬ P n) T.depth
    ⟨n, by simpa using hn⟩
  refine (Finset.mem_filter.mp hm).2 (h m ?_)
  intro c hc
  by_contra hPc
  have hle := hmax c (by simpa using hPc)
  obtain ⟨hroot, rfl⟩ := T.mem_children.mp hc
  have hlt := T.depth_parent c hroot
  omega

/-- All other nodes are children of the root. -/
def star (root : N) : SpanningTree N where
  root := root
  parent := fun _ => root
  depth := fun n => if n = root then 0 else 1
  depth_parent := fun n hn => by simp [hn]

end SpanningTree

/-- The depth of a node is more than that of its parent. -/
def Forest {N : Type u} (parent : N → Option N) : Prop :=
  ∃ depth : N → ℕ, ∀ x y, parent y = some x → depth x < depth y

namespace Forest

variable {N : Type u} {parent parent' : N → Option N}

/-- What passes from parents to their children holds of every node. -/
theorem induction (h : Forest parent) {P : N → Prop}
    (hstep : ∀ y, (∀ x, parent y = some x → P x) → P y) (y : N) : P y := by
  obtain ⟨depth, hdepth⟩ := h
  induction hd : depth y using Nat.strong_induction_on generalizing y with
  | _ d ih => exact hstep y fun x hx => ih _ (hd ▸ hdepth x y hx) _ rfl

/-- Nodes may be detached. -/
theorem detach (h : Forest parent) (hle : ∀ x y, parent' y = some x → parent y = some x) :
    Forest parent' := by
  obtain ⟨depth, hdepth⟩ := h
  exact ⟨depth, fun x y hy => hdepth x y (hle x y hy)⟩

variable [DecidableEq N]

/-- A node without children may be attached to another node. -/
theorem attach (h : Forest parent) {x y : N} (hxy : x ≠ y) (hchild : ∀ z, parent z ≠ some y)
    (hy : parent' y = some x) (hne : ∀ z, z ≠ y → parent' z = parent z) : Forest parent' := by
  obtain ⟨depth, hdepth⟩ := h
  refine ⟨Function.update depth y (depth x + 1), ?_⟩
  intro z w hw
  by_cases hwy : w = y
  · subst hwy
    rw [hy, Option.some.injEq] at hw
    subst hw
    rw [Function.update_self, Function.update_of_ne hxy]
    exact Nat.lt_succ_self _
  · rw [hne w hwy] at hw
    have hzy : z ≠ y := by
      rintro rfl
      exact hchild w hw
    rw [Function.update_of_ne hwy, Function.update_of_ne hzy]
    exact hdepth z w hw

end Forest
end VtRuntime.Lib
