import Mathlib.Data.Fintype.Card

/-!
# Acyclic relations on nodes

Nodes point to nodes above them, and the relation changes while a system runs.  A depth that drops
along every pointer says that there is no cycle.
-/

namespace VtRuntime.Lib

open Finset Relation

universe u

variable {N : Type u} {R R' : N → N → Prop}

/-- A depth drops along `R`. -/
def Acyclic (R : N → N → Prop) : Prop :=
  ∃ depth : N → ℕ, ∀ x y, R x y → depth y < depth x

namespace Acyclic

theorem mono (h : Acyclic R) (hR : ∀ x y, R' x y → R x y) : Acyclic R' := by
  obtain ⟨depth, hdepth⟩ := h
  exact ⟨depth, fun x y hxy => hdepth x y (hR x y hxy)⟩

/-- Nothing leads back along a pointer. -/
theorem not_reaches (h : Acyclic R) {x y : N} (hxy : R x y) : ¬ ReflTransGen R y x := by
  obtain ⟨depth, hdepth⟩ := h
  have hle : ∀ z, ReflTransGen R y z → depth z ≤ depth y := by
    intro z hz
    induction hz with
    | refl => exact Nat.le_refl _
    | tail _ hbc ih => exact (hdepth _ _ hbc).le.trans ih
  intro hyx
  exact absurd (hdepth x y hxy) (hle x hyx).not_gt

/-- What passes from the nodes above to a node holds of every node. -/
theorem induction (h : Acyclic R) {P : N → Prop} (hstep : ∀ x, (∀ y, R x y → P y) → P x) (x : N) :
    P x := by
  obtain ⟨depth, hdepth⟩ := h
  induction hd : depth x using Nat.strong_induction_on generalizing x with
  | _ d ih => exact hstep x fun y hxy => ih _ (hd ▸ hdepth x y hxy) _ rfl

/-- Nodes may be made to point to `y` if `y` does not lead to any of them. -/
theorem attach (h : Acyclic R) {S : N → Prop} {y : N}
    (hy : ∀ x, S x → ¬ ReflTransGen R y x)
    (hR : ∀ a b, R' a b → R a b ∨ S a ∧ b = y) : Acyclic R' := by
  classical
  obtain ⟨depth, hdepth⟩ := h
  -- the nodes that lead to one of them move below `y`
  let moved (z : N) : Prop := ∃ x, S x ∧ ReflTransGen R z x
  refine ⟨fun z => depth z + if moved z then depth y + 1 else 0, ?_⟩
  intro a b hab
  beta_reduce
  rcases hR a b hab with hab | ⟨ha, rfl⟩
  · have hlt := hdepth a b hab
    by_cases hb : moved b
    · obtain ⟨x, hx, hbx⟩ := hb
      have ha : moved a := ⟨x, hx, ReflTransGen.head hab hbx⟩
      have hb : moved b := ⟨x, hx, hbx⟩
      rw [if_pos ha, if_pos hb]
      omega
    · rw [if_neg hb]
      omega
  · have hb : ¬ moved b := by
      rintro ⟨x, hx, hbx⟩
      exact hy x hx hbx
    have ha : moved a := ⟨a, ha, .refl⟩
    rw [if_pos ha, if_neg hb]
    omega

end Acyclic

/-- From `x` to `r` in `k` pointers. -/
def Leads (R : N → N → Prop) (r : N) : ℕ → N → Prop
  | 0, x => x = r
  | k + 1, x => ∃ y, R x y ∧ Leads R r k y

theorem exists_leads {r x : N} (h : ReflTransGen R x r) : ∃ k, Leads R r k x := by
  induction h using ReflTransGen.head_induction_on with
  | refl => exact ⟨0, rfl⟩
  | head hxy _ ih =>
    obtain ⟨k, hk⟩ := ih
    exact ⟨k + 1, _, hxy, hk⟩

/-- Nodes with one pointer each, which lead to a node without one. -/
theorem Acyclic.of_reaches {r : N} (hone : ∀ {x y y'}, R x y → R x y' → y = y')
    (hr : ∀ y, ¬ R r y) (hreach : ∀ x y, R x y → ReflTransGen R x r) : Acyclic R := by
  classical
  refine ⟨fun x => if h : ∃ k, Leads R r k x then Nat.find h else 0, ?_⟩
  intro x y hxy
  have hx := exists_leads (hreach x y hxy)
  beta_reduce
  rw [dif_pos hx]
  cases hk : Nat.find hx with
  | zero =>
    have hzero := Nat.find_spec hx
    rw [hk] at hzero
    obtain rfl : x = r := hzero
    exact absurd hxy (hr y)
  | succ k =>
    have hsucc := Nat.find_spec hx
    rw [hk] at hsucc
    obtain ⟨y', hxy', hy'⟩ := hsucc
    obtain rfl := hone hxy hxy'
    rw [dif_pos ⟨k, hy'⟩]
    exact Nat.lt_succ_of_le (Nat.find_min' _ hy')

variable [Fintype N]

open Classical in
/-- The number of nodes that are reached from `x`. -/
noncomputable def above (R : N → N → Prop) (x : N) : ℕ :=
  (Finset.univ.filter fun y => TransGen R x y).card

theorem above_le_card (R : N → N → Prop) (x : N) : above R x ≤ Fintype.card N :=
  card_le_univ _

theorem above_mono (h : ∀ a b, R a b → TransGen R' a b) (x : N) :
    above R x ≤ above R' x := by
  refine card_le_card ?_
  intro y hy
  simp only [mem_filter, mem_univ, true_and] at hy ⊢
  induction hy with
  | single hab => exact h _ _ hab
  | tail _ hbc ih => exact ih.trans (h _ _ hbc)

theorem Acyclic.above_lt (h : Acyclic R) {x y : N} (hxy : R x y) : above R y < above R x := by
  classical
  refine card_lt_card ?_
  rw [ssubset_iff_of_subset]
  · refine ⟨y, ?_, ?_⟩
    · simpa using TransGen.single hxy
    · intro hy
      obtain ⟨z, hyz, hzy⟩ := TransGen.head'_iff.mp (mem_filter.mp hy).2
      exact h.not_reaches hyz hzy
  · intro z hz
    simp only [mem_filter, mem_univ, true_and] at hz ⊢
    exact TransGen.head hxy hz

end VtRuntime.Lib
