import Mathlib.Algebra.BigOperators.Group.List.Basic
import Mathlib.Algebra.GroupWithZero.Nat
import Mathlib.Data.List.Nodup
import Mathlib.Data.List.Pairwise

/-!
# Lists of messages

A step of a system takes an element out of a list of messages or tasks, and queues that are
matched with each other are compared from their front.
-/

namespace VtRuntime.Lib

open List

universe u

variable {α : Type u} {l q : List α} {x : α}

theorem exists_eraseIdx {i : ℕ} (h : l[i]? = some x) :
    ∃ pre post, l = pre ++ x :: post ∧ l.eraseIdx i = pre ++ post := by
  obtain ⟨hi, rfl⟩ := List.getElem?_eq_some_iff.mp h
  refine ⟨l.take i, l.drop (i + 1), ?_, eraseIdx_eq_take_drop_succ l i⟩
  rw [← drop_eq_getElem_cons hi, take_append_drop]

theorem perm_eraseIdx {i : ℕ} (h : l[i]? = some x) : l.Perm (x :: l.eraseIdx i) := by
  obtain ⟨hi, rfl⟩ := List.getElem?_eq_some_iff.mp h
  exact (getElem_cons_eraseIdx_perm hi).symm

theorem forall_mem_concat {p : α → Prop} (hl : ∀ y ∈ l, p y) (hx : p x) : ∀ y ∈ l ++ [x], p y :=
  forall_mem_append.mpr ⟨hl, forall_mem_singleton.mpr hx⟩

theorem nodup_map_concat {β : Type*} {f : α → β} (h : (l.map f).Nodup)
    (hx : ∀ y ∈ l, f y ≠ f x) : ((l ++ [x]).map f).Nodup := by
  rw [map_append, nodup_append]
  simpa [h] using hx

theorem prefix_concat (h : l <+: q) (hx : q[l.length]? = some x) : l ++ [x] <+: q := by
  obtain ⟨r, rfl⟩ := h
  rw [List.getElem?_append_right (Nat.le_refl _), Nat.sub_self] at hx
  cases r with
  | nil => simp at hx
  | cons y r =>
    obtain rfl : y = x := by simpa using hx
    exact ⟨r, by simp⟩

theorem getElem?_of_prefix_concat (h : l ++ [x] <+: q) : q[l.length]? = some x := by
  obtain ⟨r, rfl⟩ := h
  simp

theorem eq_of_mem_flatMap {β : Type u} {f : α → List β} (h : (l.flatMap f).Nodup) {y : α} {b : β}
    (hx : x ∈ l) (hy : y ∈ l) (hbx : b ∈ f x) (hby : b ∈ f y) : x = y := by
  by_contra hne
  have hsymm : Std.Symm (Function.onFun List.Disjoint f) := ⟨fun _ _ hd _ h h' => hd h' h⟩
  exact (nodup_flatMap.mp h).2.forall hx hy hne hbx hby

theorem sum_map_eq_count [DecidableEq α] [BEq α] [LawfulBEq α] (l : List α) (x : α) :
    (l.map fun y => if y = x then 1 else 0).sum = l.count x := by
  induction l with
  | nil => rfl
  | cons y l ih => simp [ih, count_cons, Nat.add_comm]

theorem le_foldl_max (l : List α) (f : α → ℕ) (b : ℕ) : b ≤ l.foldl (fun m a => max m (f a)) b := by
  induction l generalizing b with
  | nil => exact Nat.le_refl _
  | cons a l ih => exact Nat.le_trans (Nat.le_max_left _ _) (ih _)

theorem le_foldl_max_of_mem (l : List α) (f : α → ℕ) (b : ℕ) {a : α} (ha : a ∈ l) :
    f a ≤ l.foldl (fun m a => max m (f a)) b := by
  induction l generalizing b with
  | nil => exact absurd ha not_mem_nil
  | cons c l ih =>
    rcases mem_cons.mp ha with rfl | ha
    · exact Nat.le_trans (Nat.le_max_right _ _) (le_foldl_max l f _)
    · exact ih _ ha

theorem flatMap_filter_of_count {β : Type*} {γ : Type*} [DecidableEq β] (key : α → β) {b : β}
    {f : α → List γ} {r : List γ} (h : (l.map key).count b = 1)
    (hf : ∀ a ∈ l, key a = b → f a = r) :
    (l.filter (key · = b)).flatMap f = r := by
  have hlen : (l.filter (key · = b)).length = 1 := by
    rw [← h, count_eq_countP, countP_map, countP_eq_length_filter]
    rfl
  obtain ⟨a, ha⟩ := length_eq_one_iff.mp hlen
  have hmem : a ∈ l.filter (key · = b) := by simp [ha]
  obtain ⟨hl, hb⟩ := mem_filter.mp hmem
  rw [ha, flatMap_singleton, hf a hl (of_decide_eq_true hb)]

end VtRuntime.Lib
