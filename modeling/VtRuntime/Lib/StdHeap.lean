import Mathlib.Data.List.Sort

/-!
# Heaps in a range

The algorithms of the C++ standard library that keep a range as a heap.  Which arrangement a heap
has, and which of several greatest elements is popped, is left to the implementation.
-/

namespace VtRuntime.Lib

open List

universe u v

/-- `std::make_heap`, `std::pop_heap` and `std::push_heap` for a comparison.  `popHeap` moves a
greatest element to the end of the range, and `pushHeap` inserts the element at the end. -/
structure StdHeap (α : Type u) (lt : α → α → Prop) where
  IsHeap : List α → Prop
  makeHeap : List α → List α
  popHeap : List α → List α
  pushHeap : List α → List α
  makeHeap_perm : ∀ l, (makeHeap l).Perm l
  isHeap_makeHeap : ∀ l, IsHeap (makeHeap l)
  popHeap_perm : ∀ l, IsHeap l → (popHeap l).Perm l
  isHeap_popHeap : ∀ l, IsHeap l → IsHeap (popHeap l).dropLast
  popHeap_greatest : ∀ l, IsHeap l → ∀ x ∈ (popHeap l).getLast?, ∀ y ∈ l, ¬lt x y
  pushHeap_perm : ∀ l, IsHeap l.dropLast → (pushHeap l).Perm l
  isHeap_pushHeap : ∀ l, IsHeap l.dropLast → IsHeap (pushHeap l)

namespace StdHeap

variable {α : Type u} {lt : α → α → Prop} (heap : StdHeap α lt)

/-- What is popped, and what is left. -/
theorem exists_popHeap {l : List α} (h : heap.IsHeap l) (hne : l ≠ []) :
    ∃ x rest, heap.popHeap l = rest ++ [x] ∧ l.Perm (x :: rest) ∧ heap.IsHeap rest ∧
      ∀ y ∈ l, ¬lt x y := by
  have hpop : heap.popHeap l ≠ [] := fun hnil =>
    hne (List.Perm.eq_nil (hnil ▸ (heap.popHeap_perm l h).symm))
  obtain ⟨rest, x, hx⟩ := (heap.popHeap l).eq_nil_or_concat'.resolve_left hpop
  refine ⟨x, rest, hx, ?_, ?_, ?_⟩
  · refine (heap.popHeap_perm l h).symm.trans ?_
    rw [hx]
    exact perm_append_singleton x rest
  · simpa [hx] using heap.isHeap_popHeap l h
  · exact heap.popHeap_greatest l h x (by simp [hx])

theorem pairwise_insertionSort_key {K : Type v} [LinearOrder K] (key : α → K) (l : List α) :
    (l.insertionSort fun x y => key y ≤ key x).Pairwise fun x y => key y ≤ key x := by
  have : Std.Total fun x y : α => key y ≤ key x := ⟨fun x y => le_total _ _⟩
  have : IsTrans α fun x y => key y ≤ key x := ⟨fun _ _ _ hxy hyz => hyz.trans hxy⟩
  exact pairwise_insertionSort _ l

/-- A range that is sorted from its greatest element on is a heap. -/
def sorted {K : Type v} [LinearOrder K] (key : α → K) : StdHeap α fun x y => key x < key y where
  IsHeap l := l.Pairwise fun x y => key y ≤ key x
  makeHeap l := l.insertionSort fun x y => key y ≤ key x
  popHeap l := l.tail ++ l.head?.toList
  pushHeap l := l.insertionSort fun x y => key y ≤ key x
  makeHeap_perm l := perm_insertionSort _ l
  isHeap_makeHeap l := pairwise_insertionSort_key key l
  popHeap_perm l _ := by
    cases l with
    | nil => exact .refl _
    | cons x l => exact perm_append_singleton x l
  isHeap_popHeap l h := by
    cases l with
    | nil => exact .nil
    | cons x l => simpa using (pairwise_cons.mp h).2
  popHeap_greatest l h x hx y hy := by
    cases l with
    | nil => simp at hy
    | cons z l =>
      obtain rfl : z = x := by simpa using hx
      rcases mem_cons.mp hy with rfl | hy
      · exact lt_irrefl _
      · exact not_lt.mpr ((pairwise_cons.mp h).1 y hy)
  pushHeap_perm l _ := perm_insertionSort _ l
  isHeap_pushHeap l _ := pairwise_insertionSort_key key l

end StdHeap

end VtRuntime.Lib
