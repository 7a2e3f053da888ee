import Mathlib.Data.List.Sort
import Mathlib.Tactic.Ring

/-!
# Regions of nodes

A region of a rooted group is a list of nodes or a range with a stride.  The tree of the group is
built by taking the head of a region and splitting its tail.

The size of a range is rounded down, so a range may have one node more than its size; and `contains`
on a range tests the remainder of the node by the stride, not of its distance to the lower bound.
A `ShallowList` is a list in the memory of a message, and has the functions of `List`.
-/

namespace VtRuntime.Group

open List Nat

inductive Region
  | list (nodes : List ℕ)
  | range (lo hi stride : ℕ)
deriving DecidableEq

namespace Region

def getSize : Region → ℕ
  | list nodes => nodes.length
  | range lo hi stride => (hi - lo) / stride

def isList : Region → Bool
  | list _ => true
  | range _ _ _ => false

def sort : Region → Region
  | list nodes => list (nodes.insertionSort (· ≤ ·))
  | range lo hi stride => range lo hi stride

def contains (node : ℕ) : Region → Bool
  | list nodes => node ∈ nodes
  | range lo hi stride => lo ≤ node && node < hi && node % stride == 0

/-- The loop of `Range::makeList`. -/
def rangeLoop (hi stride : ℕ) : ℕ → ℕ → List ℕ
  | 0, _ => []
  | fuel + 1, i => if i < hi then i :: rangeLoop hi stride fuel (i + stride) else []

/-- The nodes of a region, as `makeList` has them. -/
def makeList : Region → List ℕ
  | list nodes => nodes
  | range lo hi stride => rangeLoop hi stride (hi - lo) lo

/-- The first node, of a list that is not empty. -/
def head : Region → ℕ
  | list nodes => nodes.headD 0
  | range lo _ _ => lo

def tail : Region → Region
  | list nodes => list nodes.tail
  | range lo hi stride => range (lo + stride) hi stride

/-- The loop of `splitN` on a list.  The last part takes all that is left. -/
def splitList (childSize : ℕ) : ℕ → List ℕ → List Region
  | 0, _ => []
  | 1, nodes => [list nodes]
  | k + 2, nodes =>
      list (nodes.take childSize) :: splitList childSize (k + 1) (nodes.drop childSize)

/-- The loop of `splitN` on a range. -/
def splitRange (childSize hi stride : ℕ) : ℕ → ℕ → List Region
  | 0, _ => []
  | 1, lo => [range lo hi stride]
  | k + 2, lo => range lo (min hi (lo + childSize * stride)) stride ::
      splitRange childSize hi stride (k + 1) (lo + childSize * stride)

def splitN (nsplits : ℕ) (r : Region) : List Region :=
  let numSplits := min nsplits r.getSize
  let childSize := r.getSize / numSplits
  match r with
  | list nodes => splitList childSize numSplits nodes
  | range lo hi stride => splitRange childSize hi stride numSplits lo

/-- A list names no node twice; the constructor of a range wants a positive stride.  A region has a
positive size. -/
def Valid : Region → Prop
  | list nodes => nodes.Nodup ∧ nodes ≠ []
  | range lo hi stride => 1 ≤ stride ∧ lo + stride ≤ hi

instance : (r : Region) → Decidable r.Valid
  | list nodes => inferInstanceAs (Decidable (nodes.Nodup ∧ nodes ≠ []))
  | range lo hi stride => inferInstanceAs (Decidable (1 ≤ stride ∧ lo + stride ≤ hi))

/-! ## Ranges -/

variable {lo hi stride : ℕ} {r : Region}

theorem rangeLoop_of_le (h : hi ≤ lo) (fuel : ℕ) : rangeLoop hi stride fuel lo = [] := by
  cases fuel with
  | zero => rfl
  | succ fuel => rw [rangeLoop, if_neg (by omega)]

/-- More fuel than the range has numbers changes nothing. -/
theorem rangeLoop_fuel (hs : 1 ≤ stride) {fuel fuel' : ℕ} (h : hi - lo ≤ fuel)
    (h' : hi - lo ≤ fuel') :
    rangeLoop hi stride fuel lo = rangeLoop hi stride fuel' lo := by
  induction fuel generalizing fuel' lo with
  | zero => rw [rangeLoop_of_le (by omega), rangeLoop_of_le (by omega)]
  | succ fuel ih =>
    rcases le_or_gt hi lo with hle | hlt
    · rw [rangeLoop_of_le hle, rangeLoop_of_le hle]
    · obtain ⟨d, rfl⟩ := exists_eq_succ_of_ne_zero (show fuel' ≠ 0 by omega)
      rw [rangeLoop, rangeLoop, if_pos hlt, if_pos hlt]
      exact congrArg (lo :: ·) (ih (by omega) (by omega))

theorem makeList_range_nil (h : hi ≤ lo) : makeList (range lo hi stride) = [] :=
  rangeLoop_of_le h _

theorem makeList_range_cons (hs : 1 ≤ stride) (h : lo < hi) :
    makeList (range lo hi stride) = lo :: makeList (range (lo + stride) hi stride) := by
  obtain ⟨d, hd⟩ := exists_eq_succ_of_ne_zero (show hi - lo ≠ 0 by omega)
  rw [makeList, hd, rangeLoop, if_pos h, rangeLoop_fuel hs (by omega) le_rfl]
  rfl

theorem makeList_range_append (hs : 1 ≤ stride) (k : ℕ) (h : lo + k * stride ≤ hi) :
    makeList (range lo hi stride) =
      makeList (range lo (lo + k * stride) stride) ++
        makeList (range (lo + k * stride) hi stride) := by
  induction k generalizing lo with
  | zero =>
    rw [zero_mul, add_zero, makeList_range_nil (le_refl lo), nil_append]
  | succ k ih =>
    have hnext : lo + (k + 1) * stride = lo + stride + k * stride := by ring
    rw [hnext] at h ⊢
    rw [makeList_range_cons hs (show lo < hi by omega), ih h,
      makeList_range_cons hs (show lo < lo + stride + k * stride by omega), cons_append]

theorem le_of_mem_range {fuel x : ℕ} (h : x ∈ rangeLoop hi stride fuel lo) : lo ≤ x := by
  induction fuel generalizing lo with
  | zero => simp [rangeLoop] at h
  | succ fuel ih =>
    rw [rangeLoop] at h
    split at h
    · rcases mem_cons.mp h with rfl | h
      · exact le_rfl
      · exact (le_add_right _ _).trans (ih h)
    · simp at h

theorem nodup_rangeLoop (hs : 1 ≤ stride) (fuel : ℕ) : (rangeLoop hi stride fuel lo).Nodup := by
  induction fuel generalizing lo with
  | zero => exact nodup_nil
  | succ fuel ih =>
    rw [rangeLoop]
    split
    · refine nodup_cons.mpr ⟨?_, ih⟩
      intro hmem
      have hle := le_of_mem_range hmem
      omega
    · exact nodup_nil

/-! ## Heads, tails and parts -/

/-- A region that has a node. -/
def Nonempty : Region → Prop
  | list nodes => nodes ≠ []
  | range lo hi stride => 1 ≤ stride ∧ lo < hi

theorem makeList_eq_cons (h : r.Nonempty) : r.makeList = r.head :: r.tail.makeList := by
  cases r with
  | list nodes =>
    obtain ⟨x, xs, rfl⟩ := exists_cons_of_ne_nil h
    rfl
  | range lo hi stride => exact makeList_range_cons h.1 h.2

/-- The tail of a region of more than three nodes is split into two parts. -/
theorem exists_halves (h : r.Nonempty) (hsize : 4 ≤ r.getSize) :
    ∃ p q, r.tail.splitN 2 = [p, q] ∧ p.Nonempty ∧ q.Nonempty ∧
      r.tail.makeList = p.makeList ++ q.makeList := by
  cases r with
  | list nodes =>
    have hlen : 4 ≤ nodes.length := hsize
    have htail : nodes.tail.length = nodes.length - 1 := length_tail
    have hnum : min 2 nodes.tail.length = 2 := by omega
    refine ⟨list (nodes.tail.take (nodes.tail.length / 2)),
      list (nodes.tail.drop (nodes.tail.length / 2)), ?_, ?_, ?_, (take_append_drop _ _).symm⟩
    · simp only [tail, splitN, getSize, hnum, splitList]
    · refine ne_nil_of_length_pos ?_
      rw [length_take]
      omega
    · refine ne_nil_of_length_pos ?_
      rw [length_drop]
      omega
  | range lo hi stride =>
    obtain ⟨hs, hlt⟩ := h
    have hmul : 4 * stride ≤ hi - lo := (le_div_iff_mul_le hs).mp hsize
    have hlen : 3 ≤ (hi - (lo + stride)) / stride := (le_div_iff_mul_le hs).mpr (by omega)
    have hnum : min 2 ((hi - (lo + stride)) / stride) = 2 := by omega
    -- the first part has half of the nodes, and there is at least one more
    have hall := div_mul_le_self (hi - (lo + stride)) stride
    have hmore : ((hi - (lo + stride)) / stride / 2 + 1) * stride ≤
        (hi - (lo + stride)) / stride * stride := mul_le_mul_right _ (by omega)
    have hk : 1 ≤ (hi - (lo + stride)) / stride / 2 := by omega
    have hkey : lo + stride + (hi - (lo + stride)) / stride / 2 * stride < hi := by
      rw [add_mul] at hmore
      omega
    have hpos := mul_le_mul_right stride hk
    refine ⟨range (lo + stride) (lo + stride + (hi - (lo + stride)) / stride / 2 * stride) stride,
      range (lo + stride + (hi - (lo + stride)) / stride / 2 * stride) hi stride, ?_,
      ⟨hs, by omega⟩, ⟨hs, hkey⟩, makeList_range_append hs _ hkey.le⟩
    simp only [tail, splitN, getSize, hnum, splitRange, min_eq_right hkey.le]

/-! ## Valid regions -/

theorem Valid.nonempty (h : r.Valid) : r.Nonempty := by
  cases r with
  | list nodes => exact h.2
  | range lo hi stride => exact ⟨h.1, by have := h.1; have := h.2; omega⟩

theorem Valid.nodup (h : r.Valid) : r.makeList.Nodup := by
  cases r with
  | list nodes => exact h.1
  | range lo hi stride => exact nodup_rangeLoop h.1 _

theorem sort_perm (r : Region) : r.sort.makeList.Perm r.makeList := by
  cases r with
  | list nodes => exact perm_insertionSort _ _
  | range lo hi stride => exact List.Perm.refl _

theorem Valid.sort (h : r.Valid) : r.sort.Valid := by
  cases r with
  | list nodes =>
    have hperm := perm_insertionSort (· ≤ ·) nodes
    exact ⟨hperm.nodup_iff.mpr h.1, fun hnil => h.2 (by simpa [hnil] using hperm)⟩
  | range lo hi stride => exact h

end Region
end VtRuntime.Group
