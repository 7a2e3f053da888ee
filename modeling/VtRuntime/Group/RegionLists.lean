import VtRuntime.Group.Region

/-!
# Regions against the lists of their nodes

The three kinds of region with the flags that their functions read: `made_list_` of a range and
`is_sorted_` of a list.  A `ShallowList` is a part of an array in the memory of a message.  The
search in a sorted list is that of the standard library, which says nothing about a list that is
not partitioned by the value.
-/

namespace VtRuntime.Group

open List Region Nat
open Option hiding map_map any_eq_true

/-- `std::binary_search`, defined if the elements less than the value, and those not greater, come
first. -/
def binarySearch (l : List ℕ) (value : ℕ) : Option Bool :=
  if l.Pairwise fun a b => (b < value → a < value) ∧ (b ≤ value → a ≤ value) then
    some (decide (value ∈ l))
  else none

theorem binarySearch_of_sorted {l : List ℕ} (h : l.Pairwise (· ≤ ·)) (value : ℕ) :
    binarySearch l value = some (decide (value ∈ l)) := by
  refine if_pos (h.imp ?_)
  intro a b hab
  exact ⟨fun hb => hab.trans_lt hb, fun hb => hab.trans hb⟩

/-- A list in which each value may be searched is sorted. -/
theorem sorted_of_binarySearch {l : List ℕ} (h : ∀ value, (binarySearch l value).isSome = true) :
    l.Pairwise (· ≤ ·) := by
  rw [pairwise_iff_getElem]
  intro i j hi hj hij
  have hpart : l.Pairwise fun a b => (b < l[j] → a < l[j]) ∧ (b ≤ l[j] → a ≤ l[j]) := by
    by_contra hnot
    have hsome := h l[j]
    rw [binarySearch, if_neg hnot] at hsome
    exact Bool.false_ne_true hsome
  exact (pairwise_iff_getElem.mp hpart i j hi hj hij).2 le_rfl

/-- The functions of a kind of region, and the list of its nodes. -/
structure RegionOps (R : Type) where
  nodes : R → List ℕ
  getSize : R → ℕ
  contains : R → ℕ → Option Bool
  head : R → ℕ
  tail : R → R
  split : R → Option (R × R)
  splitN : ℕ → R → List R

/-- The functions of a region agree with the list of its nodes.  A region is split if its size is at
least two, and has a head if it has a node. -/
structure RegionOps.Agrees {R : Type} (ops : RegionOps R) (r : R) : Prop where
  getSize : ops.getSize r = (ops.nodes r).length
  contains : ∀ node, ops.contains r node = some (decide (node ∈ ops.nodes r))
  headTail : ops.nodes r ≠ [] → ops.head r :: ops.nodes (ops.tail r) = ops.nodes r
  split : ∀ p ∈ ops.split r, ops.nodes p.1 ++ ops.nodes p.2 = ops.nodes r
  splitN : ∀ k, 1 ≤ k → ((ops.splitN k r).map ops.nodes).flatten = ops.nodes r

/-! ## Ranges -/

structure Range where
  lo : ℕ
  hi : ℕ
  stride : ℕ
  madeList : Bool := false

namespace Range

variable (r : Range)

def region : Region := .range r.lo r.hi r.stride

/-- A new range from one that a function of `Region` returns. -/
def ofRegion : Region → Range
  | .range lo hi stride => { lo, hi, stride }
  | .list _ => { lo := 0, hi := 0, stride := 1 }

def makeList : List ℕ := r.region.makeList

def contains (node : ℕ) : Option Bool :=
  if r.madeList then binarySearch r.makeList node else some (r.region.contains node)

def split : Option (Range × Range) :=
  let size := r.region.getSize
  let span := (r.hi - r.lo) / 2
  if 2 ≤ size then
    some ({ lo := r.lo, hi := r.lo + span, stride := r.stride },
      { lo := r.lo + span, hi := r.hi, stride := r.stride })
  else none

def ops : RegionOps Range where
  nodes := makeList
  getSize r := r.region.getSize
  contains := contains
  head r := r.region.head
  tail r := ofRegion r.region.tail
  split := split
  splitN k r := (r.region.splitN k).map ofRegion

end Range

/-! ## Lists -/

structure NodeList where
  nodes : List ℕ
  isSorted : Bool := false

namespace NodeList

variable (l : NodeList)

def region : Region := .list l.nodes

/-- A new list from one that a function of `Region` returns. -/
def ofRegion : Region → NodeList
  | .list nodes => { nodes }
  | .range _ _ _ => { nodes := [] }

def contains (node : ℕ) : Option Bool :=
  if l.isSorted then binarySearch l.nodes node else some (l.region.contains node)

def split : Option (NodeList × NodeList) :=
  let size := l.nodes.length
  if 2 ≤ size then some ({ nodes := l.nodes.take (size / 2) }, { nodes := l.nodes.drop (size / 2) })
  else none

def ops : RegionOps NodeList where
  nodes := nodes
  getSize l := l.region.getSize
  contains := contains
  head l := l.region.head
  tail l := ofRegion l.region.tail
  split := split
  splitN k l := (l.region.splitN k).map ofRegion

end NodeList

/-- A part of an array. -/
structure ShallowList where
  memory : List ℕ
  bound : ℕ
  size : ℕ
  fits : bound + size ≤ memory.length

namespace ShallowList

def nodes (s : ShallowList) : List ℕ := (s.memory.drop s.bound).take s.size

def contains (s : ShallowList) (node : ℕ) : Option Bool :=
  some ((List.range s.size).any fun i => s.memory[s.bound + i]? == some node)

def head (s : ShallowList) : ℕ := s.memory.getD s.bound 0

/-- The part from an offset on, of at most the given size. -/
def part (s : ShallowList) (offset size : ℕ) (h : offset + size ≤ s.size) : ShallowList where
  memory := s.memory
  bound := s.bound + offset
  size := size
  fits := by
    have := s.fits
    omega

/-- The size of an empty list would wrap around here. -/
def tail (s : ShallowList) : ShallowList :=
  if h : 1 ≤ s.size then s.part 1 (s.size - 1) (by omega) else s

def split (s : ShallowList) : Option (ShallowList × ShallowList) :=
  if 2 ≤ s.size then
    let c1Size := s.size / 2
    some (s.part 0 c1Size (by omega), s.part c1Size (s.size - c1Size) (by omega))
  else none

/-- The loop of `splitN`; `offset` is the distance of `cur_bound` to the beginning. -/
def splitLoop (s : ShallowList) (childSize : ℕ) : ℕ → (offset : ℕ) → offset ≤ s.size →
    List ShallowList
  | 0, _, _ => []
  | 1, offset, _ => [s.part offset (s.size - offset) (by omega)]
  | k + 2, offset, _ =>
      s.part offset (min childSize (s.size - offset)) (by omega) ::
        s.splitLoop childSize (k + 1) (offset + min childSize (s.size - offset)) (by omega)

def splitN (nsplits : ℕ) (s : ShallowList) : List ShallowList :=
  let numSplits := min nsplits s.size
  s.splitLoop (s.size / numSplits) numSplits 0 (zero_le _)

def ops : RegionOps ShallowList where
  nodes := nodes
  getSize := size
  contains := contains
  head := head
  tail := tail
  split := split
  splitN := splitN

end ShallowList

/-! ## The nodes of a range -/

namespace Region

variable {lo hi stride : ℕ}

section

variable (hs : 1 ≤ stride)
include hs

theorem mem_makeList_range {node : ℕ} :
    node ∈ makeList (range lo hi stride) ↔ lo ≤ node ∧ node < hi ∧ stride ∣ node - lo := by
  induction hn : hi - lo using Nat.strong_induction_on generalizing lo with
  | _ n ih =>
    rcases le_or_gt hi lo with hle | hlt
    · rw [makeList_range_nil hle]
      simp only [not_mem_nil, false_iff]
      omega
    · rw [makeList_range_cons hs hlt, mem_cons, ih (hi - (lo + stride)) (by omega) rfl]
      constructor
      · rintro (rfl | ⟨hge, hhi, hdvd⟩)
        · exact ⟨le_rfl, hlt, by simp⟩
        · refine ⟨by omega, hhi, ?_⟩
          have hsum : node - lo = node - (lo + stride) + stride := by omega
          rw [hsum]
          exact Nat.dvd_add hdvd (dvd_refl stride)
      · rintro ⟨hge, hhi, hdvd⟩
        rcases hge.eq_or_lt with rfl | hgt
        · exact .inl rfl
        · -- the next multiple of the stride is at least the stride
          have hle := le_of_dvd (by omega) hdvd
          refine .inr ⟨by omega, hhi, ?_⟩
          have hsum : node - (lo + stride) = node - lo - stride := by omega
          rw [hsum]
          exact dvd_sub hdvd (dvd_refl stride)

theorem sorted_makeList_range : (makeList (range lo hi stride)).Pairwise (· ≤ ·) := by
  induction hn : hi - lo using Nat.strong_induction_on generalizing lo with
  | _ n ih =>
    rcases le_or_gt hi lo with hle | hlt
    · rw [makeList_range_nil hle]
      exact List.Pairwise.nil
    · rw [makeList_range_cons hs hlt, pairwise_cons]
      refine ⟨fun x hx => ?_, ih (hi - (lo + stride)) (by omega) rfl⟩
      have := ((mem_makeList_range hs).mp hx).1
      omega

theorem length_makeList_range (k : ℕ) :
    (makeList (range lo (lo + k * stride) stride)).length = k := by
  induction k generalizing lo with
  | zero => rw [zero_mul, Nat.add_zero, makeList_range_nil le_rfl, length_nil]
  | succ k ih =>
    have hnext : lo + (k + 1) * stride = lo + stride + k * stride := by ring
    rw [hnext, makeList_range_cons hs (by omega), length_cons, ih]

/-- The size of a range, rounded down, is the number of its nodes if the stride divides its
extent. -/
theorem getSize_range_iff (hle : lo ≤ hi) :
    getSize (range lo hi stride) = (makeList (range lo hi stride)).length ↔ stride ∣ hi - lo := by
  have hmul := div_mul_le_self (hi - lo) stride
  have hcut := makeList_range_append hs ((hi - lo) / stride)
    (show lo + (hi - lo) / stride * stride ≤ hi by omega)
  rw [hcut, length_append, length_makeList_range hs, getSize]
  constructor
  · intro hlen
    have hnil : makeList (range (lo + (hi - lo) / stride * stride) hi stride) = [] :=
      eq_nil_of_length_eq_zero (by omega)
    have hge : hi ≤ lo + (hi - lo) / stride * stride := by
      by_contra hlt
      rw [makeList_range_cons hs (by omega)] at hnil
      exact cons_ne_nil _ _ hnil
    exact ⟨(hi - lo) / stride, by rw [mul_comm]; omega⟩
  · intro hdvd
    have := Nat.div_mul_cancel hdvd
    rw [makeList_range_nil (by omega), length_nil, Nat.add_zero]

/-- Both parts of a range that is cut somewhere. -/
theorem makeList_cut_iff {span : ℕ} (hlt : lo + span < hi) :
    makeList (range lo (lo + span) stride) ++ makeList (range (lo + span) hi stride) =
      makeList (range lo hi stride) ↔ stride ∣ span := by
  constructor
  · intro heq
    -- the cut is the first node of the second part
    have hmem : lo + span ∈ makeList (range lo hi stride) := by
      rw [← heq]
      exact mem_append_right _ ((mem_makeList_range hs).mpr ⟨le_rfl, hlt, by simp⟩)
    simpa using ((mem_makeList_range hs).mp hmem).2.2
  · rintro ⟨k, rfl⟩
    rw [mul_comm] at hlt ⊢
    exact (makeList_range_append hs k hlt.le).symm

theorem makeList_splitRange (childSize k : ℕ) (h : lo + k * (childSize * stride) ≤ hi) :
    ((splitRange childSize hi stride (k + 1) lo).map makeList).flatten =
      makeList (range lo hi stride) := by
  induction k generalizing lo with
  | zero => simp [splitRange]
  | succ k ih =>
    have hnext : lo + (k + 1) * (childSize * stride) =
        lo + childSize * stride + k * (childSize * stride) := by ring
    rw [hnext] at h
    have hle : lo + childSize * stride ≤ hi := by omega
    rw [splitRange, map_cons, flatten_cons, ih h, min_eq_right hle]
    exact (makeList_range_append hs childSize hle).symm

end

variable (childSize k : ℕ)

theorem makeList_splitList (nodes : List ℕ) :
    ((splitList childSize (k + 1) nodes).map makeList).flatten = nodes := by
  induction k generalizing nodes with
  | zero => simp [splitList, makeList]
  | succ k ih =>
    rw [splitList, map_cons, flatten_cons, ih]
    exact take_append_drop childSize nodes

/-- The parts of a region of positive size have its nodes. -/
theorem makeList_splitN {r : Region}
    (hs : ∀ lo hi stride, r = range lo hi stride → 1 ≤ stride ∧ lo ≤ hi)
    {k : ℕ} (hk : 1 ≤ k) (hsize : 1 ≤ r.getSize) :
    ((r.splitN k).map makeList).flatten = r.makeList := by
  obtain ⟨m, hm⟩ := exists_eq_succ_of_ne_zero (show min k r.getSize ≠ 0 by omega)
  cases r with
  | list nodes =>
    simp only [splitN, hm]
    exact makeList_splitList _ m nodes
  | range lo hi stride =>
    obtain ⟨hstride, hle⟩ := hs lo hi stride rfl
    simp only [splitN, hm]
    refine makeList_splitRange hstride _ m ?_
    -- all but the last part are within the size
    have hchild : (m + 1) * ((hi - lo) / stride / (m + 1)) ≤ (hi - lo) / stride := mul_div_le _ _
    have hall := div_mul_le_self (hi - lo) stride
    have hpart : m * ((hi - lo) / stride / (m + 1) * stride) ≤ (hi - lo) / stride * stride := by
      rw [← mul_assoc]
      refine mul_le_mul_right stride (le_trans ?_ hchild)
      exact mul_le_mul_right _ (le_succ m)
    change lo + m * ((hi - lo) / stride / (m + 1) * stride) ≤ hi
    omega

theorem isList_splitRange : ∀ r ∈ splitRange childSize hi stride k lo, r.isList = false := by
  induction k generalizing lo with
  | zero => simp [splitRange]
  | succ k ih =>
    cases k with
    | zero => simp [splitRange, isList]
    | succ k =>
      rw [splitRange]
      exact forall_mem_cons.mpr ⟨rfl, ih⟩

theorem isList_splitList (nodes : List ℕ) : ∀ r ∈ splitList childSize k nodes, r.isList = true := by
  induction k generalizing nodes with
  | zero => simp [splitList]
  | succ k ih =>
    cases k with
    | zero => simp [splitList, isList]
    | succ k =>
      rw [splitList]
      exact forall_mem_cons.mpr ⟨rfl, ih _⟩

end Region

/-! ## Agreement -/

namespace Range

/-- The bounds are multiples of the stride, unless there is no node, and so is half of the extent
if the range can be split. -/
def Aligned (lo hi stride : ℕ) : Prop :=
  stride ∣ hi - lo ∧ (lo = hi ∨ stride ∣ lo) ∧ (2 * stride ≤ hi - lo → stride ∣ (hi - lo) / 2)

instance (lo hi stride : ℕ) : Decidable (Aligned lo hi stride) :=
  inferInstanceAs (Decidable (_ ∣ _ ∧ (_ ∨ _ ∣ _) ∧ (_ → _ ∣ _)))

theorem makeList_ofRegion {r : Region} (h : r.isList = false) :
    (ofRegion r).makeList = r.makeList := by
  cases r with
  | list nodes => cases h
  | range lo hi stride => rfl

theorem nodes_splitN (r : Range) (k : ℕ) :
    ((ops.splitN k r).map ops.nodes) = (r.region.splitN k).map Region.makeList := by
  change ((r.region.splitN k).map ofRegion).map makeList = _
  rw [map_map]
  refine map_congr_left ?_
  intro x hx
  exact makeList_ofRegion (isList_splitRange _ _ x hx)

variable {lo hi stride : ℕ}

theorem contains_iff (hs : 1 ≤ stride) :
    (∀ node, (range lo hi stride).contains node =
        decide (node ∈ (range lo hi stride).makeList)) ↔ hi ≤ lo ∨ stride ∣ lo := by
  constructor
  · intro h
    rcases le_or_gt hi lo with hle | hlt
    · exact .inl hle
    · have hmem : lo ∈ (range lo hi stride).makeList :=
        (mem_makeList_range hs).mpr ⟨le_rfl, hlt, by simp⟩
      have hlo := h lo
      rw [decide_eq_true hmem] at hlo
      simp only [Region.contains, Bool.and_eq_true, beq_iff_eq] at hlo
      exact .inr (dvd_of_mod_eq_zero hlo.2)
  · intro h node
    rw [Bool.eq_iff_iff, decide_eq_true_iff, mem_makeList_range hs]
    simp only [Region.contains, Bool.and_eq_true, decide_eq_true_eq, beq_iff_eq, and_assoc]
    refine and_congr_right fun hge => and_congr_right fun hlt => ?_
    rw [← dvd_iff_mod_eq_zero]
    have hdvd : stride ∣ lo := h.resolve_left (by omega)
    constructor
    · exact fun hnode => dvd_sub hnode hdvd
    · intro hsub
      have hsum : node = node - lo + lo := by omega
      rw [hsum]
      exact Nat.dvd_add hsub hdvd

theorem agrees_of_aligned (hs : 1 ≤ stride) (hle : lo ≤ hi) (h : Aligned lo hi stride)
    (made : Bool) :
    ops.Agrees ⟨lo, hi, stride, made⟩ where
  getSize := (getSize_range_iff hs hle).mpr h.1
  contains node := by
    change contains _ node = _
    unfold contains
    cases made with
    | true => exact binarySearch_of_sorted (sorted_makeList_range hs) node
    | false =>
      have hlist := (contains_iff hs).mpr (h.2.1.imp (fun heq => heq.ge) id) node
      exact congrArg some hlist
  headTail hne := by
    have hlt : lo < hi := by
      by_contra hge
      exact hne (makeList_range_nil (show hi ≤ lo by omega))
    exact (makeList_range_cons hs hlt).symm
  split := by
    intro p hp
    change p ∈ split _ at hp
    unfold split at hp
    rw [mem_def, ite_none_right_eq_some] at hp
    obtain ⟨hsize, hp⟩ := hp
    obtain rfl := some.inj hp
    have hmul : 2 * stride ≤ hi - lo := (le_div_iff_mul_le hs).mp hsize
    have hcut : lo + (hi - lo) / 2 < hi := by omega
    exact (makeList_cut_iff hs hcut).mpr (h.2.2 hmul)
  splitN k hk := by
    rw [nodes_splitN]
    rcases Nat.eq_zero_or_pos ((hi - lo) / stride) with hzero | hpos
    · -- no node is left over by the rounding
      have hextent : hi - lo = 0 := by
        have := Nat.div_mul_cancel h.1
        rw [hzero] at this
        omega
      have hnil : Region.makeList (.range lo hi stride) = [] := Region.makeList_range_nil (by omega)
      have hnone : min k (getSize (.range lo hi stride)) = 0 := by
        change min k ((hi - lo) / stride) = 0
        omega
      change ((Region.splitN k (.range lo hi stride)).map Region.makeList).flatten =
        Region.makeList (.range lo hi stride)
      rw [hnil]
      simp only [splitN, hnone, splitRange, map_nil, flatten_nil]
    · refine Region.makeList_splitN ?_ hk hpos
      intro _ _ _ heq
      cases heq
      exact ⟨hs, hle⟩

/-- A range agrees with the list of its nodes, whether or not this was made, if and only if it is
aligned. -/
theorem agrees_iff (hs : 1 ≤ stride) (hle : lo ≤ hi) :
    (∀ made, ops.Agrees ⟨lo, hi, stride, made⟩) ↔ Aligned lo hi stride := by
  constructor
  · intro h
    have hlazy := h false
    refine ⟨(getSize_range_iff hs hle).mp hlazy.getSize, ?_, ?_⟩
    · have hcontains := (contains_iff hs).mp fun node => some.inj (hlazy.contains node)
      exact hcontains.imp (fun hge => le_antisymm hle hge) id
    · intro hmul
      have hsize : 2 ≤ (hi - lo) / stride := (le_div_iff_mul_le hs).mpr hmul
      have hsplit := hlazy.split _ (show _ ∈ split ⟨lo, hi, stride, false⟩ from if_pos hsize)
      have hcut : lo + (hi - lo) / 2 < hi := by omega
      exact (makeList_cut_iff hs hcut).mp hsplit
  · exact fun h made => agrees_of_aligned hs hle h made

end Range

namespace NodeList

theorem nodes_splitN (l : NodeList) (k : ℕ) :
    ((ops.splitN k l).map ops.nodes) = (l.region.splitN k).map makeList := by
  change ((l.region.splitN k).map ofRegion).map nodes = _
  rw [map_map]
  refine map_congr_left ?_
  intro x hx
  have hx := isList_splitList _ _ _ x hx
  cases x with
  | list nodes => rfl
  | range lo hi stride => cases hx

/-- A list agrees with itself if and only if it is sorted when it says so. -/
theorem agrees_iff (l : NodeList) : ops.Agrees l ↔
    (l.isSorted = true → l.nodes.Pairwise (· ≤ ·)) := by
  constructor
  · intro h hsorted
    refine sorted_of_binarySearch ?_
    intro value
    have hcontains : contains l value = _ := h.contains value
    rw [contains, if_pos hsorted] at hcontains
    rw [hcontains]
    rfl
  · intro h
    refine ⟨rfl, ?_, ?_, ?_, ?_⟩
    · intro node
      change contains l node = _
      unfold contains
      split
      · next hsorted => exact binarySearch_of_sorted (h hsorted) node
      · rfl
    · intro hne
      obtain ⟨x, xs, hnodes⟩ := exists_cons_of_ne_nil hne
      change l.nodes = x :: xs at hnodes
      change l.nodes.headD 0 :: l.nodes.tail = l.nodes
      rw [hnodes]
      rfl
    · intro p hp
      change p ∈ split l at hp
      unfold split at hp
      rw [mem_def, ite_none_right_eq_some] at hp
      obtain rfl := some.inj hp.2
      exact take_append_drop _ _
    · intro k hk
      rw [nodes_splitN]
      rcases Nat.eq_zero_or_pos l.nodes.length with hzero | hpos
      · have hnil := eq_nil_of_length_eq_zero hzero
        simp [region, splitN, getSize, splitList, ops, hnil]
      · exact makeList_splitN (fun _ _ _ heq => by cases heq) hk hpos

end NodeList

namespace ShallowList

variable (s : ShallowList)

theorem length_nodes : s.nodes.length = s.size := by
  have := s.fits
  simp only [nodes, length_take, length_drop]
  omega

theorem getElem?_nodes {i : ℕ} (h : i < s.size) : s.nodes[i]? = s.memory[s.bound + i]? := by
  rw [nodes, List.getElem?_take_of_lt h, List.getElem?_drop]

theorem nodes_part (offset size : ℕ) (h : offset + size ≤ s.size) :
    (s.part offset size h).nodes = (s.nodes.drop offset).take size := by
  have hmin : min size (s.size - offset) = size := by omega
  simp only [nodes, part, drop_take, take_take, drop_drop, hmin]

theorem nodes_part_rest {offset : ℕ} (h : offset + (s.size - offset) ≤ s.size) :
    (s.part offset (s.size - offset) h).nodes = s.nodes.drop offset := by
  rw [nodes_part]
  refine take_of_length_le ?_
  rw [length_drop, length_nodes]

theorem nodes_splitLoop (childSize k offset : ℕ) (h : offset ≤ s.size) :
    ((s.splitLoop childSize (k + 1) offset h).map nodes).flatten = s.nodes.drop offset := by
  induction k generalizing offset with
  | zero =>
    simp only [splitLoop, map_cons, map_nil, flatten_cons, flatten_nil, append_nil, nodes_part_rest]
  | succ k ih =>
    rw [splitLoop, map_cons, flatten_cons, ih, nodes_part, ← drop_drop]
    exact take_append_drop _ _

theorem agrees : ops.Agrees s := by
  have hlen := s.length_nodes
  refine ⟨s.length_nodes.symm, ?_, ?_, ?_, ?_⟩
  · intro node
    change some _ = some _
    congr 1
    rw [Bool.eq_iff_iff, decide_eq_true_iff, any_eq_true]
    change _ ↔ node ∈ s.nodes
    rw [mem_iff_getElem?]
    constructor
    · rintro ⟨i, hi, heq⟩
      exact ⟨i, (s.getElem?_nodes (mem_range.mp hi)).trans (eq_of_beq heq)⟩
    · rintro ⟨i, heq⟩
      have hi : i < s.size := by
        rw [← hlen]
        exact (List.getElem?_eq_some_iff.mp heq).1
      exact ⟨i, mem_range.mpr hi, beq_of_eq ((s.getElem?_nodes hi).symm.trans heq)⟩
  · intro hne
    change s.nodes ≠ [] at hne
    have hpos : 1 ≤ s.size := by
      rw [← hlen]
      exact length_pos_iff.mpr hne
    have htail : s.tail.nodes = s.nodes.drop 1 := by rw [tail, dif_pos hpos, nodes_part_rest]
    have hhead : some s.head = s.nodes[0]? := by
      have hlt : s.bound < s.memory.length := by
        have := s.fits
        omega
      rw [s.getElem?_nodes hpos, Nat.add_zero, head, getD_eq_getElem?_getD,
        List.getElem?_eq_getElem hlt]
      rfl
    change s.head :: s.tail.nodes = s.nodes
    obtain ⟨x, xs, hnodes⟩ := exists_cons_of_ne_nil hne
    rw [hnodes] at hhead htail ⊢
    rw [htail, some.inj hhead]
    rfl
  · intro p hp
    change p ∈ split s at hp
    unfold split at hp
    rw [mem_def, ite_none_right_eq_some] at hp
    obtain ⟨-, hp⟩ := hp
    obtain rfl := some.inj hp
    change (s.part 0 (s.size / 2) (by omega)).nodes ++
      (s.part (s.size / 2) (s.size - s.size / 2) (by omega)).nodes = s.nodes
    rw [nodes_part, nodes_part_rest]
    exact take_append_drop _ _
  · intro k hk
    change ((splitN k s).map nodes).flatten = s.nodes
    unfold splitN
    rcases Nat.eq_zero_or_pos s.size with hzero | hpos
    · have hnil : s.nodes = [] := eq_nil_of_length_eq_zero (by omega)
      simp [hzero, splitLoop, hnil]
    · obtain ⟨m, hm⟩ := exists_eq_succ_of_ne_zero (show min k s.size ≠ 0 by omega)
      simp only [hm]
      rw [succ_eq_add_one, nodes_splitLoop, drop_zero]

end ShallowList

/-- Which regions agree with the lists of their nodes: the aligned ranges, the lists that are sorted
when they say so, and all shallow lists. -/
theorem regions_agree_iff (lo hi stride : ℕ) (hstride : 1 ≤ stride) (hle : lo ≤ hi) (l : NodeList)
    (s : ShallowList) :
    ((∀ made, Range.ops.Agrees ⟨lo, hi, stride, made⟩) ↔ Range.Aligned lo hi stride) ∧
      (NodeList.ops.Agrees l ↔ (l.isSorted = true → l.nodes.Pairwise (· ≤ ·))) ∧
      ShallowList.ops.Agrees s :=
  ⟨Range.agrees_iff hstride hle, NodeList.agrees_iff l, ShallowList.agrees s⟩

/-- The nodes 4, 6, 8 and 10, and a list that is not sorted. -/
theorem regions_agree_iff_four :
    Range.ops.Agrees ⟨4, 12, 2, false⟩ ∧ NodeList.ops.Agrees ⟨[3, 1, 2], false⟩ := by
  have h := regions_agree_iff 4 12 2 (by decide) (by decide) ⟨[3, 1, 2], false⟩
    ⟨[5, 7], 0, 2, by decide⟩
  exact ⟨h.1.mpr (by decide) false, h.2.1.mpr (by simp)⟩

/-- The range 1, 3, 5 has size two and does not contain 3 before its list is made; the range 0, 2,
4 is split into 0, 2 and 3, 5; and the range of the node 0 only has no parts. -/
theorem range_disagrees :
    Range.makeList ⟨1, 6, 2, false⟩ = [1, 3, 5] ∧ Range.ops.getSize ⟨1, 6, 2, false⟩ = 2 ∧
      Range.ops.contains ⟨1, 6, 2, false⟩ 3 = some false ∧
      Range.makeList ⟨0, 6, 2, false⟩ = [0, 2, 4] ∧
      (Range.split ⟨0, 6, 2, false⟩).map (fun p => (p.1.makeList, p.2.makeList)) =
        some ([0, 2], [3, 5]) ∧
      Range.makeList ⟨0, 1, 2, false⟩ = [0] ∧ (Range.ops.splitN 2 ⟨0, 1, 2, false⟩).length = 0 ∧
      ¬ Range.ops.Agrees ⟨1, 6, 2, false⟩ := by
  refine ⟨by decide, by decide, by decide, by decide, by decide, by decide, by decide, ?_⟩
  intro h
  exact absurd h.getSize (by decide)

end VtRuntime.Group
