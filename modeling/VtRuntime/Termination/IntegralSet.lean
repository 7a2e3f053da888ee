import Mathlib.Data.Int.ConditionallyCompleteOrder
import Mathlib.Data.Int.Interval
import Mathlib.Data.List.TakeWhile
import Mathlib.Tactic.Linarith

/-!
# The discrete interval set behind an epoch window

`termination/interval/interval.h` and `integral_set.h`: a set of integers stored as
an ordered `std::set` of inclusive intervals, together with global bounds, an element
counter and a cached insertion hint.  The `std::set` is a list in increasing order;
an iterator into it is a `Cursor`, the list cut at the element it points to.

The hint is the interval currently stored under the cached iterator (`none` for the
past-the-end iterator).  It never decides where an insertion lands: it only occurs in
the assertion `validInsert`, which the builds without assertions drop.
-/

namespace VtRuntime.Termination

open List
open Finset hiding mem_cons pairwise_cons mem_singleton

/-- An inclusive interval. -/
structure Interval where
  lb : ℤ
  ub : ℤ
  deriving DecidableEq, Repr

/-- Where an interval lies relative to another one it touches. -/
inductive Position
  | tangentLeft
  | notTangent
  | tangentRight
  deriving DecidableEq, Repr

namespace Interval

/-- The interval of one value. -/
def single (v : ℤ) : Interval := ⟨v, v⟩

def width (i : Interval) : ℤ := (i.ub - i.lb) + 1

/-- The strict order of the intervals in a set: entirely to the left. -/
def less (i₁ i₂ : Interval) : Bool := i₁.lb < i₂.lb && i₁.ub < i₂.lb

/-- Whether `i` is tangent to `self` within one unit, and on which side. -/
def tangent (self i : Interval) : Position :=
  if self.lb = i.ub + 1 then .tangentLeft
  else if self.ub = i.lb - 1 then .tangentRight
  else .notTangent

/-- Fuse `i`, tangent at `pos`, into `self`. -/
def join (self i : Interval) : Position → Interval
  | .tangentLeft => ⟨i.lb, self.ub⟩
  | .tangentRight => ⟨self.lb, i.ub⟩
  | .notTangent => self

end Interval

/-- An iterator into the ordered set: the elements before it, the element it points
to and the elements after it. -/
structure Cursor where
  before : List Interval
  cur : Interval
  after : List Interval

namespace Cursor

variable (c : Cursor)

def toList : List Interval := c.before ++ c.cur :: c.after

/-- Fuse the element on the left if it is tangent. -/
def joinLeft : Cursor :=
  match c.before.getLast? with
  | some prev =>
      if c.cur.tangent prev = .tangentLeft then
        { c with before := c.before.dropLast, cur := c.cur.join prev .tangentLeft }
      else c
  | none => c

/-- Fuse the element on the right if it is tangent. -/
def joinRight : Cursor :=
  match c.after with
  | next :: rest =>
      if c.cur.tangent next = .tangentRight then
        { c with cur := c.cur.join next .tangentRight, after := rest }
      else c
  | [] => c

def join : Cursor := c.joinLeft.joinRight

end Cursor

/-- `std::set::find`: the first element that is not to the left of `i`, unless it is
to the right of it. -/
def find (l : List Interval) (i : Interval) : Option Cursor :=
  match l.dropWhile (·.less i) with
  | j :: rest => if i.less j then none else some ⟨l.takeWhile (·.less i), j, rest⟩
  | [] => none

/-- `std::set::insert`: the position of the element equivalent to `i` if there is one,
else of `i` itself, placed in order. -/
def insertAt (l : List Interval) (i : Interval) : Cursor :=
  (find l i).getD ⟨l.takeWhile (·.less i), i, l.dropWhile (·.less i)⟩

/-- The interval set: ordered intervals, global bounds, element counter and hint. -/
structure IntegralSet where
  lb : ℤ
  ub : ℤ
  elms : ℤ
  set : List Interval
  hint : Option Interval
  deriving Repr

namespace IntegralSet

/-- The default-constructed set. -/
def empty : IntegralSet := ⟨0, 0, 0, [], none⟩

variable (s : IntegralSet) (i : Interval) (v : ℤ)

def size : ℤ := s.elms

def existsGlobal : Bool := s.lb ≤ v && v ≤ s.ub

/-- Membership as the source decides it: inside the global bounds and inside a bucket. -/
def contains : Bool :=
  s.existsGlobal v && (find s.set (.single v)).isSome

/-- Expand the global bounds and the element counter. -/
def insertGlobal : IntegralSet :=
  if s.elms = 0 then { s with lb := i.lb, ub := i.ub, elms := s.elms + i.width }
  else { s with lb := min s.lb i.lb, ub := max s.ub i.ub, elms := s.elms + i.width }

/-- Insert into the ordered set, then fuse with the tangent neighbours. -/
def insertSet : IntegralSet :=
  let c := (insertAt s.set i).join
  { s with set := c.toList, hint := some c.cur }

def insertInterval : IntegralSet :=
  (s.insertGlobal i).insertSet i

def insert : IntegralSet := s.insertInterval (.single v)

/-- The assertion of `insertSet` on behalf of `insertInterval`: the iterator returned
by the insertion is not the hint. -/
def validInsert : Bool :=
  match find s.set i with
  | some c => (if s.elms = 0 then none else s.hint) ≠ some c.cur
  | none => true

/-- Tighten the global bounds after `v` has left the ordered set. -/
def eraseGlobal : IntegralSet :=
  { s with
    lb := if s.lb = v then (s.set.head?.map (·.lb)).getD 0 else s.lb
    ub := if s.ub = v then (s.set.getLast?.map (·.ub)).getD 0 else s.ub
    elms := s.elms - 1 }

/-- Update the element under an iterator in place; the hint follows it. -/
def replace (c : Cursor) (i : Interval) : IntegralSet :=
  { s with
    set := { c with cur := i }.toList
    hint := if s.hint = some c.cur then some i else s.hint }

/-- Take `v` out of the bucket under the iterator: drop, shrink or split the bucket. -/
def eraseBucket (c : Cursor) (v : ℤ) : IntegralSet :=
  if c.cur.width = 1 then
    { s with
      set := c.before ++ c.after
      hint := if s.hint = some c.cur then c.after.head? else s.hint }
  else if c.cur.ub = v then s.replace c ⟨c.cur.lb, c.cur.ub - 1⟩
  else if c.cur.lb = v then s.replace c ⟨c.cur.lb + 1, c.cur.ub⟩
  else (s.replace c ⟨c.cur.lb, v - 1⟩).insertSet ⟨v + 1, c.cur.ub⟩

/-- Remove one value, if it is in a bucket. -/
def erase : IntegralSet :=
  match find s.set (.single v) with
  | none => s
  | some c => (s.eraseBucket c v).eraseGlobal v

end IntegralSet

/-! ## Ordered lists of intervals and the values they cover -/

/-- The values covered by a list of intervals. -/
noncomputable def cover : List Interval → Finset ℤ
  | [] => ∅
  | i :: l => Icc i.lb i.ub ∪ cover l

/-- Non-empty intervals in increasing order, none meeting another. -/
def Ordered (l : List Interval) : Prop :=
  (∀ i ∈ l, i.lb ≤ i.ub) ∧ l.Pairwise fun i j => i.ub < j.lb

@[simp] theorem cover_nil : cover [] = ∅ := rfl

@[simp] theorem cover_cons (i : Interval) (l : List Interval) :
    cover (i :: l) = Icc i.lb i.ub ∪ cover l := rfl

@[simp] theorem cover_append (l₁ l₂ : List Interval) :
    cover (l₁ ++ l₂) = cover l₁ ∪ cover l₂ := by
  induction l₁ with
  | nil => simp
  | cons i l₁ ih => simp [ih, union_assoc]

variable {l : List Interval} {i : Interval} {c : Cursor}

theorem mem_cover {v : ℤ} : v ∈ cover l ↔ ∃ i ∈ l, i.lb ≤ v ∧ v ≤ i.ub := by
  induction l with
  | nil => simp
  | cons i l ih => simp [ih]

/-- An ordered list is ordered on both sides of a cut, and the sides do not meet. -/
theorem ordered_append {l₁ l₂ : List Interval} :
    Ordered (l₁ ++ l₂) ↔
      Ordered l₁ ∧ Ordered l₂ ∧ ∀ i ∈ l₁, ∀ j ∈ l₂, i.ub < j.lb := by
  simp only [Ordered, mem_append, pairwise_append, or_imp, forall_and]
  tauto

theorem ordered_cons : Ordered (i :: l) ↔ i.lb ≤ i.ub ∧ Ordered l ∧ ∀ j ∈ l, i.ub < j.lb := by
  simp only [Ordered, mem_cons, pairwise_cons, or_imp, forall_and, forall_eq]
  tauto

theorem less_iff {j : Interval} (hi : i.lb ≤ i.ub) : i.less j = true ↔ i.ub < j.lb := by
  simp only [Interval.less, Bool.and_eq_true, decide_eq_true_eq]
  omega

/-- A successful search returns a cut of the list at an interval that meets `i`. -/
theorem find_eq_some (h : Ordered l) (hi : i.lb ≤ i.ub) (hf : find l i = some c) :
    c.toList = l ∧ c.cur.lb ≤ i.ub ∧ i.lb ≤ c.cur.ub := by
  unfold find at hf
  split at hf
  case h_2 => simp at hf
  case h_1 j rest hd =>
    split at hf
    · simp at hf
    · rename_i hlt
      rw [Option.some.injEq] at hf
      subst hf
      have hmem : j ∈ l := by
        have : j ∈ l.dropWhile (·.less i) := by simp [hd]
        exact (dropWhile_sublist _).mem this
      have hnl : ¬ j.less i = true := by
        have hne : l.dropWhile (·.less i) ≠ [] := by simp [hd]
        have := head_dropWhile_not (fun j : Interval => j.less i) hne
        simpa [hd] using this
      rw [less_iff (h.1 j hmem)] at hnl
      rw [less_iff hi] at hlt
      refine ⟨?_, by simp only; omega, by simp only; omega⟩
      rw [Cursor.toList, ← hd, takeWhile_append_dropWhile]

/-- A failed search leaves a place for `i`: everything before is to its left and
everything after is to its right. -/
theorem find_eq_none (h : Ordered l) (hi : i.lb ≤ i.ub) (hf : find l i = none) :
    (∀ j ∈ l.takeWhile (·.less i), j.ub < i.lb) ∧
      ∀ j ∈ l.dropWhile (·.less i), i.ub < j.lb := by
  constructor
  · intro j hj
    have hl : j ∈ l := (takeWhile_sublist _).mem hj
    exact (less_iff (h.1 j hl)).mp (mem_takeWhile_imp (p := fun k : Interval => k.less i) hj)
  · unfold find at hf
    split at hf
    case h_2 hd => simp [hd]
    case h_1 j rest hd =>
      have hij : i.ub < j.lb := by
        split at hf
        · rename_i hlt
          exact (less_iff hi).mp hlt
        · simp at hf
      have hord : Ordered (l.dropWhile (·.less i)) :=
        (ordered_append.mp (by rwa [takeWhile_append_dropWhile])).2.1
      rw [hd] at hord ⊢
      obtain ⟨hj, -, hlt⟩ := ordered_cons.mp hord
      intro k hk
      rcases mem_cons.mp hk with rfl | hk
      · exact hij
      · have := hlt k hk
        omega

/-- The search finds a value exactly when it is covered. -/
theorem find_single (h : Ordered l) (v : ℤ) : (find l (.single v)).isSome = true ↔ v ∈ cover l := by
  constructor
  · intro hs
    obtain ⟨c, hc⟩ := Option.isSome_iff_exists.mp hs
    obtain ⟨hl, hlo, hhi⟩ := find_eq_some h le_rfl hc
    exact mem_cover.mpr ⟨c.cur, by simp [← hl, Cursor.toList], hlo, hhi⟩
  · intro hv
    by_contra hn
    rw [Bool.not_eq_true, Option.isSome_eq_false_iff, Option.isNone_iff_eq_none] at hn
    obtain ⟨hb, ha⟩ := find_eq_none h le_rfl hn
    obtain ⟨i, hi, hlo, hhi⟩ := mem_cover.mp hv
    rw [← takeWhile_append_dropWhile (p := fun j => j.less (.single v)) (l := l)] at hi
    rcases (mem_append.mp hi).imp (hb i) (ha i) with hout | hout
    all_goals
      simp only [Interval.single] at hout
      omega

/-! ## Fusing -/

/-- Two intervals without a gap between them are one. -/
theorem fuse_spec {l r : List Interval} {i j k : Interval} (h : Ordered (l ++ i :: j :: r))
    (hij : j.lb = i.ub + 1) (hlb : k.lb = i.lb) (hub : k.ub = j.ub) :
    Ordered (l ++ k :: r) ∧ cover (l ++ k :: r) = cover (l ++ i :: j :: r) := by
  obtain ⟨hl, hr, hlr⟩ := ordered_append.mp h
  obtain ⟨hiv, hr, hir⟩ := ordered_cons.mp hr
  obtain ⟨hjv, ha, hja⟩ := ordered_cons.mp hr
  refine ⟨ordered_append.mpr
    ⟨hl, ordered_cons.mpr ⟨by omega, ha, by simpa [hub] using hja⟩, ?_⟩, ?_⟩
  · intro x hx y hy
    rcases mem_cons.mp hy with rfl | hy
    · simpa [hlb] using hlr x hx i (by simp)
    · exact hlr x hx y (by simp [hy])
  · ext v
    simp only [cover_append, cover_cons, mem_union, mem_Icc, hlb, hub]
    have : (i.lb ≤ v ∧ v ≤ j.ub) ↔
        (i.lb ≤ v ∧ v ≤ i.ub) ∨ (j.lb ≤ v ∧ v ≤ j.ub) := by omega
    rw [this, or_assoc]

theorem tangent_eq_left {j : Interval} : i.tangent j = .tangentLeft ↔ i.lb = j.ub + 1 := by
  unfold Interval.tangent
  split_ifs with h h' <;> simp [h]

theorem joinLeft_spec (h : Ordered c.toList) :
    Ordered c.joinLeft.toList ∧ cover c.joinLeft.toList = cover c.toList := by
  unfold Cursor.joinLeft
  split
  case h_2 => exact ⟨h, rfl⟩
  case h_1 prev hp =>
    split
    case isFalse => exact ⟨h, rfl⟩
    case isTrue ht =>
      have hb : c.before = c.before.dropLast ++ [prev] := by
        rw [dropLast_append_getLast? _ hp]
      simp only [Cursor.toList] at h ⊢
      rw [hb, append_assoc, singleton_append] at h ⊢
      rw [dropLast_concat]
      exact fuse_spec h (tangent_eq_left.mp ht) rfl rfl

theorem joinRight_spec (h : Ordered c.toList) :
    Ordered c.joinRight.toList ∧ cover c.joinRight.toList = cover c.toList := by
  unfold Cursor.joinRight
  split
  case h_2 => exact ⟨h, rfl⟩
  case h_1 next rest hn =>
    split
    case isFalse => exact ⟨h, rfl⟩
    case isTrue ht =>
      have hub : c.cur.ub = next.lb - 1 := by
        unfold Interval.tangent at ht
        split at ht
        · simp at ht
        · split at ht
          · assumption
          · simp at ht
      simp only [Cursor.toList, hn] at h ⊢
      exact fuse_spec h (by omega) rfl rfl

theorem join_spec (h : Ordered c.toList) :
    Ordered c.join.toList ∧ cover c.join.toList = cover c.toList := by
  obtain ⟨hl, hcl⟩ := joinLeft_spec h
  obtain ⟨hr, hcr⟩ := joinRight_spec hl
  exact ⟨hr, hcr.trans hcl⟩

/-! ## Insertion -/

theorem insertAt_of_find (hf : find l i = some c) : insertAt l i = c := by simp [insertAt, hf]

/-- Inserting an interval that meets none of the list places it in order. -/
theorem insertAt_of_disjoint (h : Ordered l) (hi : i.lb ≤ i.ub) (hf : find l i = none) :
    Ordered (insertAt l i).toList ∧
      cover (insertAt l i).toList = Icc i.lb i.ub ∪ cover l := by
  obtain ⟨hb, ha⟩ := find_eq_none h hi hf
  have hcut : Ordered (l.takeWhile (·.less i) ++ l.dropWhile (·.less i)) := by
    rwa [takeWhile_append_dropWhile]
  obtain ⟨hl, hr, hlr⟩ := ordered_append.mp hcut
  simp only [insertAt, hf, Option.getD_none, Cursor.toList]
  constructor
  · exact ordered_append.mpr ⟨hl, ordered_cons.mpr ⟨hi, hr, ha⟩, fun j hj =>
      forall_mem_cons.mpr ⟨hb j hj, hlr j hj⟩⟩
  · conv_rhs => rw [← takeWhile_append_dropWhile (p := fun j => j.less i) (l := l)]
    rw [cover_append, cover_append, cover_cons]
    ext v
    simp only [mem_union]
    tauto

namespace IntegralSet

variable (s : IntegralSet)

/-- The values of the set. -/
noncomputable def elements : Finset ℤ := cover s.set

/-- The representation invariant: ordered intervals within the global bounds, and a
counter that counts every element.  The counter may count an element twice: the
source increments it also when the inserted value is already present. -/
structure Wf : Prop where
  ordered : Ordered s.set
  bounds : ∀ v ∈ s.elements, s.lb ≤ v ∧ v ≤ s.ub
  counted : (s.elements.card : ℤ) ≤ s.elms

/-- The counter is the number of elements. -/
def Exact : Prop := s.elms = (s.elements.card : ℤ)

theorem wf_empty : empty.Wf := by
  refine ⟨⟨by simp [empty], by simp [empty]⟩, by simp [elements, empty], by simp [elements, empty]⟩

variable {s : IntegralSet} {i : Interval} {c : Cursor} {v : ℤ}

/-- Membership in the representation is membership in the set. -/
theorem contains_iff (h : s.Wf) (v : ℤ) : s.contains v = true ↔ v ∈ s.elements := by
  simp only [contains, existsGlobal, Bool.and_eq_true, decide_eq_true_eq, find_single h.ordered]
  constructor
  · exact fun hc => hc.2
  · intro hv
    exact ⟨h.bounds v hv, hv⟩

theorem mem_of_find (h : s.Wf) (hf : find s.set (.single v) = some c) : v ∈ s.elements :=
  (find_single h.ordered v).mp (by simp [hf])

theorem not_mem_of_find (h : s.Wf) (hf : find s.set (.single v) = none) : v ∉ s.elements := by
  rw [elements, ← find_single h.ordered, hf]
  simp

theorem elements_eq_empty (h : s.Wf) (h0 : s.elms = 0) : s.elements = ∅ := by
  have hc := h.counted
  rw [← card_eq_zero]
  omega

/-- The ordered set after an insertion does not depend on bounds and counter. -/
theorem insertSet_spec (h : Ordered s.set) (hi : i.lb ≤ i.ub) (hf : find s.set i = none) :
    Ordered (s.insertSet i).set ∧
      (s.insertSet i).elements = Icc i.lb i.ub ∪ s.elements := by
  obtain ⟨ho, hc⟩ := insertAt_of_disjoint h hi hf
  obtain ⟨hoj, hcj⟩ := join_spec ho
  exact ⟨hoj, hcj.trans hc⟩

/-- Inserting an interval that meets an element of the set changes no membership. -/
theorem insertSet_of_meets (h : Ordered s.set) (hi : i.lb ≤ i.ub) (hf : find s.set i = some c) :
    Ordered (s.insertSet i).set ∧ (s.insertSet i).elements = s.elements := by
  obtain ⟨hl, -, -⟩ := find_eq_some h hi hf
  have hc : insertAt s.set i = c := insertAt_of_find hf
  obtain ⟨hoj, hcj⟩ := join_spec (c := c) (by rw [hl]; exact h)
  simp only [insertSet, elements, hc]
  exact ⟨hoj, by rw [hcj, hl]⟩

@[simp] theorem insertGlobal_set (s : IntegralSet) (i : Interval) :
    (s.insertGlobal i).set = s.set := by
  unfold insertGlobal; split <;> rfl

@[simp] theorem insertGlobal_elms (s : IntegralSet) (i : Interval) :
    (s.insertGlobal i).elms = s.elms + i.width := by
  unfold insertGlobal; split <;> rfl

theorem insertInterval_elms (s : IntegralSet) (i : Interval) :
    (s.insertInterval i).elms = s.elms + i.width := insertGlobal_elms s i

theorem insertInterval_set (s : IntegralSet) (i : Interval) :
    (s.insertInterval i).set = (s.insertSet i).set := by
  simp only [insertInterval, insertSet, insertGlobal_set]

theorem insertInterval_elements (s : IntegralSet) (i : Interval) :
    (s.insertInterval i).elements = (s.insertSet i).elements := by
  rw [elements, insertInterval_set, elements]

theorem insertGlobal_bounds (h : s.Wf) (i : Interval) (hv : v ∈ s.elements ∨ i.lb ≤ v ∧ v ≤ i.ub) :
    (s.insertGlobal i).lb ≤ v ∧ v ≤ (s.insertGlobal i).ub := by
  unfold insertGlobal
  by_cases h0 : s.elms = 0
  · rw [if_pos h0]
    rcases hv with hv | hv
    · simp [elements_eq_empty h h0] at hv
    · exact hv
  · rw [if_neg h0]
    rcases hv with hv | hv
    · have := h.bounds v hv
      simp only
      omega
    · simp only
      omega

theorem elements_insert (h : s.Wf) (v : ℤ) :
    (s.insert v).elements = Insert.insert v s.elements := by
  rw [insert, insertInterval_elements]
  cases hf : find s.set (.single v) with
  | none =>
    rw [(insertSet_spec h.ordered le_rfl hf).2]
    ext w
    simp only [Interval.single, mem_union, mem_Icc, mem_insert]
    have : w ≤ v ∧ v ≤ w ↔ w = v := by omega
    tauto
  | some c =>
    have hv : v ∈ s.elements := mem_of_find h hf
    rw [(insertSet_of_meets h.ordered le_rfl hf).2, insert_eq_of_mem hv]

theorem wf_insertInterval (h : s.Wf) (hi : i.lb ≤ i.ub) : (s.insertInterval i).Wf := by
  have hcnt := h.counted
  obtain ⟨ho, hsub⟩ : Ordered (s.insertSet i).set ∧
      (s.insertSet i).elements ⊆ Icc i.lb i.ub ∪ s.elements := by
    cases hf : find s.set i with
    | none => exact (insertSet_spec h.ordered hi hf).imp_right Eq.subset
    | some c =>
      obtain ⟨ho, hc⟩ := insertSet_of_meets h.ordered hi hf
      exact ⟨ho, hc ▸ subset_union_right⟩
  rw [← insertInterval_elements] at hsub
  refine ⟨by rwa [insertInterval_set], ?_, ?_⟩
  · intro v hv
    have hin := hsub hv
    rw [mem_union, mem_Icc] at hin
    exact insertGlobal_bounds h i hin.symm
  · have hle := (card_le_card hsub).trans (card_union_le _ _)
    rw [Int.card_Icc] at hle
    rw [insertInterval_elms, Interval.width]
    omega

theorem wf_insert (h : s.Wf) (v : ℤ) : (s.insert v).Wf :=
  wf_insertInterval h le_rfl

/-- The counter stays exact when the inserted value is absent. -/
theorem exact_insert (h : s.Wf) (hx : s.Exact) (hv : v ∉ s.elements) : (s.insert v).Exact := by
  have hel : (s.insert v).elms = s.elms + 1 := by
    simp [insert, insertInterval_elms, Interval.width, Interval.single]
  rw [Exact, hel, elements_insert h, card_insert_of_notMem hv, hx]
  push_cast
  rfl

/-- An absent value passes the assertion of the insertion. -/
theorem validInsert_of_not_mem (h : s.Wf) (hv : v ∉ s.elements) :
    s.validInsert (.single v) = true := by
  have hf : find s.set (.single v) = none := by
    rw [← Option.isNone_iff_eq_none, ← Option.isSome_eq_false_iff, ← Bool.not_eq_true,
      find_single h.ordered]
    exact hv
  simp [validInsert, hf]

theorem elements_insertInterval_empty (hi : i.lb ≤ i.ub) :
    (empty.insertInterval i).elements = Icc i.lb i.ub ∧
      (empty.insertInterval i).Exact := by
  have he : (empty.insertInterval i).elements = Icc i.lb i.ub := by
    rw [insertInterval_elements, (insertSet_spec wf_empty.ordered hi (by simp [empty, find])).2]
    simp [elements, empty]
  refine ⟨he, ?_⟩
  rw [Exact, he, insertInterval_elms, Int.card_Icc]
  simp only [empty, Interval.width]
  omega

/-! ## Removal -/

theorem eraseGlobal_bounds (h : Ordered s.set) {w : ℤ} (hb : s.lb ≤ w ∧ w ≤ s.ub)
    (hw : w ∈ s.elements) : (s.eraseGlobal v).lb ≤ w ∧ w ≤ (s.eraseGlobal v).ub := by
  obtain ⟨i, hi, hlo, hhi⟩ := mem_cover.mp hw
  have hlow : ∀ j, s.set.head? = some j → j.lb ≤ w := by
    intro j hj
    obtain ⟨t, ht⟩ := List.head?_eq_some_iff.mp hj
    rw [ht] at hi h
    obtain ⟨hjv, -, hlt⟩ := ordered_cons.mp h
    rcases mem_cons.mp hi with rfl | hi
    · exact hlo
    · have := hlt i hi
      omega
  have hupp : ∀ j, s.set.getLast? = some j → w ≤ j.ub := by
    intro j hj
    obtain ⟨t, ht⟩ := List.getLast?_eq_some_iff.mp hj
    rw [ht] at hi h
    obtain ⟨-, hj', hlt⟩ := ordered_append.mp h
    rcases mem_append.mp hi with hi | hi
    · have := hlt i hi j (by simp)
      have := hj'.1 j (by simp)
      omega
    · rw [mem_singleton] at hi
      exact hi ▸ hhi
  have hne : s.set ≠ [] := ne_nil_of_mem hi
  unfold eraseGlobal
  constructor
  · simp only
    split
    · cases hh : s.set.head? with
      | none => exact absurd (List.head?_eq_none_iff.mp hh) hne
      | some j => simpa using hlow j hh
    · exact hb.1
  · simp only
    split
    · cases hh : s.set.getLast? with
      | none => exact absurd (List.getLast?_eq_none_iff.mp hh) hne
      | some j => simpa using hupp j hh
    · exact hb.2

/-- Replacing a bucket by intervals inside it keeps the order. -/
theorem ordered_cut {b a m : List Interval} (h : Ordered (b ++ i :: a)) (hmid : Ordered m)
    (hin : ∀ j ∈ m, i.lb ≤ j.lb ∧ j.ub ≤ i.ub) : Ordered (b ++ (m ++ a)) := by
  obtain ⟨hb, hr, hbr⟩ := ordered_append.mp h
  obtain ⟨hi, ha, hia⟩ := ordered_cons.mp hr
  refine ordered_append.mpr ⟨hb, ordered_append.mpr ⟨hmid, ha, ?_⟩, ?_⟩
  · intro j hj k hk
    have := hia k hk
    have := hin j hj
    omega
  · intro j hj k hk
    rcases mem_append.mp hk with hk | hk
    · have := hbr j hj i (by simp)
      have := hin k hk
      omega
    · exact hbr j hj k (by simp [hk])

/-- Replacing a bucket by its values other than `v` removes exactly `v`. -/
theorem cover_cut {b a m : List Interval} (h : Ordered (b ++ i :: a)) (hv : i.lb ≤ v ∧ v ≤ i.ub)
    (hmid : cover m = (Icc i.lb i.ub).erase v) :
    cover (b ++ (m ++ a)) = (cover (b ++ i :: a)).erase v := by
  obtain ⟨-, hr, hbr⟩ := ordered_append.mp h
  obtain ⟨-, -, hia⟩ := ordered_cons.mp hr
  have hvb : v ∉ cover b := by
    intro hc
    obtain ⟨j, hj, -, hhi⟩ := mem_cover.mp hc
    have := hbr j hj i (by simp)
    omega
  have hva : v ∉ cover a := by
    intro hc
    obtain ⟨j, hj, hlo, -⟩ := mem_cover.mp hc
    have := hia j hj
    omega
  rw [cover_append, cover_append, cover_append, cover_cons, hmid, erase_union_distrib,
    erase_union_distrib, erase_eq_of_notMem hvb, erase_eq_of_notMem hva]

section

variable (h : Ordered (c.before ++ c.cur :: c.after))
include h

/-- A bucket is replaced by an interval inside it. -/
theorem ordered_replace (hi : i.lb ≤ i.ub) (hin : c.cur.lb ≤ i.lb ∧ i.ub ≤ c.cur.ub) :
    Ordered (s.replace c i).set := by
  refine ordered_cut h (m := [i]) ?_ (by simpa using hin)
  simpa [Ordered] using hi

/-- A bucket that `v` is at an end of is shortened. -/
theorem shrink_spec (hv : c.cur.lb ≤ v ∧ v ≤ c.cur.ub) (hi : i.lb ≤ i.ub)
    (hin : c.cur.lb ≤ i.lb ∧ i.ub ≤ c.cur.ub)
    (hcut : ∀ w, i.lb ≤ w ∧ w ≤ i.ub ↔ w ≠ v ∧ c.cur.lb ≤ w ∧ w ≤ c.cur.ub) :
    Ordered (s.replace c i).set ∧
      (s.replace c i).elements = (cover (c.before ++ c.cur :: c.after)).erase v := by
  refine ⟨ordered_replace h hi hin, cover_cut h hv (m := [i]) ?_⟩
  ext w
  rw [cover_cons, cover_nil, union_empty, mem_erase, mem_Icc, mem_Icc]
  exact hcut w

/-- The right part of a split bucket meets no bucket when the left part has replaced it. -/
theorem find_right_of_split (hlo : c.cur.lb < v) (hhi : v < c.cur.ub) :
    find (s.replace c ⟨c.cur.lb, v - 1⟩).set ⟨v + 1, c.cur.ub⟩ = none := by
  have ho : Ordered (s.replace c ⟨c.cur.lb, v - 1⟩).set :=
    ordered_replace h (by simp only; omega) (by simp only; omega)
  cases hf : find (s.replace c ⟨c.cur.lb, v - 1⟩).set ⟨v + 1, c.cur.ub⟩ with
  | none => rfl
  | some d =>
    exfalso
    obtain ⟨hd, hdlo, hdhi⟩ := find_eq_some ho (by simp only; omega) hf
    have hmem : d.cur ∈ (s.replace c ⟨c.cur.lb, v - 1⟩).set := by
      rw [← hd]
      simp [Cursor.toList]
    obtain ⟨-, hr, hbr⟩ := ordered_append.mp h
    obtain ⟨-, -, hia⟩ := ordered_cons.mp hr
    simp only [replace, Cursor.toList, mem_append, mem_cons] at hmem hdlo hdhi
    rcases hmem with hm | hm | hm
    · have := hbr _ hm c.cur (by simp)
      omega
    · rw [hm] at hdhi
      simp only at hdhi
      omega
    · have := hia _ hm
      omega

theorem split_spec (hlo : c.cur.lb < v) (hhi : v < c.cur.ub) :
    Ordered ((s.replace c ⟨c.cur.lb, v - 1⟩).insertSet ⟨v + 1, c.cur.ub⟩).set ∧
      ((s.replace c ⟨c.cur.lb, v - 1⟩).insertSet ⟨v + 1, c.cur.ub⟩).elements =
        (cover (c.before ++ c.cur :: c.after)).erase v := by
  have ho : Ordered (s.replace c ⟨c.cur.lb, v - 1⟩).set :=
    ordered_replace h (by simp only; omega) (by simp only; omega)
  obtain ⟨hord, hcov⟩ := insertSet_spec ho (by simp only; omega) (find_right_of_split h hlo hhi)
  refine ⟨hord, hcov.trans ?_⟩
  have hsplit : cover [⟨v + 1, c.cur.ub⟩, ⟨c.cur.lb, v - 1⟩] =
      (Icc c.cur.lb c.cur.ub).erase v := by
    ext w
    simp only [cover_cons, cover_nil, union_empty, mem_union, mem_erase,
      mem_Icc]
    omega
  rw [← cover_cut h ⟨hlo.le, hhi.le⟩ hsplit]
  ext w
  simp only [elements, replace, Cursor.toList, cover_append, cover_cons, cover_nil,
    union_empty, mem_union]
  tauto

end

/-- Taking `v` out of its bucket removes `v` and nothing else. -/
theorem eraseBucket_spec (h : Ordered s.set) (hf : find s.set (.single v) = some c) :
    Ordered (s.eraseBucket c v).set ∧ (s.eraseBucket c v).elements = s.elements.erase v := by
  obtain ⟨hl, hlo, hhi⟩ := find_eq_some h le_rfl hf
  have hv : c.cur.lb ≤ v ∧ v ≤ c.cur.ub := ⟨hlo, hhi⟩
  have hord : Ordered c.toList := hl.symm ▸ h
  have hel : s.elements = cover (c.before ++ c.cur :: c.after) := by
    rw [elements, ← hl, Cursor.toList]
  have hwidth : c.cur.width = c.cur.ub - c.cur.lb + 1 := rfl
  rw [hel, eraseBucket]
  by_cases hw : c.cur.width = 1
  · have hmid : cover [] = (Icc c.cur.lb c.cur.ub).erase v := by
      ext w
      simp only [cover_nil, notMem_empty, mem_erase, mem_Icc, false_iff]
      omega
    rw [if_pos hw]
    exact ⟨ordered_cut hord (m := []) (by simp [Ordered]) (by simp), cover_cut hord hv hmid⟩
  rw [if_neg hw]
  by_cases hub : c.cur.ub = v
  · rw [if_pos hub]
    exact shrink_spec hord hv (by simp only; omega) (by simp only; omega) fun w => by
      simp only; omega
  rw [if_neg hub]
  by_cases hlb : c.cur.lb = v
  · rw [if_pos hlb]
    exact shrink_spec hord hv (by simp only; omega) (by simp only; omega) fun w => by
      simp only; omega
  · rw [if_neg hlb]
    exact split_spec hord (by omega) (by omega)

theorem elements_erase (h : s.Wf) (v : ℤ) : (s.erase v).elements = s.elements.erase v := by
  unfold erase
  cases hf : find s.set (.single v) with
  | none => exact (erase_eq_of_notMem (not_mem_of_find h hf)).symm
  | some c => exact (eraseBucket_spec h.ordered hf).2

@[simp] theorem eraseBucket_frame (s : IntegralSet) (c : Cursor) (v : ℤ) :
    (s.eraseBucket c v).lb = s.lb ∧ (s.eraseBucket c v).ub = s.ub ∧
      (s.eraseBucket c v).elms = s.elms := by
  unfold eraseBucket; split_ifs <;> exact ⟨rfl, rfl, rfl⟩

theorem wf_erase (h : s.Wf) (v : ℤ) : (s.erase v).Wf := by
  unfold erase
  cases hf : find s.set (.single v) with
  | none => exact h
  | some c =>
    obtain ⟨ho, he⟩ := eraseBucket_spec h.ordered hf
    have hcard := card_erase_of_mem (mem_of_find h hf)
    have hpos := card_pos.mpr ⟨v, mem_of_find h hf⟩
    have hcnt := h.counted
    refine ⟨ho, ?_, ?_⟩
    · intro w hw
      have hw' : w ∈ (s.eraseBucket c v).elements := hw
      have hb := h.bounds w (mem_of_mem_erase (he ▸ hw'))
      exact eraseGlobal_bounds ho (by simpa using hb) hw'
    · have hel : ((s.eraseBucket c v).eraseGlobal v).elms = s.elms - 1 := by
        simp [eraseGlobal]
      have hset : ((s.eraseBucket c v).eraseGlobal v).elements = s.elements.erase v := he
      rw [hel, hset, hcard]
      omega

theorem exact_erase (h : s.Wf) (hx : s.Exact) (v : ℤ) : (s.erase v).Exact := by
  rw [Exact, elements_erase h]
  unfold erase
  cases hf : find s.set (.single v) with
  | none =>
    simp only
    rw [erase_eq_of_notMem (not_mem_of_find h hf), hx]
  | some c =>
    have hpos := card_pos.mpr ⟨v, mem_of_find h hf⟩
    simp only [eraseGlobal, eraseBucket_frame]
    rw [card_erase_of_mem (mem_of_find h hf), hx]
    omega

end IntegralSet
end VtRuntime.Termination
