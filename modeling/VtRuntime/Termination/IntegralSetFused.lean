import Mathlib.Data.Finset.Max
import VtRuntime.Lib.Run
import VtRuntime.Termination.IntegralSet

/-!
# The interval set is maximally fused

The intervals of an `IntegralSet` are as few as possible: two of them never touch.  An insertion may
make an interval touch its neighbours, and fuses it with them; an erasure inside an interval leaves
two that do not touch.  The bounds are then the least and the greatest value, and the counter is the
number of values.

The source computes with the values of a type, and the sum of the greatest value and one is not such
a value.  Where there is room between the values of the set and the ends of the type, it computes as
with integers.  `clear` removes the intervals and leaves the counter as it is.  So what is said here
holds if there is room and only empty sets are cleared.
-/

namespace VtRuntime.Termination

open Lib List IntegralSet

/-- An interval lies to the left of another and does not touch it. -/
def Interval.Apart (i j : Interval) : Prop := i.ub + 1 < j.lb

/-- Non-empty intervals in increasing order, none touching another. -/
def Fused (l : List Interval) : Prop := (∀ i ∈ l, i.lb ≤ i.ub) ∧ l.Pairwise Interval.Apart

variable {l : List Interval} {i : Interval} {c : Cursor}

theorem Fused.ordered (h : Fused l) : Ordered l :=
  ⟨h.1, h.2.imp fun hij => (lt_add_one _).trans hij⟩

theorem fused_append {l₁ l₂ : List Interval} :
    Fused (l₁ ++ l₂) ↔ Fused l₁ ∧ Fused l₂ ∧ ∀ i ∈ l₁, ∀ j ∈ l₂, i.Apart j := by
  simp only [Fused, mem_append, pairwise_append, or_imp, forall_and]
  tauto

theorem fused_cons : Fused (i :: l) ↔ i.lb ≤ i.ub ∧ Fused l ∧ ∀ j ∈ l, i.Apart j := by
  simp only [Fused, mem_cons, pairwise_cons, or_imp, forall_and, forall_eq]
  tauto

/-! ## Fusing -/

theorem tangent_eq_right {j : Interval} (h : i.ub < j.lb) (hi : i.lb ≤ i.ub) (hj : j.lb ≤ j.ub) :
    i.tangent j = .tangentRight ↔ i.ub + 1 = j.lb := by
  unfold Interval.tangent
  rw [if_neg (by omega)]
  split_ifs with h' <;> simp <;> omega

/-- The intervals other than the one under the cursor do not touch each other. -/
structure Cursor.Loose (c : Cursor) : Prop where
  ordered : Ordered c.toList
  fused : Fused (c.before ++ c.after)

/-- After the left neighbour has been fused, nothing on the left touches the interval. -/
theorem Cursor.Loose.joinLeft (h : c.Loose) :
    c.joinLeft.Loose ∧ ∀ j ∈ c.joinLeft.before, j.Apart c.joinLeft.cur := by
  have hord := (joinLeft_spec h.ordered).1
  obtain ⟨-, hr, hlr⟩ := ordered_append.mp h.ordered
  cases hb : c.before.getLast? with
  | none =>
    have hnil : c.before = [] := List.getLast?_eq_none_iff.mp hb
    have hc : c.joinLeft = c := by simp only [Cursor.joinLeft, hb]
    rw [hc]
    refine ⟨h, ?_⟩
    simp [hnil]
  | some prev =>
    obtain ⟨b, hbefore⟩ := List.getLast?_eq_some_iff.mp hb
    have hfused := h.fused
    rw [hbefore, append_assoc] at hfused
    obtain ⟨hfb, hfr, hbr⟩ := fused_append.mp hfused
    have hprev : prev.ub < c.cur.lb := hlr prev (by simp [hbefore]) c.cur (by simp)
    have hvalid : prev.lb ≤ prev.ub := hfr.1 prev (by simp)
    -- what is further to the left does not even touch the left neighbour
    have hfar : ∀ j ∈ b, j.ub + 1 < prev.lb := fun j hj => hbr j hj prev (by simp)
    by_cases ht : c.cur.tangent prev = .tangentLeft
    · have hc : c.joinLeft = { c with before := b, cur := c.cur.join prev .tangentLeft } := by
        simp [Cursor.joinLeft, ht, hbefore]
      rw [hc] at hord ⊢
      refine ⟨⟨hord, ?_⟩, ?_⟩
      · refine fused_append.mpr ⟨hfb, (fused_append.mp hfr).2.1, ?_⟩
        intro i hi j hj
        exact hbr i hi j (mem_append_right _ hj)
      · intro j hj
        exact hfar j hj
    · have hc : c.joinLeft = c := by simp [Cursor.joinLeft, hb, ht]
      rw [hc]
      refine ⟨h, ?_⟩
      rw [tangent_eq_left] at ht
      intro j hj
      rw [hbefore, mem_append, mem_singleton] at hj
      rcases hj with hj | rfl
      · have := hfar j hj
        simp only [Interval.Apart]
        omega
      · simp only [Interval.Apart]
        omega

/-- After the right neighbour has been fused too, nothing touches the interval. -/
theorem Cursor.Loose.joinRight (h : c.Loose) (hleft : ∀ j ∈ c.before, j.Apart c.cur) :
    Fused c.joinRight.toList := by
  obtain ⟨hfb, hfa, hba⟩ := fused_append.mp h.fused
  obtain ⟨-, hr, -⟩ := ordered_append.mp h.ordered
  obtain ⟨hcur, -, hright⟩ := ordered_cons.mp hr
  -- the interval, with what is right of it, follows what is left of it
  have hcut : ∀ {i : Interval} {a : List Interval}, Fused (i :: a) → i.lb = c.cur.lb →
      (∀ j ∈ a, j ∈ c.after) → Fused (c.before ++ i :: a) := by
    intro i a hia hlb ha
    refine fused_append.mpr ⟨hfb, hia, ?_⟩
    intro j hj k hk
    rcases mem_cons.mp hk with rfl | hk
    · have := hleft j hj
      simp only [Interval.Apart] at this ⊢
      omega
    · exact hba j hj k (ha k hk)
  cases ha : c.after with
  | nil =>
    have hc : c.joinRight = c := by simp only [Cursor.joinRight, ha]
    rw [hc, Cursor.toList, ha]
    exact hcut (fused_cons.mpr ⟨hcur, ⟨by simp, by simp⟩, by simp⟩) rfl (by simp)
  | cons next rest =>
    rw [ha] at hfa hright
    obtain ⟨hnext, hrest, hnr⟩ := fused_cons.mp hfa
    have hlt := hright next (by simp)
    have ht := tangent_eq_right hlt hcur hnext
    by_cases htan : c.cur.tangent next = .tangentRight
    · have hc : c.joinRight = { c with cur := c.cur.join next .tangentRight, after := rest } := by
        simp [Cursor.joinRight, ha, htan]
      rw [hc, Cursor.toList]
      refine hcut (fused_cons.mpr ⟨?_, hrest, ?_⟩) rfl ?_
      · simp only [Interval.join]
        omega
      · exact hnr
      · intro j hj
        exact ha ▸ mem_cons_of_mem next hj
    · have hc : c.joinRight = c := by simp [Cursor.joinRight, ha, htan]
      rw [ht] at htan
      rw [hc, Cursor.toList, ha]
      refine hcut (fused_cons.mpr ⟨hcur, hfa, ?_⟩) rfl (by simp [ha])
      intro j hj
      simp only [Interval.Apart]
      rcases mem_cons.mp hj with rfl | hj
      · omega
      · have := hnr j hj
        simp only [Interval.Apart] at this
        omega

theorem Cursor.Loose.join (h : c.Loose) : Fused c.join.toList := by
  obtain ⟨hloose, hleft⟩ := h.joinLeft
  exact hloose.joinRight hleft

theorem loose_insertAt (h : Fused l) (hi : i.lb ≤ i.ub) (hf : find l i = none) :
    (insertAt l i).Loose := by
  refine ⟨(insertAt_of_disjoint h.ordered hi hf).1, ?_⟩
  simp only [insertAt, hf, Option.getD_none]
  rwa [takeWhile_append_dropWhile]

/-- An interval that has no value of the list meets none of its intervals. -/
theorem find_eq_none_of_disjoint (h : Ordered l) (hi : i.lb ≤ i.ub)
    (hdisj : ∀ v ∈ cover l, ¬(i.lb ≤ v ∧ v ≤ i.ub)) : find l i = none := by
  cases hf : find l i with
  | none => rfl
  | some c =>
    obtain ⟨hl, hlo, hhi⟩ := find_eq_some h hi hf
    have hmem : c.cur ∈ l := by simp [← hl, Cursor.toList]
    have hvalid := h.1 c.cur hmem
    exact absurd ⟨by omega, by omega⟩
      (hdisj (max c.cur.lb i.lb) (mem_cover.mpr ⟨c.cur, hmem, by omega, by omega⟩))

namespace IntegralSet

variable {s : IntegralSet}

theorem fused_insertSet {i : Interval} (h : Fused s.set) (hi : i.lb ≤ i.ub)
    (hf : find s.set i = none) : Fused (s.insertSet i).set :=
  (loose_insertAt h hi hf).join

/-- A bucket is replaced by an interval inside it. -/
theorem fused_replace {c : Cursor} {i : Interval} (h : Fused c.toList) (hi : i.lb ≤ i.ub)
    (hin : c.cur.lb ≤ i.lb ∧ i.ub ≤ c.cur.ub) : Fused (s.replace c i).set := by
  obtain ⟨hb, hr, hbr⟩ := fused_append.mp h
  obtain ⟨-, ha, hca⟩ := fused_cons.mp hr
  refine fused_append.mpr ⟨hb, fused_cons.mpr ⟨hi, ha, ?_⟩, ?_⟩
  · intro j hj
    have := hca j hj
    simp only [Interval.Apart] at this ⊢
    omega
  · intro j hj k hk
    rcases mem_cons.mp hk with rfl | hk
    · have := hbr j hj c.cur (by simp)
      simp only [Interval.Apart] at this ⊢
      omega
    · exact hbr j hj k (mem_cons_of_mem _ hk)

theorem fused_eraseBucket {c : Cursor} {v : ℤ} (h : Fused s.set)
    (hf : find s.set (.single v) = some c) : Fused (s.eraseBucket c v).set := by
  obtain ⟨hl, hlo, hhi⟩ := find_eq_some h.ordered le_rfl hf
  have hc : Fused c.toList := hl ▸ h
  simp only [Interval.single] at hlo hhi
  have hwidth : c.cur.width = c.cur.ub - c.cur.lb + 1 := rfl
  rw [eraseBucket]
  by_cases hw : c.cur.width = 1
  · rw [if_pos hw]
    obtain ⟨hb, hr, hbr⟩ := fused_append.mp hc
    refine fused_append.mpr ⟨hb, (fused_cons.mp hr).2.1, ?_⟩
    intro i hi j hj
    exact hbr i hi j (mem_cons_of_mem _ hj)
  rw [if_neg hw]
  by_cases hub : c.cur.ub = v
  · rw [if_pos hub]
    exact fused_replace hc (by simp only; omega) (by simp only; omega)
  rw [if_neg hub]
  by_cases hlb : c.cur.lb = v
  · rw [if_pos hlb]
    exact fused_replace hc (by simp only; omega) (by simp only; omega)
  · rw [if_neg hlb]
    exact fused_insertSet (fused_replace hc (by simp only; omega) (by simp only; omega))
      (by simp only; omega) (find_right_of_split hc.ordered (by omega) (by omega))

/-! ## The functions of the set -/

def clear (s : IntegralSet) : IntegralSet := { s with set := [], lb := 0, ub := 0, hint := none }

def lower (s : IntegralSet) : ℤ := s.lb

def upper (s : IntegralSet) : ℤ := s.ub

/-- `IntegralSet::empty`. -/
def isEmpty (s : IntegralSet) : Bool := s.elms == 0

/-- What the functions of the set say about a set of values. -/
structure Represents (s : IntegralSet) (values : Finset ℤ) : Prop where
  nonempty : ∀ i ∈ s.set, i.lb ≤ i.ub
  fused : s.set.Pairwise fun i j => i.ub + 1 < j.lb
  union : ∀ v, (∃ i ∈ s.set, i.lb ≤ v ∧ v ≤ i.ub) ↔ v ∈ values
  contains : ∀ v, s.contains v = true ↔ v ∈ values
  size : s.size = values.card
  isEmpty : s.isEmpty = true ↔ values = ∅
  lower : values.Nonempty → IsLeast (values : Set ℤ) s.lower
  upper : values.Nonempty → IsGreatest (values : Set ℤ) s.upper

/-- The invariant of the representation.  The bounds are values of the set. -/
structure Tight (s : IntegralSet) : Prop where
  wf : s.Wf
  exact : s.Exact
  fused : Fused s.set
  bounds : s.elements.Nonempty → s.lb ∈ s.elements ∧ s.ub ∈ s.elements

theorem Tight.represents (h : s.Tight) : s.Represents s.elements where
  nonempty := h.fused.1
  fused := h.fused.2
  union _ := mem_cover.symm
  contains := contains_iff h.wf
  size := h.exact
  isEmpty := by
    rw [isEmpty, beq_iff_eq, h.exact, Nat.cast_eq_zero, Finset.card_eq_zero]
  lower hne := ⟨(h.bounds hne).1, fun v hv => (h.wf.bounds v hv).1⟩
  upper hne := ⟨(h.bounds hne).2, fun v hv => (h.wf.bounds v hv).2⟩

theorem tight_empty : empty.Tight where
  wf := wf_empty
  exact := rfl
  fused := ⟨by simp [empty], by simp [empty]⟩
  bounds hne := by simp [elements, empty] at hne

section Insert

variable {i : Interval} (h : s.Tight) (hi : i.lb ≤ i.ub)
  (hdisj : ∀ v ∈ s.elements, ¬(i.lb ≤ v ∧ v ≤ i.ub))
include h hi hdisj

theorem find_of_disjoint : find s.set i = none := find_eq_none_of_disjoint h.wf.ordered hi hdisj

theorem elements_insertInterval :
    (s.insertInterval i).elements = Finset.Icc i.lb i.ub ∪ s.elements := by
  rw [insertInterval_elements, (insertSet_spec h.wf.ordered hi (find_of_disjoint h hi hdisj)).2]

theorem exact_insertInterval : (s.insertInterval i).Exact := by
  have hdisjoint : Disjoint (Finset.Icc i.lb i.ub) s.elements := by
    rw [Finset.disjoint_right]
    intro v hv hmem
    exact hdisj v hv (Finset.mem_Icc.mp hmem)
  rw [Exact, insertInterval_elms, elements_insertInterval h hi hdisj,
    Finset.card_union_of_disjoint hdisjoint, Int.card_Icc, h.exact, Interval.width]
  push_cast
  omega

theorem bounds_insertInterval : (s.insertInterval i).lb ∈ (s.insertInterval i).elements ∧
    (s.insertInterval i).ub ∈ (s.insertInterval i).elements := by
  have hlb : (s.insertInterval i).lb = (s.insertGlobal i).lb := rfl
  have hub : (s.insertInterval i).ub = (s.insertGlobal i).ub := rfl
  rw [elements_insertInterval h hi hdisj, hlb, hub, insertGlobal]
  simp only [Finset.mem_union, Finset.mem_Icc]
  split_ifs with h0
  · exact ⟨.inl ⟨le_rfl, hi⟩, .inl ⟨hi, le_rfl⟩⟩
  · have hne : s.elements.Nonempty := by
      rw [Finset.nonempty_iff_ne_empty]
      intro hempty
      apply h0
      rw [h.exact, hempty]
      rfl
    obtain ⟨hl, hu⟩ := h.bounds hne
    simp only
    constructor
    · rcases min_choice s.lb i.lb with hmin | hmin
      · rw [hmin]
        exact .inr hl
      · rw [hmin]
        exact .inl ⟨le_rfl, hi⟩
    · rcases max_choice s.ub i.ub with hmax | hmax
      · rw [hmax]
        exact .inr hu
      · rw [hmax]
        exact .inl ⟨hi, le_rfl⟩

theorem tight_insertInterval : (s.insertInterval i).Tight where
  wf := wf_insertInterval h.wf hi
  exact := exact_insertInterval h hi hdisj
  fused := by
    rw [insertInterval_set]
    exact fused_insertSet h.fused hi (find_of_disjoint h hi hdisj)
  bounds _ := bounds_insertInterval h hi hdisj

end Insert

/-- The first interval has the least value, and the last one the greatest. -/
theorem ends_mem {l : List Interval} (hl : ∀ i ∈ l, i.lb ≤ i.ub) (hne : l ≠ []) :
    (l.head?.map (·.lb)).getD 0 ∈ cover l ∧ (l.getLast?.map (·.ub)).getD 0 ∈ cover l := by
  rw [List.head?_eq_some_head hne, List.getLast?_eq_some_getLast hne]
  have hhead := head_mem hne
  have hlast := getLast_mem hne
  exact ⟨mem_cover.mpr ⟨_, hhead, le_rfl, hl _ hhead⟩, mem_cover.mpr ⟨_, hlast, hl _ hlast, le_rfl⟩⟩

section Erase

variable (h : s.Tight) (v : ℤ)
include h

theorem fused_erase : Fused (s.erase v).set := by
  unfold erase
  cases hf : find s.set (.single v) with
  | none => exact h.fused
  | some c => exact fused_eraseBucket h.fused hf

theorem bounds_erase (hne : (s.erase v).elements.Nonempty) :
    (s.erase v).lb ∈ (s.erase v).elements ∧ (s.erase v).ub ∈ (s.erase v).elements := by
  have helements := elements_erase h.wf v
  have hfused := fused_erase h v
  rw [helements] at hne
  obtain ⟨hlb, hub⟩ := h.bounds (hne.mono (Finset.erase_subset v _))
  cases hf : find s.set (.single v) with
  | none =>
    have hsame : s.erase v = s := by simp only [erase, hf]
    rw [hsame]
    exact ⟨hlb, hub⟩
  | some c =>
    have herase : s.erase v = (s.eraseBucket c v).eraseGlobal v := by simp only [erase, hf]
    have hset : (s.erase v).set ≠ [] := by
      intro hnil
      rw [← helements, elements, hnil] at hne
      simp at hne
    obtain ⟨hhead, hlast⟩ := ends_mem hfused.1 hset
    -- a bound that is another value stays, and one that is erased becomes the end of the list
    have hlow : (s.erase v).lb =
        if s.lb = v then ((s.erase v).set.head?.map (·.lb)).getD 0 else s.lb := by
      simp [herase, eraseGlobal]
    have hupp : (s.erase v).ub =
        if s.ub = v then ((s.erase v).set.getLast?.map (·.ub)).getD 0 else s.ub := by
      simp [herase, eraseGlobal]
    rw [hlow, hupp]
    constructor
    · split_ifs with hv
      · exact hhead
      · rw [helements]
        exact Finset.mem_erase.mpr ⟨hv, hlb⟩
    · split_ifs with hv
      · exact hlast
      · rw [helements]
        exact Finset.mem_erase.mpr ⟨hv, hub⟩

theorem tight_erase : (s.erase v).Tight where
  wf := wf_erase h.wf v
  exact := exact_erase h.wf h.exact v
  fused := fused_erase h v
  bounds := bounds_erase h v

end Erase

theorem tight_clear (h : s.Tight) (hempty : s.elements = ∅) : s.clear.Tight := by
  have hcount : s.clear.elms = 0 := by
    have := h.exact
    rw [Exact, hempty] at this
    exact this
  have hclear : s.clear.elements = ∅ := rfl
  refine ⟨⟨⟨by simp [clear], by simp [clear]⟩, by simp [hclear], by simp [hclear, hcount]⟩, ?_,
    ⟨by simp [clear], by simp [clear]⟩, by simp [hclear]⟩
  rw [Exact, hcount, hclear]
  rfl

end IntegralSet

/-! ## The values of a type -/

/-- A type `DomainT` of integers.  An expression with the exact value `x` has the value `arith x`,
which is `x` if it is a value of the type. -/
structure Domain where
  lo : ℤ
  hi : ℤ
  arith : ℤ → ℤ
  exact : ∀ x, lo ≤ x → x ≤ hi → arith x = x
  zero : lo ≤ 0 ∧ 0 ≤ hi
  small : hi < 2 ^ 64

namespace Domain

/-- `uint32_t`. -/
def uint32 : Domain where
  lo := 0
  hi := 2 ^ 32 - 1
  arith x := x % 2 ^ 32
  exact x hlo hhi := Int.emod_eq_of_lt hlo (by omega)
  zero := by decide
  small := by decide

variable (D : Domain) (s : IntegralSet) (i : Interval) (c : Cursor) (v : ℤ)

def width : ℤ := D.arith (D.arith (i.ub - i.lb) + 1)

def tangent (self i : Interval) : Position :=
  if self.lb = D.arith (i.ub + 1) then .tangentLeft
  else if self.ub = D.arith (i.lb - 1) then .tangentRight
  else .notTangent

def joinLeft : Cursor :=
  match c.before.getLast? with
  | some prev =>
      if D.tangent c.cur prev = .tangentLeft then
        { c with before := c.before.dropLast, cur := c.cur.join prev .tangentLeft }
      else c
  | none => c

def joinRight : Cursor :=
  match c.after with
  | next :: rest =>
      if D.tangent c.cur next = .tangentRight then
        { c with cur := c.cur.join next .tangentRight, after := rest }
      else c
  | [] => c

/-- The counter is a `std::size_t`. -/
def insertGlobal : IntegralSet :=
  { s.insertGlobal i with elms := (s.elms + D.width i) % 2 ^ 64 }

def insertSet : IntegralSet :=
  let c := D.joinRight (D.joinLeft (insertAt s.set i))
  { s with set := c.toList, hint := some c.cur }

def insertInterval : IntegralSet := D.insertSet (D.insertGlobal s i) i

def eraseGlobal (s : IntegralSet) (v : ℤ) : IntegralSet :=
  { s.eraseGlobal v with elms := (s.elms - 1) % 2 ^ 64 }

def eraseBucket : IntegralSet :=
  if D.width c.cur = 1 then
    { s with
      set := c.before ++ c.after
      hint := if s.hint = some c.cur then c.after.head? else s.hint }
  else if c.cur.ub = v then s.replace c ⟨c.cur.lb, D.arith (c.cur.ub - 1)⟩
  else if c.cur.lb = v then s.replace c ⟨D.arith (c.cur.lb + 1), c.cur.ub⟩
  else D.insertSet (s.replace c ⟨c.cur.lb, D.arith (v - 1)⟩) ⟨D.arith (v + 1), c.cur.ub⟩

def erase : IntegralSet :=
  match find s.set (.single v) with
  | none => s
  | some c => eraseGlobal (D.eraseBucket s c v) v

/-- The values are below the greatest one of the type, and fewer than that apart. -/
def Room (vs : Finset ℤ) : Prop :=
  ∀ v ∈ vs, (D.lo ≤ v ∧ v < D.hi) ∧ ∀ w ∈ vs, w - v < D.hi

instance (vs : Finset ℤ) : Decidable (D.Room vs) :=
  inferInstanceAs (Decidable (∀ v ∈ vs, (_ ∧ _) ∧ ∀ w ∈ vs, _))

variable {D s i c v} {vs ws : Finset ℤ} {l : List Interval}

theorem Room.mono (h : D.Room vs) (hsub : ws ⊆ vs) : D.Room ws :=
  fun v hv => ⟨(h v (hsub hv)).1, fun w hw => (h v (hsub hv)).2 w (hsub hw)⟩

theorem room_empty : D.Room ∅ := fun v hv => absurd hv (Finset.notMem_empty v)

theorem Room.card_le (h : D.Room vs) : (vs.card : ℤ) ≤ D.hi := by
  have hzero := D.zero.2
  rcases vs.eq_empty_or_nonempty with rfl | hne
  · simpa using hzero
  · have hsub : vs ⊆ Finset.Icc (vs.min' hne) (vs.min' hne + D.hi - 1) := by
      intro v hv
      have hfar := (h _ (vs.min'_mem hne)).2 v hv
      exact Finset.mem_Icc.mpr ⟨vs.min'_le v hv, by omega⟩
    have hcard := Finset.card_le_card hsub
    rw [Int.card_Icc] at hcard
    omega

/-- An interval of the list is inside of the type. -/
theorem Room.interval (h : D.Room (cover l)) (ho : Ordered l) (hi : i ∈ l) :
    D.lo ≤ i.lb ∧ i.lb ≤ i.ub ∧ i.ub < D.hi ∧ D.width i = i.width := by
  have hvalid := ho.1 i hi
  obtain ⟨hlb, hfar⟩ := h i.lb (mem_cover.mpr ⟨i, hi, le_rfl, hvalid⟩)
  have hmem : i.ub ∈ cover l := mem_cover.mpr ⟨i, hi, hvalid, le_rfl⟩
  have hwidth := hfar i.ub hmem
  have hzero := D.zero
  refine ⟨hlb.1, hvalid, (h i.ub hmem).1.2, ?_⟩
  rw [width, D.exact (i.ub - i.lb) (by omega) (by omega), D.exact _ (by omega) (by omega),
    Interval.width]

section

variable (ho : Ordered c.toList) (h : D.Room (cover c.toList))
include ho h

theorem joinLeft_eq : D.joinLeft c = c.joinLeft := by
  unfold joinLeft Cursor.joinLeft
  cases hb : c.before.getLast? with
  | none => rfl
  | some prev =>
    obtain ⟨hlo, hvalid, hhi, -⟩ := h.interval ho (mem_append_left _ (mem_of_getLast? hb))
    have heq : D.arith (prev.ub + 1) = prev.ub + 1 := D.exact _ (by omega) (by omega)
    have ht : D.tangent c.cur prev = .tangentLeft ↔ c.cur.tangent prev = .tangentLeft := by
      rw [tangent_eq_left, tangent, heq]
      split_ifs with h1 <;> simp [h1]
    simp only [ht]

theorem joinRight_eq : D.joinRight c = c.joinRight := by
  unfold joinRight Cursor.joinRight
  cases ha : c.after with
  | nil => rfl
  | cons next rest =>
    have hnext : next ∈ c.toList := by simp [Cursor.toList, ha]
    obtain ⟨hlo, hvalid, -⟩ := h.interval ho (i := c.cur) (by simp [Cursor.toList])
    obtain ⟨-, hvalid', hhi', -⟩ := h.interval ho hnext
    have hlt : c.cur.ub < next.lb :=
      (ordered_cons.mp (ordered_append.mp ho).2.1).2.2 next (by simp [ha])
    have ht : D.tangent c.cur next = c.cur.tangent next := by
      rw [tangent, Interval.tangent, D.exact _ (by omega) (by omega),
        D.exact _ (by omega) (by omega)]
    simp only [ht]

end

theorem insertSet_eq (ho : Ordered s.set) (hi : i.lb ≤ i.ub) (hf : find s.set i = none)
    (h : D.Room (Finset.Icc i.lb i.ub ∪ s.elements)) : D.insertSet s i = s.insertSet i := by
  obtain ⟨ho, hc⟩ := insertAt_of_disjoint ho hi hf
  obtain ⟨ho', hc'⟩ := joinLeft_spec ho
  have hroom : D.Room (cover (insertAt s.set i).toList) := hc ▸ h
  have hjoin : D.joinRight (D.joinLeft (insertAt s.set i)) = (insertAt s.set i).join := by
    rw [joinLeft_eq ho hroom, joinRight_eq ho' (hc' ▸ hroom), Cursor.join]
  simp only [insertSet, IntegralSet.insertSet, hjoin]

theorem insertInterval_eq (ht : s.Tight) (hi : i.lb ≤ i.ub)
    (hdisj : ∀ v ∈ s.elements, ¬(i.lb ≤ v ∧ v ≤ i.ub))
    (h : D.Room (Finset.Icc i.lb i.ub ∪ s.elements)) :
    D.insertInterval s i = s.insertInterval i := by
  have hf := find_of_disjoint ht hi hdisj
  obtain ⟨ho, hc⟩ := insertAt_of_disjoint ht.wf.ordered hi hf
  have hwidth : D.width i = i.width := by
    refine (Room.interval (hc ▸ h) ho ?_).2.2.2
    simp [insertAt, hf, Cursor.toList]
  have hcount : (s.elms + i.width) % 2 ^ 64 = s.elms + i.width := by
    rw [← insertInterval_elms, exact_insertInterval ht hi hdisj,
      elements_insertInterval ht hi hdisj]
    exact Int.emod_eq_of_lt (Int.natCast_nonneg _) (h.card_le.trans_lt D.small)
  have hglobal : D.insertGlobal s i = s.insertGlobal i := by
    rw [insertGlobal, hwidth, hcount, ← insertGlobal_elms]
  rw [insertInterval, hglobal, IntegralSet.insertInterval]
  refine insertSet_eq ?_ hi ?_ ?_
  · rw [insertGlobal_set]
    exact ht.wf.ordered
  · rw [insertGlobal_set]
    exact hf
  · rw [elements, insertGlobal_set]
    exact h

theorem eraseBucket_eq (ho : Ordered s.set) (hf : find s.set (.single v) = some c)
    (h : D.Room s.elements) : D.eraseBucket s c v = s.eraseBucket c v := by
  obtain ⟨hl, hlo, hhi⟩ := find_eq_some ho le_rfl hf
  simp only [Interval.single] at hlo hhi
  have hord : Ordered c.toList := hl.symm ▸ ho
  have hroom : D.Room (cover c.toList) := hl.symm ▸ h
  obtain ⟨hlow, -, hupp, hwidth⟩ := hroom.interval hord (i := c.cur) (by simp [Cursor.toList])
  rw [eraseBucket, IntegralSet.eraseBucket, hwidth]
  by_cases hw : c.cur.width = 1
  · rw [if_pos hw, if_pos hw]
  have hlt : c.cur.ub ≠ c.cur.lb := fun heq => hw (by rw [Interval.width]; omega)
  rw [if_neg hw, if_neg hw, D.exact (c.cur.ub - 1) (by omega) (by omega),
    D.exact (c.cur.lb + 1) (by omega) (by omega)]
  by_cases hub : c.cur.ub = v
  · rw [if_pos hub, if_pos hub]
  by_cases hlb : c.cur.lb = v
  · rw [if_neg hub, if_neg hub, if_pos hlb, if_pos hlb]
  rw [if_neg hub, if_neg hub, if_neg hlb, if_neg hlb, D.exact (v - 1) (by omega) (by omega),
    D.exact (v + 1) (by omega) (by omega)]
  have hin : Ordered (s.replace c ⟨c.cur.lb, v - 1⟩).set :=
    ordered_replace hord (by simp only; omega) (by simp only; omega)
  have hnone := find_right_of_split (s := s) hord (v := v) (by omega) (by omega)
  refine insertSet_eq hin (by simp only; omega) hnone (hroom.mono ?_)
  -- what is inserted with the rest are the values of the bucket without `v`
  rw [← (insertSet_spec hin (by simp only; omega) hnone).2,
    (split_spec hord (by omega) (by omega)).2]
  exact Finset.erase_subset v _

theorem erase_eq (ht : s.Tight) (hv : v ∈ s.elements) (h : D.Room s.elements) :
    D.erase s v = s.erase v := by
  unfold erase IntegralSet.erase
  cases hf : find s.set (.single v) with
  | none => rfl
  | some c =>
    have hpos : 0 < s.elms := by
      rw [ht.exact]
      exact_mod_cast Finset.card_pos.mpr ⟨v, hv⟩
    have hle := h.card_le.trans_lt D.small
    rw [← ht.exact] at hle
    have helms := (eraseBucket_frame s c v).2.2
    simp only [eraseBucket_eq ht.wf.ordered hf h, eraseGlobal, IntegralSet.eraseGlobal, helms]
    rw [Int.emod_eq_of_lt (by omega) (by omega)]

end Domain

/-! ## Sequences of operations -/

inductive SetOp
  | insert (v : ℤ)
  | insertInterval (i : Interval)
  | erase (v : ℤ)
  | clear

variable (D : Domain)

namespace SetOp

/-- The values are those of the type.  A value that is inserted is absent, and one that is erased is
present. -/
def Allowed (values : Finset ℤ) : SetOp → Prop
  | insert v => (D.lo ≤ v ∧ v ≤ D.hi) ∧ v ∉ values
  | insertInterval i => (D.lo ≤ i.lb ∧ i.ub ≤ D.hi) ∧ i.lb ≤ i.ub ∧
      ∀ v ∈ values, ¬(i.lb ≤ v ∧ v ≤ i.ub)
  | erase v => v ∈ values
  | clear => True

instance (values : Finset ℤ) : (op : SetOp) → Decidable (op.Allowed D values)
  | insert v => inferInstanceAs (Decidable (_ ∧ v ∉ values))
  | insertInterval _ => inferInstanceAs (Decidable (_ ∧ _ ∧ ∀ v ∈ values, ¬(_ ∧ _)))
  | erase v => inferInstanceAs (Decidable (v ∈ values))
  | clear => .isTrue trivial

def apply (s : IntegralSet) : SetOp → IntegralSet
  | insert v => D.insertInterval s (.single v)
  | insertInterval i => D.insertInterval s i
  | erase v => D.erase s v
  | clear => s.clear

/-- What the operation does to a set of values. -/
noncomputable def values (vs : Finset ℤ) : SetOp → Finset ℤ
  | insert v => Insert.insert v vs
  | insertInterval i => Finset.Icc i.lb i.ub ∪ vs
  | erase v => vs.erase v
  | clear => ∅

/-- The assertions of an operation. -/
def asserts (s : IntegralSet) : SetOp → Bool
  | insert v => s.validInsert (.single v)
  | insertInterval i => s.validInsert i
  | erase v => s.existsGlobal v && (find s.set (.single v)).isSome
  | clear => true

end SetOp

/-- A set, with the values that it should have. -/
structure SetRun where
  set : IntegralSet
  values : Finset ℤ

namespace SetRun

noncomputable def step (r : SetRun) (op : SetOp) : Option SetRun :=
  if op.Allowed D r.values then some ⟨op.apply D r.set, op.values r.values⟩ else none

def start : SetRun := ⟨.empty, ∅⟩

/-- There is room after an insertion, and only an empty set is cleared. -/
def Proper (r : SetRun) : SetOp → Prop
  | .clear => r.values = ∅
  | .erase _ => True
  | op => D.Room (op.values r.values)

noncomputable instance (r : SetRun) : (op : SetOp) → Decidable (r.Proper D op)
  | .clear => inferInstanceAs (Decidable (r.values = ∅))
  | .erase _ => .isTrue trivial
  | .insert _ | .insertInterval _ => inferInstanceAs (Decidable (D.Room _))

variable {D} {r r' : SetRun} {op : SetOp}

/-- The set is well represented and has the values that it should have, with room. -/
structure Good (D : Domain) (r : SetRun) : Prop where
  tight : r.set.Tight
  elements : r.set.elements = r.values
  room : D.Room r.values

theorem good_insertInterval {i : Interval} (h : r.Good D) (hi : i.lb ≤ i.ub)
    (hdisj : ∀ v ∈ r.values, ¬(i.lb ≤ v ∧ v ≤ i.ub))
    (hroom : D.Room (Finset.Icc i.lb i.ub ∪ r.values)) :
    (⟨D.insertInterval r.set i, Finset.Icc i.lb i.ub ∪ r.values⟩ : SetRun).Good D := by
  rw [← h.elements] at hdisj hroom ⊢
  rw [D.insertInterval_eq h.tight hi hdisj hroom]
  exact ⟨tight_insertInterval h.tight hi hdisj, elements_insertInterval h.tight hi hdisj, hroom⟩

/-- A value that is absent is an interval that has no value of the set. -/
theorem not_mem_single {values : Finset ℤ} {v : ℤ} (h : v ∉ values) :
    ∀ w ∈ values, ¬((Interval.single v).lb ≤ w ∧ w ≤ (Interval.single v).ub) := by
  rintro w hw ⟨hlo, hhi⟩
  obtain rfl : v = w := le_antisymm hlo hhi
  exact h hw

theorem good_step (h : r.Good D) (hok : r.Proper D op) (hs : r.step D op = some r') :
    r'.Good D := by
  obtain ⟨hop, rfl⟩ := of_guard hs
  cases op with
  | insert v =>
    have hvalues : Insert.insert v r.values =
        Finset.Icc (Interval.single v).lb (Interval.single v).ub ∪ r.values := by
      rw [Interval.single, Finset.Icc_self, Finset.insert_eq]
    have hroom : D.Room (Insert.insert v r.values) := hok
    rw [SetOp.apply, SetOp.values, hvalues]
    exact good_insertInterval h le_rfl (not_mem_single hop.2) (hvalues ▸ hroom)
  | insertInterval i => exact good_insertInterval h hop.2.1 hop.2.2 hok
  | erase v =>
    have hmem : v ∈ r.set.elements := h.elements ▸ hop
    rw [SetOp.apply, SetOp.values, ← h.elements, D.erase_eq h.tight hmem (h.elements ▸ h.room),
      ← elements_erase h.tight.wf]
    refine ⟨tight_erase h.tight v, rfl, ?_⟩
    rw [elements_erase h.tight.wf, h.elements]
    exact h.room.mono (Finset.erase_subset v _)
  | clear => exact ⟨tight_clear h.tight (h.elements.trans hok), rfl, D.room_empty⟩

theorem good_reach (h : Reach (· = start) (step D) (Proper D) r) : r.Good D := by
  refine h.invariant (fun r hr => ?_) fun r op r' hr hok hs => good_step hr hok hs
  subst hr
  exact ⟨tight_empty, rfl, D.room_empty⟩

theorem asserts_of_good (h : r.Good D) (hop : op.Allowed D r.values) : op.asserts r.set = true := by
  -- the assertion of an insertion is that the interval is new
  have hinsert : ∀ i : Interval, i.lb ≤ i.ub → (∀ v ∈ r.values, ¬(i.lb ≤ v ∧ v ≤ i.ub)) →
      r.set.validInsert i = true := by
    intro i hi hdisj
    rw [← h.elements] at hdisj
    simp [validInsert, find_eq_none_of_disjoint h.tight.wf.ordered hi hdisj]
  cases op with
  | insert v => exact hinsert _ le_rfl (not_mem_single hop.2)
  | insertInterval i => exact hinsert i hop.2.1 hop.2.2
  | erase v =>
    rw [SetOp.Allowed, ← h.elements, ← contains_iff h.tight.wf] at hop
    exact hop
  | clear => rfl

end SetRun

end VtRuntime.Termination
