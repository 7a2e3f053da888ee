import Mathlib.Algebra.Order.Ring.Rat
import Mathlib.Order.WithBot

/-!
# The least loaded child in the hierarchical balancer

A node keeps an entry for each of its children in the tree and, once all of them have reported,
gives objects to the child of least load per node, as `findMinChild` finds it.

A leaf of the tree without final children reports the sentinel `-1` as its load and no nodes.  The
scan asks whether the child found so far is live, not whether the next one is, and `-1 / 0` is
below every load.  So the scan takes such a leaf, and then keeps it because it is not live.  If no
child is live the search for the first live one reads past the end of the table.
-/

namespace VtRuntime.Balance

def hierlbNoLoadSentinel : ℚ := -1

/-- A report of a child: of a node about itself, of an inner node about the live children below it,
or of a leaf without children. -/
structure ChildReport where
  load : ℚ
  size : ℕ
  sent : 0 < size ∧ 0 ≤ load ∨ size = 0 ∧ (load = 0 ∨ load = hierlbNoLoadSentinel)

/-- The entry of a child.  The entries of a run have nodes if and only if they are live. -/
structure HierLBChild where
  isLive : Bool
  curLoad : ℚ
  nodeSize : ℕ
  live : isLive = true → 0 < nodeSize
  dead : isLive = false → nodeSize = 0 ∧ (curLoad = 0 ∨ curLoad = hierlbNoLoadSentinel)

namespace HierLBChild

/-- What `lbTreeUp` makes of the entry of the child that reports. -/
def lbTreeUp (r : ChildReport) : HierLBChild where
  isLive := decide (0 < r.size ∧ r.load ≠ hierlbNoLoadSentinel)
  curLoad := r.load
  nodeSize := r.size
  live h := (of_decide_eq_true h).1
  dead h := by
    refine r.sent.resolve_left fun ⟨hsize, hload⟩ => of_decide_eq_false h ⟨hsize, fun hs => ?_⟩
    exact absurd (hs ▸ hload) (by decide +kernel)

variable (c : HierLBChild)

/-- An object is given to a child that has nodes. -/
def push (load : ℚ) (h : c.nodeSize ≠ 0) : HierLBChild where
  __ := c
  curLoad := c.curLoad + load
  dead hd := absurd (c.dead hd).1 h

/-- The load for each node. -/
def share : ℚ := c.curLoad / c.nodeSize

/-- The quotient as the code computes it, `none` for a quotient that is not a number. -/
def relLoad : Option (WithBot (WithTop ℚ)) :=
  if c.nodeSize = 0 then
    if c.curLoad = 0 then none else if c.curLoad < 0 then some ⊥ else some ⊤
  else some (c.share : WithTop ℚ)

/-- `load < cur_load`, false if one of them is not a number. -/
def below (c cur : HierLBChild) : Bool :=
  match c.relLoad, cur.relLoad with
  | some load, some curLoad => decide (load < curLoad)
  | _, _ => false

/-- One turn of the scan. -/
def closer (cur c : HierLBChild) : HierLBChild :=
  if c.below cur ∧ cur.isLive then c else cur

end HierLBChild

open HierLBChild

/-- The first loop.  It reads an entry before it asks whether there is one. -/
def skipDead : List HierLBChild → Except String (List HierLBChild)
  | [] => .error "read past the end of children"
  | c :: rest => if c.isLive then .ok (c :: rest) else skipDead rest

def findMinChild (children : List HierLBChild) : Except String (Option HierLBChild) :=
  match skipDead children with
  | .error e => .error e
  | .ok [] => .ok none
  | .ok (cur :: _) => .ok (some (children.foldl closer cur))

/-- A live child of least load is returned if there is one, and otherwise no child that gets
load. -/
structure MinChild (children : List HierLBChild) : Prop where
  least : (∃ c ∈ children, c.isLive = true) → ∃ c ∈ children,
    findMinChild children = .ok (some c) ∧ c.isLive = true ∧
      ∀ d ∈ children, d.isLive = true → c.share ≤ d.share
  none : (∀ c ∈ children, c.isLive = false) →
    ∃ r, findMinChild children = .ok r ∧ ∀ c ∈ r, c.nodeSize = 0

/-! ## The scan -/

namespace HierLBChild

variable {c cur : HierLBChild} {children : List HierLBChild}

theorem relLoad_live (h : c.isLive = true) : c.relLoad = some (c.share : WithTop ℚ) :=
  if_neg (c.live h).ne'

theorem closer_live (hc : c.isLive = true) (hcur : cur.isLive = true) :
    cur.closer c = if c.share < cur.share then c else cur := by
  simp [closer, below, relLoad_live hc, relLoad_live hcur, hcur]

/-- A load that is not a number is below nothing. -/
theorem closer_idle (hc : c.isLive = false) (h : c.curLoad ≠ hierlbNoLoadSentinel) :
    cur.closer c = cur := by
  obtain ⟨hsize, hload⟩ := c.dead hc
  simp [closer, below, relLoad, hsize, hload.resolve_right h]

/-- A sentinel is not passed over. -/
theorem closer_sentinel (hc : c.isLive = false) (h : c.curLoad = hierlbNoLoadSentinel) :
    (cur.closer c).isLive = false := by
  cases hcur : cur.isLive with
  | false => simp [closer, hcur]
  | true =>
    have hbot : c.relLoad = some ⊥ := by simp [relLoad, (c.dead hc).1, h, hierlbNoLoadSentinel]
    simp [closer, below, hbot, relLoad_live hcur, hcur, hc]

theorem closer_least (hcur : cur.isLive = true)
    (h : c.isLive = false → c.curLoad ≠ hierlbNoLoadSentinel) : (cur.closer c).isLive = true ∧
      (cur.closer c).share ≤ cur.share ∧ (c.isLive = true → (cur.closer c).share ≤ c.share) := by
  cases hc : c.isLive with
  | false =>
    rw [closer_idle hc (h hc)]
    exact ⟨hcur, le_rfl, fun hlive => absurd hlive Bool.false_ne_true⟩
  | true =>
    rw [closer_live hc hcur]
    split_ifs with hlt
    · exact ⟨hc, hlt.le, fun _ => le_rfl⟩
    · exact ⟨hcur, le_rfl, fun _ => not_lt.mp hlt⟩

/-- Without sentinels the scan finds a live child of least load. -/
theorem foldl_closer_least (hcur : cur.isLive = true)
    (h : ∀ c ∈ children, c.isLive = false → c.curLoad ≠ hierlbNoLoadSentinel) :
    (children.foldl closer cur).isLive = true ∧ (children.foldl closer cur).share ≤ cur.share ∧
      ∀ d ∈ children, d.isLive = true → (children.foldl closer cur).share ≤ d.share := by
  induction children generalizing cur with
  | nil => simp [hcur]
  | cons c children ih =>
    rw [List.forall_mem_cons] at h
    obtain ⟨hlive, hle, hc⟩ := closer_least hcur h.1
    obtain ⟨hr, hrle, hleast⟩ := ih hlive h.2
    exact ⟨hr, hrle.trans hle, List.forall_mem_cons.mpr ⟨fun hd => hrle.trans (hc hd), hleast⟩⟩

/-- With a sentinel it ends at a child that is not live. -/
theorem foldl_closer_sentinel (hmem : c ∈ children) (hc : c.isLive = false)
    (h : c.curLoad = hierlbNoLoadSentinel) : (children.foldl closer cur).isLive = false := by
  obtain ⟨before, after, rfl⟩ := List.append_of_mem hmem
  rw [List.foldl_append, List.foldl_cons]
  refine List.foldlRecOn (motive := (·.isLive = false)) after closer (closer_sentinel hc h) ?_
  exact fun b hb a _ => by simp [closer, hb]

theorem foldl_closer_mem (h : cur ∈ children) : children.foldl closer cur ∈ children := by
  refine List.foldlRecOn children closer h fun b hb a ha => ?_
  rw [closer]
  split_ifs
  · exact ha
  · exact hb

end HierLBChild

variable {children : List HierLBChild}

theorem skipDead_of_live (h : ∃ c ∈ children, c.isLive = true) :
    ∃ cur ∈ children, cur.isLive = true ∧ ∃ rest, skipDead children = .ok (cur :: rest) := by
  induction children with
  | nil => simp at h
  | cons c children ih =>
    cases hc : c.isLive with
    | true => exact ⟨c, List.mem_cons_self, hc, children, if_pos hc⟩
    | false =>
      obtain ⟨cur, hmem, hlive, rest, hskip⟩ := ih (by simpa [hc] using h)
      exact ⟨cur, List.mem_cons_of_mem c hmem, hlive, rest, by simp [skipDead, hc, hskip]⟩

theorem skipDead_of_dead (h : ∀ c ∈ children, c.isLive = false) :
    skipDead children = .error "read past the end of children" := by
  induction children with
  | nil => rfl
  | cons c children ih =>
    rw [List.forall_mem_cons] at h
    simp [skipDead, h.1, ih h.2]

/-- The scan is right for the tables with a live child and without a sentinel. -/
theorem minChild_iff (children : List HierLBChild) : MinChild children ↔
    (∃ c ∈ children, c.isLive = true) ∧
      ∀ c ∈ children, c.isLive = false → c.curLoad ≠ hierlbNoLoadSentinel := by
  by_cases hlive : ∃ c ∈ children, c.isLive = true
  · obtain ⟨cur, hmem, hcur, rest, hskip⟩ := skipDead_of_live hlive
    have hfind : findMinChild children = .ok (some (children.foldl closer cur)) := by
      simp [findMinChild, hskip]
    refine ⟨fun h => ⟨hlive, fun c hc hdead hs => ?_⟩, fun h => ⟨fun _ => ?_, fun hdead => ?_⟩⟩
    · obtain ⟨r, -, hr, hrlive, -⟩ := h.least hlive
      obtain rfl : children.foldl closer cur = r := by simpa [hfind] using hr
      exact absurd hrlive (by simp [foldl_closer_sentinel hc hdead hs])
    · obtain ⟨hr, -, hleast⟩ := foldl_closer_least hcur h.2
      exact ⟨_, foldl_closer_mem hmem, hfind, hr, hleast⟩
    · exact absurd hcur (by simp [hdead cur hmem])
  · have hdead : ∀ c ∈ children, c.isLive = false := by simpa using hlive
    refine ⟨fun h => ?_, fun h => absurd h.1 hlive⟩
    obtain ⟨r, hr, -⟩ := h.none hdead
    simp [findMinChild, skipDead_of_dead hdead] at hr

/-- The children of node 1 among seven nodes.  Node 3 is a leaf without final children, and nodes 0
and 1 have reported to node 4. -/
theorem findMinChild_takes_dead : ∃ c : HierLBChild,
    findMinChild [lbTreeUp ⟨-1, 0, by decide +kernel⟩, lbTreeUp ⟨10, 2, by decide +kernel⟩] =
      .ok (some c) ∧ c.isLive = false ∧ (lbTreeUp ⟨10, 2, by decide +kernel⟩).isLive = true :=
  ⟨lbTreeUp ⟨-1, 0, by decide +kernel⟩, rfl, by decide +kernel, by decide +kernel⟩

end VtRuntime.Balance
