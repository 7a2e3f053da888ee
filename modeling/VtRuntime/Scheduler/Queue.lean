import VtRuntime.Lib.Run
import Mathlib.Data.List.Range

/-!
# The queue of the scheduler

The first elements are in a circular buffer with 64 slots, of which one stays free, and the others
in an overflow queue.  The order is kept because the overflow queue is empty unless the buffer is
full.
-/

namespace VtRuntime.Scheduler

open Lib List

/-- `CircularBuffer`.  A slot that was never written holds nothing. -/
structure CircularBuffer (T : Type) (capacity : ℕ) where
  head : ℕ := 0
  tail : ℕ := 0
  elms : ℕ → Option T := fun _ => none

namespace CircularBuffer

variable {T : Type} {capacity : ℕ} (b : CircularBuffer T capacity)

def getNextEntry : ℕ := if b.head + 1 = capacity then 0 else b.head + 1

def push (t : T) : CircularBuffer T capacity :=
  { b with elms := Function.update b.elms b.head (some t), head := b.getNextEntry }

def pop : Option T × CircularBuffer T capacity :=
  (b.elms b.tail, { b with tail := if b.tail + 1 = capacity then 0 else b.tail + 1 })

def numFree : ℕ :=
  if b.head = b.tail then capacity - 1
  else if b.head < b.tail then b.tail - b.head - 1
  else capacity + b.tail - b.head - 1

def empty : Bool := b.head = b.tail
def full : Bool := b.numFree = 0
def size : ℕ := capacity - 1 - b.numFree

/-- The slot of the element number `k`. -/
def slot (k : ℕ) : ℕ := if b.tail + k < capacity then b.tail + k else b.tail + k - capacity

/-- The elements, from the oldest on. -/
def contents : List (Option T) := (List.range b.size).map fun k => b.elms (b.slot k)

/-- The indices are slots. -/
structure Valid : Prop where
  head : b.head < capacity
  tail : b.tail < capacity

variable {b}

theorem Valid.size_eq (h : b.Valid) :
    b.size = if b.tail ≤ b.head then b.head - b.tail else capacity + b.head - b.tail := by
  have hhead := h.head
  have htail := h.tail
  unfold size numFree
  split_ifs <;> omega

theorem Valid.full_iff (h : b.Valid) : b.full = true ↔ b.size = capacity - 1 := by
  have hhead := h.head
  have htail := h.tail
  rw [full, decide_eq_true_eq, size, numFree]
  split_ifs <;> omega

theorem Valid.empty_iff (h : b.Valid) : b.empty = true ↔ b.size = 0 := by
  have hhead := h.head
  have htail := h.tail
  rw [h.size_eq, empty, decide_eq_true_eq]
  split_ifs <;> omega

theorem Valid.push (h : b.Valid) (hfull : b.full = false) (t : T) :
    (b.push t).Valid ∧ (b.push t).contents = b.contents ++ [some t] := by
  have hhead := h.head
  have htail := h.tail
  have hroom : b.size ≠ capacity - 1 := fun heq => by simp [h.full_iff.mpr heq] at hfull
  rw [h.size_eq] at hroom
  have hvalid : (b.push t).Valid := by
    constructor
    · simp only [CircularBuffer.push, getNextEntry]
      split_ifs at hroom ⊢ <;> omega
    · exact htail
  have hsize : (b.push t).size = b.size + 1 := by
    rw [hvalid.size_eq, h.size_eq]
    simp only [CircularBuffer.push, getNextEntry]
    split_ifs at hroom ⊢ <;> omega
  refine ⟨hvalid, ?_⟩
  rw [contents, hsize, range_succ, map_append, contents]
  congr 1
  · apply map_congr_left
    intro k hk
    -- the slots in use are not the one that is written
    have hne : b.slot k ≠ b.head := by
      rw [mem_range, h.size_eq] at hk
      unfold slot
      split_ifs at hk ⊢ <;> omega
    exact Function.update_of_ne hne _ _
  · have hlast : b.slot b.size = b.head := by
      rw [h.size_eq]
      unfold slot
      split_ifs <;> omega
    simp [CircularBuffer.push, slot, ← hlast]

theorem Valid.pop (h : b.Valid) (hempty : b.empty = false) :
    b.pop.2.Valid ∧ b.contents = b.pop.1 :: b.pop.2.contents := by
  have hhead := h.head
  have htail := h.tail
  have hsome : b.size ≠ 0 := fun heq => by simp [h.empty_iff.mpr heq] at hempty
  rw [h.size_eq] at hsome
  have hvalid : b.pop.2.Valid := by
    constructor
    · exact hhead
    · simp only [CircularBuffer.pop]
      split_ifs <;> omega
  have hsize : b.size = b.pop.2.size + 1 := by
    rw [hvalid.size_eq, h.size_eq]
    simp only [CircularBuffer.pop]
    split_ifs at hsome ⊢ <;> omega
  refine ⟨hvalid, ?_⟩
  rw [contents, hsize, range_succ_eq_map, map_cons, map_map, contents]
  congr 1
  · simp [slot, htail, CircularBuffer.pop]
  · apply map_congr_left
    intro k hk
    have hslot : b.slot (k + 1) = b.pop.2.slot k := by
      rw [mem_range, hvalid.size_eq] at hk
      simp only [slot, CircularBuffer.pop] at hk ⊢
      split_ifs at hk ⊢ <;> omega
    exact congrArg b.elms hslot

end CircularBuffer

/-- `sched::Queue`. -/
structure Queue (T : Type) where
  buf : CircularBuffer T 64 := {}
  impl : List T := []

namespace Queue

variable {T : Type} (q : Queue T)

def push (elm : T) : Queue T :=
  if q.buf.full then { q with impl := q.impl ++ [elm] } else { q with buf := q.buf.push elm }

def emplace (elm : T) : Queue T := q.push elm

/-- The element and the queue without it, if the assertion holds. -/
def pop : Option (Option T × Queue T) :=
  if q.buf.empty then none
  else
    let (t, buf) := q.buf.pop
    match q.buf.full, q.impl with
    | true, elm :: impl => some (t, ⟨buf.push elm, impl⟩)
    | _, impl => some (t, ⟨buf, impl⟩)

def size : ℕ := q.buf.size + q.impl.length

/-- The answer, if the assertion holds. -/
def empty : Option Bool := if q.buf.empty && !q.impl.isEmpty then none else some q.buf.empty

/-- The queue holds these elements, and the overflow queue is in use only if the buffer is full. -/
structure Holds (l : List T) : Prop where
  valid : q.buf.Valid
  contents : q.buf.contents ++ q.impl.map some = l.map some
  overflow : q.impl ≠ [] → q.buf.full = true

variable {q} {l : List T}

theorem Holds.push (h : q.Holds l) (t : T) : (q.push t).Holds (l ++ [t]) := by
  rw [Queue.push]
  cases hfull : q.buf.full with
  | true => exact ⟨h.valid, by simp [← h.contents], fun _ => hfull⟩
  | false =>
    have himpl : q.impl = [] := by
      by_contra hne
      simp [h.overflow hne] at hfull
    obtain ⟨hvalid, hcontents⟩ := h.valid.push hfull t
    exact ⟨hvalid, by simp [hcontents, himpl, ← h.contents], fun hne => absurd himpl hne⟩

theorem Holds.size_eq (h : q.Holds l) : q.size = l.length := by
  have hlen := congrArg List.length h.contents
  simpa [CircularBuffer.contents, size] using hlen

theorem Holds.empty_eq (h : q.Holds l) : q.buf.empty = decide (l = []) := by
  have hsize := h.size_eq
  rw [Bool.eq_iff_iff, h.valid.empty_iff, decide_eq_true_eq, ← length_eq_zero_iff, ← hsize,
    size]
  refine ⟨fun hbuf => ?_, fun h => by omega⟩
  have himpl : q.impl = [] := by
    by_contra hne
    have hfull := h.valid.full_iff.mp (h.overflow hne)
    omega
  simp [hbuf, himpl]

/-- The queue is not empty, so the assertion of `pop` holds, and the first element is returned. -/
theorem Holds.pop {t : T} (h : q.Holds (t :: l)) :
    ∃ q', q.pop = some (some t, q') ∧ q'.Holds l := by
  have hempty : q.buf.empty = false := by simp [h.empty_eq]
  obtain ⟨hvalid, hcontents⟩ := h.valid.pop hempty
  have hall := h.contents
  rw [hcontents, cons_append, map_cons, List.cons.injEq] at hall
  obtain ⟨hfirst, hrest⟩ := hall
  rw [Queue.pop, hempty, if_neg Bool.false_ne_true]
  cases himpl : q.impl with
  | nil =>
    rw [himpl, map_nil, append_nil] at hrest
    refine ⟨⟨q.buf.pop.2, []⟩, by simp [hfirst], hvalid, by simpa using hrest, by simp⟩
  | cons elm impl =>
    have hfull := h.overflow (by simp [himpl])
    have hfree : q.buf.pop.2.full = false := by
      have hlen := congrArg List.length hcontents
      have hsize := h.valid.full_iff.mp hfull
      rw [← Bool.not_eq_true, hvalid.full_iff]
      simp only [CircularBuffer.contents, length_map, length_range, length_cons] at hlen
      omega
    obtain ⟨hvalid', hcontents'⟩ := hvalid.push hfree elm
    refine ⟨⟨q.buf.pop.2.push elm, impl⟩, by simp [hfull, hfirst], hvalid', ?_, fun _ => ?_⟩
    · simpa [hcontents', himpl] using hrest
    · have hlen := congrArg List.length hcontents
      have hlen' := congrArg List.length hcontents'
      have hsize := h.valid.full_iff.mp hfull
      rw [hvalid'.full_iff]
      simp only [CircularBuffer.contents, length_map, length_range, length_cons,
        length_append, length_nil] at hlen hlen'
      omega

end Queue

inductive QueueAct (T : Type)
  | push (elm : T)
  | emplace (elm : T)
  | pop

/-- The queue with the books of what was put into it and what it returned. -/
structure QueueSys (T : Type) where
  queue : Queue T := {}
  pushed : List T := []
  popped : List (Option T) := []

/-- An element is taken only if the queue is not empty. -/
def QueueSys.step {T : Type} (s : QueueSys T) : QueueAct T → Option (QueueSys T)
  | .push elm => some { s with queue := s.queue.push elm, pushed := s.pushed ++ [elm] }
  | .emplace elm => some { s with queue := s.queue.emplace elm, pushed := s.pushed ++ [elm] }
  | .pop =>
    if s.pushed.length = s.popped.length then none
    else s.queue.pop.map fun r => { s with queue := r.2, popped := s.popped ++ [r.1] }

def QueueSys.Reaches {T : Type} (s : QueueSys T) : Prop := Reach (· = {}) step anyStep s

/-- The elements come out in the order in which they were put in, the queue knows how many are left,
and no assertion fails. -/
theorem queue_fifo {T : Type} {s : QueueSys T} (h : s.Reaches) :
    s.popped <+: s.pushed.map some ∧ s.queue.size = s.pushed.length - s.popped.length ∧
      s.queue.empty = some (decide (s.pushed.length - s.popped.length = 0)) ∧
      (s.pushed.length ≠ s.popped.length → (s.step .pop).isSome) := by
  have key : ∃ l, s.queue.Holds l ∧ s.pushed.map some = s.popped ++ l.map some := by
    refine Reach.invariant ?_ ?_ h
    · rintro s rfl
      exact ⟨[], ⟨⟨Nat.zero_lt_succ 63, Nat.zero_lt_succ 63⟩, rfl, by simp⟩, rfl⟩
    · rintro s a s' ⟨l, hl, hbooks⟩ - hs
      cases a with
      | push elm | emplace elm =>
        cases hs
        exact ⟨l ++ [elm], hl.push elm, by simp [hbooks]⟩
      | pop =>
        obtain ⟨hne, hs⟩ := Option.ite_none_left_eq_some.mp hs
        cases l with
        | nil => exact absurd (by simpa using congrArg List.length hbooks) hne
        | cons t l =>
          obtain ⟨q', hq', hl'⟩ := hl.pop
          rw [hq', Option.map_some, Option.some.injEq] at hs
          subst hs
          exact ⟨l, hl', by simp [hbooks]⟩
  obtain ⟨l, hl, hbooks⟩ := key
  have hlen : s.pushed.length = s.popped.length + l.length := by
    simpa using congrArg List.length hbooks
  have himpl : l = [] → s.queue.impl = [] := by
    rintro rfl
    simpa using (append_eq_nil_iff.mp hl.contents).2
  refine ⟨⟨_, hbooks.symm⟩, by rw [hl.size_eq]; omega, ?_, ?_⟩
  · simpa [Queue.empty, hl.empty_eq, hlen] using himpl
  · intro hne
    cases l with
    | nil => exact absurd (by simpa using hlen) hne
    | cons t l =>
      obtain ⟨q', hq', -⟩ := hl.pop
      simp [QueueSys.step, hne, hq']

/-- The buffer has 63 places.  Of 66 elements that are put in 65 are taken. -/
theorem queue_fifo_overflow : ∃ s : QueueSys ℕ, s.Reaches ∧
    s.popped = (List.range 65).map some ∧ s.queue.size = 1 := by
  obtain ⟨s, hs, hpopped, hpushed⟩ : ∃ s : QueueSys ℕ, s.Reaches ∧
      s.popped = (List.range 65).map some ∧ s.pushed.length = 66 :=
    Reach.of_run _ ((List.range 66).map .push ++ List.replicate 65 .pop) _ rfl (by decide +kernel)
  exact ⟨s, hs, hpopped, by rw [(queue_fifo hs).2.1, hpushed, hpopped]; rfl⟩

end VtRuntime.Scheduler
