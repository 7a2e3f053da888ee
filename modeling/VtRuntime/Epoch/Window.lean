import VtRuntime.Epoch.Layout
import VtRuntime.Lib.Run
import VtRuntime.Termination.IntegralSet

/-!
# Epoch windows

`epoch/epoch_window.cc` over `utils/adt/ranged_counter.h`.  A window keeps, for one
archetype, the set of terminated (reusable) epochs and a ranged counter that proposes
the next epoch to allocate.  Every epoch of the archetype starts out terminated.

The search loop of `allocateNewEpoch` has no bound in the source.  Here it takes fuel;
`none` means that the loop is still running when the fuel is used up, so that the call
returns in the source exactly when some fuel gives a result.
-/

namespace VtRuntime.Epoch

open Termination IntegralSet

/-- A counter over an inclusive range. -/
structure RangedCounter where
  lo : ℕ
  hi : ℕ
  cur : ℕ
  lo_le : lo ≤ cur
  le_hi : cur ≤ hi

namespace RangedCounter

def make (lo hi : ℕ) (h : lo ≤ hi) : RangedCounter := ⟨lo, hi, lo, le_rfl, h⟩

/-- Increment, wrapping around at the upper end of the range. -/
def increment (c : RangedCounter) : RangedCounter where
  lo := c.lo
  hi := c.hi
  cur := if c.cur < c.hi then c.cur + 1 else c.lo
  lo_le := by have := c.lo_le; split <;> omega
  le_hi := by have := c.lo_le; have := c.le_hi; split <;> omega

end RangedCounter

/-- The sequence number of the last epoch of a window, `~0ull - 1` before masking. -/
def maxSeq : BitVec 64 := ~~~0#64 - 1#64

/-- The first and last epoch a window for this archetype allocates. -/
def minEpoch (archetype : EpochType) : EpochType := setSeq archetype 1#64
def maxEpoch (archetype : EpochType) : EpochType := setSeq archetype maxSeq

variable (a : EpochType)

theorem toNat_minEpoch :
    (minEpoch a).toNat = 2 ^ seqNumBits a * (a.toNat / 2 ^ seqNumBits a) + 1 := by
  rw [minEpoch, toNat_setSeq]
  rcases seqNumBits_cases a with ⟨-, hb⟩ | ⟨-, hb⟩ <;> rw [hb] <;> rfl

theorem toNat_maxEpoch : (maxEpoch a).toNat =
      2 ^ seqNumBits a * (a.toNat / 2 ^ seqNumBits a) + (2 ^ seqNumBits a - 2) := by
  rw [maxEpoch, toNat_setSeq]
  rcases seqNumBits_cases a with ⟨-, hb⟩ | ⟨-, hb⟩ <;> rw [hb] <;> rfl

theorem minEpoch_le_maxEpoch : (minEpoch a).toNat ≤ (maxEpoch a).toNat := by
  rw [toNat_minEpoch, toNat_maxEpoch]
  rcases seqNumBits_cases a with ⟨-, hb⟩ | ⟨-, hb⟩ <;> rw [hb] <;> norm_num

/-- A window of terminated epochs for one archetype. -/
structure EpochWindow where
  archetypeEpoch : EpochType
  terminatedEpochs : IntegralSet
  nextEpoch : RangedCounter
  totalTerminated : ℕ
  wf : terminatedEpochs.Wf
  range : nextEpoch.lo = (minEpoch archetypeEpoch).toNat ∧
    nextEpoch.hi = (maxEpoch archetypeEpoch).toNat

namespace EpochWindow

variable (w : EpochWindow) (epoch : EpochType)

/-- The window for the archetype of `epoch`, with every epoch of it terminated. -/
def make : EpochWindow where
  archetypeEpoch := setSeq epoch 0
  terminatedEpochs := empty.insertInterval
    ⟨(minEpoch (setSeq epoch 0)).toNat, (maxEpoch (setSeq epoch 0)).toNat⟩
  nextEpoch := .make (minEpoch (setSeq epoch 0)).toNat (maxEpoch (setSeq epoch 0)).toNat
    (minEpoch_le_maxEpoch _)
  totalTerminated := 0
  wf := wf_insertInterval wf_empty
    (by simpa using minEpoch_le_maxEpoch (setSeq epoch 0))
  range := ⟨rfl, rfl⟩

def isArchetypal : Bool :=
  setSeq epoch 0 == w.archetypeEpoch

def isTerminated : Bool :=
  w.terminatedEpochs.contains epoch.toNat

def getSize : ℤ := w.terminatedEpochs.size

def getTotalTerminated : ℕ := w.totalTerminated

/-- Mark an epoch active: it leaves the terminated set if it is there. -/
def activateEpoch : EpochWindow :=
  if w.terminatedEpochs.contains epoch.toNat then
    { w with
      terminatedEpochs := w.terminatedEpochs.erase epoch.toNat
      wf := wf_erase w.wf _ }
  else w

/-- Mark an epoch terminated. -/
def setEpochTerminated : EpochWindow :=
  { w with
    terminatedEpochs := w.terminatedEpochs.insert epoch.toNat
    totalTerminated := w.totalTerminated + 1
    wf := wf_insert w.wf _ }

/-- The epoch the ranged counter proposes. -/
def next : EpochType := BitVec.ofNat 64 w.nextEpoch.cur

/-- Advance the ranged counter. -/
def advance : EpochWindow :=
  { w with nextEpoch := w.nextEpoch.increment, range := w.range }

/-- The search loop: an iteration that finds the proposed epoch active leaves the
counter where it is. -/
def allocateLoop : ℕ → EpochWindow → Option (EpochType × EpochWindow)
  | 0, _ => none
  | fuel + 1, w =>
      if w.terminatedEpochs.contains w.next.toNat then
        some (w.next, w.advance.activateEpoch w.next)
      else allocateLoop fuel w

/-- Allocate an epoch, or abort when the terminated set counts no element. -/
def allocateNewEpoch (fuel : ℕ) (w : EpochWindow) :
    Option (Except String (EpochType × EpochWindow)) :=
  if w.terminatedEpochs.size = 0 then
    some (.error "Must have an epoch to allocate within the specified range")
  else (allocateLoop fuel w).map .ok

/-! ## What the operations do to the marks -/

theorem isTerminated_iff (e : EpochType) :
    w.isTerminated e = true ↔ (e.toNat : ℤ) ∈ w.terminatedEpochs.elements :=
  contains_iff w.wf _

/-- A new window marks every epoch of its range terminated. -/
theorem isTerminated_make (epoch e : EpochType) :
    (make epoch).isTerminated e = true ↔
      (minEpoch (setSeq epoch 0)).toNat ≤ e.toNat ∧
        e.toNat ≤ (maxEpoch (setSeq epoch 0)).toNat := by
  have h := (elements_insertInterval_empty
    (i := ⟨(minEpoch (setSeq epoch 0)).toNat, (maxEpoch (setSeq epoch 0)).toNat⟩)
    (Int.ofNat_le.mpr (minEpoch_le_maxEpoch _))).1
  rw [isTerminated_iff, make, h, Finset.mem_Icc, Int.ofNat_le, Int.ofNat_le]

variable {e : EpochType} {w w' : EpochWindow} {fuel : ℕ}

theorem toNat_cast_inj {e' : EpochType} : (e.toNat : ℤ) = e'.toNat ↔ e = e' := by
  rw [Int.natCast_inj, BitVec.toNat_inj]

section

variable (w : EpochWindow)

@[simp] theorem archetypeEpoch_activateEpoch (e : EpochType) :
    (w.activateEpoch e).archetypeEpoch = w.archetypeEpoch := by
  unfold activateEpoch; split <;> rfl

@[simp] theorem archetypeEpoch_setEpochTerminated (e : EpochType) :
    (w.setEpochTerminated e).archetypeEpoch = w.archetypeEpoch := rfl

@[simp] theorem isTerminated_activateEpoch (e e' : EpochType) :
    (w.activateEpoch e).isTerminated e' = (w.isTerminated e' && e' != e) := by
  rw [Bool.eq_iff_iff]
  simp only [isTerminated_iff, Bool.and_eq_true, bne_iff_ne]
  unfold activateEpoch
  split
  · simp only [elements_erase w.wf, Finset.mem_erase, ne_eq, toNat_cast_inj]
    tauto
  · rename_i h
    have he : (e.toNat : ℤ) ∉ w.terminatedEpochs.elements := by
      rw [← contains_iff w.wf]; exact h
    constructor
    · intro h'
      exact ⟨h', fun heq => he (heq ▸ h')⟩
    · exact fun h' => h'.1

@[simp] theorem isTerminated_setEpochTerminated (e e' : EpochType) :
    (w.setEpochTerminated e).isTerminated e' = (e' == e || w.isTerminated e') := by
  rw [Bool.eq_iff_iff]
  simp only [isTerminated_iff, Bool.or_eq_true, beq_iff_eq, setEpochTerminated,
    elements_insert w.wf, Finset.mem_insert, toNat_cast_inj]

/-- The proposed epoch as a number is the counter. -/
theorem toNat_next : w.next.toNat = w.nextEpoch.cur := by
  have h := w.nextEpoch.le_hi
  rw [w.range.2] at h
  have := (maxEpoch w.archetypeEpoch).isLt
  rw [next, BitVec.toNat_ofNat, Nat.mod_eq_of_lt (by omega)]

/-- The proposed epoch lies between the first and the last of the archetype. -/
theorem next_mem_range :
    (minEpoch w.archetypeEpoch).toNat ≤ w.next.toNat ∧
      w.next.toNat ≤ (maxEpoch w.archetypeEpoch).toNat := by
  rw [toNat_next, ← w.range.1, ← w.range.2]
  exact ⟨w.nextEpoch.lo_le, w.nextEpoch.le_hi⟩

end

/-! ## Allocation -/

/-- When the proposed epoch is active the loop never ends. -/
theorem allocateLoop_of_active (h : w.isTerminated w.next = false) :
    ∀ fuel, allocateLoop fuel w = none := by
  intro fuel
  induction fuel with
  | zero => rfl
  | succ fuel ih =>
    have : w.terminatedEpochs.contains w.next.toNat = false := h
    simp [allocateLoop, this, ih]

/-- When the proposed epoch is terminated the first iteration returns it. -/
theorem allocateLoop_of_terminated (h : w.isTerminated w.next = true) (fuel : ℕ) :
    ∃ w', allocateLoop (fuel + 1) w = some (w.next, w') ∧
      w'.archetypeEpoch = w.archetypeEpoch ∧
      ∀ e, w'.isTerminated e = (w.isTerminated e && e != w.next) := by
  have h' : w.terminatedEpochs.contains w.next.toNat = true := h
  refine ⟨w.advance.activateEpoch w.next, by simp only [allocateLoop, h', if_true], ?_, ?_⟩
  · rw [archetypeEpoch_activateEpoch]
    rfl
  intro e
  rw [isTerminated_activateEpoch]
  rfl

/-- A terminated epoch is counted, so the call does not abort. -/
theorem size_ne_zero (h : w.isTerminated e = true) : w.terminatedEpochs.size ≠ 0 := by
  intro h0
  have := elements_eq_empty w.wf h0
  rw [isTerminated_iff, this] at h
  simp at h

/-- What a call returns, if it returns an epoch at all: the proposed epoch, which was
terminated, and a window in which exactly that epoch has become active. -/
theorem allocateNewEpoch_spec (h : w.allocateNewEpoch fuel = some (.ok (e, w'))) :
    e = w.next ∧ w.isTerminated w.next = true ∧ w'.archetypeEpoch = w.archetypeEpoch ∧
      ∀ e', w'.isTerminated e' = (w.isTerminated e' && e' != w.next) := by
  unfold allocateNewEpoch at h
  split at h
  · simp at h
  · cases ht : w.isTerminated w.next with
    | false => simp [allocateLoop_of_active ht] at h
    | true =>
      cases fuel with
      | zero => simp [allocateLoop] at h
      | succ fuel =>
        obtain ⟨w₁, hl, ha, hm⟩ := allocateLoop_of_terminated ht fuel
        rw [hl] at h
        simp only [Option.map_some, Option.some.injEq, Except.ok.injEq, Prod.mk.injEq] at h
        obtain ⟨rfl, rfl⟩ := h
        exact ⟨rfl, rfl, ha, hm⟩

/-- One iteration is enough when the proposed epoch is terminated. -/
theorem allocateNewEpoch_of_terminated (h : w.isTerminated w.next = true) (fuel : ℕ) :
    ∃ w', w.allocateNewEpoch (fuel + 1) = some (.ok (w.next, w')) := by
  obtain ⟨w', hl, -, -⟩ := allocateLoop_of_terminated h fuel
  exact ⟨w', by simp [allocateNewEpoch, size_ne_zero h, hl]⟩

/-- Some epoch of the archetype is marked terminated. -/
def SomeTerminated (w : EpochWindow) : Prop :=
  ∃ e, w.isArchetypal e = true ∧ w.isTerminated e = true

/-- The call returns an epoch that was terminated, lies in the range of the archetype
and is the only one whose mark changes. -/
def AllocationSucceeds (w : EpochWindow) : Prop :=
  ∃ fuel e w', w.allocateNewEpoch fuel = some (.ok (e, w')) ∧ w.isTerminated e = true ∧
    ((minEpoch w.archetypeEpoch).toNat ≤ e.toNat ∧
      e.toNat ≤ (maxEpoch w.archetypeEpoch).toNat) ∧
    w'.isTerminated e = false ∧ ∀ e', e' ≠ e → w'.isTerminated e' = w.isTerminated e'

/-- An allocation succeeds exactly when the proposed epoch is terminated. -/
theorem allocationSucceeds_iff (w : EpochWindow) :
    AllocationSucceeds w ↔ w.isTerminated w.next = true := by
  constructor
  · rintro ⟨fuel, e, w', h, -⟩
    exact (allocateNewEpoch_spec h).2.1
  · intro h
    obtain ⟨w', hw⟩ := allocateNewEpoch_of_terminated h 0
    obtain ⟨-, -, -, hm⟩ := allocateNewEpoch_spec hw
    refine ⟨1, w.next, w', hw, h, next_mem_range w, by simp [hm], ?_⟩
    intro e' hne
    simp [hm, hne]

/-! ## Counts -/

/-- Every call that returns does the same to the window. -/
theorem allocateLoop_eq (h : allocateLoop fuel w = some (e, w')) :
    w' = w.advance.activateEpoch w.next := by
  induction fuel with
  | zero => cases h
  | succ fuel ih =>
    rw [allocateLoop] at h
    split at h
    · rw [Option.some.injEq, Prod.mk.injEq] at h
      exact h.2.symm
    · exact ih h

theorem allocateNewEpoch_eq (h : w.allocateNewEpoch fuel = some (.ok (e, w'))) :
    w' = w.advance.activateEpoch w.next := by
  rw [allocateNewEpoch] at h
  split at h
  · simp at h
  · obtain ⟨r, hr, hok⟩ := Option.map_eq_some_iff.mp h
    cases hok
    exact allocateLoop_eq hr

/-- Activation keeps the size equal to the number of terminated epochs. -/
theorem exact_activateEpoch (h : w.terminatedEpochs.Exact) (e : EpochType) :
    (w.activateEpoch e).terminatedEpochs.Exact := by
  rw [activateEpoch]
  split
  · exact exact_erase w.wf h _
  · exact h

@[simp] theorem getTotalTerminated_activateEpoch (w : EpochWindow) (e : EpochType) :
    (w.activateEpoch e).getTotalTerminated = w.getTotalTerminated := by
  rw [activateEpoch]
  split <;> rfl

/-- So does the termination of an epoch that is not marked yet. -/
theorem exact_setEpochTerminated (h : w.terminatedEpochs.Exact) (he : w.isTerminated e = false) :
    (w.setEpochTerminated e).terminatedEpochs.Exact := by
  refine exact_insert w.wf h ?_
  rw [← isTerminated_iff, he]
  exact Bool.false_ne_true

theorem exact_make (epoch : EpochType) : (make epoch).terminatedEpochs.Exact :=
  (elements_insertInterval_empty (Int.ofNat_le.mpr (minEpoch_le_maxEpoch _))).2

/-! ## Every window state -/

/-- The operations of a window. -/
inductive Op
  | allocate (fuel : ℕ)
  | activate (epoch : EpochType)
  | terminate (epoch : EpochType)

/-- A call that aborts or does not return has no next state. -/
def step (w : EpochWindow) : Op → Option EpochWindow
  | .allocate fuel =>
      match w.allocateNewEpoch fuel with
      | some (.ok (_, w')) => some w'
      | _ => none
  | .activate epoch => some (w.activateEpoch epoch)
  | .terminate epoch => some (w.setEpochTerminated epoch)

/-- The windows reached from construction by any sequence of operations. -/
def Reachable : EpochWindow → Prop :=
  Lib.Reach (fun w => ∃ epoch, w = make epoch) step Lib.anyStep

/-- In every window, reachable ones included, an allocation that can succeed does so if
and only if the epoch proposed by the ranged counter is itself terminated: the loop
tests that epoch again and again and never advances the counter past an active one. -/
theorem allocateNewEpoch_correct_iff (w : EpochWindow) :
    (SomeTerminated w → AllocationSucceeds w) ↔
      (SomeTerminated w → w.isTerminated w.next = true) := by
  rw [allocationSucceeds_iff]

/-- A window whose first epoch was activated from outside, as `makeRootedHan` does:
the second epoch is terminated, yet no call returns. -/
theorem allocateNewEpoch_stuck : ∃ w, Reachable w ∧ SomeTerminated w ∧ ¬ AllocationSucceeds w := by
  refine ⟨(make 0).activateEpoch 1, .next (a := .activate 1) (.start ⟨0, rfl⟩) trivial rfl,
    ⟨2, by decide +kernel, by decide +kernel⟩, ?_⟩
  rw [allocationSucceeds_iff]
  decide +kernel

end EpochWindow
end VtRuntime.Epoch
