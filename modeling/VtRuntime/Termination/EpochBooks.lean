import VtRuntime.Termination.Detector

/-!
# The books of a node about its epochs

What one node keeps about one epoch — its mark, the sets it is in, and the units counted
for it on the global epoch — and what each function of the detector does to it.  A node
counts an epoch it has created on the global epoch until it has processed its termination:
by the unit of the creation until the epoch is finished, and by `produceOnGlobal` from
creation or activation to termination.
-/

namespace VtRuntime.Termination

open Lib Epoch Function Finset Detector
open Bool hiding false_and false_or true_and

/-- The nodes that count an epoch on the global epoch: its root, or every node. -/
def Owner (here : NodeType) (e : EpochType) : Prop := isRooted e = false ∨ node e = here

/-- A wave epoch with another node as its root. -/
def Remote (here : NodeType) (e : EpochType) : Prop :=
  isRooted e = true ∧ isDS e = false ∧ node e ≠ here

theorem Remote.not_owner {here : NodeType} {e : EpochType} (h : Remote here e) :
    ¬ Owner here e := by
  intro ho
  cases ho with
  | inl hr => exact Bool.noConfusion (h.1.symm.trans hr)
  | inr hn => exact h.2.2 hn

theorem isRooted_of_isDS {e : EpochType} (h : isDS e = true) : isRooted e = true :=
  (and_eq_true_iff.mp h).1

/-- What a node keeps about one epoch. -/
structure Entry where
  terminated : Bool
  unfinished : Bool
  global : Bool
  active : Bool
  ready : Bool
  live : Bool
  produced : ℕ
  consumed : ℕ

namespace Entry

variable (here : NodeType) (e : EpochType) (x : Entry)

/-- The books of a node about an epoch agree with its windows and sets. -/
structure Ok : Prop where
  unfinished : x.unfinished = true → x.terminated = false ∧ Owner here e ∧ x.active = false ∧
    x.ready = false ∧ x.global = (!isRooted e || isDS e)
  global : x.global = true → x.terminated = false ∧ Owner here e
  counts : x.produced = x.consumed + x.global.toNat
  active : x.active = true → x.terminated = false ∧ isDS e = false ∧
    (Owner here e → x.global = true)
  ready : x.ready = true → x.terminated = false ∧ (isDS e = true → x.global = true)
  live : x.live = (x.unfinished || x.global)
  remote : isDS e = true → node e ≠ here → EpochManip.InRange e e → x.terminated = true

def record : Entry := { x with unfinished := true, live := true }

def settle : Entry := { x with unfinished := false }

def produceOnGlobal : Entry := { x with global := true, produced := x.produced + 1 }

def consumeOnGlobal : Entry := { x with global := false, consumed := x.consumed + 1 }

def finishNoActivate : Entry := { x with ready := true }

def activate : Entry :=
  if isDS e then x
  else
    let x := if isRooted e && node e == here then x.produceOnGlobal else x
    { x with active := true }

def cleanup : Entry :=
  { x with terminated := true, active := false, ready := false, live := false }

def terminate : Entry :=
  if !isRooted e || isDS e || node e == here then x.cleanup.consumeOnGlobal else x.cleanup

variable {here : NodeType} {e : EpochType} {x : Entry}

/-- A node that has the epoch marked terminated holds nothing for it. -/
theorem Ok.fresh (h : x.Ok here e) (ht : x.terminated = true) :
    x.unfinished = false ∧ x.global = false ∧ x.active = false ∧ x.ready = false := by
  have h1 := h.unfinished
  have h2 := h.global
  have h3 := h.active
  have h4 := h.ready
  simp only [ht, true_eq_false, false_and, imp_false, not_eq_true] at h1 h2 h3 h4
  exact ⟨h1, h2, h3, h4⟩

end Entry

open Entry

namespace Detector

def entry (d : Detector) (e : EpochType) : Entry where
  terminated := d.windows.isTerminated e
  unfinished := e ∈ d.unfinished
  global := e ∈ d.globals
  active := e ∈ d.epochActive
  ready := e ∈ d.epochReady
  live := e ∈ d.live
  produced := d.globProd e
  consumed := d.globCons e

/-! ## What the functions do to the entries -/

section

variable (d : Detector)

theorem entry_addSuccessor (p q : EpochType) : (d.addSuccessor p q).entry = d.entry := by
  simp only [addSuccessor]
  split <;> rfl

variable (e : EpochType)

theorem entry_record : (d.record e).entry = update d.entry e (d.entry e).record := by
  refine eq_update_iff.mpr ⟨?_, fun e' heq => ?_⟩
  · simp only [entry, record, mem_insert_self, decide_true]
    rfl
  · simp only [entry, record, mem_insert, heq, false_or]
    rfl

theorem entry_settle : (d.settle e).entry = update d.entry e (d.entry e).settle := by
  refine eq_update_iff.mpr ⟨?_, fun e' heq => ?_⟩
  · simp only [entry, settle, notMem_erase, decide_false]
    rfl
  · simp only [entry, settle, mem_erase, ne_eq, heq, not_false_eq_true, true_and]
    rfl

theorem entry_produceOnGlobal :
    (d.produceOnGlobal e).entry = update d.entry e (d.entry e).produceOnGlobal :=
  eq_update_iff.mpr ⟨by simp [entry, produceOnGlobal, produce, Entry.produceOnGlobal],
    fun e' heq => by simp [entry, produceOnGlobal, produce, heq]⟩

theorem entry_consumeOnGlobal :
    (d.consumeOnGlobal e).entry = update d.entry e (d.entry e).consumeOnGlobal :=
  eq_update_iff.mpr ⟨by simp [entry, consumeOnGlobal, consume, Entry.consumeOnGlobal],
    fun e' heq => by simp [entry, consumeOnGlobal, consume, heq]⟩

theorem entry_finishNoActivateEpoch : (d.finishNoActivateEpoch e).entry =
      update d.entry e (d.entry e).finishNoActivate := by
  refine eq_update_iff.mpr ⟨?_, fun e' heq => ?_⟩
  · by_cases hr : e ∈ d.epochReady <;>
      simp [entry, finishNoActivateEpoch, consume, hr, finishNoActivate]
  · by_cases hr : e ∈ d.epochReady <;> simp [entry, finishNoActivateEpoch, consume, hr, heq]

theorem entry_cleanup : (((d.clearSuccessors e).updateResolvedEpochs e).cleanupEpoch e).entry =
      update d.entry e (d.entry e).cleanup :=
  eq_update_iff.mpr
    ⟨by simp [entry, clearSuccessors, updateResolvedEpochs, cleanupEpoch, consume, cleanup],
      fun e' heq => by
        simp [entry, clearSuccessors, updateResolvedEpochs, cleanupEpoch, consume, heq]⟩

end

variable (here : NodeType) (d : Detector) (e : EpochType)

theorem entry_activateEpoch :
    (activateEpoch here d e).entry = update d.entry e ((d.entry e).activate here e) := by
  have hins : ∀ d : Detector, entry { d with epochActive := insert e d.epochActive } =
      update d.entry e { d.entry e with active := true } := by
    exact fun d => eq_update_iff.mpr ⟨by simp [entry], fun e' heq => by simp [entry, heq]⟩
  simp only [activateEpoch, activate]
  split
  · rw [update_eq_self]
  · rw [hins]
    split
    · rw [entry_produceOnGlobal, update_idem, update_self]
    · rfl

theorem entry_finishedEpoch : (finishedEpoch here d e).entry =
      update d.entry e ((d.entry e).finishNoActivate.activate here e) := by
  rw [finishedEpoch, entry_activateEpoch, entry_finishNoActivateEpoch, update_idem,
    update_self]

theorem entry_epochTerminated : (epochTerminated here d e).entry =
      update d.entry e ((d.entry e).terminate here e) := by
  simp only [epochTerminated, terminate]
  split
  · rw [entry_consumeOnGlobal, entry_cleanup, update_idem, update_self]
  · rw [entry_cleanup]

theorem entry_makeRootedHan : (makeRootedHan here d e false).entry = update d.entry e
      (({ d.entry e with terminated := false } : Entry).finishNoActivate.activate here e) := by
  have hact : entry { d.produce 1 with windows := d.windows.activateEpoch e } =
      update d.entry e { d.entry e with terminated := false } :=
    eq_update_iff.mpr ⟨by simp [entry, produce], fun e' heq => by simp [entry, produce, heq]⟩
  simp only [makeRootedHan, false_eq_true, if_false]
  rw [entry_finishedEpoch, hact, update_idem, update_self]

/-! ## The books of a node -/

def Good : Prop := ∀ e, (d.entry e).Ok here e

variable {here : NodeType} {d : Detector} {e : EpochType}

theorem good_start (here : NodeType) : Good here {} := by
  intro e
  refine ⟨by simp [entry], by simp [entry], by simp [entry], by simp [entry], by simp [entry],
    by simp [entry], ?_⟩
  intro _ _ hr
  by_contra ht
  exact EpochManip.not_isLive_make e ⟨hr, eq_false_iff.mpr ht⟩

theorem Good.of_entry {d' : Detector} (h : Good here d) (he : d'.entry = d.entry) :
    Good here d' := by
  intro e
  rw [he]
  exact h e

/-- A function that changes what is kept about one epoch only. -/
theorem Good.change {d' : Detector} (h : Good here d) {x : Entry}
    (hd : d'.entry = update d.entry e x) (hx : x.Ok here e) : Good here d' := by
  rw [Good, hd]
  exact (forall_update_iff _ fun e (x : Entry) => x.Ok here e).mpr ⟨hx, fun e' _ => h e'⟩

theorem Good.allocated {m : EpochManip} (h : Good here d)
    (hm : ∀ e, m.isTerminated e = true → d.windows.isTerminated e = true)
    (hr : ∀ e, isDS e = true → node e ≠ here → m.isTerminated e = d.windows.isTerminated e) :
    Good here (d.allocated m) := by
  intro e
  have hlive : d.windows.isTerminated e = false → m.isTerminated e = false := by
    intro he
    refine eq_false_iff.mpr ?_
    intro ht
    simp [hm e ht] at he
  refine ⟨?_, ?_, (h e).counts, ?_, ?_, (h e).live, ?_⟩
  · exact fun hu => ⟨hlive ((h e).unfinished hu).1, ((h e).unfinished hu).2⟩
  · exact fun hg => ⟨hlive ((h e).global hg).1, ((h e).global hg).2⟩
  · exact fun ha => ⟨hlive ((h e).active ha).1, ((h e).active ha).2⟩
  · exact fun hd => ⟨hlive ((h e).ready hd).1, ((h e).ready hd).2⟩
  · intro hds hne hin
    exact (hr e hds hne).trans ((h e).remote hds hne hin)

end Detector

namespace Entry

variable {here : NodeType} {e : EpochType} {x : Entry}

/-- A node begins to hold an epoch that it counts on the global epoch on activation only. -/
theorem Ok.record (h : x.Ok here e) (hf : x.global = false ∧ x.active = false ∧ x.ready = false)
    (ht : x.terminated = false) (ho : Owner here e) (hr : isRooted e = true)
    (hds : isDS e = false) : x.record.Ok here e where
  unfinished := fun _ => ⟨ht, ho, hf.2.1, hf.2.2, by simp [Entry.record, hf.1, hr, hds]⟩
  global := h.global
  counts := h.counts
  active := h.active
  ready := h.ready
  live := by simp [Entry.record]
  remote := h.remote

/-- A node begins to hold an epoch that it counts on the global epoch at once. -/
theorem Ok.recordGlobal (h : x.Ok here e)
    (hf : x.global = false ∧ x.active = false ∧ x.ready = false) (ht : x.terminated = false)
    (ho : Owner here e) (hk : isRooted e = false ∨ isDS e = true) :
    x.produceOnGlobal.record.Ok here e where
  unfinished := fun _ => ⟨ht, ho, hf.2.1, hf.2.2, by
    simp [Entry.record, Entry.produceOnGlobal, hk]⟩
  global := fun _ => ⟨ht, ho⟩
  counts := by
    have := h.counts
    simp_all [Entry.record, Entry.produceOnGlobal]
  active := by simp [Entry.record, Entry.produceOnGlobal, hf]
  ready := by simp [Entry.record, Entry.produceOnGlobal, hf]
  live := by simp [Entry.record, Entry.produceOnGlobal]
  remote := h.remote

/-- A finished epoch is counted on the global epoch: from its creation on if it is collective
or a Dijkstra–Scholten epoch, and otherwise by its activation. -/
theorem Ok.finish (h : x.Ok here e) (hu : x.unfinished = true) :
    (x.finishNoActivate.activate here e).settle.Ok here e := by
  obtain ⟨ht, ho, hna, hnr, hg⟩ := h.unfinished hu
  have hc := h.counts
  have hlive := h.live
  have hrem := h.remote
  by_cases hds : isDS e = true
  · have hg' : x.global = true := by simp [hg, hds]
    simp only [activate, hds, if_true]
    exact ⟨by simp [settle], h.global, hc, h.active, fun _ => ⟨ht, fun _ => hg'⟩,
      by simp [settle, finishNoActivate, hlive, hg'], hrem⟩
  · by_cases hr : isRooted e = true
    · have hn : node e = here := by simpa [Owner, hr] using ho
      have hg' : x.global = false := by simp [hg, hds, hr]
      simp only [activate, hds, hr, hn, beq_self_eq_true, Bool.and_self, if_true]
      refine ⟨?_, ?_, ?_, ?_, ?_, ?_, ?_⟩ <;>
        simp_all [settle, finishNoActivate, produceOnGlobal, Owner]
    · have hg' : x.global = true := by simp [hg, hr]
      simp only [activate, hds, hr]
      refine ⟨?_, ?_, ?_, ?_, ?_, ?_, ?_⟩ <;>
        simp_all [settle, finishNoActivate, Owner]

theorem Ok.makeRooted (h : x.Ok here e) (hr : Remote here e) :
    (({ x with terminated := false } : Entry).finishNoActivate.activate here e).Ok here e := by
  have hu : x.unfinished = false :=
    eq_false_iff.mpr fun hu => hr.not_owner (h.unfinished hu).2.1
  have hg : x.global = false := eq_false_iff.mpr fun hg => hr.not_owner (h.global hg).2
  have hc := h.counts
  have hlive := h.live
  have hno := hr.not_owner
  obtain ⟨hroot, hds, hne⟩ := hr
  have hact : ∀ y : Entry, y.activate here e = { y with active := true } := by
    intro y
    simp [activate, hds, hne]
  rw [hact]
  refine ⟨?_, ?_, ?_, ?_, ?_, ?_, ?_⟩ <;> simp_all [finishNoActivate]

theorem Ok.terminate (h : x.Ok here e) (hu : x.unfinished = false)
    (hg : Owner here e → x.global = true) (hds : isDS e = true → Owner here e) :
    (x.terminate here e).Ok here e := by
  have hc := h.counts
  by_cases ho : Owner here e
  · have hcond : (!isRooted e || isDS e || node e == here) = true := by
      cases ho with
      | inl hr => simp [hr]
      | inr hn => simp [hn]
    have hg' := hg ho
    simp only [Entry.terminate, hcond, if_true]
    refine ⟨?_, ?_, ?_, ?_, ?_, ?_, ?_⟩ <;> simp_all [cleanup, consumeOnGlobal]
  · have hcond : ¬ (!isRooted e || isDS e || node e == here) = true := by
      intro hc
      simp only [or_eq_true, not_eq_true', beq_iff_eq] at hc
      rcases hc with (hr | hd) | hn
      · exact ho (.inl hr)
      · exact ho (hds hd)
      · exact ho (.inr hn)
    have hg' : x.global = false := eq_false_iff.mpr fun hg => ho (h.global hg).2
    simp only [Entry.terminate, if_neg hcond]
    refine ⟨?_, ?_, ?_, ?_, ?_, ?_, ?_⟩ <;> simp_all [cleanup]

end Entry

namespace Detector

variable {here : NodeType} {d : Detector} {e : EpochType}

/-! ## The units of a node -/

/-- The units produced and not consumed beyond those the books of the node explain. -/
def slack (d : Detector) : ℤ :=
  d.lProd - d.lCons - d.unfinished.card - d.globals.card - d.successors.card

theorem slack_produce (d : Detector) (k : ℕ) : (d.produce k).slack = d.slack + k := by
  simp only [slack, produce]
  omega

theorem slack_consume (d : Detector) (k : ℕ) : (d.consume k).slack = d.slack - k := by
  simp only [slack, consume]
  omega

/-- Each successor is counted by one unit. -/
theorem slack_addSuccessor (d : Detector) (p q : EpochType) :
    (d.addSuccessor p q).slack = d.slack := by
  simp only [addSuccessor]
  have hsub : (d.successors.filter fun r => r.1 = p ∧ (q, r.2) ∈ d.successors) ⊆ d.successors :=
    filter_subset _ _
  have hcard := card_sdiff_add_card_eq_card hsub
  split
  · simp only [slack, consume]
    omega
  · rename_i hmem
    simp only [slack, consume, produce, card_insert_of_notMem hmem]
    push_cast
    omega

theorem slack_cleanup (d : Detector) (e : EpochType) :
    (((d.clearSuccessors e).updateResolvedEpochs e).cleanupEpoch e).slack = d.slack := by
  have hcard := card_filter_add_card_filter_not (s := d.successors) (fun p => p.1 = e)
  simp only [slack, clearSuccessors, consume, updateResolvedEpochs, cleanupEpoch, ne_eq]
  omega

theorem slack_record (h : e ∉ d.unfinished) : (d.record e).slack = d.slack - 1 := by
  simp only [slack, record, card_insert_of_notMem h]
  push_cast
  omega

theorem slack_settle (h : e ∈ d.unfinished) : (d.settle e).slack = d.slack + 1 := by
  have hcard := card_erase_add_one h
  simp only [slack, settle]
  omega

theorem slack_produceOnGlobal (h : e ∉ d.globals) : (d.produceOnGlobal e).slack = d.slack := by
  simp only [slack, produceOnGlobal, produce, card_insert_of_notMem h]
  push_cast
  omega

theorem slack_consumeOnGlobal (h : e ∈ d.globals) : (d.consumeOnGlobal e).slack = d.slack := by
  have hcard := card_erase_add_one h
  simp only [slack, consumeOnGlobal, consume]
  omega

theorem slack_finishNoActivateEpoch (d : Detector) (e : EpochType) :
    (d.finishNoActivateEpoch e).slack = d.slack - if e ∈ d.epochReady then 0 else 1 := by
  simp only [finishNoActivateEpoch]
  split
  · omega
  · exact slack_consume d 1

theorem slack_activateEpoch
    (h : isDS e = false → isRooted e = true → node e = here → e ∉ d.globals) :
    (activateEpoch here d e).slack = d.slack := by
  simp only [activateEpoch]
  split
  · rfl
  · rename_i hds
    split
    · rename_i hr
      obtain ⟨hr, hn⟩ := and_eq_true_iff.mp hr
      exact slack_produceOnGlobal (h (eq_false_iff.mpr hds) hr (beq_iff_eq.mp hn))
    · rfl

/-! ## The operations on one node -/

variable (h : Good here d)
include h

/-- What a node that has created an epoch held for it before. -/
theorem Good.fresh (ht : d.windows.isTerminated e = true) :
    e ∉ d.unfinished ∧ e ∉ d.globals ∧ e ∉ d.epochActive ∧ e ∉ d.epochReady := by
  obtain ⟨h1, h2, h3, h4⟩ := (h e).fresh ht
  exact ⟨of_decide_eq_false h1, of_decide_eq_false h2, of_decide_eq_false h3,
    of_decide_eq_false h4⟩

theorem Good.initialize (hu : e ∉ d.unfinished)
    (hf : e ∉ d.globals ∧ e ∉ d.epochActive ∧ e ∉ d.epochReady)
    (ht : d.windows.isTerminated e = false) (ho : Owner here e)
    (hk : isRooted e = false ∨ isDS e = true) :
    Good here (d.initializeCollectiveEpoch e) ∧
      (d.initializeCollectiveEpoch e).slack = d.slack := by
  constructor
  · refine h.change (e := e) ?_ ((h e).recordGlobal ?_ ht ho hk)
    · rw [initializeCollectiveEpoch, entry_record, entry_produceOnGlobal, update_idem,
        update_self]
      rfl
    · exact ⟨decide_eq_false hf.1, decide_eq_false hf.2.1, decide_eq_false hf.2.2⟩
  · rw [initializeCollectiveEpoch, slack_record, slack_produceOnGlobal, slack_produce]
    · omega
    · exact hf.1
    · exact hu

theorem Good.initializeRootedWaveEpoch (hu : e ∉ d.unfinished)
    (hf : e ∉ d.globals ∧ e ∉ d.epochActive ∧ e ∉ d.epochReady)
    (ht : d.windows.isTerminated e = false) (ho : Owner here e) (hr : isRooted e = true)
    (hds : isDS e = false) :
    Good here (initializeRootedWaveEpoch here d e) ∧
      (initializeRootedWaveEpoch here d e).slack = d.slack := by
  have hw : (makeRootedHan here d e true).entry = d.entry := by
    funext e'
    have hterm : (d.windows.activateEpoch e).isTerminated e' = d.windows.isTerminated e' := by
      by_cases heq : e' = e
      · subst heq
        simp [ht]
      · simp [heq]
    simp only [makeRootedHan, if_true, entry, hterm]
    rfl
  constructor
  · refine h.change (e := e) ?_ ((h e).record ?_ ht ho hr hds)
    · rw [Detector.initializeRootedWaveEpoch, entry_record, hw]
    · exact ⟨decide_eq_false hf.1, decide_eq_false hf.2.1, decide_eq_false hf.2.2⟩
  · have hs : (makeRootedHan here d e true).slack = d.slack + 1 := slack_produce d 1
    rw [Detector.initializeRootedWaveEpoch, slack_record, hs]
    · omega
    · exact hu

/-- The application finishes an epoch that it has created on this node. -/
theorem Good.finish (he : e ∈ d.unfinished) :
    Good here ((finishedEpoch here d e).settle e) ∧
      ((finishedEpoch here d e).settle e).slack = d.slack := by
  have hu : (d.entry e).unfinished = true := decide_eq_true he
  constructor
  · refine h.change (e := e) ?_ ((h e).finish hu)
    rw [entry_settle, entry_finishedEpoch, update_idem, update_self]
  · obtain ⟨-, -, -, hnr, hg⟩ := (h e).unfinished hu
    have hready : e ∉ d.epochReady := of_decide_eq_false hnr
    have hmem : e ∈ (finishedEpoch here d e).unfinished := by
      have : ((finishedEpoch here d e).entry e).unfinished = true := by
        rw [entry_finishedEpoch, update_self, activate]
        split
        · exact hu
        · split <;> exact hu
      exact of_decide_eq_true this
    rw [slack_settle hmem, finishedEpoch, slack_activateEpoch, slack_finishNoActivateEpoch,
      if_neg hready]
    · omega
    · intro hds hr _
      have hglob : (d.entry e).global = false := by rw [hg, hr, hds]; rfl
      simp only [finishNoActivateEpoch, if_neg hready]
      exact of_decide_eq_false hglob

/-- A node is told of a wave epoch with another root. -/
theorem Good.makeRootedHan (hr : Remote here e) :
    Good here (makeRootedHan here d e false) ∧
      (makeRootedHan here d e false).slack =
        d.slack + if e ∈ d.epochReady then 1 else 0 := by
  constructor
  · exact h.change (entry_makeRootedHan here d e) ((h e).makeRooted hr)
  · simp only [Detector.makeRootedHan, false_eq_true, if_false, Detector.finishedEpoch]
    rw [slack_activateEpoch fun _ _ hn => absurd hn hr.2.2, slack_finishNoActivateEpoch]
    have hw : slack { d.produce 1 with windows := d.windows.activateEpoch e } = d.slack + 1 :=
      slack_produce d 1
    have hr' : (d.produce 1).epochReady = d.epochReady := rfl
    rw [hw, hr']
    split <;> omega

theorem Good.epochTerminated (hu : e ∉ d.unfinished) (hg : Owner here e → e ∈ d.globals)
    (hds : isDS e = true → Owner here e) :
    Good here (epochTerminated here d e) ∧ (epochTerminated here d e).slack = d.slack := by
  constructor
  · exact h.change (entry_epochTerminated here d e) ((h e).terminate (decide_eq_false hu)
      (fun ho => decide_eq_true (hg ho)) hds)
  · simp only [Detector.epochTerminated]
    split
    · rename_i hc
      have ho : Owner here e := by
        simp only [or_eq_true, not_eq_true', beq_iff_eq] at hc
        rcases hc with (hr | hd) | hn
        · exact .inl hr
        · exact hds hd
        · exact .inr hn
      rw [slack_consumeOnGlobal, slack_cleanup]
      exact hg ho
    · exact slack_cleanup d e

theorem Good.remote_of_inquires (hin : EpochManip.InRange e e) (hq : inquires here d e = true) :
    Remote here e := by
  obtain ⟨ht, hroot, hne⟩ := of_inquires hq
  refine ⟨hroot, eq_false_iff.mpr ?_, hne⟩
  intro hds
  have := (h e).remote hds hne hin
  exact Bool.noConfusion (this.symm.trans ht)

theorem Good.allocatedRooted {fuel : ℕ} {cat : EpochCategory} {r : EpochType × EpochManip}
    (hr : d.windows.manip.getNextRootedEpoch fuel cat here = some (.ok r)) :
    Good here (d.allocated r.2) ∧
      (r.1 ∉ d.unfinished ∧ r.1 ∉ d.globals ∧ r.1 ∉ d.epochActive ∧ r.1 ∉ d.epochReady) ∧
      (d.allocated r.2).windows.isTerminated r.1 = false ∧
      isRooted r.1 = true ∧ category r.1 = some cat ∧ node r.1 = here := by
  obtain ⟨hne, htl, ht, hm, hd⟩ := EpochManip.getNextRootedEpoch_spec hr
  have hleak := d.windows.manip.decode_next_rooted here cat
  refine ⟨h.allocated ?_ ?_, h.fresh ht, by simp [Detector.allocated, hm], hd⟩
  · intro e he
    simp only [hm, and_eq_true] at he
    exact he.1.1
  · intro e _ hnode
    have h1 : e ≠ d.windows.manip.next (generateEpoch true here cat) :=
      fun heq => hnode (heq ▸ hleak.2.2)
    have h2 : e ≠ r.1 := fun heq => hnode (heq ▸ hd.2.2)
    rw [hm, bne_iff_ne.mpr h1, bne_iff_ne.mpr h2, Bool.and_true, Bool.and_true]
    rfl

end Detector

end VtRuntime.Termination
