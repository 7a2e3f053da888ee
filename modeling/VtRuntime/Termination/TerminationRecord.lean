import VtRuntime.Termination.GlobalBalance

/-!
# Each termination is recorded once

The broadcast from the root of the tree and the reply to an inquiry both make a node
process the termination of an epoch.  As long as no node sends an inquiry, each use of an
epoch is marked terminated once on every node, so that the counts of the windows are the
numbers of terminations and no insertion finds its epoch present.  A node that has asked
processes the termination twice.
-/

namespace VtRuntime.Termination

open Lib Epoch Detector List Function EpochManip

universe u

namespace Windows

variable (w : Windows)

/-- How often an epoch has been marked terminated. -/
def timesMarked (e : EpochType) : ℕ := w.marks.countP fun k => k.epoch == e

/-- How often an epoch of the window of `e` has been marked terminated. -/
def windowMarks (e : EpochType) : ℕ :=
  w.marks.countP fun k => windowKey k.epoch == windowKey e

/-- Every mark was that of a live epoch; each window counts its marks and its terminated
epochs, and each use of an epoch that is over has one mark. -/
structure Recorded : Prop where
  marks : ∀ k ∈ w.marks, k.present = false ∧ k.valid = true
  size : ∀ e, (w.manip.getTerminatedWindow e).terminatedEpochs.Exact
  total : ∀ e, (w.manip.getTerminatedWindow e).getTotalTerminated = w.windowMarks e
  once : ∀ e, InRange e e →
    w.joins e = w.timesMarked e + if w.isTerminated e then 0 else 1

variable {w : Windows}

theorem recorded_start : Recorded {} where
  marks := by simp
  size := by
    intro e
    rw [getTerminatedWindow_make]
    exact EpochWindow.exact_make _
  total := by
    intro e
    rw [getTerminatedWindow_make]
    rfl
  once := by
    intro e hin
    have ht : make.isTerminated e = true := by
      by_contra h
      exact not_isLive_make e ⟨hin, Bool.eq_false_iff.mpr h⟩
    simp [isTerminated, ht, timesMarked]

theorem Recorded.store (h : w.Recorded) {m : EpochManip} (hc : w.manip.KeepsCounts m)
    (hm : ∀ e, m.isTerminated e = true → w.isTerminated e = true) : (w.store m).Recorded where
  marks := h.marks
  size := fun e => (hc e).1 (h.size e)
  total := fun e => (hc e).2.trans (h.total e)
  once := by
    intro e hin
    have hold := h.once e hin
    have hme := hm e
    simp only [isTerminated] at hold hme
    simp only [Windows.store, isTerminated, timesMarked] at hold ⊢
    by_cases ht : w.manip.isTerminated e = true
    · by_cases ht' : m.isTerminated e = true <;> simp [hold, ht, ht']
    · have ht' : ¬ m.isTerminated e = true := fun h => ht (hme h)
      simp [hold, ht, ht']

theorem Recorded.allocateCollective (h : w.Recorded) {fuel : ℕ} {cat : EpochCategory}
    {r : EpochType × EpochManip}
    (hr : w.manip.getNextCollectiveEpoch fuel cat = some (.ok r)) : (w.store r.2).Recorded := by
  refine h.store (keepsCounts_allocateFrom hr) ?_
  intro e he
  rw [(getNextCollectiveEpoch_spec hr).2.2, Bool.and_eq_true] at he
  exact he.1

theorem Recorded.allocateRooted (h : w.Recorded) {fuel : ℕ} {cat : EpochCategory}
    {here : NodeType} {r : EpochType × EpochManip}
    (hr : w.manip.getNextRootedEpoch fuel cat here = some (.ok r)) : (w.store r.2).Recorded := by
  refine h.store (keepsCounts_getNextRootedEpoch hr) ?_
  intro e he
  obtain ⟨-, -, -, hm, -⟩ := getNextRootedEpoch_spec hr
  simp only [hm, Bool.and_eq_true] at he
  exact he.1.1

theorem Recorded.activateEpoch (h : w.Recorded) (e : EpochType) : (w.activateEpoch e).Recorded := by
  refine h.store (w.manip.keepsCounts_activateEpoch e) ?_
  intro e' he'
  rw [EpochManip.isTerminated_activateEpoch, Bool.and_eq_true] at he'
  exact he'.1

theorem Recorded.setEpochTerminated (h : w.Recorded) {e : EpochType}
    (hl : w.isTerminated e = false) : (w.setEpochTerminated e).Recorded where
  marks := by
    intro k hk
    cases mem_cons.mp hk with
    | inl heq =>
      subst heq
      refine ⟨hl, IntegralSet.validInsert_of_not_mem (w.manip.getTerminatedWindow e).wf ?_⟩
      rw [← EpochWindow.isTerminated_iff]
      exact Bool.eq_false_iff.mp hl
    | inr hold => exact h.marks k hold
  size := by
    intro e'
    simp only [Windows.setEpochTerminated, EpochManip.setEpochTerminated,
      EpochManip.getTerminatedWindow_setWindow]
    split
    · exact EpochWindow.exact_setEpochTerminated (h.size e) hl
    · exact h.size e'
  total := by
    intro e'
    have hold := h.total e'
    simp only [Windows.setEpochTerminated, EpochManip.setEpochTerminated,
      EpochManip.getTerminatedWindow_setWindow, windowMarks, countP_cons] at hold ⊢
    split
    · rename_i hk
      rw [EpochManip.getTerminatedWindow_congr _ hk] at hold
      rw [← hold, hk]
      simp [EpochWindow.setEpochTerminated, EpochWindow.getTotalTerminated]
    · rename_i hk
      simp [hold, Ne.symm hk]
  once := by
    intro e' hin
    have hold := h.once e' hin
    rw [isTerminated_setEpochTerminated]
    simp only [Windows.setEpochTerminated, timesMarked, countP_cons] at hold ⊢
    by_cases heq : e' = e
    · subst heq
      simp [hold, hl]
    · simp [hold, heq, Ne.symm heq]

end Windows

namespace DetSys

variable {N : Type u} [DecidableEq N] {I : Nodes N}

/-- The node would ask another one: the epoch is rooted elsewhere and live here. -/
def LiveElsewhere (I : Nodes N) (s : DetSys N) (n : N) (e : EpochType) : Prop :=
  isRooted e = true ∧ Epoch.node e ≠ I.ident n ∧ (s.node n).windows.isTerminated e = false

/-- A step that sends no inquiry. -/
def Quiet (I : Nodes N) (s : DetSys N) : DetAct N → Prop
  | .testEpochTerminated n e => ¬ LiveElsewhere I s n e
  | .addDependency n p _ => ¬ LiveElsewhere I s n p
  | _ => True

/-- A message that belongs to no inquiry. -/
def DetMsg.Unasked : DetMsg N → Prop
  | .makeRooted _ => True
  | .terminated _ => True
  | .inquire _ _ => False
  | .reply _ => False

/-- The invariant of the quiet runs. -/
structure RecInv (s : DetSys N) : Prop where
  recorded : ∀ n, (s.node n).windows.Recorded
  awaits : Pending (fun _ _ => True) s
  unasked : ∀ n, ∀ msg ∈ s.inbox n, DetMsg.Unasked msg
  replies : ∀ n, s.inquirers n = [] ∧ s.replies n = []

theorem recInv_start : RecInv (start : DetSys N) where
  recorded := fun _ => Windows.recorded_start
  awaits := fun _ _ _ => .inl rfl
  unasked := by simp [start]
  replies := fun _ => ⟨rfl, rfl⟩

variable {s : DetSys N} {n : N} {d : Detector} {e : EpochType}

theorem RecInv.setNode (h : RecInv s) (hw : d.windows.Recorded)
    (ha : (s.node n).epochActive ⊆ d.epochActive) : RecInv (s.setNode n d) where
  recorded := (forall_update_iff s.node fun _ d => d.windows.Recorded).mpr
    ⟨hw, fun m _ => h.recorded m⟩
  awaits := h.awaits.setNode ha
  unasked := h.unasked
  replies := h.replies

theorem RecInv.terminate (h : RecInv s) (hl : (s.node n).windows.isTerminated e = false)
    (hw : s.waiting n e = 0) : RecInv (s.terminate I n e) where
  recorded := (forall_update_iff s.node fun _ d => d.windows.Recorded).mpr
    ⟨by simpa using (h.recorded n).setEpochTerminated hl, fun m _ => h.recorded m⟩
  awaits := h.awaits.terminate fun _ => hw
  unasked := h.unasked
  replies := by
    intro m
    by_cases hm : m = n
    · subst hm
      simp [DetSys.terminate, (h.replies m).1, (h.replies m).2]
    · simpa [DetSys.terminate, hm] using h.replies m

theorem RecInv.take (h : RecInv s) (n : N) (msg : DetMsg N) : RecInv (s.take n msg) where
  recorded := h.recorded
  awaits := h.awaits.setInbox _ fun m _ => (s.inbox_take n m msg).count_le _
  unasked := fun m msg' hmsg => h.unasked m msg' ((s.inbox_take n m msg).subset hmsg)
  replies := h.replies

theorem inquire_of_not_liveElsewhere (h : ¬ LiveElsewhere I s n e) : s.inquire I n e = s := by
  rw [DetSys.inquire, if_neg]
  intro hq
  obtain ⟨ht, hroot, hne⟩ := of_inquires hq
  exact h ⟨hroot, hne, ht⟩

/-! ## One step -/

variable [Fintype N]

theorem RecInv.handle (h : RecInv s) (hinv : Inv I s) (n : N) {msg : DetMsg N}
    (hmem : msg ∈ s.inbox n) : RecInv (DetSys.handle I (s.take n msg) n msg) := by
  have htake := h.take n msg
  cases msg with
  | makeRooted e =>
    refine { htake.setNode (n := n) ?_ (epochActive_makeRootedHan _ _ _ _) with }
    rw [(makeRootedHan_frame _ _ _ _).1]
    exact (h.recorded n).activateEpoch e
  | terminated e =>
    have hpos : 0 < s.waiting n e := count_pos_iff.mpr hmem
    obtain ⟨hone, ha⟩ := (h.awaits n e trivial).resolve_left (by omega)
    refine htake.terminate ((hinv.good n e).active (decide_eq_true ha)).1 ?_
    simp only [waiting, DetSys.take, Function.update_self, count_erase_self]
    exact Nat.sub_eq_zero_of_le hone.le
  | inquire e source => exact (h.unasked n _ hmem).elim
  | reply e => exact (h.unasked n _ hmem).elim

theorem RecInv.detectWave (h : RecInv s) (hinv : Inv I s)
    (ha : ∀ n, e ∈ (s.node n).epochActive) (hno : ∀ n, .terminated e ∉ s.inbox n) :
    RecInv (broadcast { s.terminate I I.treeRoot e with detected := insert e s.detected }
      I.treeRoot (.terminated e)) := by
  have hl := ((hinv.good I.treeRoot e).active (decide_eq_true (ha I.treeRoot))).1
  have ht := h.terminate (I := I) hl (count_eq_zero.mpr (hno I.treeRoot))
  refine ⟨ht.recorded, h.awaits.detectWave ha hno, ?_, ht.replies⟩
  intro m msg hmsg
  cases mem_broadcast hmsg with
  | inl hnew => exact hnew.2 ▸ trivial
  | inr hold => exact h.unasked m msg hold

omit [Fintype N] in
theorem RecInv.makeEpochRootedWave (h : RecInv s) {fuel : ℕ} {r : EpochType × EpochManip}
    (hr : (s.node n).windows.manip.getNextRootedEpoch fuel .noCategoryEpoch (I.ident n) =
      some (.ok r)) : RecInv (s.makeEpochRootedWave I n r) := by
  have hset := h.setNode (n := n)
    (d := initializeRootedWaveEpoch (I.ident n) ((s.node n).allocated r.2) r.1)
    (((h.recorded n).allocateRooted hr).activateEpoch r.1) (fun _ h => h)
  refine ⟨hset.recorded, ?_, ?_, h.replies⟩
  · refine hset.awaits.setInbox (s.makeEpochRootedWave I n r).inbox ?_
    exact fun m => (congr_fun (waiting_makeEpochRootedWave I s n r) m).le
  · intro m msg hmsg
    cases mem_broadcast hmsg with
    | inl hnew => exact hnew.2 ▸ trivial
    | inr hold => exact h.unasked m msg hold

theorem RecInv.step (h : RecInv s) (hinv : Inv I s) {a : DetAct N} {s' : DetSys N}
    (hq : Quiet I s a) (hs : step I s a = some s') : RecInv s' := by
  cases a with
  | makeEpochCollective n fuel =>
    obtain ⟨r, hr, rfl⟩ := Option.map_eq_some_iff.mp hs
    exact { h.setNode (n := n) (d := ((s.node n).allocated r.2).initializeCollectiveEpoch r.1)
      ((h.recorded n).allocateCollective (returned_eq_some hr)) (fun _ h => h) with }
  | makeEpochRootedWave n fuel =>
    obtain ⟨r, hr, rfl⟩ := Option.map_eq_some_iff.mp hs
    exact h.makeEpochRootedWave (returned_eq_some hr)
  | makeEpochRootedDS n fuel =>
    obtain ⟨r, hr, rfl⟩ := Option.map_eq_some_iff.mp hs
    exact { h.setNode (n := n) (d := ((s.node n).allocated r.2).initializeRootedDSEpoch r.1)
      ((h.recorded n).allocateRooted (returned_eq_some hr)) (fun _ h => h) with }
  | finishedEpoch n e =>
    obtain ⟨-, rfl⟩ := of_guard hs
    refine h.setNode ?_ (epochActive_finished _ _ _)
    change (finishedEpoch (I.ident n) (s.node n) e).windows.Recorded
    rw [(finishedEpoch_frame _ _ _).1]
    exact h.recorded n
  | produce n k =>
    cases hs
    exact { h.setNode (n := n) (d := (s.node n).produce k) (h.recorded n) (fun _ h => h) with }
  | consume n k =>
    obtain ⟨-, rfl⟩ := of_guard hs
    exact { h.setNode (n := n) (d := (s.node n).consume k) (h.recorded n) (fun _ h => h) with }
  | testEpochTerminated n e =>
    obtain ⟨-, rfl⟩ := of_guard hs
    rwa [inquire_of_not_liveElsewhere hq]
  | addDependency n p q =>
    obtain ⟨-, rfl⟩ := of_guard hs
    split
    · exact h
    · rw [inquire_of_not_liveElsewhere hq]
      obtain ⟨hwindows, hactive, -⟩ := (s.node n).addSuccessor_frame p q
      exact h.setNode (hwindows ▸ h.recorded n) hactive.ge
  | deliver n msg =>
    obtain ⟨hmem, rfl⟩ := of_guard hs
    exact h.handle hinv n hmem
  | runReply n e source =>
    obtain ⟨hmem, rfl⟩ := of_guard hs
    rw [(h.replies n).2] at hmem
    cases hmem
  | detectWave e =>
    obtain ⟨⟨-, ha, hno⟩, rfl⟩ := of_guard hs
    exact h.detectWave hinv ha hno
  | detectDS n e =>
    obtain ⟨⟨hds, -, hr⟩, rfl⟩ := of_guard hs
    refine { h.terminate (I := I) ((hinv.good n e).ready (decide_eq_true hr)).1 ?_ with }
    refine count_eq_zero.mpr ?_
    intro hmem
    have : isDS e = false := hinv.fits n _ hmem
    exact Bool.noConfusion (this.symm.trans hds)

/-- In every run without inquiries each node marks each use of an epoch once: every insertion
is of an absent epoch and valid, the size of a window is the number of its terminated epochs,
its total is the number of marks, and an epoch has been marked once for each use that is
over. -/
theorem termination_recorded_once (I : Nodes N) {s : DetSys N} (h : Reachable I (Quiet I) s)
    (n : N) :
    (∀ k ∈ (s.node n).windows.marks, k.present = false ∧ k.valid = true) ∧
      (∀ e, ((s.node n).windows.manip.getTerminatedWindow e).getSize =
          (((s.node n).windows.manip.getTerminatedWindow e).terminatedEpochs.elements.card : ℤ) ∧
        ((s.node n).windows.manip.getTerminatedWindow e).getTotalTerminated =
          (s.node n).windows.windowMarks e) ∧
      ∀ e, InRange e e → (s.node n).windows.joins e =
        (s.node n).windows.timesMarked e +
          if (s.node n).windows.isTerminated e then 0 else 1 := by
  have hrec : RecInv s := by
    refine Reach.invariant_of (Q := Inv I) (fun s hs => Reachable.inv hs) ?_ ?_ h
    · intro s hs
      exact hs ▸ recInv_start
    · intro s a s' hinv hrec hq hs
      exact hrec.step hinv hq hs
  have hn := hrec.recorded n
  exact ⟨hn.marks, fun e => ⟨hn.size e, hn.total e⟩, hn.once⟩

/-- The first wave epoch that node 0 gets. -/
def firstWave : EpochType := 0x8000000000000002

/-- A node takes part in a wave epoch of the root and asks nothing. -/
def quietRun (root n : N) : List (DetAct N) :=
  [.makeEpochRootedWave root 1, .deliver n (.makeRooted firstWave), .finishedEpoch root firstWave,
    .detectWave firstWave, .deliver n (.terminated firstWave)]

theorem termination_recorded_once_pair :
    ∃ s, Reachable (pair 0) (Quiet (pair 0)) s ∧ (s.node 1).windows.timesMarked firstWave = 1 ∧
      ∀ k ∈ (s.node 1).windows.marks, k.present = false ∧ k.valid = true := by
  have hquiet : ∀ a ∈ quietRun 0 1, ∀ s, Quiet (pair 0) s a := by simp [quietRun, Quiet]
  obtain ⟨s, hs, hp⟩ := Reach.of_run_ok (step (pair 0)) (quietRun 0 1)
    (fun s => (s.node 1).windows.timesMarked firstWave = 1)
    (show Init start from rfl) hquiet (by decide +kernel)
  exact ⟨s, hs, hp, (termination_recorded_once (pair 0) hs 1).1⟩

/-- Node 1 asks about the same epoch before it terminates, and gets the broadcast and then the
reply: the epoch has been live once and is marked twice, the second insertion finds it present,
and the window counts one terminated epoch more than its range has epochs. -/
theorem termination_recorded_twice :
    ∃ s, Reachable (pair 0) anyStep s ∧ (s.node 1).windows.joins firstWave = 1 ∧
      (s.node 1).windows.timesMarked firstWave = 2 ∧
      ((s.node 1).windows.manip.getTerminatedWindow firstWave).getTotalTerminated = 2 ∧
      ((s.node 1).windows.manip.getTerminatedWindow firstWave).getSize = 2 ^ 45 - 1 ∧
      ∃ k ∈ (s.node 1).windows.marks, k.present = true ∧ k.valid = false :=
  Reach.of_run (step (pair 0))
    [.makeEpochRootedWave 0 1, .deliver 1 (.makeRooted firstWave),
      .testEpochTerminated 1 firstWave, .deliver 0 (.inquire firstWave 1),
      .finishedEpoch 0 firstWave, .detectWave firstWave, .runReply 0 firstWave 1,
      .deliver 1 (.terminated firstWave), .deliver 1 (.reply firstWave)] _
    (show Init start from rfl) (by decide +kernel)

end DetSys
end VtRuntime.Termination
