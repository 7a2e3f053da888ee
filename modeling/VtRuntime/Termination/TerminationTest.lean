import VtRuntime.Termination.Detector

/-!
# When the termination test is sound

The windows of a node have every epoch marked terminated until the node itself activates
it, so `testEpochTerminated` answers "terminated" on a node that has not heard of the epoch
yet.  The test is sound on a node exactly when the epoch is over or the node has activated
it in its current use; a node other than the root never activates a Dijkstra–Scholten
epoch.
-/

namespace VtRuntime.Termination

open Lib Epoch Detector EpochManip Finset Option Function DetSys

universe u

namespace DetSys

variable {N : Type u} [DecidableEq N] {I : Nodes N}

/-- No node has the epoch live, and no message or reply about it is left. -/
def Idle (s : DetSys N) (e : EpochType) : Prop :=
  ∀ n, (s.node n).windows.isTerminated e = true ∧ (∀ msg ∈ s.inbox n, msg.epoch ≠ e) ∧
    ∀ r ∈ s.inquirers n ++ s.replies n, r.1 ≠ e

/-- A creation takes identifiers whose previous use is over, except that the nodes create one
collective epoch together. -/
def CleanMake (I : Nodes N) (s : DetSys N) : DetAct N → Prop
  | .makeEpochCollective n fuel => ∀ r,
      (s.node n).windows.manip.getNextCollectiveEpoch fuel .noCategoryEpoch = some (.ok r) →
        (r.1 ∈ s.created ∧ r.1 ∉ s.detected) ∨ s.Idle r.1
  | .makeEpochRootedWave n fuel => ∀ r,
      (s.node n).windows.manip.getNextRootedEpoch fuel .noCategoryEpoch (I.ident n) =
        some (.ok r) → s.Idle (s.leak I n .noCategoryEpoch) ∧ s.Idle r.1
  | .makeEpochRootedDS n fuel => ∀ r,
      (s.node n).windows.manip.getNextRootedEpoch fuel .dijkstraScholtenEpoch (I.ident n) =
        some (.ok r) → s.Idle (s.leak I n .dijkstraScholtenEpoch) ∧ s.Idle r.1
  | _ => True

/-- What a message in flight to a node says about its epoch. -/
def Backed (I : Nodes N) (s : DetSys N) (n : N) : DetMsg N → Prop
  | .makeRooted e => ∀ m, I.ident m = Epoch.node e → e ∈ s.joined m
  | .terminated e => e ∈ s.detected
  | .inquire e _ => e ∈ s.joined n
  | .reply e => e ∈ s.detected

/-- The marks `t` of all nodes agree with the activations and detections, and so do the
messages in flight.  The marks are a parameter because a creation changes them for two
epochs. -/
structure TestInv (I : Nodes N) (t : N → EpochType → Bool) (s : DetSys N) : Prop where
  live : ∀ n e, e ∈ s.joined n → e ∉ s.detected → t n e = false
  unjoined : ∀ n e, InRange e e → e ∉ s.joined n → t n e = true
  mail : ∀ n, ∀ msg ∈ s.inbox n, Backed I s n msg
  replies : ∀ n, ∀ r ∈ s.replies n, r.1 ∈ s.detected
  root : ∀ n m e, isRooted e = true → e ∈ s.joined n → I.ident m = Epoch.node e → e ∈ s.joined m

/-- The marks of all nodes. -/
def termMarks (s : DetSys N) (n : N) (e : EpochType) : Bool := (s.node n).windows.isTerminated e

variable {t t' : N → EpochType → Bool} {s s' : DetSys N} {n : N} {e : EpochType}

omit [DecidableEq N] in
theorem Backed.mono {msg : DetMsg N} (h : Backed I s n msg)
    (hj : ∀ m, msg.epoch ∈ s.joined m → msg.epoch ∈ s'.joined m)
    (hd : msg.epoch ∈ s.detected → msg.epoch ∈ s'.detected) : Backed I s' n msg := by
  cases msg with
  | makeRooted e => exact fun m hm => hj m (h m hm)
  | terminated | reply => exact hd h
  | inquire e source => exact hj n h

omit [DecidableEq N] in
theorem testInv_start (I : Nodes N) : TestInv I start.termMarks start where
  live := by simp [start]
  unjoined := by
    intro n e hin _
    by_contra ht
    exact not_isLive_make e ⟨hin, Bool.eq_false_iff.mpr ht⟩
  mail := by simp [start]
  replies := by simp [start]
  root := by simp [start]

/-! ## The changes a step is made of -/

omit [DecidableEq N] in
theorem TestInv.of_eq (h : TestInv I t s) (ht : ∀ n e, t' n e = t n e)
    (hi : s'.inbox = s.inbox) (hr : s'.replies = s.replies) (hd : s'.detected = s.detected)
    (hj : s'.joined = s.joined) : TestInv I t' s' := by
  have ht : t' = t := funext fun n => funext fun e => ht n e
  cases s'
  cases ht
  cases hi
  cases hr
  cases hd
  cases hj
  refine ⟨h.live, h.unjoined, ?_, h.replies, h.root⟩
  intro n msg hmsg
  exact (h.mail n msg hmsg).mono (fun _ hj => hj) id

omit [DecidableEq N] in
theorem TestInv.setInbox (h : TestInv I t s) (inbox : N → List (DetMsg N))
    (hm : ∀ n, ∀ msg ∈ inbox n, msg ∈ s.inbox n ∨ Backed I s n msg) :
    TestInv I t { s with inbox := inbox } := by
  refine { h with mail := ?_ }
  intro n msg hmsg
  have hb : Backed I s n msg := (hm n msg hmsg).elim (h.mail n msg) id
  exact hb.mono (fun _ hj => hj) id

/-- A node begins a new use of an identifier that is idle. -/
theorem TestInv.beginUse (h : TestInv I t s) (n : N) (ht : ∀ m, t m e = true)
    (hmsg : ∀ m, ∀ msg ∈ s.inbox m, msg.epoch ≠ e) (hrep : ∀ m, ∀ r ∈ s.replies m, r.1 ≠ e)
    (hroot : isRooted e = true → Epoch.node e = I.ident n) :
    TestInv I (fun m e' => t m e' && !(decide (m = n) && e' == e)) (s.beginUse n e) := by
  have hself : ∀ m, e ∈ (s.beginUse n e).joined m ↔ m = n := by
    intro m
    by_cases hm : m = n <;> simp [DetSys.beginUse, hm]
  have hother : ∀ m e', e' ≠ e → (e' ∈ (s.beginUse n e).joined m ↔ e' ∈ s.joined m) := by
    intro m e' hne
    by_cases hm : m = n <;> simp [DetSys.beginUse, hm, hne]
  have hdet : ∀ e', e' ≠ e → (e' ∈ (s.beginUse n e).detected ↔ e' ∈ s.detected) := by
    intro e' hne
    simp [DetSys.beginUse, hne]
  refine ⟨?_, ?_, ?_, ?_, ?_⟩
  · intro m e' hj hd
    by_cases heq : e' = e
    · subst heq
      simp [(hself m).mp hj]
    · simp [h.live m e' ((hother m e' heq).mp hj) (fun hd' => hd ((hdet e' heq).mpr hd'))]
  · intro m e' hin hj
    by_cases heq : e' = e
    · subst heq
      have hm : m ≠ n := fun hm => hj ((hself m).mpr hm)
      simp [ht m, hm]
    · simp [h.unjoined m e' hin (fun hj' => hj ((hother m e' heq).mpr hj')), heq]
  · intro m msg hmem
    have hne := hmsg m msg hmem
    exact (h.mail m msg hmem).mono (fun m' => (hother m' _ hne).mpr) (hdet _ hne).mpr
  · intro m r hr
    exact (hdet r.1 (hrep m r hr)).mpr (h.replies m r hr)
  · intro m m' e' hr hj hm'
    by_cases heq : e' = e
    · subst heq
      exact (hself m').mpr (I.injective (hm'.trans (hroot hr)))
    · exact (hother m' e' heq).mpr (h.root m m' e' hr ((hother m e' heq).mp hj) hm')

theorem TestInv.join (h : TestInv I t s) (n : N)
    (hroot : isRooted e = true → ∀ m, I.ident m = Epoch.node e → e ∈ s.joined m) :
    TestInv I (fun m e' => t m e' && !(decide (m = n) && e' == e)) (s.join n e) := by
  have hmem : ∀ m e', e' ∈ (s.join n e).joined m ↔ m = n ∧ e' = e ∨ e' ∈ s.joined m := by
    intro m e'
    by_cases hm : m = n
    · subst hm
      simp [DetSys.join]
    · simp [DetSys.join, hm]
  refine ⟨?_, ?_, ?_, h.replies, ?_⟩
  · intro m e' hj hd
    rcases (hmem m e').mp hj with ⟨rfl, rfl⟩ | hj
    · simp
    · simp [h.live m e' hj hd]
  · intro m e' hin hj
    rw [hmem, not_or] at hj
    have hne : ¬ (decide (m = n) && e' == e) = true := by
      simpa using hj.1
    simp [h.unjoined m e' hin hj.2, hne]
  · intro m msg hmsg
    exact (h.mail m msg hmsg).mono (fun m' hj => (hmem m' _).mpr (.inr hj)) id
  · intro m m' e' hr hj hm'
    rw [hmem] at hj ⊢
    rcases hj with ⟨rfl, rfl⟩ | hj
    · exact .inr (hroot hr m' hm')
    · exact .inr (h.root m m' e' hr hj hm')

/-- An epoch is detected, and a node processes its termination. -/
theorem TestInv.terminate (h : TestInv I t s) (n : N) (e : EpochType) (detected : Finset EpochType)
    (hd : e ∈ detected) (hsub : s.detected ⊆ detected) :
    TestInv I (fun m e' => (decide (m = n) && e' == e) || t m e')
      { s.terminate I n e with detected := detected } where
  live := by
    intro m e' hj hnd
    have hne : ¬ (decide (m = n) && e' == e) = true := by
      intro heq
      simp only [Bool.and_eq_true, decide_eq_true_eq, beq_iff_eq] at heq
      exact hnd (heq.2 ▸ hd)
    simp [h.live m e' hj (fun hd' => hnd (hsub hd')), hne]
  unjoined := by
    intro m e' hin hj
    simp [h.unjoined m e' hin hj]
  mail := by
    intro m msg hmsg
    exact (h.mail m msg hmsg).mono (fun _ hj => hj) (fun hd' => hsub hd')
  replies := by
    refine (forall_update_iff s.replies fun _ l => ∀ r ∈ l, r.1 ∈ detected).mpr
      ⟨?_, fun m _ r hr => hsub (h.replies m r hr)⟩
    intro r hr
    simp only [List.mem_append, List.mem_filter, decide_eq_true_eq] at hr
    rcases hr with hr | ⟨-, heq⟩
    · exact hsub (h.replies n r hr)
    · exact heq ▸ hd
  root := h.root

theorem termMarks_terminate (s : DetSys N) (n m : N) (e e' : EpochType) :
    (s.terminate I n e).termMarks m e' = ((decide (m = n) && e' == e) || s.termMarks m e') := by
  by_cases hm : m = n
  · subst hm
    simp [termMarks, terminate, setNode]
  · simp [termMarks, terminate, setNode, hm]

theorem termMarks_setNode (s : DetSys N) (n m : N) (d : Detector) (e : EpochType) :
    (s.setNode n d).termMarks m e =
      if m = n then d.windows.isTerminated e else s.termMarks m e := by
  by_cases hm : m = n
  · subst hm
    simp [termMarks, setNode]
  · simp [termMarks, setNode, hm]

theorem marks_of_cleared {m : N} {b b' x : Bool} (h : m = n → b' = (b && !x)) :
    (if m = n then b' else b) = (b && !(decide (m = n) && x)) := by
  by_cases hm : m = n
  · simpa [hm] using h hm
  · simp [hm]

/-! ## One step -/

variable {fuel : ℕ} {r : EpochType × EpochManip}

section

variable (h : TestInv I s.termMarks s)
include h

theorem TestInv.makeEpochCollective
    (hr : (s.node n).windows.manip.getNextCollectiveEpoch fuel .noCategoryEpoch = some (.ok r))
    (hc : (r.1 ∈ s.created ∧ r.1 ∉ s.detected) ∨ s.Idle r.1) :
    TestInv I (s.makeEpochCollective n r).termMarks (s.makeEpochCollective n r) := by
  obtain ⟨hroot, -, hm⟩ := getNextCollectiveEpoch_spec hr
  have hnot : ¬ isRooted r.1 = true := by simp [hroot]
  have hmarks : ∀ m e, (s.makeEpochCollective n r).termMarks m e =
      (s.termMarks m e && !(decide (m = n) && e == r.1)) := fun m e =>
    (s.termMarks_setNode n m _ e).trans (marks_of_cleared fun hmn => hmn ▸ hm e)
  by_cases hin : r.1 ∈ s.created ∧ r.1 ∉ s.detected
  · refine (h.join n (e := r.1) (fun hr => absurd hr hnot)).of_eq hmarks rfl rfl ?_ ?_ <;>
      simp [DetSys.makeEpochCollective, enter, hin]
  · have hidle := hc.resolve_left hin
    refine (h.beginUse n (fun m => (hidle m).1) (fun m => (hidle m).2.1) ?_
      (fun hr => absurd hr hnot)).of_eq hmarks rfl rfl ?_ ?_
    · exact fun m r' hr' => (hidle m).2.2 r' (List.mem_append_right _ hr')
    · simp [DetSys.makeEpochCollective, enter, hin]
    · simp [DetSys.makeEpochCollective, enter, hin]

/-- A rooted allocation begins two uses: that of the epoch returned, and that of the epoch
nobody gets. -/
theorem TestInv.beginRooted {cat : EpochCategory}
    (hr : (s.node n).windows.manip.getNextRootedEpoch fuel cat (I.ident n) = some (.ok r))
    (hl : s.Idle (s.leak I n cat)) (he : s.Idle r.1) :
    TestInv I (fun m e => if m = n then r.2.isTerminated e else s.termMarks m e)
      ((s.beginUse n (s.leak I n cat)).beginUse n r.1) := by
  obtain ⟨hne, -, -, hm, hd⟩ := getNextRootedEpoch_spec hr
  have hleak := (s.node n).windows.manip.decode_next_rooted (I.ident n) cat
  have h₁ := h.beginUse n (fun m => (hl m).1) (fun m => (hl m).2.1)
    (fun m r' hr' => (hl m).2.2 r' (List.mem_append_right _ hr')) (fun _ => hleak.2.2)
  have h₂ := h₁.beginUse n (e := r.1) ?_ (fun m => (he m).2.1)
    (fun m r' hr' => (he m).2.2 r' (List.mem_append_right _ hr')) (fun _ => hd.2.2)
  · refine h₂.of_eq ?_ rfl rfl rfl rfl
    intro m e
    by_cases hmn : m = n
    · subst hmn
      simp only [if_true, decide_true, Bool.true_and]
      exact hm e
    · simp [hmn]
  · intro m
    have hne' : (r.1 == s.leak I n cat) = false := beq_eq_false_iff_ne.mpr hne.symm
    simp [termMarks, (he m).1, hne']

theorem TestInv.makeEpochRootedWave
    (hr : (s.node n).windows.manip.getNextRootedEpoch fuel .noCategoryEpoch (I.ident n) =
      some (.ok r))
    (hl : s.Idle (s.leak I n .noCategoryEpoch)) (he : s.Idle r.1) :
    TestInv I (s.makeEpochRootedWave I n r).termMarks (s.makeEpochRootedWave I n r) := by
  obtain ⟨-, -, -, hm, hd⟩ := getNextRootedEpoch_spec hr
  have hlive : r.2.isTerminated r.1 = false := by simp [hm]
  refine ((h.beginRooted hr hl he).setInbox (s.makeEpochRootedWave I n r).inbox ?_).of_eq
    ?_ rfl rfl rfl rfl
  · intro m msg hmsg
    cases mem_broadcast hmsg with
    | inl hnew =>
      obtain ⟨-, rfl⟩ := hnew
      refine .inr ?_
      intro m' hm'
      have : m' = n := I.injective (hm'.trans hd.2.2)
      simp [DetSys.beginUse, this]
    | inr hold => exact .inl hold
  · intro m e
    refine (s.termMarks_setNode n m _ e).trans ?_
    split
    · change ((((s.node n).allocated r.2).windows.activateEpoch r.1).isTerminated e) = _
      by_cases heq : e = r.1
      · simp [heq, allocated, hlive]
      · simp [heq, allocated]
    · rfl

theorem TestInv.makeEpochRootedDS
    (hr : (s.node n).windows.manip.getNextRootedEpoch fuel .dijkstraScholtenEpoch (I.ident n) =
      some (.ok r))
    (hl : s.Idle (s.leak I n .dijkstraScholtenEpoch)) (he : s.Idle r.1) :
    TestInv I (s.makeEpochRootedDS I n r).termMarks (s.makeEpochRootedDS I n r) := by
  refine (h.beginRooted hr hl he).of_eq ?_ rfl rfl rfl rfl
  intro m e
  exact s.termMarks_setNode n m _ e

theorem TestInv.setNode {d : Detector} (hd : d.windows = (s.node n).windows) :
    TestInv I (s.setNode n d).termMarks (s.setNode n d) := by
  refine h.of_eq ?_ rfl rfl rfl rfl
  intro m e
  rw [termMarks_setNode]
  split
  · rename_i hm
    rw [hd, hm]
    rfl
  · rfl

theorem TestInv.inquire (n : N) (hin : InRange e e) :
    TestInv I (s.inquire I n e).termMarks (s.inquire I n e) := by
  rw [DetSys.inquire]
  split
  · rename_i hq
    have hset := h.setNode (n := n)
      (d := { s.node n with epochWaitStatus := insert e (s.node n).epochWaitStatus }) rfl
    refine (hset.setInbox (fun m => if I.ident m = Epoch.node e then .inquire e n :: s.inbox m
      else s.inbox m) ?_).of_eq (fun _ _ => rfl) rfl rfl rfl rfl
    intro m msg hmsg
    split at hmsg
    · rename_i hm
      cases List.mem_cons.mp hmsg with
      | inl heq =>
        subst heq
        obtain ⟨hlive, hroot, -⟩ := of_inquires hq
        refine .inr (h.root n m e hroot ?_ hm)
        by_contra hj
        have := h.unjoined n e hin hj
        exact Bool.noConfusion (this.symm.trans hlive)
      | inr hold => exact .inl hold
    · exact .inl hmsg
  · exact h

theorem TestInv.handle (n : N) {msg : DetMsg N} (hmem : msg ∈ s.inbox n) :
    TestInv I (handle I (s.take n msg) n msg).termMarks
      (handle I (s.take n msg) n msg) := by
  have htake : TestInv I (s.take n msg).termMarks (s.take n msg) :=
    h.setInbox _ fun m msg' hmsg => .inl ((s.inbox_take n m msg).subset hmsg)
  have hback := h.mail n msg hmem
  cases msg with
  | makeRooted e =>
    refine (htake.join n (e := e) (fun _ => hback)).of_eq ?_ rfl rfl rfl rfl
    intro m e'
    refine ((s.take n (.makeRooted e)).termMarks_setNode n m _ e').trans ?_
    rw [(makeRootedHan_frame _ _ _ _).1, Windows.isTerminated_activateEpoch]
    refine marks_of_cleared fun hm => ?_
    subst hm
    rfl
  | terminated e =>
    exact (htake.terminate n e s.detected hback (fun _ h => h)).of_eq
      (fun m e' => termMarks_terminate _ n m e e') rfl rfl rfl rfl
  | reply e =>
    have hset := htake.setNode (n := n)
      (d := { s.node n with epochWaitStatus := (s.node n).epochWaitStatus.erase e }) rfl
    exact (hset.terminate n e s.detected hback (fun _ h => h)).of_eq
      (fun m e' => termMarks_terminate _ n m e e') rfl rfl rfl rfl
  | inquire e source =>
    simp only [DetSys.handle]
    split
    · rename_i ht
      refine ⟨htake.live, htake.unjoined, ?_, ?_, htake.root⟩
      · exact fun m msg hmsg => (htake.mail m msg hmsg).mono (fun _ hj => hj) id
      · refine (forall_update_iff s.replies fun _ l => ∀ r ∈ l, r.1 ∈ s.detected).mpr
          ⟨List.forall_mem_cons.mpr ⟨?_, h.replies n⟩, fun m _ => h.replies m⟩
        by_contra hd
        have := h.live n e hback hd
        exact Bool.noConfusion (this.symm.trans ht)
    · exact htake.of_eq (fun _ _ => rfl) rfl rfl rfl rfl

theorem TestInv.runReply {source : N} (hmem : (e, source) ∈ s.replies n) :
    TestInv I s.termMarks (post
      { s with replies := Function.update s.replies n ((s.replies n).erase (e, source)) }
      source (.reply e)) := by
  have hd : e ∈ s.detected := h.replies n _ hmem
  refine ⟨h.live, h.unjoined, ?_, ?_, h.root⟩
  · have hmail : ∀ m, ∀ msg ∈ update s.inbox source (.reply e :: s.inbox source) m,
        Backed I s m msg :=
      (forall_update_iff s.inbox fun m l => ∀ msg ∈ l, Backed I s m msg).mpr
        ⟨List.forall_mem_cons.mpr ⟨hd, h.mail source⟩, fun m _ => h.mail m⟩
    exact fun m msg hmsg => (hmail m msg hmsg).mono (fun _ hj => hj) id
  · exact (forall_update_iff s.replies fun _ l => ∀ r ∈ l, r.1 ∈ s.detected).mpr
      ⟨fun r hr => h.replies n r (List.mem_of_mem_erase hr), fun m _ => h.replies m⟩

theorem TestInv.detectWave (e : EpochType) :
    TestInv I (s.terminate I I.treeRoot e).termMarks
      (broadcast { s.terminate I I.treeRoot e with detected := insert e s.detected }
        I.treeRoot (.terminated e)) := by
  have ht := h.terminate I.treeRoot e (insert e s.detected) (mem_insert_self e _)
    (subset_insert e _)
  refine (ht.setInbox _ ?_).of_eq (fun m e' => termMarks_terminate s _ m e e') rfl rfl rfl rfl
  intro m msg hmsg
  cases mem_broadcast hmsg with
  | inl hnew => exact .inr (hnew.2 ▸ mem_insert_self e _)
  | inr hold => exact .inl hold

end

variable [Fintype N]

theorem TestInv.step (h : TestInv I s.termMarks s) {a : DetAct N} (hc : CleanMake I s a)
    (hs : step I s a = some s') : TestInv I s'.termMarks s' := by
  cases a with
  | makeEpochCollective n fuel =>
    obtain ⟨r, hr, rfl⟩ := map_eq_some_iff.mp hs
    exact h.makeEpochCollective (returned_eq_some hr) (hc r (returned_eq_some hr))
  | makeEpochRootedWave n fuel =>
    obtain ⟨r, hr, rfl⟩ := map_eq_some_iff.mp hs
    obtain ⟨hl, he⟩ := hc r (returned_eq_some hr)
    exact h.makeEpochRootedWave (returned_eq_some hr) hl he
  | makeEpochRootedDS n fuel =>
    obtain ⟨r, hr, rfl⟩ := map_eq_some_iff.mp hs
    obtain ⟨hl, he⟩ := hc r (returned_eq_some hr)
    exact h.makeEpochRootedDS (returned_eq_some hr) hl he
  | finishedEpoch n e =>
    obtain ⟨-, rfl⟩ := of_guard hs
    exact h.setNode (finishedEpoch_frame _ _ _).1
  | produce n k =>
    cases hs
    exact (h.setNode (n := n) (d := (s.node n).produce k) rfl).of_eq (fun _ _ => rfl)
      rfl rfl rfl rfl
  | consume n k =>
    obtain ⟨-, rfl⟩ := of_guard hs
    exact (h.setNode (n := n) (d := (s.node n).consume k) rfl).of_eq (fun _ _ => rfl)
      rfl rfl rfl rfl
  | testEpochTerminated n e =>
    obtain ⟨hin, rfl⟩ := of_guard hs
    exact h.inquire n hin
  | addDependency n p q =>
    obtain ⟨hin, rfl⟩ := of_guard hs
    split
    · exact h
    · exact (h.inquire n hin).setNode (addSuccessor_frame _ p q).1
  | deliver n msg =>
    obtain ⟨hmem, rfl⟩ := of_guard hs
    exact h.handle n hmem
  | runReply n e source =>
    obtain ⟨hmem, rfl⟩ := of_guard hs
    exact h.runReply hmem
  | detectWave e =>
    obtain ⟨-, rfl⟩ := of_guard hs
    exact h.detectWave e
  | detectDS n e =>
    obtain ⟨-, rfl⟩ := of_guard hs
    exact (h.terminate n e (insert e s.detected) (mem_insert_self e _)
      (subset_insert e _)).of_eq (fun m e' => termMarks_terminate s n m e e')
      rfl rfl rfl rfl

omit [Fintype N] in
theorem created_handle (s : DetSys N) (n : N) (msg : DetMsg N) :
    (handle I s n msg).created = s.created := by
  cases msg with
  | makeRooted | terminated | reply => rfl
  | inquire e source =>
    simp only [handle]
    split <;> rfl

omit [Fintype N] in
theorem created_inquire (s : DetSys N) (n : N) (e : EpochType) :
    (s.inquire I n e).created = s.created := by
  rw [inquire]
  split <;> rfl

/-- Every epoch created is an identifier of the window in charge of it. -/
theorem created_inRange_step (h : ∀ e ∈ s.created, InRange e e) {a : DetAct N}
    (hs : step I s a = some s') : ∀ e ∈ s'.created, InRange e e := by
  cases a with
  | makeEpochCollective n fuel =>
    obtain ⟨r, hr, rfl⟩ := map_eq_some_iff.mp hs
    intro e he
    cases mem_insert.mp he with
    | inl heq => exact heq ▸ inRange_getNextCollectiveEpoch (returned_eq_some hr)
    | inr hold => exact h e hold
  | makeEpochRootedWave n fuel | makeEpochRootedDS n fuel =>
    obtain ⟨r, hr, rfl⟩ := map_eq_some_iff.mp hs
    intro e he
    cases mem_insert.mp he with
    | inl heq => exact heq ▸ inRange_getNextRootedEpoch (returned_eq_some hr)
    | inr hold => exact h e (mem_of_mem_erase hold)
  | produce n k =>
    cases hs
    exact h
  | testEpochTerminated n e =>
    obtain ⟨-, rfl⟩ := of_guard hs
    rwa [created_inquire]
  | addDependency n p q =>
    obtain ⟨-, rfl⟩ := of_guard hs
    split
    · exact h
    · change ∀ e ∈ (s.inquire I n p).created, InRange e e
      rwa [created_inquire]
  | deliver n msg =>
    obtain ⟨-, rfl⟩ := of_guard hs
    rwa [created_handle]
  | finishedEpoch | consume | runReply | detectWave | detectDS =>
    obtain ⟨-, rfl⟩ := of_guard hs
    exact h

theorem Reachable.testInv (h : Reachable I (CleanMake I) s) :
    TestInv I s.termMarks s ∧ ∀ e ∈ s.created, InRange e e := by
  refine Reach.invariant ?_ ?_ h
  · intro s hs
    cases hs
    exact ⟨testInv_start I, by simp [start]⟩
  · intro s a s' hinv hc hs
    exact ⟨hinv.1.step hc hs, created_inRange_step hinv.2 hs⟩

/-- In every run whose creations are clean, the test of a created epoch on a node is sound if
and only if the epoch has been detected or the node has activated it in its current use. -/
theorem testEpochTerminated_sound_iff (I : Nodes N) {s : DetSys N}
    (h : Reachable I (CleanMake I) s) (n : N) {e : EpochType} (hc : e ∈ s.created) :
    (testEpochTerminated (I.ident n) (s.node n) e = .terminated → e ∈ s.detected) ↔
      e ∈ s.detected ∨ e ∈ s.joined n := by
  obtain ⟨hinv, hin⟩ := h.testInv
  have htest : testEpochTerminated (I.ident n) (s.node n) e = .terminated ↔
      s.termMarks n e = true := by
    rw [testEpochTerminated, termMarks]
    split
    · simp [*]
    · split <;> simp [*]
  rw [htest]
  constructor
  · intro hs
    by_cases hj : e ∈ s.joined n
    · exact .inr hj
    · exact .inl (hs (hinv.unjoined n e (hin e hc) hj))
  · intro hs ht
    by_contra hd
    have := hinv.live n e (hs.resolve_left hd) hd
    exact Bool.noConfusion (this.symm.trans ht)

omit [DecidableEq N] [Fintype N] in
theorem cleanMake_start (I : Nodes N) (a : DetAct N) : CleanMake I start a := by
  have hidle : ∀ {e}, make.isTerminated e = true → (start : DetSys N).Idle e :=
    fun h _ => ⟨h, by simp [start], by simp [start]⟩
  cases a with
  | makeEpochCollective n fuel =>
    intro r hr
    exact .inr (hidle (getNextCollectiveEpoch_spec hr).2.1)
  | makeEpochRootedWave | makeEpochRootedDS =>
    intro r hr
    obtain ⟨-, hl, he, -⟩ := getNextRootedEpoch_spec hr
    exact ⟨hidle hl, hidle he⟩
  | _ => trivial

/-- The first Dijkstra–Scholten epoch that node 0 gets. -/
def firstDS : EpochType := 0xC000000000000002

/-- On node 0, the root, the test of the new epoch is sound. -/
theorem testEpochTerminated_sound_iff_root :
    ∃ s, Reachable (pair 0) (CleanMake (pair 0)) s ∧ firstDS ∈ s.created ∧ firstDS ∉ s.detected ∧
      (testEpochTerminated ((pair 0).ident 0) (s.node 0) firstDS = .terminated →
        firstDS ∈ s.detected) := by
  have hrun : (step (pair 0) start (.makeEpochRootedDS 0 1)).any (fun s => decide
      (firstDS ∈ s.created ∧ firstDS ∉ s.detected ∧ firstDS ∈ s.joined 0)) = true := by
    decide +kernel
  cases hs : step (pair 0) start (.makeEpochRootedDS 0 1) with
  | none => simp [hs] at hrun
  | some s =>
    rw [hs, any_some] at hrun
    obtain ⟨hc, hd, hj⟩ := of_decide_eq_true hrun
    have hreach : Reachable (pair 0) (CleanMake (pair 0)) s :=
      .next (.start rfl) (cleanMake_start (pair 0) _) hs
    exact ⟨s, hreach, hc, hd, (testEpochTerminated_sound_iff (pair 0) hreach 0 hc).mpr (.inr hj)⟩

/-- On node 1 the test of the same epoch answers that it has terminated. -/
theorem testEpochTerminated_unsound :
    ∃ s, Reachable (pair 0) anyStep s ∧ firstDS ∈ s.created ∧ firstDS ∉ s.detected ∧
      testEpochTerminated ((pair 0).ident 1) (s.node 1) firstDS = .terminated :=
  Reach.of_run (step (pair 0)) [.makeEpochRootedDS 0 1] _ (show Init start from rfl)
    (by decide +kernel)

end DetSys
end VtRuntime.Termination
