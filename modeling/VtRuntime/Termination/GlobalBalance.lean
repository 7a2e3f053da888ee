import VtRuntime.Termination.EpochBooks

/-!
# Global termination covers nested epochs

The units of all nodes on the global epoch balance only when no created epoch is live,
although the three kinds of epochs place their units differently and a node may process one
termination twice.
-/

namespace VtRuntime.Termination

open Lib Epoch List Detector Function Finset

universe u

namespace DetSys

variable {N : Type u} [DecidableEq N] {I : Nodes N}

/-! ## Messages in flight -/

/-- The epochs that the messages to a node are about. -/
def Fits (I : Nodes N) (n : N) : DetMsg N → Prop
  | .makeRooted e => Remote (I.ident n) e
  | .terminated e => isDS e = false
  | .inquire e source => Remote (I.ident source) e
  | .reply e => Remote (I.ident n) e

/-- How many broadcasts of a termination are on their way to a node. -/
def waiting (s : DetSys N) (n : N) (e : EpochType) : ℕ := (s.inbox n).count (.terminated e)

theorem waiting_makeEpochRootedWave (I : Nodes N) (s : DetSys N) (n : N)
    (r : EpochType × EpochManip) : (s.makeEpochRootedWave I n r).waiting = s.waiting := by
  funext m e
  simp only [DetSys.makeEpochRootedWave, broadcast, waiting]
  split
  · rfl
  · rw [count_cons_of_ne (by simp)]
    rfl

/-- At most one broadcast is on its way to a node, and only while the node takes part. -/
def Awaits (s : DetSys N) (n : N) (e : EpochType) : Prop :=
  s.waiting n e = 0 ∨ s.waiting n e = 1 ∧ e ∈ (s.node n).epochActive

/-- An epoch is live on a node, and no broadcast of its termination is on its way there. -/
def Holds (s : DetSys N) (n : N) (e : EpochType) : Prop :=
  e ∈ (s.node n).live ∧ s.waiting n e = 0

/-- What is created and not detected is held by a node. -/
def Held (s : DetSys N) : Prop := ∀ e ∈ s.created, e ∉ s.detected → ∃ n, s.Holds n e

/-- `Awaits` for every pair of a node and an epoch in `P`. -/
def Pending (P : N → EpochType → Prop) (s : DetSys N) : Prop := ∀ n e, P n e → s.Awaits n e

section Pending

variable {P : N → EpochType → Prop} {s : DetSys N} {n : N} {e : EpochType}

/-- Other changes of a node keep the epochs it takes part in. -/
theorem Pending.setNode (h : Pending P s) {d : Detector}
    (ha : (s.node n).epochActive ⊆ d.epochActive) : Pending P (s.setNode n d) := by
  have hsub : ∀ m, (s.node m).epochActive ⊆ ((s.setNode n d).node m).epochActive :=
    (forall_update_iff s.node fun m d => (s.node m).epochActive ⊆ d.epochActive).mpr
      ⟨ha, fun _ _ _ h => h⟩
  intro m e hP
  exact (h m e hP).imp_right fun hw => ⟨hw.1, hsub m hw.2⟩

/-- Messages are taken, or others than broadcasts are sent. -/
theorem Pending.setInbox (h : Pending P s) (inbox : N → List (DetMsg N))
    (hc : ∀ n e, (inbox n).count (.terminated e) ≤ s.waiting n e) :
    Pending P { s with inbox := inbox } := by
  intro n e hP
  have := hc n e
  cases h n e hP with
  | inl h0 => exact .inl (by simp only [waiting]; omega)
  | inr h1 =>
    by_cases h0 : (inbox n).count (.terminated e) = 0
    · exact .inl h0
    · exact .inr ⟨by simp only [waiting]; omega, h1.2⟩

/-- A node stops to take part when no broadcast is on its way to it. -/
theorem Pending.terminate (h : Pending P s) (hw : P n e → s.waiting n e = 0) :
    Pending P (s.terminate I n e) := by
  intro m e' hP
  by_cases hm : m = n
  · subst hm
    by_cases heq : e' = e
    · subst heq
      exact .inl (hw hP)
    · refine (h m e' hP).imp_right ?_
      intro h1
      simpa [DetSys.terminate, DetSys.setNode, waiting, heq] using h1
  · simpa [Awaits, waiting, DetSys.terminate, DetSys.setNode, hm] using h m e' hP

/-- The root of the tree sends a broadcast when every node takes part. -/
theorem Pending.detectWave (h : Pending P s) (ha : ∀ n, e ∈ (s.node n).epochActive)
    (hno : ∀ n, .terminated e ∉ s.inbox n) :
    Pending P (broadcast { s.terminate I I.treeRoot e with detected := insert e s.detected }
      I.treeRoot (.terminated e)) := by
  have hw : ∀ n, s.waiting n e = 0 := fun n => count_eq_zero.mpr (hno n)
  have ht := h.terminate (I := I) (n := I.treeRoot) (e := e) (fun _ => hw I.treeRoot)
  intro m e' hP
  have hold := ht m e' hP
  by_cases hm : m = I.treeRoot
  · simpa [Awaits, waiting, broadcast, hm] using hold
  · by_cases heq : e' = e
    · subst heq
      have h0 : (s.inbox m).count (.terminated e') = 0 := hw m
      refine .inr ⟨?_, ?_⟩
      · simp [waiting, broadcast, hm, DetSys.terminate, DetSys.setNode, h0]
      · simpa [broadcast, DetSys.terminate, DetSys.setNode, hm] using ha m
    · have hne : (DetMsg.terminated e : DetMsg N) ≠ .terminated e' := by
        simpa using Ne.symm heq
      simpa [Awaits, waiting, broadcast, hm, count_cons_of_ne hne] using hold

end Pending

section Held

variable {s s' : DetSys N} {n : N} {d : Detector} {e : EpochType}

theorem Held.setNode (h : Held s) (hd : (s.node n).live ⊆ d.live) : Held (s.setNode n d) := by
  have hsub : ∀ m, (s.node m).live ⊆ ((s.setNode n d).node m).live :=
    (forall_update_iff s.node fun m d => (s.node m).live ⊆ d.live).mpr ⟨hd, fun _ _ _ h => h⟩
  exact fun e hc hnot => (h e hc hnot).imp fun m hm => ⟨hsub m hm.1, hm.2⟩

/-- A node creates an epoch of which no broadcast is on its way. -/
theorem Held.create (h : Held (s.setNode n d)) (he : e ∈ d.live) (hw : s.Awaits n e)
    (ha : e ∉ (s.node n).epochActive) (hnode : s'.node = update s.node n d)
    (hwait : s'.waiting = s.waiting)
    (hold : ∀ e' ∈ s'.created, e' ∉ s'.detected → e' ≠ e → e' ∈ s.created ∧ e' ∉ s.detected) :
    Held s' := by
  intro e' hc hnot
  simp only [Holds, hnode, hwait]
  by_cases heq : e' = e
  · exact ⟨n, by rwa [update_self, heq], heq ▸ hw.resolve_right fun h => ha h.2⟩
  · obtain ⟨hc', hnot'⟩ := hold e' hc hnot heq
    exact h e' hc' hnot'

/-- A rooted allocation takes two epochs, and creates one of them. -/
theorem created_of_ne {created detected : Finset EpochType} {leak e e' : EpochType}
    (hc : e' ∈ insert e (created.erase leak)) (hd : e' ∉ (detected.erase leak).erase e)
    (hne : e' ≠ e) : e' ∈ created ∧ e' ∉ detected := by
  simp_all

/-- A node processes the termination of an epoch that is detected, or held by another one. -/
theorem Held.terminate (h : Held s) {detected : Finset EpochType} (hd : s.detected ⊆ detected)
    (he : e ∈ s.created → e ∉ detected → ∃ m ≠ n, s.Holds m e) :
    Held { s.terminate I n e with detected := detected } := by
  intro e' hc hnot
  by_cases heq : e' = e
  · subst heq
    obtain ⟨m, hm, hh⟩ := he hc hnot
    exact ⟨m, by simpa [DetSys.terminate, DetSys.setNode, hm] using hh.1, hh.2⟩
  · obtain ⟨m, hh⟩ := h e' hc fun h => hnot (hd h)
    refine ⟨m, ?_, hh.2⟩
    by_cases hm : m = n
    · subst hm
      simpa [DetSys.terminate, DetSys.setNode, heq] using hh.1
    · simpa [DetSys.terminate, DetSys.setNode, hm] using hh.1

end Held

variable [Fintype N]

/-- The invariant behind the balance of the global epoch. -/
structure Inv (I : Nodes N) (s : DetSys N) : Prop where
  good : ∀ n, (s.node n).Good (I.ident n)
  fits : ∀ n, ∀ msg ∈ s.inbox n, Fits I n msg
  asked : ∀ n, ∀ r ∈ s.inquirers n ++ s.replies n, Remote (I.ident r.2) r.1
  awaits : Pending (fun n e => Owner (I.ident n) e) s
  holds : Held s
  balance : ∑ n, (s.node n).slack = s.units

theorem inv_start (I : Nodes N) : Inv I start where
  good := fun n => good_start (I.ident n)
  fits := by simp [start]
  asked := by simp [start]
  awaits := fun _ _ _ => .inl rfl
  holds := by simp [Held, start]
  balance := by simp [start, slack]

variable {s : DetSys N} {n : N} {d : Detector} {e : EpochType}

theorem Inv.setNode (h : Inv I s) {u : ℕ} (hg : d.Good (I.ident n))
    (ha : (s.node n).epochActive ⊆ d.epochActive) (hl : (s.node n).live ⊆ d.live)
    (hs : d.slack + s.units = (s.node n).slack + u) :
    Inv I { s.setNode n d with units := u } where
  good := (forall_update_iff s.node fun m d => d.Good (I.ident m)).mpr ⟨hg, fun m _ => h.good m⟩
  fits := h.fits
  asked := h.asked
  awaits := h.awaits.setNode ha
  holds := h.holds.setNode hl
  balance := by
    have hsum := sum_change_at (f := fun m => (s.node m).slack)
      (g := fun m => ((s.setNode n d).node m).slack) n (by
        intro m hm
        simp [DetSys.setNode, hm])
    have hd : ((s.setNode n d).node n).slack = d.slack := by simp [DetSys.setNode]
    have := h.balance
    simp only [hd] at hsum
    change ∑ m, ((s.setNode n d).node m).slack = (u : ℤ)
    rw [hsum]
    omega

/-- Messages taken, and messages other than broadcasts sent. -/
theorem Inv.setInbox (h : Inv I s) (inbox : N → List (DetMsg N))
    (hf : ∀ n, ∀ msg ∈ inbox n, Fits I n msg)
    (hc : ∀ n e, (inbox n).count (.terminated e) ≤ s.waiting n e) :
    Inv I { s with inbox := inbox } where
  good := h.good
  fits := hf
  asked := h.asked
  awaits := h.awaits.setInbox inbox hc
  holds := fun e hcr hnot => (h.holds e hcr hnot).imp fun n hh =>
    ⟨hh.1, Nat.le_zero.mp ((hc n e).trans hh.2.le)⟩
  balance := h.balance

theorem Inv.terminate (h : Inv I s) (hw : Owner (I.ident n) e → s.waiting n e = 0)
    (hu : e ∉ (s.node n).unfinished) (hg : Owner (I.ident n) e → e ∈ (s.node n).globals)
    (hds : isDS e = true → Owner (I.ident n) e) {detected : Finset EpochType}
    (hd : s.detected ⊆ detected) (hh : e ∈ s.created → e ∉ detected → ∃ m ≠ n, s.Holds m e) :
    Inv I { s.terminate I n e with detected := detected } where
  good := (forall_update_iff s.node fun m d => d.Good (I.ident m)).mpr
    ⟨((h.good n).epochTerminated hu hg hds).1, fun m _ => h.good m⟩
  fits := h.fits
  asked := by
    intro m r hr
    refine h.asked m r ?_
    by_cases hm : m = n
    · subst hm
      simp only [DetSys.terminate, update_self, mem_append, mem_filter] at hr ⊢
      tauto
    · simpa [DetSys.terminate, hm] using hr
  awaits := h.awaits.terminate hw
  holds := h.holds.terminate hd hh
  balance := by
    have hs := ((h.good n).epochTerminated hu hg hds).2
    have hsame : ∀ m, ((s.terminate I n e).node m).slack = (s.node m).slack :=
      (forall_update_iff s.node fun m d => d.slack = (s.node m).slack).mpr ⟨hs, fun _ _ => rfl⟩
    exact (sum_congr rfl fun m _ => hsame m).trans h.balance

/-! ## One step -/

section

variable (h : Inv I s)
include h

variable {fuel : ℕ} {r : EpochType × EpochManip}

theorem Inv.makeEpochCollective
    (hr : (s.node n).windows.manip.getNextCollectiveEpoch fuel .noCategoryEpoch = some (.ok r)) :
    Inv I (s.makeEpochCollective n r) := by
  obtain ⟨hroot, ht, hm⟩ := EpochManip.getNextCollectiveEpoch_spec hr
  have hf := (h.good n).fresh ht
  have halloc : ((s.node n).allocated r.2).Good (I.ident n) := by
    refine (h.good n).allocated ?_ ?_
    · intro e he
      rw [hm, Bool.and_eq_true] at he
      exact he.1
    · intro e hds _
      have hne : e ≠ r.1 := fun heq => by
        have := isRooted_of_isDS hds
        rw [heq, hroot] at this
        exact Bool.noConfusion this
      simp [hm, hne, Windows.isTerminated]
  have hlive : ((s.node n).allocated r.2).windows.isTerminated r.1 = false := by
    simp [allocated, hm]
  obtain ⟨hg, hs⟩ := halloc.initialize hf.1 hf.2 hlive (.inl hroot) (.inl hroot)
  have hset := h.setNode (u := s.units) hg (fun _ h => h) (subset_insert _ _) (by rw [hs]; rfl)
  refine { hset with
    holds := hset.holds.create (mem_insert_self _ _) (h.awaits n r.1 (.inl hroot)) hf.2.2.1 rfl rfl
      ?_ }
  intro e he hnot hne
  refine ⟨mem_of_mem_insert_of_ne he hne, fun hd => hnot ?_⟩
  change e ∈ (s.enter n r.1).detected
  rw [enter]
  split
  · exact hd
  · exact Finset.mem_erase.mpr ⟨hne, hd⟩

theorem Inv.makeEpochRootedWave
    (hr : (s.node n).windows.manip.getNextRootedEpoch fuel .noCategoryEpoch (I.ident n) =
      some (.ok r)) :
    Inv I (s.makeEpochRootedWave I n r) := by
  obtain ⟨halloc, hf, hlive, hroot, hcat, hnode⟩ := (h.good n).allocatedRooted hr
  have hds : isDS r.1 = false := by simp [isDS, hcat]
  obtain ⟨hg, hs⟩ := halloc.initializeRootedWaveEpoch hf.1 hf.2 hlive (.inr hnode) hroot hds
  have hset := h.setNode (u := s.units) hg (fun _ h => h) (subset_insert _ _) (by rw [hs]; rfl)
  have hwait := waiting_makeEpochRootedWave I s n r
  refine { hset.setInbox (s.makeEpochRootedWave I n r).inbox ?_ fun m => (congr_fun hwait m).le with
    holds := hset.holds.create (mem_insert_self _ _) (h.awaits n r.1 (.inr hnode)) hf.2.2.1 rfl
      hwait fun _ => created_of_ne }
  intro m msg hmsg
  cases mem_broadcast hmsg with
  | inl hnew =>
    obtain ⟨hm, rfl⟩ := hnew
    refine ⟨hroot, hds, ?_⟩
    rw [hnode]
    exact fun heq => hm (I.injective heq).symm
  | inr hold => exact h.fits m msg hold

theorem Inv.makeEpochRootedDS
    (hr : (s.node n).windows.manip.getNextRootedEpoch fuel .dijkstraScholtenEpoch (I.ident n) =
      some (.ok r)) :
    Inv I (s.makeEpochRootedDS I n r) := by
  obtain ⟨halloc, hf, hlive, hroot, hcat, hnode⟩ := (h.good n).allocatedRooted hr
  have hds : isDS r.1 = true := by simp [isDS, hcat, hroot]
  obtain ⟨hg, hs⟩ := halloc.initialize hf.1 hf.2 hlive (.inr hnode) (.inr hds)
  have hset := h.setNode (u := s.units) hg (fun _ h => h) (subset_insert _ _) (by rw [hs]; rfl)
  exact { hset with
    holds := hset.holds.create (mem_insert_self _ _) (h.awaits n r.1 (.inr hnode)) hf.2.2.1 rfl rfl
      fun _ => created_of_ne }

theorem Inv.inquire (n : N) (hin : EpochManip.InRange e e) : Inv I (s.inquire I n e) := by
  rw [DetSys.inquire]
  split
  · rename_i hq
    have hrem := (h.good n).remote_of_inquires hin hq
    have hset := h.setNode (n := n) (u := s.units)
      (d := { s.node n with epochWaitStatus := insert e (s.node n).epochWaitStatus })
      (h.good n) (fun _ h => h) (fun _ h => h) rfl
    refine { hset.setInbox (fun m => if I.ident m = Epoch.node e then
      .inquire e n :: s.inbox m else s.inbox m) ?_ ?_ with }
    · intro m msg hmsg
      split at hmsg
      · cases mem_cons.mp hmsg with
        | inl heq => exact heq ▸ hrem
        | inr hold => exact h.fits m msg hold
      · exact h.fits m msg hmsg
    · intro m e'
      simp only [waiting]
      split
      · rw [count_cons_of_ne (by simp)]
        exact le_rfl
      · exact le_rfl
  · exact h

theorem Inv.take (n : N) (msg : DetMsg N) : Inv I (s.take n msg) :=
  h.setInbox _ (fun m msg' hmsg => h.fits m msg' ((s.inbox_take n m msg).subset hmsg))
    (fun m _ => (s.inbox_take n m msg).count_le _)

theorem Inv.held (ha : e ∈ (s.node n).epochActive) :
    e ∉ (s.node n).unfinished ∧ (Owner (I.ident n) e → e ∈ (s.node n).globals) := by
  have hact : ((s.node n).entry e).active = true := decide_eq_true ha
  obtain ⟨-, -, hg⟩ := (h.good n e).active hact
  refine ⟨?_, fun ho => of_decide_eq_true (hg ho)⟩
  intro hu
  have := ((h.good n e).unfinished (decide_eq_true hu)).2.2.1
  exact Bool.noConfusion (hact.symm.trans this)

theorem Inv.mem_live_iff :
    e ∈ (s.node n).live ↔ e ∈ (s.node n).unfinished ∨ e ∈ (s.node n).globals := by
  have := (h.good n e).live
  rw [← decide_eq_true_iff (p := e ∈ (s.node n).live), ← decide_eq_true_iff
    (p := e ∈ (s.node n).unfinished), ← decide_eq_true_iff (p := e ∈ (s.node n).globals),
    ← Bool.or_eq_true]
  exact Bool.eq_iff_iff.mp this

theorem Inv.owner_of_live (hl : e ∈ (s.node n).live) : Owner (I.ident n) e := by
  cases h.mem_live_iff.mp hl with
  | inl hu => exact ((h.good n e).unfinished (decide_eq_true hu)).2.1
  | inr hg => exact ((h.good n e).global (decide_eq_true hg)).2

/-- A node that does not count an epoch on the global epoch may process its termination at
any time, and any number of times. -/
theorem Inv.terminate_remote (hno : ¬ Owner (I.ident n) e) (hds : isDS e = false) :
    Inv I (s.terminate I n e) := by
  refine h.terminate (fun ho => absurd ho hno) ?_ (fun ho => absurd ho hno) ?_ subset_rfl ?_
  · exact fun hu => hno ((h.good n e).unfinished (decide_eq_true hu)).2.1
  · exact fun hd => Bool.noConfusion (hds.symm.trans hd)
  · intro hc hnot
    obtain ⟨m, hm⟩ := h.holds e hc hnot
    exact ⟨m, fun heq => hno (heq ▸ h.owner_of_live hm.1), hm⟩

theorem Inv.handle (n : N) {msg : DetMsg N} (hmem : msg ∈ s.inbox n) :
    Inv I (DetSys.handle I (s.take n msg) n msg) := by
  have htake := h.take n msg
  have hfit := h.fits n msg hmem
  cases msg with
  | makeRooted e =>
    obtain ⟨hg, hs⟩ := (h.good n).makeRootedHan hfit
    refine { htake.setNode (n := n) hg (epochActive_makeRootedHan _ _ _ _)
      (makeRootedHan_frame _ _ _ _).2.ge ?_ with }
    rw [hs]
    change (s.node n).slack + _ + (s.units : ℤ) = (s.node n).slack +
      ((if e ∈ (s.node n).epochReady then s.units + 1 else s.units : ℕ) : ℤ)
    split <;> push_cast <;> omega
  | terminated e =>
    have hds : isDS e = false := hfit
    by_cases ho : Owner (I.ident n) e
    · have hpos : 0 < s.waiting n e := count_pos_iff.mpr hmem
      obtain ⟨hone, ha⟩ := (h.awaits n e ho).resolve_left (by omega)
      obtain ⟨hu, hg⟩ := h.held ha
      refine htake.terminate ?_ hu hg (fun hd => Bool.noConfusion (hds.symm.trans hd)) subset_rfl ?_
      · intro _
        simp only [waiting, DetSys.take, update_self, count_erase_self]
        exact Nat.sub_eq_zero_of_le hone.le
      · intro hc hnot
        obtain ⟨m, hl, hw⟩ := h.holds e hc hnot
        refine ⟨m, ?_, hl, Nat.le_zero.mp (((s.inbox_take n m _).count_le _).trans hw.le)⟩
        rintro rfl
        exact hpos.ne' hw
    · exact htake.terminate_remote ho hds
  | reply e =>
    have hset := htake.setNode (n := n) (u := s.units)
      (d := { s.node n with epochWaitStatus := (s.node n).epochWaitStatus.erase e })
      (h.good n) (fun _ h => h) (fun _ h => h) rfl
    exact hset.terminate_remote (Remote.not_owner hfit) hfit.2.1
  | inquire e source =>
    have hrem : Remote (I.ident source) e := hfit
    simp only [DetSys.handle]
    split
    · refine { htake with asked := (forall_update_iff s.replies fun m l =>
        ∀ r ∈ s.inquirers m ++ l, Remote (I.ident r.2) r.1).mpr ⟨?_, fun m _ => h.asked m⟩ }
      obtain ⟨hasked, hreplies⟩ := forall_mem_append.mp (h.asked n)
      exact forall_mem_append.mpr ⟨hasked, forall_mem_cons.mpr ⟨hrem, hreplies⟩⟩
    · refine { htake with asked := (forall_update_iff s.inquirers fun m l =>
        ∀ r ∈ l ++ s.replies m, Remote (I.ident r.2) r.1).mpr ⟨?_, fun m _ => h.asked m⟩ }
      exact forall_mem_cons.mpr ⟨hrem, h.asked n⟩

theorem Inv.runReply {source : N} (hmem : (e, source) ∈ s.replies n) :
    Inv I (post
      { s with replies := Function.update s.replies n ((s.replies n).erase (e, source)) }
      source (.reply e)) := by
  have hrem : Remote (I.ident source) e := h.asked n _ (mem_append_right _ hmem)
  refine { h.setInbox (post s source (.reply e)).inbox ?_ ?_ with asked := ?_ }
  · exact (forall_update_iff s.inbox fun m l => ∀ msg ∈ l, Fits I m msg).mpr
      ⟨forall_mem_cons.mpr ⟨hrem, h.fits source⟩, fun m _ => h.fits m⟩
  · refine (forall_update_iff s.inbox fun m l => ∀ e', l.count (.terminated e') ≤
      s.waiting m e').mpr ⟨fun e' => ?_, fun _ _ _ => le_rfl⟩
    rw [count_cons_of_ne (by simp)]
    exact le_rfl
  · refine (forall_update_iff s.replies fun m l => ∀ r ∈ s.inquirers m ++ l,
      Remote (I.ident r.2) r.1).mpr ⟨?_, fun m _ => h.asked m⟩
    intro r hr
    exact h.asked n r (mem_append.mpr ((mem_append.mp hr).imp_right mem_of_mem_erase))

theorem Inv.detectWave (hds : isDS e = false) (ha : ∀ n, e ∈ (s.node n).epochActive)
    (hno : ∀ n, .terminated e ∉ s.inbox n) :
    Inv I (broadcast { s.terminate I I.treeRoot e with detected := insert e s.detected }
      I.treeRoot (.terminated e)) := by
  obtain ⟨hu, hg⟩ := h.held (ha I.treeRoot)
  have hw : ∀ n, s.waiting n e = 0 := fun n => count_eq_zero.mpr (hno n)
  have ht := h.terminate (fun _ => hw I.treeRoot) hu hg
    (fun hd => Bool.noConfusion (hds.symm.trans hd)) (subset_insert e _)
    fun _ hnot => absurd (mem_insert_self e _) hnot
  refine ⟨ht.good, ?_, ht.asked, h.awaits.detectWave ha hno, ?_, ht.balance⟩
  · intro m msg hmsg
    cases mem_broadcast hmsg with
    | inl hnew => exact hnew.2 ▸ hds
    | inr hold => exact h.fits m msg hold
  · intro e' hc hnot
    obtain ⟨m, hl, hw⟩ := ht.holds e' hc hnot
    refine ⟨m, hl, count_eq_zero.mpr fun hmem => ?_⟩
    cases mem_broadcast hmem with
    | inl hnew => exact hnot (mem_insert.mpr (.inl (DetMsg.terminated.inj hnew.2)))
    | inr hold => exact count_eq_zero.mp hw hold

theorem Inv.detectDS (hds : isDS e = true) (hn : Epoch.node e = I.ident n)
    (hr : e ∈ (s.node n).epochReady) :
    Inv I { s.terminate I n e with detected := insert e s.detected } := by
  have hg : e ∈ (s.node n).globals :=
    of_decide_eq_true (((h.good n e).ready (decide_eq_true hr)).2 hds)
  have hu : e ∉ (s.node n).unfinished := by
    intro hu
    have := ((h.good n e).unfinished (decide_eq_true hu)).2.2.2.1
    exact Bool.noConfusion ((decide_eq_true hr).symm.trans this)
  have hw : s.waiting n e = 0 := by
    refine count_eq_zero.mpr ?_
    intro hmem
    have : isDS e = false := h.fits n _ hmem
    exact Bool.noConfusion (this.symm.trans hds)
  exact h.terminate (fun _ => hw) hu (fun _ => hg) (fun _ => .inr hn) (subset_insert e _)
    fun _ hnot => absurd (mem_insert_self e _) hnot

theorem Inv.step {a : DetAct N} {s' : DetSys N} (hs : step I s a = some s') : Inv I s' := by
  cases a with
  | makeEpochCollective n fuel =>
    obtain ⟨r, hr, rfl⟩ := Option.map_eq_some_iff.mp hs
    exact h.makeEpochCollective (returned_eq_some hr)
  | makeEpochRootedWave n fuel =>
    obtain ⟨r, hr, rfl⟩ := Option.map_eq_some_iff.mp hs
    exact h.makeEpochRootedWave (returned_eq_some hr)
  | makeEpochRootedDS n fuel =>
    obtain ⟨r, hr, rfl⟩ := Option.map_eq_some_iff.mp hs
    exact h.makeEpochRootedDS (returned_eq_some hr)
  | finishedEpoch n e =>
    obtain ⟨he, rfl⟩ := of_guard hs
    obtain ⟨hg, hsl⟩ := (h.good n).finish he
    exact { h.setNode (u := s.units) hg (epochActive_finished _ _ _)
      (finishedEpoch_frame _ _ _).2.2.ge (by rw [hsl]) with }
  | produce n k =>
    cases hs
    refine h.setNode (h.good n) (fun _ h => h) (fun _ h => h) ?_
    rw [slack_produce]
    push_cast
    omega
  | consume n k =>
    obtain ⟨hk, rfl⟩ := of_guard hs
    refine h.setNode (h.good n) (fun _ h => h) (fun _ h => h) ?_
    rw [slack_consume]
    push_cast [hk]
    omega
  | testEpochTerminated n e =>
    obtain ⟨hin, rfl⟩ := of_guard hs
    exact h.inquire n hin
  | addDependency n p q =>
    obtain ⟨hin, rfl⟩ := of_guard hs
    split
    · exact h
    · have hq := h.inquire n hin
      obtain ⟨-, hactive, hlive⟩ := ((s.inquire I n p).node n).addSuccessor_frame p q
      exact { hq.setNode (n := n) (u := (s.inquire I n p).units) ((hq.good n).of_entry
        (entry_addSuccessor _ p q)) hactive.ge hlive.ge (by rw [slack_addSuccessor]) with }
  | deliver n msg =>
    obtain ⟨hmem, rfl⟩ := of_guard hs
    exact h.handle n hmem
  | runReply n e source =>
    obtain ⟨hmem, rfl⟩ := of_guard hs
    exact h.runReply hmem
  | detectWave e =>
    obtain ⟨⟨hds, ha, hno⟩, rfl⟩ := of_guard hs
    exact h.detectWave hds ha hno
  | detectDS n e =>
    obtain ⟨⟨hds, hn, hr⟩, rfl⟩ := of_guard hs
    exact h.detectDS hds hn hr

end

theorem Reachable.inv {ok : DetSys N → DetAct N → Prop} (h : Reachable I ok s) : Inv I s := by
  refine Reach.invariant ?_ ?_ h
  · intro s hs
    exact hs ▸ inv_start I
  · intro s a s' hinv _ hs
    exact hinv.step hs

/-! ## Global termination -/

theorem Inv.books_empty (h : Inv I s)
    (heq : ∑ n, (s.node n).lProd = ∑ n, (s.node n).lCons) (n : N) :
    (s.node n).unfinished = ∅ ∧ (s.node n).globals = ∅ := by
  have hsum : ∑ m, (((s.node m).unfinished.card + (s.node m).globals.card +
      (s.node m).successors.card : ℕ) : ℤ) ≤ ∑ _m : N, 0 := by
    have hslack : ∑ m, (s.node m).slack = ∑ m, (s.node m).lProd - ∑ m, (s.node m).lCons -
        ∑ m, (((s.node m).unfinished.card + (s.node m).globals.card +
          (s.node m).successors.card : ℕ) : ℤ) := by
      rw [← sum_sub_distrib, ← sum_sub_distrib]
      refine sum_congr rfl ?_
      intro m _
      simp only [slack]
      push_cast
      omega
    have := h.balance
    simp only [sum_const_zero]
    omega
  have hn := eq_of_sum_le (fun m => Int.natCast_nonneg _) hsum n
  constructor
  · refine card_eq_zero.mp ?_
    omega
  · refine card_eq_zero.mp ?_
    omega

/-- When the units produced and consumed on the global epoch are equal in total, every node
has processed the termination of every epoch it has created, and every created epoch is detected.
Each unit that a node counts on the global epoch for another epoch is consumed exactly once: one
such unit at most is outstanding, and none once the node has processed the termination. -/
theorem global_covers_nested (I : Nodes N) {s : DetSys N} (h : Reachable I anyStep s) :
    (∑ n, (s.node n).lProd = ∑ n, (s.node n).lCons →
      (∀ n, (s.node n).live = ∅) ∧ s.created ⊆ s.detected) ∧
      ∀ n e, (s.node n).globProd e = (s.node n).globCons e ∨
        e ∈ (s.node n).live ∧ (s.node n).globProd e = (s.node n).globCons e + 1 := by
  have hinv := h.inv
  constructor
  · intro heq
    have hempty : ∀ n, (s.node n).live = ∅ := by
      intro n
      obtain ⟨hu, hg⟩ := hinv.books_empty heq n
      refine eq_empty_of_forall_notMem ?_
      intro e he
      simp [hinv.mem_live_iff, hu, hg] at he
    refine ⟨hempty, ?_⟩
    intro e he
    by_contra hnot
    obtain ⟨n, hn, -⟩ := hinv.holds e he hnot
    simp [hempty] at hn
  · intro n e
    have hc := (hinv.good n e).counts
    by_cases hg : e ∈ (s.node n).globals
    · exact .inr ⟨hinv.mem_live_iff.mpr (.inr hg), by simpa [entry, hg] using hc⟩
    · exact .inl (by simpa [entry, hg] using hc)

/-- Node 0 creates, finishes and detects a Dijkstra–Scholten epoch. -/
theorem global_covers_nested_pair :
    ∃ s, Reachable (pair 0) anyStep s ∧ s.created.Nonempty ∧ ∀ n, (s.node n).live = ∅ := by
  obtain ⟨s, hs, hc, heq⟩ := Reach.of_run (step (pair 0))
    [.makeEpochRootedDS 0 1, .finishedEpoch 0 0xC000000000000002,
      .detectDS 0 0xC000000000000002]
    (fun s => s.created.Nonempty ∧ ∑ n, (s.node n).lProd = ∑ n, (s.node n).lCons)
    (show Init start from rfl) (by decide +kernel)
  exact ⟨s, hs, hc, ((global_covers_nested (pair 0) hs).1 heq).1⟩

end DetSys
end VtRuntime.Termination
