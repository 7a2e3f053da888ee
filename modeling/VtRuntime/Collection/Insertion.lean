import VtRuntime.Collection.Places

/-!
# Insertion makes one element

There is at most one place of an index, so at most one element.  But the home may have a record
without a reason: a removal on another node does not reach it, and neither does a removal stop a
location update that is on its way.  Every insert that follows is then cancelled.  If elements are
removed on their home only, with no update on its way, the record is exact, and an insert into a
vacant index makes an element.
-/

namespace VtRuntime.Collection

open Lib IndexState List Msg Nat Option

variable {N E I : Type} [DecidableEq N] [Fintype N]

/-- Elements are removed on their home, with no location update on its way, and the home gets an
eager update only while a place is taken. -/
def RemovedAtHome (home : N) (s : IndexState N E) : Act N E → Prop
  | .runUnit n _ => s.existsAt n = true → n = home ∧ updateLocation ∉ s.msgs
  | .handleEagerUpdate => 0 < s.claims
  | _ => True

instance (home : N) (s : IndexState N E) (a : Act N E) [DecidableEq E] :
    Decidable (RemovedAtHome home s a) :=
  match a with
  | .runUnit .. => inferInstanceAs (Decidable (_ → _ ∧ _ ∉ s.msgs))
  | .handleEagerUpdate => inferInstanceAs (Decidable (0 < s.claims))
  | .insert .. | .destroyElm .. | .migrateOut .. | .deliver .. => inferInstanceAs (Decidable True)

/-- The home has no record of a vacant index, and no element is on a node or on its way while one is
due. -/
structure Exact (s : IndexState N E) : Prop where
  vacant : s.claims = 0 → s.homeRec = false ∧ updateLocation ∉ s.msgs
  due : s.due = true → s.live = 0

/-- An element that is due will be made by an insert that is pending. -/
def Awaited (s : IndexState N E) : Prop := s.due = true → 0 < s.msgs.countP isInsert

namespace IndexState

variable (s : IndexState N E) (home n : N)

omit [Fintype N] in
theorem existsAt_insertCollectionElement (b : Bool) :
    (s.insertCollectionElement home n b).existsAt n = true := by
  cases hn : s.existsAt n with
  | true => simp [insertCollectionElement, hn]
  | false =>
    rw [insertCollectionElement_eq s home n b hn]
    simp

omit [DecidableEq N]

theorem live_pos {s : IndexState N E} {n : N} (h : s.existsAt n = true) : 0 < s.live :=
  lt_of_lt_of_le (residents_pos h) (le_add_right _ _)

theorem claims_pos {s : IndexState N E} {n : N} (h : s.existsAt n = true) : 0 < s.claims :=
  lt_of_lt_of_le (residents_pos h) (le_add_right _ _)

/-- The place of a vacant index that is taken is an insert that the home has accepted. -/
theorem countP_isInsert_pos (h : s.live = 0) (hc : s.claims ≠ 0) : 0 < s.msgs.countP isInsert := by
  rw [claims_eq, h, zero_add] at hc
  refine lt_of_lt_of_le (pos_of_ne_zero hc) ?_
  exact countP_mono_left fun m _ => isInsert_of_isPinged

end IndexState

namespace Awaited

variable {s : IndexState N E} {n : N}

omit [Fintype N] in
theorem destroyElm {token : E} (h : Awaited s) : Awaited (s.destroyElm n token) := by
  rw [IndexState.destroyElm]
  split_ifs <;> exact h

omit [Fintype N] in
/-- A message of no insert is taken from the network. -/
theorem take [DecidableEq E] {m : Msg N E} (h : Awaited s) (hm : m.isInsert = false) :
    Awaited (s.take m) := by
  intro hd
  obtain ⟨x, hx, hi⟩ := countP_pos_iff.mp (h hd)
  refine countP_pos_iff.mpr ⟨x, ?_, hi⟩
  refine (mem_erase_of_ne ?_).mpr hx
  rintro rfl
  simp [hm] at hi

end Awaited

namespace Exact

variable {s : IndexState N E} {home n : N}

omit [DecidableEq N] in
theorem not_due (h : Exact s) (hpos : 0 < s.live) : s.due = false :=
  Bool.eq_false_iff.mpr fun hdue => hpos.ne' (h.due hdue)

theorem insertCollectionElement {b : Bool} (hn : s.existsAt n = false)
    (hb : b = true → s.due = false) :
    Exact (s.insertCollectionElement home n b) ∧
      Awaited (s.insertCollectionElement home n b) := by
  have hpos := claims_pos (existsAt_insertCollectionElement s home n b)
  have hdue : (s.insertCollectionElement home n b).due = false := by
    rw [insertCollectionElement_eq s home n b hn]
    cases b <;> simp_all
  refine ⟨⟨fun h0 => by omega, fun h => ?_⟩, fun h => ?_⟩ <;> simp [hdue] at h

omit [DecidableEq N] in
/-- A message that is no place and no location update is sent. -/
theorem send {m : Msg N E} (h : Exact s) (hm : m.isClaim = false) (hu : m ≠ .updateLocation) :
    Exact (s.send m) := by
  have hcl : (s.send m).claims = s.claims := by
    rw [claims, claims, IndexState.send, countP_cons, hm]
    rfl
  refine ⟨?_, fun hd => ?_⟩
  · rw [hcl]
    intro h0
    refine ⟨(h.vacant h0).1, ?_⟩
    simpa [IndexState.send, hu.symm] using (h.vacant h0).2
  · have hl := h.due hd
    have hmig : m.isMigrate = false := by
      rw [isClaim, Bool.or_eq_false_iff] at hm
      exact hm.1
    rw [live, IndexState.send, countP_cons, hmig]
    exact hl

/-- `insert` before the home has been asked. -/
theorem insert {node : Option N} {token : E} (h : Exact s) :
    Exact (s.insert home n node token false) ∧ Awaited (s.insert home n node token false) := by
  have hsend : ∀ m : Msg N E, m.isClaim = false → m.isInsert = true →
      Exact (s.send m) ∧ Awaited (s.send m) := by
    intro m hm hi
    refine ⟨h.send hm (by rintro rfl; simp [isInsert] at hi), fun _ => ?_⟩
    rw [IndexState.send, countP_cons, hi]
    exact succ_pos _
  simp only [IndexState.insert, Bool.false_eq_true, if_false]
  split_ifs with h1 h2 h3 h4
  · exact ⟨h, fun hd => absurd (h.due hd) (live_pos h3).ne'⟩
  · refine ⟨h, fun hd => s.countP_isInsert_pos (h.due hd) fun h0 => ?_⟩
    have := (h.vacant h0).1
    simp_all [isCached]
  · exact insertCollectionElement (Bool.eq_false_iff.mpr h3) (by simp)
  · exact hsend _ rfl rfl
  · exact hsend _ rfl rfl

theorem pingHomeHandler {m : InsertMsg N E} (h : Exact s) :
    Exact (s.pingHomeHandler home m) ∧ Awaited (s.pingHomeHandler home m) := by
  rw [IndexState.pingHomeHandler]
  split_ifs with hk
  · refine ⟨h, fun hd => s.countP_isInsert_pos (h.due hd) fun h0 => ?_⟩
    have := (h.vacant h0).1
    simp_all [isCached]
  · refine ⟨⟨fun h0 => ?_, fun hd => ?_⟩, fun _ => ?_⟩
    · rw [claims_eq, IndexState.send, countP_cons] at h0
      simp [isPinged] at h0
    · have hl := h.due hd
      rw [live, IndexState.send, countP_cons]
      exact hl
    · rw [IndexState.send, countP_cons]
      exact succ_pos _

theorem destroyElm {token : E} (h : Exact s) : Exact (s.destroyElm n token) := by
  rw [IndexState.destroyElm]
  split_ifs
  · exact ⟨h.vacant, h.due⟩
  · exact h.send rfl (by simp)

variable [DecidableEq E]

/-- A message that is no place is taken from the network. -/
theorem take {m : Msg N E} (h : Exact s) (hm : m ∈ s.msgs) (hc : m.isClaim = false) :
    Exact (s.take m) := by
  have hcl := claims_take hm
  rw [hc] at hcl
  refine ⟨?_, fun hd => ?_⟩
  · intro h0
    obtain ⟨hrec, hno⟩ := h.vacant (hcl.symm.trans h0)
    exact ⟨hrec, fun hu => hno (mem_of_mem_erase hu)⟩
  · have hl := h.due hd
    have := (perm_cons_erase hm).countP_eq isMigrate
    rw [countP_cons] at this
    simp only [live, IndexState.take, residents] at hl ⊢
    omega

/-- What a message of a place does when it is received. -/
theorem receive_isClaim {m : Msg N E} (hh : Held s 0) (h : Exact s) (hm : m ∈ s.msgs)
    (hc : m.isClaim = true) (ha : s.arrivesAt home n m = true) :
    Exact ((s.take m).receive home n m) ∧ Awaited ((s.take m).receive home n m) := by
  -- the place is in the message, so no node has an element
  have htake := hh.take hm
  rw [if_pos hc] at htake
  have hn := htake.empty.1 n
  cases m with
  | insert m =>
    obtain ⟨constructNode, token, pinged⟩ := m
    obtain rfl : pinged = true := by simpa [isClaim, isMigrate, isPinged] using hc
    have hnode : constructNode = n := by simpa [arrivesAt] using ha
    have hins : (s.take (.insert ⟨constructNode, token, true⟩)).receive home n
        (.insert ⟨constructNode, token, true⟩) =
        (s.take (.insert ⟨constructNode, token, true⟩)).insertCollectionElement home n false := by
      simp [IndexState.receive, IndexState.insert, hnode]
    rw [hins]
    exact insertCollectionElement hn (by simp)
  | migrate dest =>
    have hpos : 0 < s.msgs.countP isMigrate := countP_pos_iff.mpr ⟨_, hm, rfl⟩
    exact insertCollectionElement hn fun _ => h.not_due (lt_of_lt_of_le hpos (le_add_left _ _))
  | pingHome _ | destroyElm _ | updateLocation => simp [isClaim, isMigrate, isPinged] at hc

theorem step {a : Act N E} {t : IndexState N E} (hh : Held s 0) (h : Exact s) (hd : Awaited s)
    (hok : RemovedAtHome home s a) (hs : s.step home a = some t) : Exact t ∧ Awaited t := by
  cases a with
  | insert n node token =>
    obtain rfl := some.inj hs
    refine insert ⟨h.vacant, fun hdue => ?_⟩
    rw [Bool.or_eq_true] at hdue
    rcases hdue with hdue | hvac
    · exact h.due hdue
    · simp only [isVacant, Bool.and_eq_true, decide_eq_true_eq] at hvac
      exact hvac.1
  | destroyElm n token =>
    obtain rfl := some.inj hs
    exact ⟨h.destroyElm, hd.destroyElm⟩
  | migrateOut n dest =>
    obtain ⟨hn, rfl⟩ := of_guard hs
    have hdue := h.not_due (live_pos hn)
    refine ⟨⟨fun h0 => ?_, fun h1 => ?_⟩, fun h1 => ?_⟩
    · rw [claims_eq, live] at h0
      simp [applyListeners, entityEmigrated, IndexState.send, isMigrate] at h0
    · simp [applyListeners, entityEmigrated, IndexState.send, hdue] at h1
    · simp [applyListeners, entityEmigrated, IndexState.send, hdue] at h1
  | deliver n m =>
    obtain ⟨⟨hm, ha⟩, rfl⟩ := of_guard hs
    cases hc : m.isClaim with
    | true => exact receive_isClaim hh h hm hc ha
    | false =>
      have ht := h.take hm hc
      cases m with
      | insert m =>
        have hp : m.pinged = false := by simpa [isClaim, isMigrate, isPinged] using hc
        rw [IndexState.receive, hp]
        exact ht.insert
      | pingHome m => exact ht.pingHomeHandler
      | destroyElm token => exact ⟨ht.destroyElm, (hd.take rfl).destroyElm⟩
      | migrate dest => simp [isClaim, isMigrate] at hc
      | updateLocation =>
        refine ⟨⟨fun h0 => ?_, ht.due⟩, hd.take rfl⟩
        have hcl := claims_take hm
        rw [hc] at hcl
        exact absurd hm (h.vacant (hcl.symm.trans h0)).2
  | runUnit n token =>
    obtain ⟨-, rfl⟩ := of_guard hs
    rw [removeElm]
    split_ifs with hn
    · obtain ⟨rfl, hu⟩ := hok hn
      have hdue := h.not_due (live_pos hn)
      refine ⟨⟨fun _ => ⟨by simp [unregisterEntity], hu⟩, fun h1 => ?_⟩, fun h1 => ?_⟩
      · simp [unregisterEntity, hdue] at h1
      · simp [unregisterEntity, hdue] at h1
    · exact ⟨⟨h.vacant, h.due⟩, hd⟩
  | handleEagerUpdate =>
    obtain rfl := some.inj hs
    refine ⟨⟨fun h0 => ?_, h.due⟩, hd⟩
    exact absurd (show s.claims = 0 from h0) (pos_iff_ne_zero.mp hok)

omit [DecidableEq N] [DecidableEq E] in
theorem init : Exact ({} : IndexState N E) := by
  have h0 : ({} : IndexState N E).live = 0 := by simp [live, residents]
  exact ⟨fun _ => ⟨rfl, by simp⟩, fun _ => h0⟩

end Exact

/-! ## Whole runs -/

variable [DecidableEq E]

/-- The deliveries of the messages of inserts. -/
def insertWork (home : N) (s : IndexState N E) (a : N × Msg N E) : Option (IndexState N E) :=
  if a.2.isInsert then s.step home (.deliver a.1 a.2) else none

/-- How many deliveries a message of an insert leads to, at most. -/
def Msg.weight : Msg N E → ℕ
  | .insert m => if m.pinged then 1 else 3
  | .pingHome _ => 2
  | _ => 0

namespace IndexState

variable (s : IndexState N E) (home n : N)

/-- A bound for the number of deliveries of messages of inserts that are left. -/
def work : ℕ := (s.msgs.map weight).sum

omit [Fintype N] in
theorem work_take {m : Msg N E} (hm : m ∈ s.msgs) : m.weight + (s.take m).work = s.work := by
  have := ((perm_cons_erase hm).map weight).sum_eq
  simpa [work, take] using this.symm

omit [Fintype N] [DecidableEq E] in
theorem work_insertCollectionElement (b : Bool) :
    (s.insertCollectionElement home n b).work = s.work := by
  cases hn : s.existsAt n with
  | true => simp [insertCollectionElement, hn]
  | false =>
    rw [insertCollectionElement_eq s home n b hn]
    by_cases hhome : home = n <;> simp [work, hhome, weight]

omit [Fintype N] [DecidableEq E] in
/-- The handler of a message of an insert leaves less work than the message was. -/
theorem work_receive {m : Msg N E} (hi : m.isInsert = true) (ha : s.arrivesAt home n m = true) :
    (s.receive home n m).work < m.weight + s.work := by
  cases m with
  | insert m =>
    obtain ⟨constructNode, token, pinged⟩ := m
    obtain rfl : constructNode = n := by simpa [arrivesAt] using ha
    cases pinged with
    | true => simp [receive, insert, work_insertCollectionElement, weight]
    | false =>
      simp only [receive, insert, getD_some, if_true, Bool.false_eq_true, if_false]
      split_ifs with h1 h2 h3
      · simp [weight]
      · simp [weight]
      · rw [work_insertCollectionElement]
        simp [weight]
      · simp [weight, work, send]
  | pingHome m =>
    rw [receive, pingHomeHandler]
    split_ifs with hk
    · simp [weight]
    · simp [weight, work, send, registerEntityRemote]
  | destroyElm _ | migrate _ | updateLocation => simp [isInsert] at hi

/-- The messages of inserts are all delivered, and then no element is due. -/
theorem ends_insertWork {s : IndexState N E} (hh : Held s 0) (h : Exact s) (hd : Awaited s) :
    Ends (insertWork home) (fun t => t.due = false) s := by
  refine Ends.of_measure (Q := fun t => Held t 0 ∧ Exact t ∧ Awaited t) work ?_ ?_ ⟨hh, h, hd⟩
  · rintro t ⟨n, m⟩ t' ⟨hh, h, hd⟩ hs
    obtain ⟨hi, hs⟩ := ite_none_right_eq_some.mp hs
    have hok : RemovedAtHome home t (.deliver n m) := trivial
    refine ⟨⟨hh.step hs, h.step hh hd hok hs⟩, ?_⟩
    obtain ⟨⟨hm, ha⟩, rfl⟩ := of_guard hs
    rw [← work_take t hm]
    refine work_receive (t.take m) home n hi ?_
    cases m <;> exact ha
  · rintro t ⟨-, -, hd⟩ hstop
    by_contra hdue
    obtain ⟨m, hm, hi⟩ := countP_pos_iff.mp (hd (Bool.not_eq_false _ ▸ hdue))
    -- a message of an insert can be delivered on its destination
    cases m with
    | insert m =>
      have := hstop (m.constructNode, .insert m)
      simp [insertWork, isInsert, step, hm, arrivesAt] at this
    | pingHome m =>
      have := hstop (home, .pingHome m)
      simp [insertWork, isInsert, step, hm, arrivesAt] at this
    | destroyElm _ | migrate _ | updateLocation => simp [isInsert] at hi

end IndexState

/-- A step of a collection, at one index. -/
def step [DecidableEq I] (home : I → N) (s : I → IndexState N E) (a : I × Act N E) :
    Option (I → IndexState N E) :=
  ((s a.1).step (home a.1) a.2).map (Function.update s a.1)

/-- A collection without elements. -/
def Empty (s : I → IndexState N E) : Prop := s = fun _ => {}

/-- The states of one index in the runs of a collection. -/
theorem reach_index [DecidableEq I] {home : I → N} (ok : I → IndexState N E → Act N E → Prop)
    {s : I → IndexState N E}
    (h : Reach Empty (step home) (fun s a => ok a.1 (s a.1) a.2) s) (i : I) :
    Reach (fun t => t = {}) (IndexState.step (home i)) (ok i) (s i) := by
  refine Reach.project (fun s => s i) ?_ ?_ h
  · rintro s rfl
    rfl
  · rintro s ⟨j, a⟩ s' hok hs
    obtain ⟨t, ht, rfl⟩ := map_eq_some_iff.mp hs
    by_cases hij : i = j
    · subst hij
      exact .inr ⟨a, hok, by simpa using ht⟩
    · exact .inl (Function.update_of_ne hij _ _)

/-- There is never more than one element of an index, and no assertion fails.  If elements are
removed on their home, with no location update on its way, then an insert that is issued while the
index is vacant leads to the construction of an element. -/
theorem one_live_element [DecidableEq I] (home : I → N) :
    (∀ s : I → IndexState N E, Reach Empty (step home) anyStep s →
      ∀ i, (s i).live ≤ 1 ∧ (s i).failed = false) ∧
    ∀ s : I → IndexState N E,
      Reach Empty (step home) (fun s a => RemovedAtHome (home a.1) (s a.1) a.2) s →
      ∀ i, Ends (insertWork (home i)) (fun t => t.due = false) (s i) := by
  constructor
  · intro s hs i
    have h := reach_index (fun _ => anyStep) hs i
    have hheld : Held (s i) 0 :=
      Reach.invariant (by rintro _ rfl; exact .init)
        (fun t a t' ht _ hs => ht.step hs) h
    refine ⟨?_, hheld.failed⟩
    have := hheld.one
    rw [claims_eq] at this
    omega
  · intro s hs i
    have h := reach_index (fun i => RemovedAtHome (home i)) hs i
    obtain ⟨hh, hx, hd⟩ := Reach.invariant (P := fun t => Held t 0 ∧ Exact t ∧ Awaited t)
      (by rintro _ rfl; exact ⟨.init, .init, by simp [Awaited]⟩)
      (fun t a t' ht hok hs => ⟨ht.1.step hs, ht.2.1.step ht.1 ht.2.2 hok hs⟩) h
    exact ends_insertWork (home i) hh hx hd

/-- An insert on node 1 into an index whose home is node 0, up to the construction. -/
private def insertedAway : List (ℕ × Act (Fin 2) ℕ) :=
  [(7, .insert 1 (some 1) 0), (7, .deliver 0 (.pingHome ⟨1, 0, false⟩)),
    (7, .deliver 1 (.insert ⟨1, 0, true⟩))]

/-- The element is constructed away from its home, migrates there, and is destroyed.  An element is
due when the next insert is issued, and it is made. -/
theorem one_live_element_after_removal :
    ∃ s : ℕ → IndexState (Fin 2) ℕ,
      Reach Empty (step fun _ => 0) (fun s a => RemovedAtHome 0 (s a.1) a.2) s ∧
      (s 7).due = true ∧ Ends (insertWork 0) (fun t => t.due = false) (s 7) := by
  obtain ⟨s, hs, h⟩ := @Reach.of_guarded_run _ _ Empty (fun s a => RemovedAtHome 0 (s a.1) a.2) _
    (step fun _ => 0) (insertedAway ++ [(7, .deliver 0 .updateLocation), (7, .migrateOut 1 0),
      (7, .deliver 0 (.migrate 0)), (7, .destroyElm 0 1), (7, .runUnit 0 1),
      (7, .insert 1 none 1)]) (fun s => (s 7).due = true) _ _ rfl (by decide +kernel)
  exact ⟨s, hs, h, (one_live_element fun _ : ℕ => (0 : Fin 2)).2 s hs 7⟩

/-- The element is removed on a node that is not its home.  The home keeps its record, and cancels
the next insert: no message is left, no element exists, and one is due.  The same happens on the
home itself if a location update arrives after the removal. -/
theorem insert_cancelled :
    (∃ s : ℕ → IndexState (Fin 2) ℕ, Reach Empty (step fun _ => 0) anyStep s ∧
      decide ((s 7).due = true ∧ (s 7).live = 0 ∧ (s 7).msgs = [])) ∧
    ∃ s : ℕ → IndexState (Fin 2) ℕ, Reach Empty (step fun _ => 0) anyStep s ∧
      decide ((s 7).due = true ∧ (s 7).live = 0 ∧ (s 7).msgs = []) := by
  constructor
  · refine Reach.of_run (step fun _ => 0)
      (insertedAway ++ [(7, .deliver 0 .updateLocation), (7, .destroyElm 1 1),
        (7, .runUnit 1 1), (7, .insert 0 none 1)]) _ rfl ?_
    decide +kernel
  · refine Reach.of_run (step fun _ => 0)
      (insertedAway ++ [(7, .migrateOut 1 0), (7, .deliver 0 (.migrate 0)), (7, .destroyElm 0 1),
        (7, .runUnit 0 1), (7, .deliver 0 .updateLocation), (7, .insert 0 none 1)]) _ rfl ?_
    decide +kernel

end VtRuntime.Collection
