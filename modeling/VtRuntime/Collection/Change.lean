import VtRuntime.Collection.Places

/-!
# What a step does to the element of an index

A step makes an element, moves it to a node or from a node, or leaves it where it is.  It tells the
listeners of this, except if a unit of `destroyElm` removes the element.
-/

namespace VtRuntime.Collection

open Lib IndexState Function Option

variable {N E : Type} [DecidableEq N] [Fintype N]

/-- What happened to the element of an index, and what the listeners are told. -/
inductive Change (home : N) (s t : IndexState N E) : Option (ElementEvent × N) → Prop
  /-- The element is where it was.  An index that has no element and is known at the home keeps
  this. -/
  | quiet : t.existsAt = s.existsAt → t.live = s.live →
      (s.claims = 0 → s.homeRec = true → t.claims = 0 ∧ t.homeRec = true) → Change home s t none
  /-- The home had no record, or it had accepted the insert. -/
  | created (n : N) : s.existsAt n = false → t.existsAt = Function.update s.existsAt n true →
      s.live = 0 → t.live = 1 → (s.claims = 0 → s.homeRec = false) →
      Change home s t (some (.created, n))
  | migratedIn (n : N) : s.existsAt n = false → t.existsAt = Function.update s.existsAt n true →
      s.live = 1 → t.live = 1 → Change home s t (some (.migratedIn, n))
  | migratedOut (n : N) : s.existsAt n = true → t.existsAt = Function.update s.existsAt n false →
      s.live = 1 → t.live = 1 → Change home s t (some (.migratedOut, n))
  /-- The home keeps its record if the element was destroyed elsewhere. -/
  | destroyed (n : N) : s.existsAt n = true → t.existsAt = Function.update s.existsAt n false →
      s.live = 1 → t.claims = 0 → (n ≠ home → t.homeRec = true) →
        Change home s t (some (.destroyed, n))

variable {s t : IndexState N E} {home n : N}

namespace Held

omit [DecidableEq N] in
theorem live_eq_one (h : Held s 0) (hn : s.existsAt n = true) : s.live = 1 := by
  have hone := h.one
  have hpos := residents_pos hn
  rw [claims_eq] at hone
  rw [live] at hone ⊢
  omega

end Held

namespace Change

/-- A message that is no place is sent, or taken from the network. -/
theorem of_msgs (hx : t.existsAt = s.existsAt)
    (hc : t.msgs.countP Msg.isClaim = s.msgs.countP Msg.isClaim)
    (hm : t.msgs.countP Msg.isMigrate = s.msgs.countP Msg.isMigrate)
    (hk : s.homeRec = true → t.homeRec = true) : Change home s t none := by
  refine .quiet hx ?_ fun h0 h1 => ⟨?_, hk h1⟩
  · rw [live, live, residents, residents, hx, hm]
  · rw [claims, residents] at h0 ⊢
    rw [hx, hc]
    exact h0

theorem send {m : Msg N E} (hc : m.isClaim = false) : Change home s (s.send m) none := by
  refine of_msgs rfl ?_ ?_ id
  · rw [IndexState.send, List.countP_cons, hc]
    rfl
  · rw [Msg.isClaim, Bool.or_eq_false_iff] at hc
    rw [IndexState.send, List.countP_cons, hc.1]
    rfl

theorem trans {u : IndexState N E} {e : Option (ElementEvent × N)} (h : Change home s t none)
    (h' : Change home t u e) : Change home s u e := by
  cases h with
  | quiet hx hl hk =>
    cases h' with
    | quiet hx' hl' hk' =>
      refine .quiet (hx'.trans hx) (hl'.trans hl) fun h0 h1 => ?_
      obtain ⟨h0, h1⟩ := hk h0 h1
      exact hk' h0 h1
    | created n hn hx' hl' ht hnew =>
      refine .created n (hx ▸ hn) (hx ▸ hx') (hl ▸ hl') ht fun h0 => ?_
      by_contra h1
      obtain ⟨h0, h1⟩ := hk h0 (Bool.not_eq_false _ ▸ h1)
      simp [hnew h0] at h1
    | migratedIn n hn hx' hl' ht => exact .migratedIn n (hx ▸ hn) (hx ▸ hx') (hl ▸ hl') ht
    | migratedOut n hn hx' hl' ht => exact .migratedOut n (hx ▸ hn) (hx ▸ hx') (hl ▸ hl') ht
    | destroyed n hn hx' hl' h0 hk' => exact .destroyed n (hx ▸ hn) (hx ▸ hx') (hl ▸ hl') h0 hk'

end Change

omit [Fintype N] in
theorem existsAt_insertCollectionElement_eq (home : N) (b : Bool)
    (hn : s.existsAt n = false) :
    (s.insertCollectionElement home n b).existsAt = Function.update s.existsAt n true := by
  rw [insertCollectionElement_eq s home n b hn]

omit [Fintype N] in
theorem events_insertCollectionElement {b : Bool} (hn : s.existsAt n = false) :
    (s.insertCollectionElement home n b).events =
      s.events ++ [(if b then .migratedIn else .created, n)] := by
  rw [insertCollectionElement_eq s home n b hn]

/-- `insert` before the home has been asked. -/
theorem insert_change {node : Option N} {token : E} (h : Held s 0)
    (ht : Held (s.insert home n node token false) 0) :
    ∃ e, Change home s (s.insert home n node token false) e ∧
      (s.insert home n node token false).events = s.events ++ e.toList ∧
      ∀ m, e ≠ some (.migratedIn, m) ∧ e ≠ some (.destroyed, m) := by
  have hsame : ∃ e, Change home s s e ∧ s.events = s.events ++ e.toList ∧
      ∀ m, e ≠ some (.migratedIn, m) ∧ e ≠ some (.destroyed, m) :=
    ⟨none, .of_msgs rfl rfl rfl id, by simp, by simp⟩
  simp only [IndexState.insert, Bool.false_eq_true, if_false] at ht ⊢
  split_ifs at ht ⊢ with h1 h2 h3 h4
  · exact hsame
  · exact hsame
  · have hk : s.homeRec = false := by simpa [isCached] using h4
    have hn : s.existsAt n = false := Bool.eq_false_iff.mpr h3
    have h0 : s.live = 0 := by
      have := h.claims_eq_zero hk
      rw [claims_eq] at this
      omega
    have hx := existsAt_insertCollectionElement_eq home false hn
    refine ⟨some (.created, n), .created n hn hx h0 (ht.live_eq_one (n := n) ?_) fun _ => hk, ?_,
      by simp⟩
    · rw [hx, update_self]
    · exact events_insertCollectionElement hn
  · exact ⟨none, .send rfl, by simp [send], by simp⟩
  · exact ⟨none, .send rfl, by simp [send], by simp⟩

theorem pingHomeHandler_change (home : N) (m : InsertMsg N E) :
    Change home s (s.pingHomeHandler home m) none ∧
      (s.pingHomeHandler home m).events = s.events := by
  rw [pingHomeHandler]
  split_ifs with hk
  · exact ⟨.of_msgs rfl rfl rfl id, rfl⟩
  · refine ⟨.quiet rfl ?_ fun _ h1 => absurd h1 hk, rfl⟩
    simp only [live, send, List.countP_cons]
    rfl

omit [Fintype N] in
theorem events_destroyElm {token : E} : (s.destroyElm n token).events = s.events := by
  rw [destroyElm]
  split_ifs <;> rfl

theorem destroyElm_change {token : E} : Change home s (s.destroyElm n token) none := by
  rw [destroyElm]
  split_ifs
  · exact .of_msgs rfl rfl rfl id
  · exact .send rfl

theorem migrateOut_change {dest : N} (h : Held s 0) (ht : Held t 0)
    (hs : s.migrateOut home n dest = some t) :
    Change home s t (some (.migratedOut, n)) ∧ t.events = s.events ++ [(.migratedOut, n)] := by
  obtain ⟨hn, rfl⟩ := of_guard hs
  refine ⟨.migratedOut n hn rfl (h.live_eq_one hn) ?_, rfl⟩
  have hone := ht.one
  rw [claims_eq] at hone
  have hpos : 0 < (((({ s with existsAt := Function.update s.existsAt n false } :
      IndexState N E).send (.migrate dest)).entityEmigrated home n).applyListeners n
        .migratedOut).live := by
    simp [live, applyListeners, entityEmigrated, send, Msg.isMigrate]
  omega

/-- The element of a node is destroyed with its collection. -/
theorem destroyMatching_change (home : N) (h : Held s 0) (hn : s.existsAt n = true) :
    Change home s (s.destroyMatching home n) (some (.destroyed, n)) ∧
      Held (s.destroyMatching home n) 0 ∧
      (s.destroyMatching home n).events = s.events ++ [(.destroyed, n)] := by
  have hreg : s.registered n = true := (h.registered n).trans hn
  rw [destroyMatching, if_pos hn]
  set t : IndexState N E := { (s.applyListeners n .destroyed).unregisterEntity home n with
    existsAt := Function.update s.existsAt n false } with ht
  obtain ⟨hk, h0, hr, hf⟩ := h.clear (t := t) hn rfl rfl rfl
    (by simp [ht, unregisterEntity, applyListeners, hreg])
  refine ⟨.destroyed n hn rfl (h.live_eq_one hn) h0 fun hne => ?_,
    ⟨by omega, hr, by omega, hf⟩, rfl⟩
  simp [ht, unregisterEntity, applyListeners, hk, hne.symm]

variable [DecidableEq E]

/-- A message that is no place is taken from the network. -/
theorem take_change {m : Msg N E} (hm : m ∈ s.msgs) (hc : m.isClaim = false) :
    Change home s (s.take m) none := by
  have hperm := List.perm_cons_erase hm
  refine .of_msgs rfl ?_ ?_ id
  · have := hperm.countP_eq Msg.isClaim
    rw [List.countP_cons, hc] at this
    exact this.symm
  · have := hperm.countP_eq Msg.isMigrate
    rw [Msg.isClaim, Bool.or_eq_false_iff] at hc
    rw [List.countP_cons, hc.1] at this
    exact this.symm

/-- The message of a place is received: the element comes to the node. -/
theorem receive_change_of_isClaim {m : Msg N E} (h : Held s 0) (hm : m ∈ s.msgs)
    (hc : m.isClaim = true) (ha : s.arrivesAt home n m = true)
    (ht : Held ((s.take m).receive home n m) 0) :
    ∃ e, Change home s ((s.take m).receive home n m) e ∧
      ((s.take m).receive home n m).events = s.events ++ e.toList ∧
      (∀ k, e = some (.migratedIn, k) → k = n ∧ m.isMigrate = true) ∧
      ∀ k, e ≠ some (.destroyed, k) := by
  have htake := h.take hm
  rw [if_pos hc] at htake
  have hn : s.existsAt n = false := htake.empty.1 n
  have hclaims : s.claims ≠ 0 := by
    have : 0 < s.msgs.countP Msg.isClaim := List.countP_pos_iff.mpr ⟨m, hm, hc⟩
    rw [claims]
    omega
  cases m with
  | insert m =>
    obtain ⟨constructNode, token, pinged⟩ := m
    obtain rfl : pinged = true := by
      simpa [Msg.isClaim, Msg.isMigrate, Msg.isPinged] using hc
    obtain rfl : constructNode = n := by simpa [arrivesAt] using ha
    have heq : (s.take (.insert ⟨constructNode, token, true⟩)).receive home constructNode
        (.insert ⟨constructNode, token, true⟩) =
        (s.take (.insert ⟨constructNode, token, true⟩)).insertCollectionElement home
          constructNode false := by
      simp [receive, IndexState.insert]
    rw [heq] at ht ⊢
    have hx := existsAt_insertCollectionElement_eq (n := constructNode)
      (s := s.take (.insert ⟨constructNode, token, true⟩)) home false hn
    have h0 : s.live = 0 := by
      have hone := h.one
      have : 0 < s.msgs.countP Msg.isPinged := List.countP_pos_iff.mpr ⟨_, hm, rfl⟩
      rw [claims_eq] at hone
      omega
    refine ⟨some (.created, constructNode), .created constructNode hn hx h0
      (ht.live_eq_one (n := constructNode) ?_) fun h0 => absurd h0 hclaims, ?_, by simp, by simp⟩
    · rw [hx, update_self]
    · exact events_insertCollectionElement hn
  | migrate dest =>
    have hx := existsAt_insertCollectionElement_eq (n := n) (s := s.take (.migrate dest)) home
      true hn
    have h1 : s.live = 1 := by
      have hone := h.one
      have : 0 < s.msgs.countP Msg.isMigrate := List.countP_pos_iff.mpr ⟨_, hm, rfl⟩
      rw [claims_eq] at hone
      rw [live] at hone ⊢
      omega
    refine ⟨some (.migratedIn, n),
      .migratedIn n hn hx h1 (ht.live_eq_one (n := n) ?_), ?_, ?_, by simp⟩
    · exact congrFun hx n |>.trans (update_self ..)
    · exact events_insertCollectionElement (s := s.take (.migrate dest)) hn
    · intro k hk
      exact ⟨congrArg Prod.snd (some.inj hk).symm, rfl⟩
  | pingHome _ | destroyElm _ | updateLocation =>
    simp [Msg.isClaim, Msg.isMigrate, Msg.isPinged] at hc

/-- What a step that removes no element does. -/
theorem exists_change {a : Act N E} (h : Held s 0) (hs : s.step home a = some t)
    (hrun : ∀ n u, a = .runUnit n u → s.existsAt n = false) :
    ∃ e, Change home s t e ∧ t.events = s.events ++ e.toList ∧
      (∀ n, e = some (.migratedIn, n) → ∃ dest, a = .deliver n (.migrate dest)) ∧
      ∀ n, e ≠ some (.destroyed, n) := by
  have ht := h.step hs
  cases a with
  | insert n node token =>
    obtain rfl := some.inj hs
    have h' : Held { s with due := s.due || s.isVacant } 0 := h.congr rfl rfl rfl rfl id
    obtain ⟨e, hc, hev, hne⟩ := insert_change h' ht
    have hquiet : Change home s { s with due := s.due || s.isVacant } none :=
      .of_msgs rfl rfl rfl id
    exact ⟨e, hquiet.trans hc, hev, fun m hm => absurd hm (hne m).1, fun m => (hne m).2⟩
  | destroyElm n token =>
    obtain rfl := some.inj hs
    exact ⟨none, destroyElm_change, by simp [events_destroyElm], by simp, by simp⟩
  | migrateOut n dest =>
    obtain ⟨hc, hev⟩ := migrateOut_change h ht hs
    exact ⟨_, hc, hev, by simp, by simp⟩
  | deliver n m =>
    obtain ⟨⟨hm, ha⟩, rfl⟩ := of_guard hs
    cases hc : m.isClaim with
    | true =>
      obtain ⟨e, hch, hev, hmig, hne⟩ := receive_change_of_isClaim h hm hc ha ht
      refine ⟨e, hch, hev, fun k hk => ?_, hne⟩
      obtain ⟨rfl, hm⟩ := hmig k hk
      cases m with
      | migrate dest => exact ⟨dest, rfl⟩
      | insert _ | pingHome _ | destroyElm _ | updateLocation => simp [Msg.isMigrate] at hm
    | false =>
      have htake : Change home s (s.take m) none := take_change hm hc
      cases m with
      | insert m =>
        have hp : m.pinged = false := by simpa [Msg.isClaim, Msg.isMigrate, Msg.isPinged] using hc
        rw [receive, hp] at ht ⊢
        have h' : Held (s.take (.insert m)) 0 := by
          have := h.take hm
          rwa [hc] at this
        obtain ⟨e, hch, hev, hne⟩ := insert_change h' ht
        exact ⟨e, htake.trans hch, hev, fun k hk => absurd hk (hne k).1, fun k => (hne k).2⟩
      | pingHome m =>
        obtain ⟨hch, hev⟩ := pingHomeHandler_change (s := s.take (.pingHome m)) home m
        exact ⟨none, htake.trans hch, hev.trans (by simp [take]), by simp, by simp⟩
      | destroyElm token =>
        refine ⟨none, htake.trans destroyElm_change, ?_, by simp, by simp⟩
        simp [receive, events_destroyElm, take]
      | migrate dest => simp [Msg.isClaim, Msg.isMigrate] at hc
      | updateLocation =>
        exact ⟨none, htake.trans (.of_msgs rfl rfl rfl fun _ => rfl), by simp [receive, take],
          by simp, by simp⟩
  | runUnit n u =>
    obtain ⟨-, rfl⟩ := of_guard hs
    have hn := hrun n u rfl
    have hsame : ({ s with units := Function.update s.units n ((s.units n).erase u) } :
        IndexState N E).existsAt n = false := hn
    rw [removeElm, hsame]
    exact ⟨none, .of_msgs rfl rfl rfl id, by simp, by simp, by simp⟩
  | handleEagerUpdate =>
    obtain rfl := some.inj hs
    exact ⟨none, .of_msgs rfl rfl rfl fun _ => rfl, by simp, by simp, by simp⟩

end VtRuntime.Collection
