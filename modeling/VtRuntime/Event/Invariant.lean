import VtRuntime.Event.Tokens
import Mathlib.Data.Fintype.EquivFin

/-!
# The invariant of the events

The events are as recorded, and nothing is lost, in every state of a run without a call or a message
that is out of order.
-/

namespace VtRuntime.Event

open Lib Records List Option EventSys Function

variable {N : Type} [DecidableEq N] {s s' : EventSys N} {e e' : EventId N} {n : N} {i : ℕ}
  {a : Action N} {hand : Option (Action N)}

/-- The invariant, with an action in hand. -/
structure EventInv (hand : Option (Action N)) (s : EventSys N) : Prop where
  records : Records s
  tokens : Tokens hand s
  reads : ∀ e, ∀ a ∈ s.stored e, s.Reads a
  aborted : s.aborted = false

namespace EventSys

variable {holder : EventHolder N}

theorem lookup_executeActions (m : N) :
    ((s.executeActions n i holder).node m).lookup = (s.node m).lookup ∧
      ((s.executeActions n i holder).node m).curEvent = (s.node m).curEvent := by
  by_cases hm : m = n
  · subst hm
    simp [executeActions, setNode]
  · simp [executeActions, setNode, hm]

theorem record_executeActions (e' : EventId N) :
    (s.executeActions n i holder).record e' = s.record e' := by
  rw [record, EventSys.holder, (lookup_executeActions e'.1).1]
  rfl

theorem running_executeActions (m : N) :
    (s.executeActions n i holder).running m = if m = n then i :: s.running m else s.running m := by
  by_cases hm : m = n
  · subst hm
    simp [executeActions, setNode, running]
  · simp [executeActions, setNode, running, hm]

theorem executing_executeActions :
    (s.executeActions e.1 e.2 holder).Executing e' ↔ s.Executing e' ∨ e' = e := by
  rw [executing_iff, running_executeActions]
  by_cases hm : e'.1 = e.1
  · rw [if_pos hm, mem_cons, or_comm, Prod.ext_iff, and_iff_right hm]
    rfl
  · rw [if_neg hm, Prod.ext_iff, or_iff_left fun heq => hm heq.1]
    rfl

/-- The actions of the event are those of the new frame. -/
theorem stored_executeActions (hholder : s.holder e = some holder) (hidle : ¬ s.Executing e)
    (e' : EventId N) : (s.executeActions e.1 e.2 holder).stored e' = s.stored e' := by
  obtain ⟨m, j⟩ := e'
  by_cases hm : m = e.1
  · subst hm
    have hcons : (s.executeActions e.1 e.2 holder).stored (e.1, j) =
        if e.2 = j then holder.actions else (s.node e.1).stored j := by
      simp only [stored, executeActions, setNode, update_self]
      exact EventNode.stored_cons
        (x := { s.node e.1 with frames := ⟨e.2, holder.actions⟩ :: (s.node e.1).frames }) rfl
    rw [hcons]
    split
    · next hj =>
      subst hj
      exact ((stored_of_not_executing hidle).trans (by rw [hholder, elim_some])).symm
    · rfl
  · exact stored_setNode_of_ne hm

/-- An event without actions is removed when its frame is done. -/
structure Removes (s s' : EventSys N) (e : EventId N) : Prop where
  running : ∀ m, s.running m = if m = e.1 then e.2 :: s'.running m else s'.running m
  record : ∀ e', s'.record e' = if e' = e then none else s.record e'
  cur : ∀ m, (s'.node m).curEvent = (s.node m).curEvent
  stored : ∀ e', s'.stored e' = s.stored e'
  empty : s.stored e = []

theorem Removes.executing_self (h : Removes s s' e) : s.Executing e := by
  rw [executing_iff, h.running, if_pos rfl]
  exact mem_cons_self

theorem Removes.executing (h : Removes s s' e) (hne : e' ≠ e) :
    s'.Executing e' ↔ s.Executing e' := by
  rw [executing_iff, executing_iff, h.running]
  by_cases hm : e'.1 = e.1
  · have hj : e'.2 ≠ e.2 := fun hj => hne (Prod.ext hm hj)
    simp [hm, hj]
  · rw [if_neg hm]

theorem removes_finish (hr : Records s) {frames : List (Frame N)}
    (hframes : (s.node n).frames = ⟨i, []⟩ :: frames) :
    Removes s (s.setNode n { s.node n with
      frames := frames, lookup := update (s.node n).lookup i none }) (n, i) := by
  set s' := s.setNode n { s.node n with
    frames := frames, lookup := update (s.node n).lookup i none } with hs'
  have hnode : ∀ m, m ≠ n → s'.node m = s.node m := fun m hm => update_of_ne hm _ _
  have hself : s'.node n = { s.node n with
      frames := frames, lookup := update (s.node n).lookup i none } :=
    update_self _ _ _
  have hrunning : ∀ m, s.running m = if m = n then i :: s'.running m else s'.running m := by
    intro m
    by_cases hm : m = n
    · subst hm
      rw [if_pos rfl, running, running, hself, hframes, map_cons]
    · rw [if_neg hm, running, running, hnode m hm]
  have hrecord : ∀ e', s'.record e' = if e' = (n, i) then none else s.record e' := by
    rintro ⟨m, j⟩
    by_cases hm : m = n
    · subst hm
      by_cases hj : j = i
      · simp [record, holder, hself, hj]
      · simp [record, holder, hself, hj]
    · simp [record, holder, hnode m hm, hm]
  have hnot : ¬ s'.Executing (n, i) := by
    have hnodup := hr.nodup n
    rw [hrunning, if_pos rfl] at hnodup
    exact (nodup_cons.mp hnodup).1
  have hempty : s.stored (n, i) = [] := stored_top hframes
  refine ⟨hrunning, hrecord, ?_, ?_, hempty⟩
  · intro m
    by_cases hm : m = n
    · subst hm
      rw [hself]
    · rw [hnode m hm]
  · rintro ⟨m, j⟩
    by_cases hm : m = n
    · subst hm
      by_cases hj : j = i
      · subst hj
        have hgone := hrecord (m, j)
        rw [if_pos rfl, record_eq_none] at hgone
        rw [hempty, stored_of_not_executing hnot, hgone, elim_none]
      · rw [stored, stored, hself, EventNode.stored_cons hframes, if_neg (Ne.symm hj)]
        exact EventNode.stored_congr rfl (update_of_ne hj _ _)
    · rw [stored, stored, hnode m hm]

end EventSys

namespace EventInv

theorem perform (h : EventInv (some a) s) (hdone : s.facts.Done a.event) (hreads : s.Reads a) :
    EventInv none (s.perform a) := by
  obtain ⟨hc, ht⟩ := h.tokens.perform hdone hreads
  cases a with
  | user id e => exact ⟨hc.records h.records, ht, h.reads, h.aborted⟩
  | sendBack e eventBack slot =>
    rw [perform_sendBack hreads] at hc ht ⊢
    exact ⟨hc.records h.records, ht, h.reads, h.aborted⟩

omit [DecidableEq N] in
/-- Only events that were created keep actions. -/
theorem issued_of_stored (h : EventInv hand s) (ha : a ∈ s.stored e) : s.Issued e := by
  by_cases hx : s.Executing e
  · obtain ⟨-, r, hr, -⟩ := h.records.executing e hx
    exact h.records.issued e r hr
  · rw [stored_of_not_executing hx] at ha
    cases hholder : s.holder e with
    | none => simp [hholder] at ha
    | some holder => exact h.records.issued e _ (congrArg (Option.map _) hholder)

/-- The message is where it was put. -/
theorem reads_place (e eventBack : EventId N) (slot : ℕ) : (s.place e.1 slot
    (some (.checkFinished e eventBack.1 eventBack))).Reads (.sendBack e eventBack slot) :=
  ⟨e, by simp [EventSys.place]⟩

/-- Memory is used to which no action points. -/
theorem place {slot : ℕ} (h : EventInv hand s) (hslot : slot ∉ (s.node n).slots)
    (msg : Option (EventMsg N)) : EventInv hand (s.place n slot msg) := by
  have hc : Calm s (s.place n slot msg) := ⟨fun _ => rfl, fun _ => rfl, fun _ => rfl, rfl, rfl⟩
  refine ⟨hc.records h.records, ?_, ?_, h.aborted⟩
  · exact h.tokens.grow (fun _ => rfl) rfl rfl rfl ⟨fun _ he => he, fun _ _ hcs => hcs⟩
      (fun _ he => he) (fun _ _ => rfl) fun _ _ => Iff.rfl
  · intro e a ha
    have hreads := h.reads e a ha
    have hissued := h.issued_of_stored ha
    cases a with
    | user id e' => trivial
    | sendBack e' eventBack slot' =>
      obtain rfl : e' = e := (h.tokens.stored e _ ha).2
      have hne : ¬ (e'.1 = n ∧ slot' = slot) := by
        rintro ⟨rfl, rfl⟩
        exact hslot (mem_flatMap.mpr ⟨e'.2, mem_range.mpr hissued, mem_filterMap.mpr ⟨_, ha, rfl⟩⟩)
      simp only [Reads, EventSys.place]
      by_cases hn : e'.1 = n
      · subst hn
        rw [update_self, update_of_ne fun hs => hne ⟨rfl, hs⟩]
        exact hreads
      · rw [update_of_ne hn]
        exact hreads

/-- An event that waits is not running its actions. -/
theorem not_executing (h : EventInv hand s) (hissued : s.Issued e) (hidle : s.NotTriggering e)
    (htest : s.testEventComplete e.1 e = .waiting) : ¬ s.Executing e := by
  intro hx
  obtain ⟨-, r, hr, -, hsettled⟩ := h.records.executing e hx
  by_cases htype : r.type = .normal
  · obtain ⟨holder, hholder, rfl⟩ := map_eq_some_iff.mp hr
    exact hidle holder hholder htype hx
  · -- a test of an event that was polled still says that it is ready
    have hready := h.records.ready_of_settled (hsettled htype) hissued
    exact EventState.noConfusion (hready.symm.trans htest)

theorem attach (h : EventInv (some a) s) (hissued : s.Issued e) (ha : a.event = e)
    (hidle : n = e.1 → s.NotTriggering e) (huser : n ≠ e.1 → ∃ id, a = .user id e)
    (hreads : s.Reads a) :
    EventInv none (s.attachAction n e a) := by
  rw [attachAction]
  cases htest : s.testEventComplete n e with
  | ready =>
    exact h.perform (ha ▸ h.records.done_of_settled (h.records.settled_of_ready hissued htest))
      hreads
  | waiting =>
    obtain ⟨hn, holder, hholder⟩ := testEventComplete_waiting htest
    subst hn
    have hfits : s.Fits e a := by
      cases a with
      | user id e' => exact .inl ha
      | sendBack e' eventBack slot => exact ha
    have hwaits := h.not_executing hissued (hidle rfl) htest
    obtain ⟨hc, ht⟩ := h.tokens.store hholder hwaits hfits
    have hsome : s.holder e = some holder := hholder
    simp only [hsome]
    refine ⟨hc.records h.records, ht, ?_, h.aborted⟩
    intro e' b hb
    rw [stored_setHolder hwaits] at hb
    split at hb
    · rcases mem_append.mp hb with hb | hb
      · exact h.reads e b (by rwa [stored_of_not_executing hwaits, hsome])
      · exact mem_singleton.mp hb ▸ hreads
    · exact h.reads e' b hb
  | remote =>
    have hn : n ≠ e.1 := Ne.symm (testEventComplete_remote.mp htest)
    obtain ⟨id, rfl⟩ := huser hn
    obtain ⟨hrecords, -⟩ := h.records.create (n := n)
      (s.createEvent n (proxy e (.user id e))) record_createEvent
      (fun m => (node_createEvent m).1) running_createEvent rfl
      (fun e' => (if_neg (by simp [EventSys.proxy])).symm) (by simp [EventSys.proxy])
      (fun e' _ => rfl)
    refine ⟨(calm_send _ _).records hrecords, h.tokens.ask h.records hissued, ?_, h.aborted⟩
    intro e' b hb
    have hb : b ∈ (s.createEvent n (proxy e (.user id e))).stored e' := hb
    rw [stored_createEvent h.records] at hb
    split at hb
    · obtain rfl := mem_singleton.mp hb
      trivial
    · exact h.reads e' b hb

variable {holder : EventHolder N} {f : Facts N} {frames : List (Frame N)} {r : EventRecord N}

/-- The actions of an event begin to be run.  If it is a proxy, the answer is in hand. -/
theorem executeActions (h : EventInv hand s) (hholder : s.holder e = some holder)
    (hidle : ¬ s.Executing e) (hchildren : f.children = s.facts.children)
    (hcomplete : ∀ e', f.complete e' = true ↔
      s.facts.complete e' = true ∨ e' = e ∧ holder.event.type = .normal)
    (hdone : f.Done e) (hproxy : ∀ e', holder.event.proxyFor = some e' → f.Done e')
    (hsettled : holder.event.type ≠ .normal → s.Settled e)
    (hhand : ∀ a, hand = some a → a.token = .inr e)
    (hfree : ∀ q, .inr e ∈ s.held hand q → q = .hand) :
    EventInv none ({ s with facts := f }.executeActions e.1 e.2 holder) := by
  have hrecord : s.record e = some holder.event := congrArg (Option.map _) hholder
  obtain ⟨hrecords, hgrows⟩ := h.records.start
    ({ s with facts := f }.executeActions e.1 e.2 holder) hrecord record_executeActions
    (fun m => (lookup_executeActions m).2) hchildren hidle running_executeActions hcomplete hdone
    hproxy hsettled
  have hstored := stored_executeActions (s := { s with facts := f }) hholder hidle
  refine ⟨hrecords, ?_, fun e' b hb => h.reads e' b (hstored e' ▸ hb), h.aborted⟩
  refine h.tokens.start hstored
    rfl rfl rfl hgrows ?_ record_executeActions
    (fun e' => executing_executeActions) hhand hfree
  intro e' he'
  rw [Issued, (lookup_executeActions e'.1).2]
  exact he'

theorem finish (h : EventInv none s) (hframes : (s.node n).frames = ⟨i, []⟩ :: frames) :
    EventInv none (s.setNode n { s.node n with
      frames := frames, lookup := update (s.node n).lookup i none }) := by
  have hr := removes_finish h.records hframes
  refine ⟨h.records.finish hr.running hr.record hr.cur rfl, ?_,
    fun e' b hb => h.reads e' b (hr.stored e' ▸ hb), h.aborted⟩
  refine h.tokens.grow hr.stored rfl rfl rfl ⟨fun _ he => he, fun _ _ hcs => hcs⟩ ?_ ?_ ?_
  · intro e' he'
    rw [Issued, hr.cur]
    exact he'
  · intro e' hne
    rw [hr.record, if_neg]
    rintro rfl
    exact hne hr.empty
  · intro p e'
    by_cases hp : p = (n, i)
    · subst hp
      have hgone := hr.record (n, i)
      rw [if_pos rfl] at hgone
      simp [LiveProxy, hgone, hr.executing_self]
    · simp only [LiveProxy, hr.record, if_neg hp, hr.executing hp]

omit [DecidableEq N] in
/-- Nobody owes an answer to an event that is not a proxy. -/
theorem free_of_not_proxy (h : EventInv none s) (hr : s.record e = some r)
    (hproxy : r.proxyFor = none) (q : Place N) : .inr e ∉ s.held none q := by
  intro hq
  obtain ⟨e', r', hr', hp, -⟩ := h.tokens.meant hq
  obtain rfl := some.inj (hr.symm.trans hr')
  exact absurd (hp.symm.trans hproxy) (some_ne_none e')

theorem makeReadyTrigger (h : EventInv none s) (hholder : s.holder e = some holder)
    (htype : holder.event.type = .normal) (hproxy : holder.event.proxyFor = none)
    (hidle : ¬ s.Executing e) : EventInv none (s.makeReadyTrigger e holder) := by
  have hrecord : s.record e = some holder.event := congrArg (Option.map _) hholder
  rw [EventSys.makeReadyTrigger, if_pos htype]
  refine h.executeActions hholder hidle rfl ?_ (.complete (update_self ..)) ?_ ?_ ?_ ?_
  · intro e'
    by_cases he : e' = e <;> simp [he, htype]
  · exact fun e' he' => absurd (he'.symm.trans hproxy) (some_ne_none e')
  · exact fun hne => absurd htype hne
  · exact fun a ha => absurd ha.symm (some_ne_none a)
  · exact fun q hq => absurd hq (h.free_of_not_proxy hrecord hproxy q)

/-- The proxy of an answer waits. -/
theorem eventFinished_eq {slot : ℕ} (h : EventInv (some (.sendBack e' e slot)) s) :
    ∃ holder, s.holder e = some holder ∧ holder.event.type = .normal ∧
      holder.event.proxyFor = some e' ∧ ¬ s.Executing e ∧
      s.eventFinished e.1 e = ({ s with
        facts := ⟨update s.facts.complete e true, s.facts.children⟩ }).executeActions
          e.1 e.2 holder := by
  obtain ⟨r, hr, hp, hidle⟩ := h.tokens.inHand _ rfl
  obtain ⟨holder, hholder, rfl⟩ := map_eq_some_iff.mp hr
  have htype := h.records.proxy e _ e' hr hp
  have htest : s.testEventComplete e.1 e = .waiting :=
    testEventComplete_of_normal rfl hholder htype
  refine ⟨holder, hholder, htype, hp, hidle, ?_⟩
  rw [eventFinished, if_pos htest]
  simp only [hholder]
  rw [EventSys.makeReadyTrigger, if_pos htype]

theorem eventFinished {slot : ℕ} (h : EventInv (some (.sendBack e' e slot)) s)
    (hdone : s.facts.Done e') : EventInv none (s.eventFinished e.1 e) := by
  obtain ⟨holder, hholder, htype, hp, hidle, heq⟩ := h.eventFinished_eq
  have hgrows : Grows s.facts ⟨update s.facts.complete e true, s.facts.children⟩ := by
    refine ⟨?_, fun _ _ hcs => hcs⟩
    intro e₂ he₂
    by_cases heq : e₂ = e
    · simp [heq]
    · simpa [heq] using he₂
  rw [heq]
  refine h.executeActions hholder hidle rfl ?_ (.complete (update_self ..)) ?_ ?_ ?_ ?_
  · intro e₂
    by_cases he : e₂ = e <;> simp [he, htype]
  · intro e₂ he₂
    obtain rfl := some.inj (hp.symm.trans he₂)
    exact hgrows.done hdone
  · exact fun hne => absurd htype hne
  · intro a ha
    rw [← some.inj ha]
    rfl
  · exact fun q hq => h.tokens.ledger.unique q .hand _ hq (by simp [held, Action.token])

section

variable (h : EventInv none s)
include h

/-- The next action of an event is taken, and its event is ready. -/
theorem act {rest : List (Action N)} (hframes : (s.node n).frames = ⟨i, a :: rest⟩ :: frames) :
    EventInv (some a) (s.setNode n { s.node n with frames := ⟨i, rest⟩ :: frames }) ∧
      s.facts.Done a.event ∧ s.Reads a := by
  obtain ⟨ht, hfits⟩ := h.tokens.act hframes
  have hhead := stored_top hframes
  refine ⟨⟨(calm_pop hframes).records h.records, ht, ?_, h.aborted⟩, ?_,
    h.reads (n, i) a (hhead ▸ mem_cons_self)⟩
  · intro e b hb
    rw [stored_pop hframes] at hb
    split at hb
    · exact h.reads (n, i) b (hhead ▸ mem_cons_of_mem a hb)
    · exact h.reads e b hb
  have hexecuting : s.Executing (n, i) := by
    rw [executing_iff, running, hframes]
    exact mem_cons_self
  obtain ⟨hdone, r, hr, hproxy, -⟩ := h.records.executing (n, i) hexecuting
  cases a with
  | user id e =>
    rcases hfits with rfl | ⟨r', hr', hp⟩
    · exact hdone
    · obtain rfl := some.inj (hr.symm.trans hr')
      exact hproxy e hp
  | sendBack e eventBack slot =>
    obtain rfl : e = (n, i) := hfits
    exact hdone

theorem receive {msg : EventMsg N} {k slot : ℕ} (hslot : slot ∉ (s.node n).slots)
    (hmsg : (s.inbox n)[k]? = some msg) (ha : a.token = msg.token) (hknown : s.Known a) :
    EventInv (some a) ({ s with inbox := update s.inbox n ((s.inbox n).eraseIdx k) }.place n slot
      (some msg)) := by
  obtain ⟨hc, ht⟩ := h.tokens.receive hmsg ha hknown
  exact place ⟨hc.records h.records, ht, h.reads, h.aborted⟩ hslot _

/-- A message is handled. -/
theorem deliver {k slot : ℕ} (horderly : s.OrderlyRun (.deliver n k slot))
    (hstep : s.run (.deliver n k slot) = some s') : EventInv none s' := by
  obtain ⟨msg, hmsg, rfl⟩ := map_eq_some_iff.mp hstep
  have hflight := h.tokens.inbox n msg (mem_of_getElem? hmsg)
  cases msg with
  | checkFinished e sentFromNode eventBack =>
    obtain ⟨rfl, rfl, hissued, hlive⟩ := hflight
    have hinv := h.receive (a := .sendBack e eventBack slot) horderly.1 hmsg rfl hlive
    have hidle : s.NotTriggering e := horderly.2 _ hmsg
    rw [EventSys.receive, checkEventFinished, if_pos rfl]
    split
    · next htest =>
      exact hinv.perform (hinv.records.done_of_settled
        (hinv.records.settled_of_ready hissued htest)) (reads_place ..)
    · exact hinv.attach hissued rfl (fun _ => hidle) (fun hne => absurd rfl hne)
        (reads_place ..)
    · next htest => exact absurd rfl (testEventComplete_remote.mp htest)
  | finished e eventBack =>
    obtain ⟨rfl, hdone, hlive⟩ := hflight
    exact (h.receive (a := .sendBack e eventBack slot) horderly.1 hmsg rfl
      hlive).eventFinished hdone

theorem run {b : EventRun N} (horderly : s.OrderlyRun b) (hstep : s.run b = some s') :
    EventInv none s' := by
  cases b with
  | deliver n k slot => exact h.deliver horderly hstep
  | poll n i =>
    simp only [EventSys.run] at hstep
    split at hstep
    · exact absurd hstep.symm (some_ne_none s')
    · next holder hholder =>
      obtain ⟨⟨htype, hready⟩, rfl⟩ := of_guard hstep
      have hrecord : s.record (n, i) = some holder.event := congrArg (Option.map _) hholder
      have hsettled := h.records.settled_of_ready (h.records.issued _ _ hrecord) hready
      have hproxy : holder.event.proxyFor = none := by
        by_contra hne
        obtain ⟨e', he'⟩ := ne_none_iff_exists'.mp hne
        exact htype (h.records.proxy _ _ e' hrecord he')
      refine h.executeActions (e := (n, i)) (f := s.facts) hholder horderly rfl ?_
        (h.records.done_of_settled hsettled) ?_ (fun _ => hsettled) ?_ ?_
      · intro e'
        simp [htype]
      · exact fun e' he' => absurd (he'.symm.trans hproxy) (some_ne_none e')
      · exact fun a ha => absurd ha.symm (some_ne_none a)
      · exact fun q hq => absurd hq (h.free_of_not_proxy hrecord hproxy q)
  | act n =>
    simp only [EventSys.run] at hstep
    split at hstep
    · next i a rest frames hframes =>
      obtain rfl := some.inj hstep
      obtain ⟨hinv, hdone, hreads⟩ := h.act hframes
      exact hinv.perform hdone (hreads.congr rfl)
    · exact absurd hstep.symm (some_ne_none s')
  | finish n =>
    simp only [EventSys.run] at hstep
    split at hstep
    · next i frames hframes =>
      obtain rfl := some.inj hstep
      exact h.finish hframes
    · exact absurd hstep.symm (some_ne_none s')

theorem create (hproxy : r.proxyFor = none) (hcomplete : f.complete = s.facts.complete)
    (hchildren : ∀ e, f.children e =
      if e = (n, (s.node n).curEvent) ∧ r.type = .parent then some r.eventList
        else s.facts.children e)
    (hlist : r.type = .parent → ∀ c ∈ r.eventList, c.1 = n ∧ c.2 < (s.node n).curEvent) :
    EventInv none ({ s with facts := f }.createEvent n { event := r }) := by
  obtain ⟨hrecords, hgrows⟩ := h.records.create (n := n) (r := r)
    ({ s with facts := f }.createEvent n { event := r }) record_createEvent
    (fun m => (node_createEvent m).1) running_createEvent hcomplete hchildren hlist
    (fun e' he' => absurd (he'.symm.trans hproxy) (some_ne_none e'))
  refine ⟨hrecords, h.tokens.create h.records hproxy hgrows, ?_, h.aborted⟩
  intro e b hb
  have hb : b ∈ (s.createEvent n { event := r }).stored e := hb
  rw [stored_createEvent h.records] at hb
  split at hb
  · exact absurd hb not_mem_nil
  · exact h.reads e b hb

theorem call {b : EventCall N} (horderly : s.OrderlyCall b) (hstep : s.call b = some s') :
    EventInv none s' := by
  cases b with
  | createMPIEvent n | createNormalEvent n =>
    obtain rfl := some.inj hstep
    exact h.create (f := s.facts) rfl rfl (fun e => (if_neg (by simp)).symm) (by simp)
  | createParentEvent n children =>
    obtain ⟨hissued, rfl⟩ := of_guard hstep
    refine h.create rfl rfl ?_ ?_
    · intro e
      by_cases he : e = (n, (s.node n).curEvent) <;> simp [he]
    · intro _ c hc
      have hn := horderly c hc
      exact ⟨hn, hn ▸ hissued c hc⟩
  | complete e =>
    simp only [EventSys.call] at hstep
    split at hstep
    · exact absurd hstep.symm (some_ne_none s')
    · next holder hholder =>
      obtain ⟨htype, rfl⟩ := of_guard hstep
      have hrecord : s.record e = some holder.event := congrArg (Option.map _) hholder
      obtain ⟨hrecords, hgrows⟩ := h.records.mpi ({ s with
        facts := { s.facts with complete := update s.facts.complete e true } })
        hrecord (fun _ => rfl) (fun _ => rfl) rfl htype (fun _ => rfl)
        (fun e' => by by_cases he : e' = e <;> simp [he])
      refine ⟨hrecords, ?_, h.reads, h.aborted⟩
      exact h.tokens.grow (fun _ => rfl) rfl rfl rfl hgrows (fun _ he => he) (fun _ _ => rfl)
        (fun _ _ => Iff.rfl)
  | attachAction n e =>
    obtain ⟨hissued, rfl⟩ := of_guard hstep
    refine attach ⟨?_, ?_, h.reads, h.aborted⟩ hissued rfl horderly (fun _ => ⟨_, rfl⟩) trivial
    · exact h.records.congr (fun _ => rfl) (fun _ => rfl) rfl (fun _ => rfl)
    · exact h.tokens.attach e
  | makeReadyTrigger e =>
    simp only [EventSys.call] at hstep
    split at hstep
    · exact absurd hstep.symm (some_ne_none s')
    · next holder hholder =>
      obtain ⟨⟨htype, hproxy⟩, rfl⟩ := of_guard hstep
      exact h.makeReadyTrigger hholder htype (isNone_iff_eq_none.mp hproxy) horderly
  | overwrite n slot =>
    obtain rfl := some.inj hstep
    exact h.place horderly none

end

omit [DecidableEq N] in
theorem start : EventInv none ({} : EventSys N) := by
  have hheld : ∀ q, ({} : EventSys N).held none q = [] := by
    intro q
    cases q <;> rfl
  refine ⟨?_, ?_, fun _ a ha => absurd ha not_mem_nil, rfl⟩
  · constructor
    · exact fun _ r hr => absurd hr.symm (some_ne_none r)
    · exact fun _ r hr => absurd hr.symm (some_ne_none r)
    · exact fun _ cs hcs => absurd hcs.symm (some_ne_none cs)
    · exact fun _ hc => absurd hc Bool.false_ne_true
    · exact fun _ hi => absurd hi (Nat.not_lt_zero _)
    · exact fun _ r hr => absurd hr.symm (some_ne_none r)
    · exact fun _ r _ hr => absurd hr.symm (some_ne_none r)
    · exact fun _ hx => absurd hx not_mem_nil
    · exact fun _ => nodup_nil
  · refine ⟨⟨?_, ?_⟩, ?_, ?_, ?_, ?_, ?_, ?_⟩
    · exact fun q => hheld q ▸ nodup_nil
    · intro p q t hp
      rw [hheld] at hp
      exact absurd hp not_mem_nil
    · exact fun id e hid => absurd hid (by simp)
    · rintro p e ⟨r, hr, -⟩
      exact absurd hr.symm (some_ne_none r)
    · exact fun _ a ha => absurd ha not_mem_nil
    · exact fun a ha => absurd ha.symm (some_ne_none a)
    · exact fun _ msg hmsg => absurd hmsg not_mem_nil
    · exact fun r hr => absurd hr not_mem_nil

end EventInv

/-! ## The end of a run -/

/-- The runtime has nothing to do. -/
structure EventSys.Stopped (s : EventSys N) : Prop where
  frames : ∀ n, (s.node n).frames = []
  inbox : ∀ n, s.inbox n = []
  poll : ∀ e r, s.record e = some r → r.type ≠ .normal → s.testEventComplete e.1 e ≠ .ready

namespace EventSys

omit [DecidableEq N] in
theorem not_executing_of_frames (h : ∀ n, (s.node n).frames = []) (e : EventId N) :
    ¬ s.Executing e := by
  rw [executing_iff, running, h]
  exact not_mem_nil

theorem stopped_of_none (hend : ∀ b, guarded run OrderlyRun s b = none) :
    s.Stopped := by
  have hrun : ∀ b, s.OrderlyRun b → s.run b = none :=
    fun b hb => (if_pos hb).symm.trans (hend b)
  have hframes : ∀ n, (s.node n).frames = [] := by
    intro n
    have hact := hrun (.act n) trivial
    have hfinish := hrun (.finish n) trivial
    simp only [run] at hact hfinish
    match hnode : (s.node n).frames with
    | [] => rfl
    | ⟨i, []⟩ :: frames => simp [hnode] at hfinish
    | ⟨i, a :: rest⟩ :: frames => simp [hnode] at hact
  have hidle := not_executing_of_frames hframes
  refine ⟨hframes, ?_, ?_⟩
  · intro n
    match hinbox : s.inbox n with
    | [] => rfl
    | msg :: msgs =>
      obtain ⟨slot, hslot⟩ := Infinite.exists_notMem_finset (s.node n).slots.toFinset
      have horderly : s.OrderlyRun (.deliver n 0 slot) := by
        refine ⟨by simpa using hslot, ?_⟩
        intro msg' _
        cases msg' with
        | checkFinished e sentFromNode eventBack => exact fun _ _ _ => hidle e
        | finished e eventBack => trivial
      simpa [run, hinbox] using hrun _ horderly
  · intro e r hr htype htest
    obtain ⟨holder, hholder, rfl⟩ := map_eq_some_iff.mp hr
    have hpoll := hrun (.poll e.1 e.2) (hidle e)
    have hsome : s.holder (e.1, e.2) = some holder := hholder
    simp only [run, hsome] at hpoll
    rw [if_pos ⟨htype, htest⟩] at hpoll
    exact absurd hpoll (some_ne_none _)

end EventSys

namespace EventInv

theorem stored_eq_nil (h : EventInv none s) (hs : s.Stopped) (hdone : s.facts.Done e) :
    s.stored e = [] := by
  have hidle := not_executing_of_frames hs.frames
  have hgone := h.records.gone_of_done hidle hs.poll hdone
  rw [stored_of_not_executing (hidle e), record_eq_none.mp hgone,
    elim_none]

/-- An event that is ready has no proxy: the answer would be kept with it. -/
theorem not_liveProxy (h : EventInv none s) (hs : s.Stopped) (hdone : s.facts.Done e)
    {p : EventId N} : ¬ s.LiveProxy p e := by
  intro hlive
  obtain ⟨q, hq⟩ := h.tokens.owed p e hlive
  cases q with
  | holder e' =>
    obtain ⟨a, ha, htoken⟩ := mem_map.mp hq
    obtain ⟨hknown, hfits⟩ := h.tokens.stored e' a ha
    cases a with
    | user id e₂ => simp [Action.token] at htoken
    | sendBack e₂ eventBack slot =>
      obtain rfl := Sum.inr.inj htoken
      obtain rfl : e₂ = e' := hfits
      obtain ⟨r, hr, hp, -⟩ := hlive
      obtain ⟨r', hr', hp', -⟩ := hknown
      obtain rfl := some.inj (hr.symm.trans hr')
      obtain rfl := some.inj (hp.symm.trans hp')
      rw [h.stored_eq_nil hs hdone] at ha
      exact not_mem_nil ha
  | inbox n =>
    rw [held, hs.inbox] at hq
    exact not_mem_nil hq
  | log => simp [held] at hq
  | hand => simp [held] at hq

/-- When the runtime has nothing to do, the actions of the events that are ready were run. -/
theorem ran_of_stopped (h : EventInv none s) (hs : s.Stopped) {id : ℕ}
    (hid : s.attached[id]? = some e) (hdone : s.facts.Done e) : id ∈ s.log.map (·.id) := by
  have hidle := not_executing_of_frames hs.frames
  obtain ⟨q, hq⟩ := h.tokens.kept id e hid
  cases q with
  | holder e' =>
    obtain ⟨a, ha, htoken⟩ := mem_map.mp hq
    obtain ⟨hknown, hfits⟩ := h.tokens.stored e' a ha
    cases a with
    | user id' e₂ =>
      obtain rfl := Sum.inl.inj htoken
      obtain rfl : e₂ = e := some.inj (Eq.trans (Eq.symm hknown) hid)
      rcases hfits with rfl | ⟨r, hr, hp⟩
      · rw [h.stored_eq_nil hs hdone] at ha
        exact absurd ha not_mem_nil
      · exact absurd ⟨r, hr, hp, hidle e'⟩ (h.not_liveProxy hs hdone)
    | sendBack e₂ eventBack slot => simp [Action.token] at htoken
  | inbox n =>
    rw [held, hs.inbox] at hq
    exact absurd hq not_mem_nil
  | log =>
    obtain ⟨r, hr, htoken⟩ := mem_map.mp hq
    exact mem_map.mpr ⟨r, hr, Sum.inl.inj htoken⟩
  | hand => simp [held] at hq

theorem of_reach (h : Reach (· = ({} : EventSys N)) step Orderly s) : EventInv none s := by
  refine h.invariant ?_ ?_
  · rintro s rfl
    exact start
  · intro s b s' hs horderly hstep
    cases b with
    | inl b => exact hs.call horderly hstep
    | inr b => exact hs.run horderly hstep

end EventInv

end VtRuntime.Event
