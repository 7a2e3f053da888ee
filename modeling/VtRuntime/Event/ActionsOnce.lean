import VtRuntime.Event.Invariant
import VtRuntime.Lib.Sum
import Mathlib.Tactic.FinCases

/-!
# Actions of events

An action is run once, when its event is ready, if no action is attached to a normal event from
inside its own actions, the children of a parent event are on its node, and the memory of a message
is not used again while a `send_back_fun` points to it.  An action that is attached to a normal
event while its actions are being run is dropped with them.
-/

namespace VtRuntime.Event

open Lib Records List EventSys Nat Function
open Option hiding map_map
open Finset hiding map_cons sum_cons map_map mem_singleton

variable {N : Type} [DecidableEq N] {s s' : EventSys N} {e e' : EventId N} {n : N} {i : ℕ}
  {a : Action N} {hand : Option (Action N)}

/-! ## The runtime comes to an end -/

/-- What an action and a message have still before them. -/
def Action.weight : Action N → ℕ
  | .user .. => 1
  | .sendBack .. => 3

def EventMsg.weight : EventMsg N → ℕ
  | .checkFinished .. => 4
  | .finished .. => 2

namespace EventSys

instance (s : EventSys N) (e : EventId N) : Decidable (s.Executing e) :=
  inferInstanceAs (Decidable ((s.node e.1).Executing e.2))

/-- What an event has still before it: its actions, and that they begin to be run. -/
def load (s : EventSys N) (e : EventId N) : ℕ :=
  ((s.stored e).map (·.weight)).sum + if (s.record e).isSome ∧ ¬ s.Executing e then 2 else 0

variable [Fintype N]

/-- What all events have still before them. -/
def loads (s : EventSys N) : ℕ :=
  ∑ n, ∑ i ∈ range (s.node n).curEvent, s.load (n, i)

/-- What the runtime has still to do. -/
def remaining (s : EventSys N) : ℕ :=
  s.loads + ∑ n, ((s.inbox n).map (·.weight)).sum + ∑ n, (s.node n).frames.length

theorem loads_change (hcur : ∀ m, (s'.node m).curEvent = (s.node m).curEvent) (hissued : s.Issued e)
    (hother : ∀ e', e' ≠ e → s'.load e' = s.load e') {x y : ℕ}
    (he : s'.load e + x = s.load e + y) : s'.loads + x = s.loads + y := by
  have hrest : ∀ m, m ≠ e.1 → ∑ i ∈ range (s'.node m).curEvent, s'.load (m, i) =
      ∑ i ∈ range (s.node m).curEvent, s.load (m, i) := by
    intro m hm
    rw [hcur]
    exact sum_congr rfl fun i _ => hother (m, i) fun heq => hm (congrArg Prod.fst heq)
  have hinner : ∑ i ∈ range (s'.node e.1).curEvent, s'.load (e.1, i) + x =
      ∑ i ∈ range (s.node e.1).curEvent, s.load (e.1, i) + y := by
    have hmem : e.2 ∈ Finset.range (s.node e.1).curEvent := Finset.mem_range.mpr hissued
    have herase : ∑ i ∈ (Finset.range (s.node e.1).curEvent).erase e.2, s'.load (e.1, i) =
        ∑ i ∈ (Finset.range (s.node e.1).curEvent).erase e.2, s.load (e.1, i) :=
      sum_congr rfl fun i hi =>
        hother (e.1, i) fun heq => ne_of_mem_erase hi (congrArg Prod.snd heq)
    rw [hcur, ← add_sum_erase _ _ hmem, ← add_sum_erase _ (fun i => s.load (e.1, i)) hmem,
      herase]
    simp only [Prod.mk.eta]
    omega
  have hsum : ∑ m ∈ univ.erase e.1, ∑ i ∈ range (s'.node m).curEvent, s'.load (m, i) =
      ∑ m ∈ univ.erase e.1, ∑ i ∈ range (s.node m).curEvent, s.load (m, i) :=
    sum_congr rfl fun m hm => hrest m (ne_of_mem_erase hm)
  rw [loads, loads, ← add_sum_erase _ _ (mem_univ e.1),
    ← add_sum_erase _ (fun m => ∑ i ∈ range (s.node m).curEvent, s.load (m, i))
      (mem_univ e.1), hsum]
  omega

omit [DecidableEq N] in
theorem remaining_of_calm (hc : Calm s s') (hstored : ∀ e, s'.stored e = s.stored e)
    (hframes : ∀ n, (s'.node n).frames.length = (s.node n).frames.length) {x y : ℕ}
    (hinbox : ∑ n, ((s'.inbox n).map (·.weight)).sum + x =
      ∑ n, ((s.inbox n).map (·.weight)).sum + y) :
    s'.remaining + x = s.remaining + y := by
  have hload : ∀ e, s'.load e = s.load e := by
    intro e
    simp only [load, hstored, hc.record, hc.executing]
  have hloads : s'.loads = s.loads := by
    simp only [loads, hc.cur, hload]
  simp only [remaining, hloads, hframes]
  omega

theorem sum_send (n : N) (msg : EventMsg N) :
    ∑ m, (((s.send n msg).inbox m).map (·.weight)).sum =
      msg.weight + ∑ m, ((s.inbox m).map (·.weight)).sum := by
  refine sum_increase_at n ?_ ?_
  · intro m hm
    simp [send, hm]
  · simp [send, add_comm]

theorem remaining_perform (hreads : s.Reads a) :
    (s.perform a).remaining + 1 ≤ s.remaining + a.weight := by
  cases a with
  | user id e => exact le_refl _
  | sendBack e eventBack slot =>
    rw [perform_sendBack hreads]
    have hsent := remaining_of_calm (calm_send (s := s) eventBack.1 (.finished e eventBack))
      (x := 0) (y := 2) (fun _ => rfl) (fun _ => rfl) (by rw [sum_send, EventMsg.weight]; omega)
    simp only [Action.weight]
    omega

theorem remaining_store (hr : Records s) {holder : EventHolder N}
    (hholder : s.holder e = some holder) (hidle : ¬ s.Executing e) :
    (s.setHolder e (some { holder with actions := holder.actions ++ [a] })).remaining =
      s.remaining + a.weight := by
  have hc : Calm s (s.setHolder e (some { holder with actions := holder.actions ++ [a] })) :=
    calm_setHolder hholder rfl
  have hold : s.stored e = holder.actions := by
    rw [stored_of_not_executing hidle, hholder, elim_some]
  have hloads := loads_change (x := 0) (y := a.weight) hc.cur
    (hr.issued e _ (congrArg (Option.map _) hholder)) ?_ ?_
  · simp only [remaining, (node_setHolder _).2]
    simp only [setHolder, setNode] at hloads ⊢
    omega
  · intro e' he'
    simp only [load, stored_setHolder hidle, if_neg he', hc.record, hc.executing]
  · simp only [load, stored_setHolder hidle, if_pos, hc.record, hc.executing, hold, elim_some,
      map_append, List.sum_append, map_cons, map_nil, sum_cons, sum_nil]
    omega

theorem remaining_receive {msg : EventMsg N} {k : ℕ} (hmsg : (s.inbox n)[k]? = some msg) :
    remaining { s with inbox := update s.inbox n ((s.inbox n).eraseIdx k) } + msg.weight =
      s.remaining := by
  have hsum : ∑ m, ((s.inbox m).map (·.weight)).sum = msg.weight +
      ∑ m, ((update s.inbox n ((s.inbox n).eraseIdx k) m).map (·.weight)).sum := by
    refine sum_increase_at n ?_ ?_
    · intro m hm
      rw [update_of_ne hm]
    · rw [update_self, ((perm_eraseIdx hmsg).map _).sum_eq, map_cons, sum_cons]
  have hc : Calm s { s with inbox := update s.inbox n ((s.inbox n).eraseIdx k) } :=
    ⟨fun _ => rfl, fun _ => rfl, fun _ => rfl, rfl, rfl⟩
  have hremaining := remaining_of_calm hc (x := msg.weight) (y := 0) (fun _ => rfl) (fun _ => rfl)
    (by simp only; omega)
  exact hremaining

theorem remaining_place (slot : ℕ) (msg : Option (EventMsg N)) :
    (s.place n slot msg).remaining = s.remaining := rfl

theorem remaining_executeActions (hr : Records s) {holder : EventHolder N}
    (hholder : s.holder e = some holder) (hidle : ¬ s.Executing e) (f : Facts N) :
    ({ s with facts := f }.executeActions e.1 e.2 holder).remaining + 1 = s.remaining := by
  set s' := { s with facts := f }.executeActions e.1 e.2 holder with hs'
  have hrecord : s.record e = some holder.event := congrArg (Option.map _) hholder
  have hexecuting : ∀ e', s'.Executing e' ↔ s.Executing e' ∨ e' = e :=
    fun e' => executing_executeActions
  have hsame : ∀ e', s'.record e' = s.record e' := fun e' => record_executeActions e'
  have hstored : ∀ e', s'.stored e' = s.stored e' :=
    stored_executeActions (s := { s with facts := f }) hholder hidle
  have hcur : ∀ m, (s'.node m).curEvent = (s.node m).curEvent :=
    fun m => (lookup_executeActions m).2
  have hloads := loads_change (x := 2) (y := 0) hcur (hr.issued e _ hrecord) ?_ ?_
  · have hframes : ∑ m, (s'.node m).frames.length = 1 + ∑ m, (s.node m).frames.length := by
      refine sum_increase_at e.1 ?_ ?_
      · intro m hm
        simp [hs', executeActions, setNode, hm]
      · simp [hs', executeActions, setNode, add_comm]
    have hinbox : s'.inbox = s.inbox := rfl
    rw [remaining, remaining, hframes, hinbox]
    omega
  · intro e' he'
    simp only [load, hstored, hsame, hexecuting, or_iff_left he']
  · simp only [load, hstored, hexecuting]
    rw [if_neg (by simp), if_pos ⟨by simp [hrecord], hidle⟩]

theorem remaining_pop (hr : Records s) {rest : List (Action N)} {frames : List (Frame N)}
    (hframes : (s.node n).frames = ⟨i, a :: rest⟩ :: frames) :
    (s.setNode n { s.node n with frames := ⟨i, rest⟩ :: frames }).remaining + a.weight =
      s.remaining := by
  have hc := calm_pop hframes
  have hstored := stored_pop hframes
  set s' := s.setNode n { s.node n with frames := ⟨i, rest⟩ :: frames } with hs'
  have hexecuting : s.Executing (n, i) := by
    rw [executing_iff, running, hframes]
    exact mem_cons_self
  obtain ⟨-, r, hrecord, -⟩ := hr.executing (n, i) hexecuting
  have hloads := loads_change (s := s) (e := (n, i)) (x := a.weight) (y := 0) hc.cur
    (hr.issued _ r hrecord) ?_ ?_
  · have hlength : ∀ m, (s'.node m).frames.length = (s.node m).frames.length := by
      intro m
      simpa [running] using congrArg List.length (hc.running m)
    have hinbox : s'.inbox = s.inbox := rfl
    simp only [remaining, hlength, hinbox]
    omega
  · intro e' he'
    simp only [load, hstored, if_neg he', hc.record, hc.executing]
  · simp only [load, hstored, if_pos, hc.record, hc.executing, stored_top hframes,
      map_cons, sum_cons]
    omega

theorem remaining_finish (hr : Records s) {frames : List (Frame N)}
    (hframes : (s.node n).frames = ⟨i, []⟩ :: frames) :
    (s.setNode n { s.node n with
      frames := frames, lookup := update (s.node n).lookup i none }).remaining + 1 =
      s.remaining := by
  have hrem := removes_finish hr hframes
  set s' := s.setNode n { s.node n with
    frames := frames, lookup := update (s.node n).lookup i none } with hs'
  have hload : ∀ e', s'.load e' = s.load e' := by
    intro e'
    by_cases he : e' = (n, i)
    · subst he
      simp [load, hrem.stored, hrem.record, hrem.executing_self]
    · simp only [load, hrem.stored, hrem.record, if_neg he, hrem.executing he]
  have hloads : s'.loads = s.loads := by
    simp only [loads, hrem.cur, hload]
  have hlength : ∑ m, (s.node m).frames.length = 1 + ∑ m, (s'.node m).frames.length := by
    refine sum_increase_at n ?_ ?_
    · intro m hm
      simp [hs', setNode, hm]
    · simp [hs', setNode, hframes, add_comm]
  have hinbox : s'.inbox = s.inbox := rfl
  rw [remaining, remaining, hloads, hlength, hinbox]
  omega

end EventSys

variable [Fintype N]

namespace EventInv

theorem remaining_attach (h : EventInv (some a) s) (hissued : s.Issued e)
    (hidle : s.NotTriggering e) (hreads : s.Reads a) :
    (s.attachAction e.1 e a).remaining ≤ s.remaining + a.weight := by
  rw [attachAction]
  cases htest : s.testEventComplete e.1 e with
  | ready => exact le_of_succ_le (remaining_perform hreads)
  | waiting =>
    obtain ⟨-, holder, hholder⟩ := testEventComplete_waiting htest
    have hsome : s.holder e = some holder := hholder
    simp only [hsome]
    exact le_of_eq
      (remaining_store h.records hholder (h.not_executing hissued hidle htest))
  | remote => exact absurd rfl (testEventComplete_remote.mp htest)

theorem remaining_deliver (h : EventInv none s) {k slot : ℕ}
    (horderly : s.OrderlyRun (.deliver n k slot)) (hstep : s.run (.deliver n k slot) = some s') :
    s'.remaining < s.remaining := by
  obtain ⟨msg, hmsg, rfl⟩ := map_eq_some_iff.mp hstep
  have hflight := h.tokens.inbox n msg (mem_of_getElem? hmsg)
  have hreceive := remaining_receive hmsg
  -- the slot of the message has no part in what is left to do
  rw [← remaining_place (n := n) slot (some msg)] at hreceive
  cases msg with
  | checkFinished e sentFromNode eventBack =>
    obtain ⟨rfl, rfl, hissued, hlive⟩ := hflight
    have hinv := h.receive (a := .sendBack e eventBack slot) horderly.1 hmsg rfl hlive
    rw [EventSys.receive, checkEventFinished, if_pos rfl]
    simp only [EventMsg.weight] at hreceive
    split
    · have hperform := remaining_perform (EventInv.reads_place e eventBack slot (s := { s with
        inbox := update s.inbox e.1 ((s.inbox e.1).eraseIdx k) }))
      simp only [Action.weight] at hperform
      omega
    · have hattach := hinv.remaining_attach hissued (horderly.2 _ hmsg) (reads_place e _ slot)
      simp only [Action.weight] at hattach
      omega
    · next htest => exact absurd rfl (testEventComplete_remote.mp htest)
  | finished e eventBack =>
    obtain ⟨rfl, -, hlive⟩ := hflight
    have hinv := h.receive (a := .sendBack e eventBack slot) horderly.1 hmsg rfl hlive
    obtain ⟨holder, hholder, -, -, hidle, heq⟩ := hinv.eventFinished_eq
    have hexecute := remaining_executeActions hinv.records hholder hidle
      ⟨update s.facts.complete eventBack true, s.facts.children⟩
    rw [EventSys.receive, heq]
    simp only [EventMsg.weight] at hreceive
    exact lt_of_succ_le (hexecute.le.trans ((le_add_right _ 2).trans hreceive.le))

/-- Each step of the runtime brings it closer to its end. -/
theorem remaining_lt (h : EventInv none s) {b : EventRun N} (horderly : s.OrderlyRun b)
    (hstep : s.run b = some s') : s'.remaining < s.remaining := by
  cases b with
  | deliver n k slot => exact h.remaining_deliver horderly hstep
  | poll n i =>
    simp only [EventSys.run] at hstep
    split at hstep
    · exact absurd hstep.symm (some_ne_none s')
    · next holder hholder =>
      obtain ⟨-, rfl⟩ := of_guard hstep
      have hremaining := remaining_executeActions (e := (n, i)) h.records hholder horderly
        s.facts
      exact lt_of_succ_le (le_of_eq hremaining)
  | act n =>
    simp only [EventSys.run] at hstep
    split at hstep
    · next i a rest frames hframes =>
      obtain rfl := some.inj hstep
      have hreads : (s.setNode n { s.node n with frames := ⟨i, rest⟩ :: frames }).Reads a :=
        (h.act hframes).2.2.congr rfl
      have hperform := remaining_perform hreads
      have hpop := remaining_pop h.records hframes
      exact lt_of_succ_le (hperform.trans hpop.le)
    · exact absurd hstep.symm (some_ne_none s')
  | finish n =>
    simp only [EventSys.run] at hstep
    split at hstep
    · next i frames hframes =>
      obtain rfl := some.inj hstep
      have hfinish := remaining_finish h.records hframes
      exact lt_of_succ_le hfinish.le
    · exact absurd hstep.symm (some_ne_none s')

/-- The runtime comes to an end. -/
theorem ends (h : EventInv none s) :
    Ends (guarded EventSys.run EventSys.OrderlyRun) (fun s' => ∀ id e, s'.attached[id]? = some e →
      s'.facts.Done e → id ∈ s'.log.map (·.id)) s := by
  refine Ends.of_measure remaining ?_ ?_ h
  · intro s b s' hs hstep
    obtain ⟨horderly, hrun⟩ := ite_none_right_eq_some.mp hstep
    exact ⟨hs.run horderly hrun, hs.remaining_lt horderly hrun⟩
  · intro s hs hend id e hid hdone
    exact hs.ran_of_stopped (stopped_of_none hend) hid hdone

end EventInv

/-- If the children of a parent event are on its node, no event is attached to, triggered or polled
from inside its own actions, and the memory of a message is not used again while an action points to
it, every action is run once, when its event is ready. -/
theorem actions_run_once (h : Reach (· = ({} : EventSys N)) step EventSys.Orderly s) :
    ActionsOnce s := by
  have hinv := EventInv.of_reach h
  refine ⟨hinv.aborted, ?_, fun r hr => (hinv.tokens.log r hr).1,
    fun r hr => (hinv.tokens.log r hr).2, hinv.ends⟩
  have hnodup := hinv.tokens.ledger.nodup .log
  rw [held] at hnodup
  exact List.Nodup.of_map Sum.inl (by rwa [map_map])

/-- Node 1 attaches an action to a parent event of node 0 whose child is an MPI request. -/
theorem actions_run_once_parent :
    ∃ s : EventSys (Fin 2), Reach (· = {}) step Orderly s ∧
      s.log.map (·.id) = [0] ∧ ActionsOnce s := by
  obtain ⟨s, hs, hlog⟩ := @Reach.of_guarded_run (EventSys (Fin 2)) _ (· = {}) Orderly _ step
    [.inl (.createMPIEvent 0), .inl (.createParentEvent 0 [(0, 0)]), .inl (.attachAction 1 (0, 1)),
      .inr (.deliver 0 0 0), .inl (.overwrite 0 1), .inl (.complete (0, 0)), .inr (.poll 0 1),
      .inr (.act 0), .inr (.finish 0), .inr (.deliver 1 0 0), .inr (.act 1)]
    (·.log.map (·.id) = [0]) _ _ rfl (by decide +kernel)
  exact ⟨s, hs, hlog, actions_run_once hs⟩

omit [Fintype N] in
/-- Without a message, a frame and an event that tests ready, no step is taken. -/
theorem EventSys.run_eq_none (h : ∀ n, (s.node n).frames = [] ∧ s.inbox n = [] ∧
      ∀ i, ((s.holder (n, i)).any fun holder => holder.event.type ≠ .normal ∧
        s.testEventComplete n (n, i) = .ready) = false) (b : EventRun N) : s.run b = none := by
  cases b with
  | deliver n k slot => simp [run, (h n).2.1]
  | poll n i =>
    have hready := (h n).2.2 i
    simp only [run]
    cases hholder : s.holder (n, i) with
    | none => rfl
    | some holder =>
      rw [hholder, any_some, decide_eq_false_iff_not] at hready
      exact if_neg hready
  | act n => simp [run, (h n).1]
  | finish n => simp [run, (h n).1]

/-- An action attached to a normal event from inside its own actions is lost.  An action attached to
a parent event with a child on another node is never run.  If two nodes ask for an event, and the
second message is where the first was, both answers go to the second node, and the assertion of
`eventFinished` fails. -/
theorem actions_not_run :
    (∃ s : EventSys (Fin 1), Reach (· = {}) step anyStep s ∧
      s.attached = [(0, 0), (0, 0)] ∧ s.facts.Done (0, 0) ∧ s.log.map (·.id) = [0] ∧
      ∀ b, s.run b = none) ∧
    (∃ s : EventSys (Fin 2), Reach (· = {}) step anyStep s ∧
      s.attached = [(0, 0)] ∧ s.facts.Done (0, 0) ∧ s.log.map (·.id) = [] ∧
      ∀ b, s.run b = none) ∧
    ∃ s : EventSys (Fin 3), Reach (· = {}) step anyStep s ∧
      s.attached = [(0, 0), (0, 0)] ∧ s.facts.Done (0, 0) ∧ s.log.map (·.id) = [1] ∧
      s.aborted = true ∧ ∀ b, s.run b = none := by
  refine ⟨?_, ?_, ?_⟩
  · have hrun := (rfl : run step ({} : EventSys (Fin 1))
      [.inl (.createNormalEvent 0), .inl (.attachAction 0 (0, 0)), .inl (.makeReadyTrigger (0, 0)),
        .inr (.act 0), .inl (.attachAction 0 (0, 0)), .inr (.finish 0)] = some _)
    refine ⟨_, Reach.run (.start rfl) (fun _ _ _ => trivial) hrun, rfl, .complete rfl, rfl, ?_⟩
    refine run_eq_none fun n => ?_
    fin_cases n
    refine ⟨rfl, rfl, fun i => ?_⟩
    cases i <;> rfl
  · have hrun := (rfl : run step ({} : EventSys (Fin 2))
      [.inl (.createMPIEvent 1), .inl (.createParentEvent 0 [(1, 0)]),
        .inl (.attachAction 0 (0, 0)), .inl (.complete (1, 0)), .inr (.poll 1 0),
        .inr (.finish 1)] = some _)
    refine ⟨_, Reach.run (.start rfl) (fun _ _ _ => trivial) hrun, rfl, .parent rfl ?_, rfl, ?_⟩
    · intro c hc
      rw [mem_singleton.mp hc]
      exact .complete rfl
    refine run_eq_none fun n => ?_
    fin_cases n
    all_goals
      refine ⟨rfl, rfl, fun i => ?_⟩
      cases i <;> rfl
  · have hrun := (rfl : run step ({} : EventSys (Fin 3))
      [.inl (.createNormalEvent 0), .inl (.attachAction 1 (0, 0)), .inl (.attachAction 2 (0, 0)),
        .inr (.deliver 0 0 0), .inr (.deliver 0 0 0), .inl (.makeReadyTrigger (0, 0)),
        .inr (.act 0), .inr (.act 0), .inr (.finish 0), .inr (.deliver 2 0 0), .inr (.act 2),
        .inr (.finish 2), .inr (.deliver 2 0 0)] = some _)
    refine ⟨_, Reach.run (.start rfl) (fun _ _ _ => trivial) hrun, rfl, .complete rfl, rfl, rfl, ?_⟩
    refine run_eq_none fun n => ?_
    fin_cases n
    all_goals
      refine ⟨rfl, rfl, fun i => ?_⟩
      cases i <;> rfl

end VtRuntime.Event
