import VtRuntime.Lib.Lists
import VtRuntime.Lib.Run
import VtRuntime.Lib.Sum
import VtRuntime.Lib.Tree
import Mathlib.Algebra.Order.BigOperators.Ring.Finset

/-!
# Barriers

A node enters a barrier by `waitBarrier` or by `contBarrier`.  It counts its own arrival and those
of its children, and when all are there it sends `barrierUp` to its parent.  The root broadcasts
`barrierDown`, which releases the nodes: `waitBarrier` returns and removes the state of the barrier,
or the continuation of `contBarrier` runs.

Every use of an unnamed barrier has a number of its own.  A named barrier is used again under the
same name.  The state of a use is then still there until the node that waits has removed it, and
the state of `contBarrier` is never removed.
-/

namespace VtRuntime.Collective

open Lib Function List Option SpanningTree Nat
open Finset hiding mem_singleton

/-- The state of a barrier on a node.  A continuation is given by the use it belongs to. -/
structure BarrierState where
  isWait : Bool
  recvEventCount : ℕ := 0
  released : Bool := false
  contAction : Option ℕ := none

/-- `Barrier::insertFindBarrier` for the entry of the barrier. -/
def insertFindBarrier (state : Option BarrierState) (isWait : Bool) (contAction : Option ℕ) :
    BarrierState :=
  let state := state.getD { isWait := isWait }
  { state with contAction := contAction.or state.contAction }

/-- A barrier on all nodes: the states, and the messages to each node that are in flight, which
carry `is_wait`.  A node waits until `waitBarrier` returns.  The books count for each node the
uses it has entered, the states it has removed, its releases and the messages from its children,
and list the continuations that have run. -/
structure Barrier (N : Type) where
  state : N → Option BarrierState := fun _ => none
  up : N → List Bool := fun _ => []
  down : N → List Bool := fun _ => []
  waiting : N → Bool := fun _ => false
  entered : N → ℕ := fun _ => 0
  removed : N → ℕ := fun _ => 0
  releases : N → ℕ := fun _ => 0
  ups : N → ℕ := fun _ => 0
  ran : N → List ℕ := fun _ => []

namespace Barrier

variable {N : Type} [DecidableEq N]

/-- The number of arrivals that are counted. -/
def events (x : Barrier N) (n : N) : ℕ := ((x.state n).map (·.recvEventCount)).getD 0

def addEvent (x : Barrier N) (n : N) (isWait : Bool) : Barrier N :=
  let state := insertFindBarrier (x.state n) isWait none
  let state := { state with recvEventCount := state.recvEventCount + 1 }
  { x with state := update x.state n (some state) }

/-- The message of a node that is ready. -/
def send (T : SpanningTree N) (x : Barrier N) (n : N) (isWait : Bool) : Barrier N :=
  if n = T.root then { x with down := fun m => x.down m ++ [isWait] }
  else { x with up := update x.up (T.parent n) (x.up (T.parent n) ++ [isWait]) }

variable [Fintype N]

variable (T : SpanningTree N) (x : Barrier N) (n : N)

variable (isWait : Bool) (i : ℕ)

/-- `Barrier::barrierUp` on a node. -/
def barrierUp : Barrier N :=
  let x := x.addEvent n isWait
  if x.events n = T.numChildren n + 1 then x.send T n isWait else x

/-- `Barrier::barrierDown` on a node. -/
def barrierDown : Barrier N :=
  let state := insertFindBarrier (x.state n) isWait none
  let actions := if isWait then [] else state.contAction.toList
  { x with
    state := update x.state n (some { state with released := true })
    releases := update x.releases n (x.releases n + 1)
    ran := update x.ran n (x.ran n ++ actions) }

/-- The first part of `waitBarrier` and `contBarrier`. -/
def begin : Barrier N :=
  let use := x.entered n + 1
  let state := insertFindBarrier (x.state n) isWait (if isWait then none else some use)
  { x with
    state := update x.state n (some state)
    waiting := update x.waiting n (x.waiting n || isWait)
    entered := update x.entered n use }

/-- `waitBarrier` up to its loop, or `contBarrier`. -/
def enter : Barrier N :=
  (x.begin n isWait).barrierUp T n isWait

/-- `Barrier::removeBarrier`, as `waitBarrier` returns. -/
def removeBarrier : Barrier N :=
  { x with
    state := update x.state n none
    waiting := update x.waiting n false
    removed := update x.removed n (x.removed n + 1) }

/-- The loop of `waitBarrier` ends. -/
def leave : Option (Barrier N) :=
  if x.waiting n ∧ (x.state n).any (·.released) then some (x.removeBarrier n) else none

def takeUp : Barrier N :=
  { x with
    up := update x.up n ((x.up n).eraseIdx i)
    ups := update x.ups n (x.ups n + 1) }

def recvUp : Option (Barrier N) :=
  (x.up n)[i]?.map fun isWait => (x.takeUp n i).barrierUp T n isWait

def takeDown : Barrier N :=
  { x with down := update x.down n ((x.down n).eraseIdx i) }

def recvDown : Option (Barrier N) :=
  (x.down n)[i]?.map fun isWait => (x.takeDown n i).barrierDown n isWait

end Barrier

/-- The entry of a barrier in `named_barrier_state_` or in `unnamed_barrier_state_`. -/
inductive BarrierKey
  | named (barrier : ℕ)
  | unnamed (barrier : ℕ)
deriving DecidableEq

structure BarrierSys (N : Type) where
  barrier : BarrierKey → Barrier N := fun _ => {}
  curUnnamedBarrier : N → ℕ := fun _ => 1

inductive BarrierAct (N : Type)
  | enter (n : N) (named : Option ℕ)
  | leave (n : N) (key : BarrierKey)
  | up (n : N) (key : BarrierKey) (i : ℕ)
  | down (n : N) (key : BarrierKey) (i : ℕ)

namespace BarrierSys

variable {N : Type} [Fintype N] [DecidableEq N]

variable (s : BarrierSys N)

def set (key : BarrierKey) (x : Barrier N) : BarrierSys N :=
  { s with barrier := update s.barrier key x }

/-- The barrier that a node enters. -/
def keyOf (n : N) : Option ℕ → BarrierKey
  | some barrier => .named barrier
  | none => .unnamed (s.curUnnamedBarrier n)

/-- An unnamed barrier takes the next number. -/
def advance (n : N) : Option ℕ → BarrierSys N
  | some _ => s
  | none =>
      { s with curUnnamedBarrier :=
          update s.curUnnamedBarrier n (s.curUnnamedBarrier n + 1) }

/-- The nodes enter the uses of a barrier by the same function: `wait key k` tells whether the use
`k` is entered by `waitBarrier`. -/
def step (T : SpanningTree N) (wait : BarrierKey → ℕ → Bool) (s : BarrierSys N) :
    BarrierAct N → Option (BarrierSys N)
  | .enter n named =>
      let key := s.keyOf n named
      let x := s.barrier key
      some ((s.advance n named).set key (x.enter T n (wait key (x.entered n + 1))))
  | .leave n key => ((s.barrier key).leave n).map (s.set key)
  | .up n key i => ((s.barrier key).recvUp T n i).map (s.set key)
  | .down n key i => ((s.barrier key).recvDown n i).map (s.set key)

end BarrierSys

open BarrierSys

variable {N : Type} [Fintype N] [DecidableEq N]

variable (T : SpanningTree N)

/-- A node is released from a use only after all nodes have entered it, and the continuations of
the uses it was released from have run, each once and in order.  A node gets at most one message
from a child for each of its uses.  When no message is in flight, a node is released from all uses
that all nodes have entered, and `waitBarrier` can then return. -/
structure Synchronizes (wait : ℕ → Bool) (x : Barrier N) : Prop where
  safe : ∀ n m, x.releases n ≤ x.entered m
  continued : ∀ n, x.ran n = (List.range' 1 (x.releases n)).filter (! wait ·)
  ends : ∀ n, x.ups n ≤ ∑ c ∈ T.children n, x.entered c
  arrived : (∀ n, x.up n = [] ∧ x.down n = []) →
    ∀ k, (∀ m, k ≤ x.entered m) → ∀ n, k ≤ x.releases n
  returns : ∀ n, x.waiting n = true → x.releases n = x.entered n → (x.leave n).isSome

/-- The node's state of the barrier is not the full one of the use before. -/
def Barrier.Free (x : Barrier N) (n : N) : Prop :=
  x.events n ≠ T.numChildren n + 1

/-- The condition on the steps of a named barrier: a node counts no arrival in the state of the use
before, and does not enter a use before it is released from the one before. -/
def Orderly : BarrierKey → BarrierSys N → BarrierAct N → Prop
  | .named b, s, .enter n (some b') => b' = b → (s.barrier (.named b)).Free T n ∧
      (s.barrier (.named b)).releases n = (s.barrier (.named b)).entered n
  | .named b, s, .up n key _ => key = .named b → (s.barrier (.named b)).Free T n
  | _, _, _ => True

instance (T : SpanningTree N) (x : Barrier N) (n : N) : Decidable (x.Free T n) :=
  inferInstanceAs (Decidable (x.events n ≠ T.numChildren n + 1))

instance (T : SpanningTree N) : (key : BarrierKey) → (s : BarrierSys N) → (a : BarrierAct N) →
    Decidable (Orderly T key s a)
  | .named _, _, .enter _ (some _) => inferInstanceAs (Decidable (_ → _ ∧ _))
  | .named _, _, .up .. => inferInstanceAs (Decidable (_ → _))
  | .named _, _, .enter _ none | .named _, _, .leave _ _ | .named _, _, .down _ _ _
  | .unnamed _, _, _ => isTrue trivial

/-! ## The invariant of a barrier -/

namespace Barrier

variable (T : SpanningTree N) (wait : ℕ → Bool)

/-- How often a node has sent its message: once for each state it has removed, and for a state that
is full. -/
def fires (x : Barrier N) (n : N) : ℕ :=
  x.removed n + if x.events n = T.numChildren n + 1 then 1 else 0

/-- The invariant of a barrier, while an arrival at the node `hand` is still to be counted.  A full
state takes one arrival of the node and one of each child, so a state that is removed has taken as
many as there are children, and one. -/
structure Inv (hand : Option N) (x : Barrier N) : Prop where
  count : ∀ n, x.entered n + x.ups n =
    x.removed n * (T.numChildren n + 1) + x.events n + if hand = some n then 1 else 0
  most : ∀ n, x.events n ≤ T.numChildren n + 1
  sent : ∀ n, x.ups n + (x.up n).length = ∑ c ∈ T.children n, x.fires T c
  told : ∀ n, x.releases n + (x.down n).length = x.fires T T.root
  parent : ∀ n, n ≠ T.root → x.fires T (T.parent n) ≤ x.fires T n
  own : ∀ n, x.fires T n ≤ x.entered n
  again : ∀ n, x.entered n ≤ x.releases n + 1
  gone : ∀ n, x.removed n ≤ x.releases n
  flag : ∀ n st, x.state n = some st → st.released = true →
    x.events n = T.numChildren n + 1 ∧ x.releases n = x.removed n + 1
  waits : ∀ n, x.waiting n = true → x.entered n = x.removed n + 1 ∧
    (x.releases n = x.entered n → (x.state n).any (·.released) = true)
  action : ∀ n, x.entered n = x.removed n + 1 → wait (x.entered n) = false →
    ∃ st, x.state n = some st ∧ st.contAction = some (x.entered n)
  upWait : ∀ n, ∀ w ∈ x.up n, w = wait (x.fires T T.root + 1)
  downWait : ∀ n, ∀ w ∈ x.down n, w = wait (x.fires T T.root)
  ran : ∀ n, x.ran n = (List.range' 1 (x.releases n)).filter (! wait ·)

variable {T wait} {hand : Option N} {x : Barrier N} {n m : N} {w : Bool}

/-- The root sends a message after all other nodes. -/
theorem Inv.root_le (hi : Inv T wait hand x) (n : N) : x.fires T T.root ≤ x.fires T n :=
  T.induction_down le_rfl (fun n hn hle => hle.trans (hi.parent n hn)) n

theorem Inv.entered_le (hi : Inv T wait hand x) (n : N) : x.entered n ≤ x.fires T T.root + 1 := by
  have hagain := hi.again n
  have htold := hi.told n
  omega

theorem Inv.fires_le (hi : Inv T wait hand x) (n : N) : x.fires T n ≤ x.fires T T.root + 1 :=
  (hi.own n).trans (hi.entered_le n)

theorem sum_fires_le (hi : Inv T wait hand x) (n : N) :
    ∑ c ∈ T.children n, x.fires T c ≤ T.numChildren n * (x.fires T T.root + 1) :=
  sum_le_card_nsmul _ _ _ fun c _ => hi.fires_le c

theorem fires_of_free (h : x.Free T n) : x.fires T n = x.removed n := by
  rw [fires, if_neg h, add_zero]

theorem fires_of_full (h : x.events n = T.numChildren n + 1) : x.fires T n = x.removed n + 1 := by
  rw [fires, if_pos h]

/-- An arrival completes a state: the node and its children have entered the next use, and their
messages have all come. -/
theorem Inv.complete (hi : Inv T wait (some n) x) (h : x.events n = T.numChildren n) :
    x.removed n = x.fires T T.root ∧ x.entered n = x.fires T T.root + 1 ∧ x.up n = [] ∧
      ∀ c ∈ T.children n, x.fires T c = x.fires T T.root + 1 := by
  have hfree : x.Free T n := by
    rw [Free]
    omega
  have hroot := hi.root_le n
  have hsum := sum_fires_le hi n
  have hsent := hi.sent n
  have hentered := hi.entered_le n
  have hcount := hi.count n
  rw [fires_of_free hfree] at hroot
  rw [h, if_pos rfl, mul_add, mul_one] at hcount
  generalize hR : x.fires T T.root = R at *
  have hremoved : x.removed n = R := by
    refine le_antisymm ?_ hroot
    by_contra hlt
    have hmul : (R + 1) * T.numChildren n ≤ x.removed n * T.numChildren n :=
      mul_le_mul_right _ (by omega)
    rw [mul_comm (R + 1)] at hmul
    omega
  rw [hremoved, mul_comm R] at hcount
  rw [mul_add, mul_one] at hsum
  refine ⟨hremoved, by omega, eq_nil_of_length_eq_zero (by omega), ?_⟩
  have hall : ∑ c ∈ T.children n, x.fires T c = ∑ _c ∈ T.children n, (R + 1) := by
    rw [sum_const_nat (m := R + 1) fun _ _ => rfl, ← numChildren, mul_add,
      mul_one]
    omega
  exact (sum_eq_sum_iff_of_le fun c _ => hR ▸ hi.fires_le c).mp hall

/-- When the root is about to send a message for the next use, no other message is in flight. -/
theorem Inv.silent (hi : Inv T wait (some T.root) x) (h : x.events T.root = T.numChildren T.root)
    (m : N) : x.up m = [] ∧ x.down m = [] := by
  obtain ⟨hremoved, hentered, hup, hchildren⟩ := hi.complete h
  have hall : ∀ m, m ≠ T.root → x.fires T m = x.fires T T.root + 1 := by
    refine T.induction ?_
    intro m hm hparent
    refine le_antisymm (hi.fires_le m) ?_
    by_cases hroot : T.parent m = T.root
    · exact (hchildren m (T.mem_children.mpr ⟨hm, hroot⟩)).ge
    · exact (hparent hroot).ge.trans (hi.parent m hm)
  have hsum : ∑ c ∈ T.children m, x.fires T c = T.numChildren m * (x.fires T T.root + 1) :=
    sum_const_nat fun c hc => hall c (T.mem_children.mp hc).1
  have htold := hi.told m
  have hagain := hi.again m
  by_cases hm : m = T.root
  · subst hm
    exact ⟨hup, eq_nil_of_length_eq_zero (by omega)⟩
  · have hfires := hall m hm
    have hgone := hi.gone m
    have hcount := hi.count m
    have hsent := hi.sent m
    -- the state of the node is full, and has taken the message of every child
    have hfull : x.events m = T.numChildren m + 1 := by
      by_contra hfree
      rw [fires_of_free hfree] at hfires
      omega
    rw [fires_of_full hfull, add_right_cancel_iff] at hfires
    rw [if_neg (fun heq => hm (Option.some.inj heq).symm), hfull, hfires, mul_add, mul_one,
      mul_comm] at hcount
    rw [hsum, mul_add, mul_one] at hsent
    exact ⟨eq_nil_of_length_eq_zero (by omega), eq_nil_of_length_eq_zero (by omega)⟩

omit [Fintype N] in
theorem events_addEvent (x : Barrier N) (n : N) (w : Bool) (m : N) :
    (x.addEvent n w).events m = x.events m + if n = m then 1 else 0 := by
  by_cases h : n = m
  · subst h
    cases hst : x.state n <;> simp [events, addEvent, insertFindBarrier, hst]
  · simp [events, addEvent, update_of_ne (Ne.symm h), h]

omit [Fintype N] in
theorem events_send (x : Barrier N) (n : N) (w : Bool) (m : N) :
    (x.send T n w).events m = x.events m := by
  rw [send]
  split <;> rfl

section Send

variable (T) (x) (n) (w)

omit [Fintype N] in
theorem exists_send_eq : ∃ up down, x.send T n w = { x with up := up, down := down } := by
  rw [send]
  split <;> exact ⟨_, _, rfl⟩

omit [Fintype N] in
theorem up_send (m : N) : (x.send T n w).up m =
    x.up m ++ if n ≠ T.root ∧ T.parent n = m then [w] else [] := by
  rw [send]
  by_cases hroot : n = T.root
  · simp [hroot]
  · by_cases hm : T.parent n = m
    · subst hm
      simp [hroot]
    · simp [hroot, hm, update_of_ne (Ne.symm hm)]

omit [Fintype N] in
theorem down_send (m : N) : (x.send T n w).down m = x.down m ++ if n = T.root then [w] else [] := by
  rw [send]
  split <;> simp

end Send

theorem barrierUp_of_eq (h : x.events n = T.numChildren n) :
    x.barrierUp T n w = (x.addEvent n w).send T n w := by
  rw [barrierUp, if_pos]
  simp [events_addEvent, h]

theorem barrierUp_of_ne (h : x.events n ≠ T.numChildren n) :
    x.barrierUp T n w = x.addEvent n w := by
  rw [barrierUp, if_neg]
  simpa [events_addEvent] using h

omit [Fintype N] in
theorem state_addEvent (x : Barrier N) (n : N) (w : Bool) :
    ∃ st, (x.addEvent n w).state n = some st ∧ st.released = (x.state n).any (·.released) ∧
      ∀ st₀, x.state n = some st₀ → st.contAction = st₀.contAction := by
  refine ⟨_, update_self .., ?_⟩
  cases x.state n <;> simp [insertFindBarrier]

omit [Fintype N] in
theorem state_addEvent_of_ne (h : m ≠ n) : (x.addEvent n w).state m = x.state m :=
  update_of_ne h ..

theorem Inv.not_released (hi : Inv T wait hand x) (hfree : x.Free T n) :
    (x.state n).any (·.released) = false := by
  cases hst : x.state n with
  | none => rfl
  | some st =>
    by_contra hrel
    exact hfree (hi.flag n st hst (by simpa using hrel)).1

/-! A step that changes one node only. -/

/-- Nothing has changed on a node. -/
def Same (x' x : Barrier N) (m : N) : Prop :=
  x'.state m = x.state m ∧ x'.waiting m = x.waiting m ∧ x'.entered m = x.entered m ∧
  x'.removed m = x.removed m ∧ x'.releases m = x.releases m ∧ x'.ups m = x.ups m ∧
  x'.up m = x.up m ∧ x'.down m = x.down m ∧ x'.ran m = x.ran m

/-- What the invariant says of one node. -/
structure InvAt (T : SpanningTree N) (wait : ℕ → Bool) (hand : Option N) (x : Barrier N) (n : N) :
    Prop where
  count : x.entered n + x.ups n =
    x.removed n * (T.numChildren n + 1) + x.events n + if hand = some n then 1 else 0
  most : x.events n ≤ T.numChildren n + 1
  sent : x.ups n + (x.up n).length = ∑ c ∈ T.children n, x.fires T c
  told : x.releases n + (x.down n).length = x.fires T T.root
  own : x.fires T n ≤ x.entered n
  again : x.entered n ≤ x.releases n + 1
  gone : x.removed n ≤ x.releases n
  flag : ∀ st, x.state n = some st → st.released = true →
    x.events n = T.numChildren n + 1 ∧ x.releases n = x.removed n + 1
  waits : x.waiting n = true → x.entered n = x.removed n + 1 ∧
    (x.releases n = x.entered n → (x.state n).any (·.released) = true)
  action : x.entered n = x.removed n + 1 → wait (x.entered n) = false →
    ∃ st, x.state n = some st ∧ st.contAction = some (x.entered n)
  upWait : ∀ w ∈ x.up n, w = wait (x.fires T T.root + 1)
  downWait : ∀ w ∈ x.down n, w = wait (x.fires T T.root)
  ran : x.ran n = (List.range' 1 (x.releases n)).filter (! wait ·)

theorem Inv.at (hi : Inv T wait hand x) (n : N) : InvAt T wait hand x n :=
  ⟨hi.count n, hi.most n, hi.sent n, hi.told n, hi.own n, hi.again n, hi.gone n, hi.flag n,
    hi.waits n, hi.action n, hi.upWait n, hi.downWait n, hi.ran n⟩

/-- If every node has sent as many messages as before, only the node that has changed is of
interest. -/
theorem Inv.of_node {hand' : Option N} {x' : Barrier N} (hi : Inv T wait hand x)
    (hfires : x'.fires T = x.fires T) (hsame : ∀ m, m ≠ n → x'.Same x m)
    (hhand : ∀ m, m ≠ n → (hand' = some m ↔ hand = some m)) (hn : InvAt T wait hand' x' n) :
    Inv T wait hand' x' := by
  have hat : ∀ m, InvAt T wait hand' x' m := by
    intro m
    by_cases h : m = n
    · exact h ▸ hn
    obtain ⟨hstate, hwaiting, hentered, hremoved, hreleases, hups, hup, hdown, hran⟩ := hsame m h
    have hevents : x'.events m = x.events m := by rw [events, hstate, events]
    constructor
    case count => simpa only [hentered, hups, hremoved, hevents, hhand m h] using hi.count m
    case most => simpa only [hevents] using hi.most m
    case sent => simpa only [hups, hup, hfires] using hi.sent m
    case told => simpa only [hreleases, hdown, hfires] using hi.told m
    case own => simpa only [hfires, hentered] using hi.own m
    case again => simpa only [hentered, hreleases] using hi.again m
    case gone => simpa only [hremoved, hreleases] using hi.gone m
    case flag => simpa only [hstate, hevents, hreleases, hremoved] using hi.flag m
    case waits => simpa only [hwaiting, hentered, hremoved, hreleases, hstate] using hi.waits m
    case action => simpa only [hentered, hremoved, hstate] using hi.action m
    case upWait => simpa only [hup, hfires] using hi.upWait m
    case downWait => simpa only [hdown, hfires] using hi.downWait m
    case ran => simpa only [hran, hreleases] using hi.ran m
  exact ⟨fun m => (hat m).count, fun m => (hat m).most, fun m => (hat m).sent,
    fun m => (hat m).told, fun m hm => by rw [hfires]; exact hi.parent m hm,
    fun m => (hat m).own, fun m => (hat m).again,
    fun m => (hat m).gone, fun m => (hat m).flag, fun m => (hat m).waits, fun m => (hat m).action,
    fun m => (hat m).upWait, fun m => (hat m).downWait, fun m => (hat m).ran⟩

section

variable (hi : Inv T wait (some n) x)
include hi

/-- An arrival is counted, and messages may be sent. -/
theorem Inv.counted {x' : Barrier N} (hfree : x.Free T n)
    (hx' : ∃ up down, x' = { x.addEvent n w with up := up, down := down })
    (hsent : ∀ m, x.ups m + (x'.up m).length = ∑ c ∈ T.children m, x'.fires T c)
    (htold : ∀ m, x.releases m + (x'.down m).length = x'.fires T T.root)
    (hparent : ∀ m, m ≠ T.root → x'.fires T (T.parent m) ≤ x'.fires T m)
    (hown : ∀ m, x'.fires T m ≤ x.entered m)
    (hupWait : ∀ m, ∀ w ∈ x'.up m, w = wait (x'.fires T T.root + 1))
    (hdownWait : ∀ m, ∀ w ∈ x'.down m, w = wait (x'.fires T T.root)) : Inv T wait none x' := by
  obtain ⟨st', hst', hreleased, haction⟩ := state_addEvent x n w
  obtain ⟨up, down, hx'⟩ := hx'
  have hevents : ∀ m, x'.events m = x.events m + if n = m then 1 else 0 :=
    hx' ▸ events_addEvent x n w
  rw [hi.not_released hfree] at hreleased
  subst hx'
  refine ⟨?count, ?most, hsent, htold, hparent, hown, hi.again, hi.gone, ?flag, ?waits, ?action,
    hupWait, hdownWait, hi.ran⟩
  case count =>
    intro m
    refine (hi.count m).trans ?_
    rw [hevents]
    simp [addEvent, add_assoc]
  case most =>
    intro m
    have hmost := hi.most m
    rw [hevents]
    split
    case isTrue h =>
      subst h
      rw [Free] at hfree
      omega
    case isFalse => exact hmost
  case flag =>
    intro m st hst hrel
    by_cases h : m = n
    · subst h
      rw [Option.some.inj (hst.symm.trans hst'), hreleased] at hrel
      simp at hrel
    · rw [hevents, if_neg (Ne.symm h)]
      exact hi.flag m st ((state_addEvent_of_ne h).symm.trans hst) hrel
  case waits =>
    intro m hm
    obtain ⟨huse, hrel⟩ := hi.waits m hm
    refine ⟨huse, ?_⟩
    intro heq
    by_cases h : m = n
    · subst h
      exact absurd ((hi.not_released hfree).symm.trans (hrel heq)) Bool.false_ne_true
    · exact (congrArg _ (state_addEvent_of_ne h)).trans (hrel heq)
  case action =>
    intro m huse hcont
    obtain ⟨st, hst, hact⟩ := hi.action m huse hcont
    by_cases h : m = n
    · subst h
      exact ⟨st', hst', (haction st hst).trans hact⟩
    · exact ⟨st, (state_addEvent_of_ne h).trans hst, hact⟩

theorem Inv.counted_of_ne (hfree : x.Free T n) (h : x.events n ≠ T.numChildren n) (w : Bool) :
    Inv T wait none (x.addEvent n w) := by
  have hfires : ∀ m, (x.addEvent n w).fires T m = x.fires T m := by
    intro m
    rw [fires, fires, events_addEvent]
    by_cases hm : n = m
    · subst hm
      rw [Free] at hfree
      rw [if_pos rfl, if_neg (by omega), if_neg hfree]
      rfl
    · rw [if_neg hm, add_zero]
      rfl
  refine hi.counted hfree ⟨_, _, rfl⟩ ?_ ?_ ?_ ?_ ?_ ?_
  · intro m
    rw [sum_congr rfl fun c _ => hfires c]
    exact hi.sent m
  · intro m
    rw [hfires]
    exact hi.told m
  · intro m hm
    rw [hfires, hfires]
    exact hi.parent m hm
  · intro m
    rw [hfires]
    exact hi.own m
  · rw [hfires]
    exact hi.upWait
  · rw [hfires]
    exact hi.downWait

theorem Inv.counted_of_eq (h : x.events n = T.numChildren n)
    (hw : w = wait (x.fires T T.root + 1)) : Inv T wait none ((x.addEvent n w).send T n w) := by
  have hfree : x.Free T n := by
    rw [Free]
    omega
  obtain ⟨hremoved, hentered, hup, hchildren⟩ := hi.complete h
  have hfires : ∀ m, ((x.addEvent n w).send T n w).fires T m =
      x.fires T m + if n = m then 1 else 0 := by
    intro m
    have hbook : ((x.addEvent n w).send T n w).removed m = x.removed m := by
      rw [send]
      split <;> rfl
    rw [fires, fires, hbook, events_send, events_addEvent]
    by_cases hm : n = m
    · subst hm
      rw [if_pos rfl, if_neg hfree, if_pos (by omega)]
    · rw [if_neg hm]
      rfl
  have hself : x.fires T n = x.fires T T.root := (fires_of_free hfree).trans hremoved
  have hparent : ∀ m, m ≠ T.root → ((x.addEvent n w).send T n w).fires T (T.parent m) ≤
      ((x.addEvent n w).send T n w).fires T m := by
    intro m hm
    have hp := hi.parent m hm
    rw [hfires, hfires]
    by_cases hn : n = T.parent m
    · -- the children of the node have sent their messages for the use before it
      have hchild := hchildren m (T.mem_children.mpr ⟨hm, hn.symm⟩)
      rw [if_pos hn, ← hn, hself, hchild]
      exact Nat.le_add_right ..
    · rw [if_neg hn]
      omega
  have hown : ∀ m, ((x.addEvent n w).send T n w).fires T m ≤ x.entered m := by
    intro m
    have hm := hi.own m
    rw [hfires]
    by_cases hn : n = m
    · subst hn
      rw [if_pos rfl, hself, hentered]
    · rw [if_neg hn]
      exact hm
  have hroot : ((x.addEvent n w).send T n w).fires T T.root =
      x.fires T T.root + if n = T.root then 1 else 0 := hfires T.root
  refine hi.counted hfree (exists_send_eq ..) ?_ ?_ hparent hown ?_ ?_
  · intro m
    have hsent := hi.sent m
    have hsum : ∑ c ∈ T.children m, (if n = c then 1 else 0) =
        if n ≠ T.root ∧ T.parent n = m then 1 else 0 := by simp
    rw [sum_congr rfl fun c _ => hfires c, sum_add_distrib, hsum, ← hsent, up_send,
      length_append, add_assoc]
    congr 2
    split <;> rfl
  · intro m
    rw [hroot, ← hi.told m, down_send, length_append, add_assoc]
    congr 2
    split <;> rfl
  · intro m w' hw'
    rw [up_send] at hw'
    by_cases hn : n = T.root
    · subst hn
      simp [show (x.addEvent T.root w).up m = [] from (hi.silent h m).1] at hw'
    · rw [hroot, if_neg hn, add_zero]
      rcases mem_append.mp hw' with hold | hnew
      · exact hi.upWait m w' hold
      · split at hnew
        · rw [mem_singleton.mp hnew, hw]
        · simp at hnew
  · intro m w' hw'
    rw [down_send] at hw'
    by_cases hn : n = T.root
    · subst hn
      rw [if_pos rfl, show (x.addEvent T.root w).down m = [] from (hi.silent h m).2, nil_append,
        mem_singleton] at hw'
      rw [hroot, if_pos rfl, hw', hw]
    · rw [if_neg hn, append_nil] at hw'
      rw [hroot, if_neg hn]
      exact hi.downWait m w' hw'

/-- An arrival on a node whose state is not full. -/
theorem Inv.arrive (hfree : x.Free T n) (hw : w = wait (x.fires T T.root + 1)) :
    Inv T wait none (x.barrierUp T n w) := by
  by_cases h : x.events n = T.numChildren n
  · rw [barrierUp_of_eq h]
    exact hi.counted_of_eq h hw
  · rw [barrierUp_of_ne h]
    exact hi.counted_of_ne hfree h w

end

/-- A node that may enter its next use has been released from, and has removed, all uses for which
the root has sent messages. -/
theorem Inv.settled (hi : Inv T wait none x) (hfree : x.Free T n)
    (hrel : x.releases n = x.entered n) :
    x.removed n = x.entered n ∧ x.fires T T.root = x.entered n := by
  have hroot := hi.root_le n
  have hgone := hi.gone n
  have htold := hi.told n
  rw [fires_of_free hfree] at hroot
  omega

omit [Fintype N] in
theorem events_begin (x : Barrier N) (n : N) (w : Bool) (m : N) :
    (x.begin n w).events m = x.events m := by
  by_cases h : m = n
  · subst h
    cases hst : x.state m <;> simp [events, begin, insertFindBarrier, hst]
  · simp [events, begin, update_of_ne h]

omit [Fintype N] in
theorem state_begin (x : Barrier N) (n : N) (w : Bool) :
    ∃ st, (x.begin n w).state n = some st ∧ st.released = (x.state n).any (·.released) ∧
      (w = false → st.contAction = some (x.entered n + 1)) := by
  refine ⟨_, update_self .., ?_⟩
  cases x.state n <;> cases w <;> simp [insertFindBarrier]

theorem Inv.begin (hi : Inv T wait none x) (hfree : x.Free T n)
    (hrel : x.releases n = x.entered n) :
    Inv T wait (some n) (x.begin n (wait (x.entered n + 1))) := by
  obtain ⟨hremoved, hroot⟩ := hi.settled hfree hrel
  obtain ⟨st', hst', hreleased, haction⟩ := state_begin x n (wait (x.entered n + 1))
  have hnot := hi.not_released hfree
  generalize hx' : x.begin n (wait (x.entered n + 1)) = x' at hst'
  have hevents : ∀ m, x'.events m = x.events m := fun m => hx' ▸ events_begin ..
  have hself : x'.entered n = x.entered n + 1 := hx' ▸ update_self ..
  subst hx'
  have hfires : (x.begin n (wait (x.entered n + 1))).fires T = x.fires T := by
    funext m
    rw [fires, hevents]
    rfl
  refine hi.of_node (n := n) hfires (fun m h => ⟨update_of_ne h .., update_of_ne h ..,
    update_of_ne h .., rfl, rfl, rfl, rfl, rfl, rfl⟩) (fun m h => by simp [Ne.symm h]) ?_
  refine { hi.at n with
    count := ?count, most := ?most, sent := ?sent, told := ?told, own := ?own, again := ?again
    flag := ?flag, waits := ?waits, action := ?action, upWait := ?upWait, downWait := ?downWait }
  case count =>
    rw [hself, hevents, if_pos rfl, add_right_comm]
    exact congrArg (· + 1) (hi.count n)
  case most => exact hevents n ▸ hi.most n
  case sent => exact hfires ▸ hi.sent n
  case told => exact hfires ▸ hi.told n
  case own =>
    rw [hfires, hself]
    exact (hi.own n).trans (Nat.le_succ _)
  case again => exact (hself.trans (congrArg (· + 1) hrel.symm)).le
  case flag =>
    intro st hst hr
    rw [hst', Option.some.injEq] at hst
    rw [← hst, hreleased, hnot] at hr
    simp at hr
  case waits =>
    rw [hself]
    exact fun _ => ⟨congrArg (· + 1) hremoved.symm, fun heq =>
      absurd (hrel.symm.trans heq) (Nat.ne_of_lt (Nat.lt_succ_self _))⟩
  case action =>
    rw [hself]
    exact fun _ hcont => ⟨st', hst', haction hcont⟩
  case upWait => exact hfires ▸ hi.upWait n
  case downWait => exact hfires ▸ hi.downWait n

theorem Inv.enter (hi : Inv T wait none x) (hfree : x.Free T n)
    (hrel : x.releases n = x.entered n) :
    Inv T wait none (x.enter T n (wait (x.entered n + 1))) := by
  refine (hi.begin hfree hrel).arrive ?_ ?_
  · rwa [Free, events_begin]
  · rw [fires, events_begin]
    exact congrArg (fun k => wait (k + 1)) (hi.settled hfree hrel).2.symm

theorem Inv.takeUp {i : ℕ} (hi : Inv T wait none x) (hw : (x.up n)[i]? = some w) :
    Inv T wait (some n) (x.takeUp n i) := by
  have hlt : i < (x.up n).length := (List.getElem?_eq_some_iff.mp hw).1
  have hself : (x.takeUp n i).ups n = x.ups n + 1 := update_self ..
  have hup : (x.takeUp n i).up n = (x.up n).eraseIdx i := update_self ..
  refine hi.of_node (n := n) rfl (fun m h => ⟨rfl, rfl, rfl, rfl, rfl, update_of_ne h ..,
    update_of_ne h .., rfl, rfl⟩) (fun m h => by simp [Ne.symm h]) ?_
  refine { hi.at n with count := ?_, sent := ?_, upWait := ?_ }
  · rw [hself, if_pos rfl]
    exact congrArg (· + 1) (hi.count n)
  · have hsent : _ = ∑ c ∈ T.children n, (x.takeUp n i).fires T c := hi.sent n
    rw [hself, hup, length_eraseIdx_of_lt hlt, ← hsent]
    omega
  · rw [hup]
    exact fun w' hw' => hi.upWait n w' (mem_of_mem_eraseIdx hw')

theorem Inv.recvUp {x' : Barrier N} {i : ℕ} (hi : Inv T wait none x) (hfree : x.Free T n)
    (h : x.recvUp T n i = some x') : Inv T wait none x' := by
  obtain ⟨w, hw, rfl⟩ := map_eq_some_iff.mp h
  exact (hi.takeUp hw).arrive hfree (hi.upWait n w (mem_of_getElem? hw))

/-- A node to which `barrierDown` is on its way has sent its message for the use, and has its
state. -/
theorem Inv.told_next (hi : Inv T wait hand x) (h : x.down n ≠ []) :
    x.events n = T.numChildren n + 1 ∧ x.entered n = x.releases n + 1 ∧
      x.removed n = x.releases n ∧ x.fires T T.root = x.releases n + 1 := by
  have hlen := length_pos_of_ne_nil h
  have htold := hi.told n
  have hroot := hi.root_le n
  have hown := hi.own n
  have hagain := hi.again n
  have hgone := hi.gone n
  have hfull : x.events n = T.numChildren n + 1 := by
    by_contra hfree
    rw [fires_of_free hfree] at hroot
    omega
  rw [fires_of_full hfull] at hroot hown
  omega

theorem Inv.recvDown {x' : Barrier N} {i : ℕ} (hi : Inv T wait none x)
    (h : x.recvDown n i = some x') : Inv T wait none x' := by
  obtain ⟨w, hw, hx'⟩ := map_eq_some_iff.mp h
  have hmem := mem_of_getElem? hw
  have hlt : i < (x.down n).length := (List.getElem?_eq_some_iff.mp hw).1
  obtain ⟨hfull, hentered, hremoved, hroot⟩ := hi.told_next (ne_nil_of_mem hmem)
  obtain ⟨st, hst⟩ : ∃ st, x.state n = some st := by
    cases hst : x.state n with
    | none => simp [events, hst] at hfull
    | some st => exact ⟨st, rfl⟩
  have hst' : x'.state n = some { st with released := true } := by
    rw [← hx']
    refine (update_self ..).trans ?_
    simp [takeDown, insertFindBarrier, hst]
  have hreleases : x'.releases n = x.releases n + 1 := hx' ▸ update_self ..
  have hdown : x'.down n = (x.down n).eraseIdx i := hx' ▸ update_self ..
  have hran : x'.ran n = x.ran n ++ if w then [] else st.contAction.toList := by
    rw [← hx']
    refine (update_self ..).trans ?_
    simp [takeDown, insertFindBarrier, hst]
  have hsame : ∀ m, m ≠ n → x'.Same x m := fun m h => hx' ▸ ⟨update_of_ne h .., rfl, rfl, rfl,
    update_of_ne h .., rfl, rfl, update_of_ne h .., update_of_ne h ..⟩
  have hevents : ∀ m, x'.events m = x.events m := by
    intro m
    by_cases h : m = n
    · subst h
      rw [events, hst', events, hst]
      rfl
    · rw [events, (hsame m h).1, events]
  have hfires : x'.fires T = x.fires T := by
    funext m
    rw [fires, hevents, ← hx']
    rfl
  refine hi.of_node hfires hsame (fun _ _ => Iff.rfl) ?_
  subst hx'
  constructor
  case count =>
    rw [hevents]
    exact hi.count n
  case most => exact hevents n ▸ hi.most n
  case sent => exact hfires ▸ hi.sent n
  case told =>
    have htold := hi.told n
    rw [hfires, hreleases, hdown, length_eraseIdx_of_lt hlt]
    omega
  case own => exact hfires ▸ hi.own n
  case again =>
    rw [hreleases]
    exact (hi.again n).trans (Nat.le_succ _)
  case gone =>
    rw [hreleases]
    exact (hi.gone n).trans (Nat.le_succ _)
  case flag =>
    rw [hevents, hreleases]
    exact fun _ _ _ => ⟨hfull, congrArg (· + 1) hremoved.symm⟩
  case waits =>
    rw [hst']
    exact fun hm => ⟨(hi.waits n hm).1, fun _ => rfl⟩
  case action =>
    intro huse hcont
    obtain ⟨st₁, hst₁, hact⟩ := hi.action n huse hcont
    rw [hst, Option.some.injEq] at hst₁
    exact ⟨_, hst', hst₁ ▸ hact⟩
  case upWait => exact hfires ▸ hi.upWait n
  case downWait =>
    rw [hdown, hfires]
    exact fun w' hw' => hi.downWait n w' (mem_of_mem_eraseIdx hw')
  case ran =>
    -- the message is that of the use that the node has entered last
    have hkind : w = wait (x.releases n + 1) := hroot ▸ hi.downWait n w hmem
    rw [hran, hreleases, List.range'_concat, one_mul, add_comm 1, filter_append,
      ← hi.ran n, hkind]
    cases hk : wait (x.releases n + 1) with
    | true => simp [hk]
    | false =>
      obtain ⟨st₁, hst₁, hact⟩ := hi.action n (by omega) (hentered ▸ hk)
      rw [hst, Option.some.injEq] at hst₁
      subst hst₁
      simp [hk, hact, hentered]

theorem Inv.leave {x' : Barrier N} (hi : Inv T wait none x) (h : x.leave n = some x') :
    Inv T wait none x' := by
  obtain ⟨⟨hwait, hrel⟩, hx'⟩ := of_guard h
  obtain ⟨hfull, hreleases⟩ :
      x.events n = T.numChildren n + 1 ∧ x.releases n = x.removed n + 1 := by
    cases hst : x.state n with
    | none => simp [hst] at hrel
    | some st => exact hi.flag n st hst (by simpa [hst] using hrel)
  have hst' : x'.state n = none := hx' ▸ update_self ..
  have hself : x'.removed n = x.removed n + 1 := hx' ▸ update_self ..
  have hwaiting : x'.waiting n = false := hx' ▸ update_self ..
  have hsame : ∀ m, m ≠ n → x'.Same x m := fun m h => hx' ▸ ⟨update_of_ne h .., update_of_ne h ..,
    rfl, update_of_ne h .., rfl, rfl, rfl, rfl, rfl⟩
  have hempty : x'.events n = 0 := by rw [events, hst']; rfl
  have hfires : x'.fires T = x.fires T := by
    funext m
    by_cases h : m = n
    · subst h
      rw [fires_of_full hfull, fires, hempty, hself, if_neg (succ_ne_zero _).symm, add_zero]
    · obtain ⟨hstate, -, -, hremoved, -⟩ := hsame m h
      rw [fires, events, hstate, hremoved, fires, events]
  refine hi.of_node hfires hsame (fun _ _ => Iff.rfl) ?_
  subst hx'
  refine { hi.at n with
    count := ?count, most := ?most, sent := ?sent, told := ?told, own := ?own, gone := ?gone
    flag := ?flag, waits := ?waits, action := ?action, upWait := ?upWait, downWait := ?downWait }
  case count =>
    refine (hi.count n).trans ?_
    rw [hself, hempty, hfull, add_mul, one_mul]
    rfl
  case most => exact hempty ▸ zero_le _
  case sent => exact hfires ▸ hi.sent n
  case told => exact hfires ▸ hi.told n
  case own => exact hfires ▸ hi.own n
  case gone => exact (hself.trans hreleases.symm).le
  case flag => simp [hst']
  case waits => simp [hwaiting]
  case action =>
    have huse := (hi.waits n hwait).1
    intro hm
    rw [hself] at hm
    exact absurd (huse.symm.trans hm) (Nat.ne_of_lt (Nat.lt_succ_self _))
  case upWait => exact hfires ▸ hi.upWait n
  case downWait => exact hfires ▸ hi.downWait n

theorem init_inv (T : SpanningTree N) (wait : ℕ → Bool) : Inv T wait none ({} : Barrier N) := by
  have hevents : ∀ n, ({} : Barrier N).events n = 0 := fun _ => rfl
  have hfires : ∀ n, ({} : Barrier N).fires T n = 0 := by simp [fires, hevents]
  constructor <;> simp [hfires, hevents]

/-- When all nodes have entered the next use and no message is in flight, all nodes have sent their
messages for it. -/
theorem Inv.fires_of_quiet (hi : Inv T wait none x) (hup : ∀ m, x.up m = [])
    (htold : ∀ m, x.releases m = x.fires T T.root)
    (hentered : ∀ m, x.fires T T.root < x.entered m) (n : N) :
    x.fires T n = x.fires T T.root + 1 := by
  refine T.induction_up ?_ n
  intro n hchildren
  have hsum : ∑ c ∈ T.children n, x.fires T c = T.numChildren n * (x.fires T T.root + 1) :=
    sum_const_nat hchildren
  have hsent := hi.sent n
  have hcount := hi.count n
  have hmost := hi.most n
  have hgone := hi.gone n
  have hnext := hi.entered_le n
  have hlt := hentered n
  rw [hup n, length_nil, add_zero, hsum] at hsent
  rw [htold n] at hgone
  generalize x.fires T T.root = R at *
  -- the state that is left has taken all arrivals that the removed ones have not
  have henter : x.entered n = R + 1 := by omega
  have hremoved : x.removed n = R := by
    refine le_antisymm hgone ?_
    by_contra hless
    have hmul : (x.removed n + 1) * (T.numChildren n + 1) ≤ R * (T.numChildren n + 1) :=
      mul_le_mul_right _ (by omega)
    rw [hsent, henter] at hcount
    simp only [add_mul, mul_add, one_mul, mul_one, reduceCtorEq, if_false] at *
    rw [mul_comm R] at hmul
    omega
  have hfull : x.events n = T.numChildren n + 1 := by
    rw [hsent, henter, hremoved] at hcount
    simp only [mul_add, mul_one, reduceCtorEq, if_false] at hcount
    rw [mul_comm R] at hcount
    omega
  rw [fires_of_full hfull, hremoved]

theorem Inv.synchronizes (hi : Inv T wait none x) : Synchronizes T wait x := by
  constructor
  case safe =>
    intro n m
    have htold := hi.told n
    have hroot := hi.root_le m
    have hown := hi.own m
    omega
  case continued => exact hi.ran
  case ends =>
    intro n
    have hsent := hi.sent n
    have hsum : ∑ c ∈ T.children n, x.fires T c ≤ ∑ c ∈ T.children n, x.entered c :=
      sum_le_sum fun c _ => hi.own c
    omega
  case arrived =>
    intro hquiet k hk n
    have htold : ∀ m, x.releases m = x.fires T T.root := by
      intro m
      have htold := hi.told m
      rwa [(hquiet m).2, length_nil, add_zero] at htold
    rw [htold n]
    by_contra hlt
    have hall := hi.fires_of_quiet (fun m => (hquiet m).1) htold (fun m => (by have := hk m; omega))
      T.root
    omega
  case returns =>
    intro n hn heq
    have hrel := (hi.waits n hn).2 heq
    simp [Barrier.leave, hn, hrel]

/-- The number of arrivals of a barrier that each node enters once. -/
theorem Inv.free_of_fresh (hi : Inv T wait none x) (h : x.entered n = 0) :
    x.Free T n ∧ x.releases n = x.entered n := by
  have hown := hi.own n
  have htold := hi.told n
  have hroot := hi.root_le n
  refine ⟨?_, by omega⟩
  intro hfull
  rw [fires_of_full hfull] at hown
  omega

theorem Inv.free_of_once (hi : Inv T wait none x) (h : ∀ m, x.entered m ≤ 1) (hup : x.up n ≠ []) :
    x.Free T n := by
  intro hfull
  have hlen := length_pos_of_ne_nil hup
  have hsent := hi.sent n
  have hown := hi.own n
  have hentered := h n
  have hcount := hi.count n
  have hsum : ∑ c ∈ T.children n, x.fires T c ≤ T.numChildren n * 1 :=
    sum_le_card_nsmul _ _ _ fun c _ => (hi.own c).trans (h c)
  rw [fires_of_full hfull] at hown
  have hremoved : x.removed n = 0 := by omega
  rw [hremoved, hfull] at hcount
  simp at hcount
  omega

end Barrier

/-! ## All barriers -/

variable {T : SpanningTree N} {wait : BarrierKey → ℕ → Bool} {s s' : BarrierSys N}
    {key : BarrierKey}

/-- Every node enters an unnamed barrier at most once, by its number. -/
def Numbered (s : BarrierSys N) : Prop :=
  ∀ n i, (s.barrier (.unnamed i)).entered n ≤ 1 ∧
    (s.curUnnamedBarrier n ≤ i → (s.barrier (.unnamed i)).entered n = 0)

omit [Fintype N] [DecidableEq N] in
theorem barrier_set (s : BarrierSys N) (key : BarrierKey) (x : Barrier N) :
    (s.set key x).barrier key = x := update_self ..

omit [Fintype N] [DecidableEq N] in
theorem barrier_set_of_ne {key' : BarrierKey} {x : Barrier N} (h : key' ≠ key) :
    (s.set key x).barrier key' = s.barrier key' := update_of_ne h ..

omit [Fintype N] in
theorem barrier_advance (s : BarrierSys N) (n : N) (named : Option ℕ) :
    (s.advance n named).barrier = s.barrier := by
  cases named <;> rfl

theorem entered_barrierUp (x : Barrier N) (n : N) (w : Bool) :
    (x.barrierUp T n w).entered = x.entered := by
  by_cases h : x.events n = T.numChildren n
  · obtain ⟨up, down, hsend⟩ := Barrier.exists_send_eq T (x.addEvent n w) n w
    rw [Barrier.barrierUp_of_eq h, hsend]
    rfl
  · rw [Barrier.barrierUp_of_ne h]
    rfl

theorem entered_enter (x : Barrier N) (n : N) (w : Bool) :
    (x.enter T n w).entered = update x.entered n (x.entered n + 1) := by
  rw [Barrier.enter, entered_barrierUp]
  rfl

omit [Fintype N] [DecidableEq N] in
/-- The messages and the end of a wait do not count as entries. -/
theorem Numbered.set (hn : Numbered s) {x : Barrier N} (h : x.entered = (s.barrier key).entered) :
    Numbered (s.set key x) := by
  intro n i
  by_cases hkey : BarrierKey.unnamed i = key
  · subst hkey
    rw [barrier_set, h]
    exact hn n i
  · rw [barrier_set_of_ne hkey]
    exact hn n i

theorem Numbered.enter (hn : Numbered s) (n : N) (named : Option ℕ) (w : Bool) :
    Numbered ((s.advance n named).set (s.keyOf n named)
      ((s.barrier (s.keyOf n named)).enter T n w)) := by
  intro m i
  cases named with
  | some b =>
    rw [barrier_set_of_ne (by simp [keyOf])]
    exact hn m i
  | none =>
    have hcur : ((s.advance n none).set (s.keyOf n none)
        ((s.barrier (s.keyOf n none)).enter T n w)).curUnnamedBarrier =
          update s.curUnnamedBarrier n (s.curUnnamedBarrier n + 1) := rfl
    obtain ⟨honce, hfresh⟩ := hn m i
    rw [hcur, keyOf]
    by_cases hi : i = s.curUnnamedBarrier n
    · subst hi
      rw [barrier_set, entered_enter]
      by_cases hm : m = n
      · subst hm
        rw [update_self, update_self, hfresh (le_refl _)]
        omega
      · rw [update_of_ne hm, update_of_ne hm]
        exact ⟨honce, hfresh⟩
    · rw [barrier_set_of_ne (by simpa using hi), barrier_advance]
      refine ⟨honce, ?_⟩
      intro hle
      refine hfresh ?_
      by_cases hm : m = n
      · subst hm
        rw [update_self] at hle
        omega
      · rwa [update_of_ne hm] at hle

theorem Numbered.step {a : BarrierAct N} (hn : Numbered s) (h : s.step T wait a = some s') :
    Numbered s' := by
  cases a with
  | enter n named =>
    obtain rfl := Option.some.inj h
    exact hn.enter n named _
  | leave n key =>
    obtain ⟨x, hx, rfl⟩ := map_eq_some_iff.mp h
    obtain ⟨-, rfl⟩ := of_guard hx
    exact hn.set rfl
  | up n key i =>
    obtain ⟨x, hx, rfl⟩ := map_eq_some_iff.mp h
    obtain ⟨w, -, rfl⟩ := map_eq_some_iff.mp hx
    exact hn.set (entered_barrierUp ..)
  | down n key i =>
    obtain ⟨x, hx, rfl⟩ := map_eq_some_iff.mp h
    obtain ⟨w, -, rfl⟩ := map_eq_some_iff.mp hx
    exact hn.set rfl

section

variable (hi : Barrier.Inv T (wait key) none (s.barrier key))
include hi

/-- The state of the barrier takes the arrival of a node that enters it. -/
theorem enter_inv {n : N} {named : Option ℕ} (hn : Numbered s)
    (hok : Orderly T key s (.enter n named)) (hkey : s.keyOf n named = key) :
    Barrier.Inv T (wait key) none
      ((s.barrier key).enter T n (wait key ((s.barrier key).entered n + 1))) := by
  cases named with
  | none =>
    subst hkey
    obtain ⟨hfree, hrel⟩ := hi.free_of_fresh ((hn n _).2 (le_refl _))
    exact hi.enter hfree hrel
  | some b =>
    subst hkey
    obtain ⟨hfree, hrel⟩ := hok rfl
    exact hi.enter hfree hrel

theorem recvUp_inv {n : N} {i : ℕ} {x : Barrier N} (hn : Numbered s)
    (hok : Orderly T key s (.up n key i)) (h : (s.barrier key).recvUp T n i = some x) :
    Barrier.Inv T (wait key) none x := by
  refine hi.recvUp ?_ h
  cases key with
  | named b => exact hok rfl
  | unnamed j =>
    refine hi.free_of_once (fun m => (hn m j).1) ?_
    obtain ⟨w, hw, -⟩ := map_eq_some_iff.mp h
    exact ne_nil_of_mem (mem_of_getElem? hw)

theorem set_inv {key' : BarrierKey} {x : Barrier N}
    (hx : key' = key → Barrier.Inv T (wait key) none x) :
    Barrier.Inv T (wait key) none ((s.set key' x).barrier key) := by
  by_cases hkey : key' = key
  · subst hkey
    rw [barrier_set]
    exact hx rfl
  · rw [barrier_set_of_ne (Ne.symm hkey)]
    exact hi

theorem step_barrier_inv {a : BarrierAct N} (hn : Numbered s) (hok : Orderly T key s a)
    (h : s.step T wait a = some s') : Barrier.Inv T (wait key) none (s'.barrier key) := by
  cases a with
  | enter n named =>
    obtain rfl := Option.some.inj h
    refine set_inv ((barrier_advance s n named).symm ▸ hi) ?_
    rintro rfl
    exact enter_inv hi hn hok rfl
  | leave n key' =>
    obtain ⟨x, hx, rfl⟩ := map_eq_some_iff.mp h
    refine set_inv hi ?_
    rintro rfl
    exact hi.leave hx
  | up n key' i =>
    obtain ⟨x, hx, rfl⟩ := map_eq_some_iff.mp h
    refine set_inv hi ?_
    rintro rfl
    exact recvUp_inv hi hn hok hx
  | down n key' i =>
    obtain ⟨x, hx, rfl⟩ := map_eq_some_iff.mp h
    refine set_inv hi ?_
    rintro rfl
    exact hi.recvDown hx

end

/-- In every run whose steps of the barrier are orderly, the barrier synchronizes the nodes.  Every
step of an unnamed barrier is. -/
theorem barrier_synchronizes (h : Reach (· = {}) (step T wait) (Orderly T key) s) :
    Synchronizes T (wait key) (s.barrier key) := by
  have hinv : Barrier.Inv T (wait key) none (s.barrier key) ∧ Numbered s := by
    refine Reach.invariant ?_ ?_ h
    · rintro s rfl
      exact ⟨Barrier.init_inv T (wait key), fun n i => ⟨zero_le 1, fun _ => rfl⟩⟩
    · intro s a s' hi hok hstep
      exact ⟨step_barrier_inv hi.1 hi.2 hok hstep, hi.2.step hstep⟩
  exact hinv.1.synchronizes

/-- Two nodes use a named barrier twice, and the second arrival of node 1 comes after node 0 has
returned from the first use. -/
theorem barrier_synchronizes_twice : ∃ s : BarrierSys (Fin 2),
    Reach (· = {}) (step (star 0) fun _ _ => true) (Orderly (star 0) (.named 5)) s ∧
    (∀ n, (s.barrier (.named 5)).releases n = 2) ∧
    Synchronizes (star 0) (fun _ => true) (s.barrier (.named 5)) := by
  obtain ⟨s, hs, hp⟩ := @Reach.of_guarded_run _ _ (· = {}) (Orderly (star (0 : Fin 2)) (.named 5)) _
    (step (star 0) fun _ _ => true)
    [.enter 0 (some 5), .enter 1 (some 5), .up 0 (.named 5) 0, .down 1 (.named 5) 0,
      .leave 1 (.named 5), .enter 1 (some 5), .down 0 (.named 5) 0, .leave 0 (.named 5),
      .up 0 (.named 5) 0, .enter 0 (some 5), .down 0 (.named 5) 0, .down 1 (.named 5) 0]
    (fun s => ∀ n, (s.barrier (.named 5)).releases n = 2) _ _ rfl (by decide +kernel)
  have hsync := barrier_synchronizes hs
  exact ⟨s, hs, hp, hsync⟩

/-- Under `T`, a run of barrier `key` with `isWait` reaches a state in which every message is
handled and every node has entered twice, and each node has been released only once. -/
def LosesArrival (T : SpanningTree N) (key : BarrierKey) (isWait : Bool) : Prop :=
  ∃ s : BarrierSys N, Reach (· = {}) (step T fun _ _ => isWait) anyStep s ∧
    (∀ n, (s.barrier key).up n = [] ∧ (s.barrier key).down n = [] ∧
      (s.barrier key).entered n = 2 ∧ (s.barrier key).releases n = 1) ∧
    ¬ Synchronizes T (fun _ => isWait) (s.barrier key)

theorem not_synchronizes_of_lost {T : SpanningTree N} {isWait : Bool} {b : Barrier N}
    (hlost : ∀ n, b.up n = [] ∧ b.down n = [] ∧ b.entered n = 2 ∧ b.releases n = 1) :
    ¬ Synchronizes T (fun _ => isWait) b := by
  intro hsync
  have hrel := hsync.arrived (fun n => ⟨(hlost n).1, (hlost n).2.1⟩) 2
    (fun m => (hlost m).2.2.1.ge) T.root
  rw [(hlost T.root).2.2.2] at hrel
  omega

theorem losesArrival_of_run {T : SpanningTree N} {isWait : Bool} (as : List (BarrierAct N))
    (h : (run (step T fun _ _ => isWait) {} as).any (fun s => decide (∀ n,
      (s.barrier key).up n = [] ∧ (s.barrier key).down n = [] ∧ (s.barrier key).entered n = 2 ∧
        (s.barrier key).releases n = 1)) = true) : LosesArrival T key isWait := by
  obtain ⟨s, hs, hlost⟩ := @Reach.of_run _ _ (· = {}) _ as _ _ _ rfl h
  exact ⟨s, hs, hlost, not_synchronizes_of_lost hlost⟩

/-- Two nodes use a named barrier twice, by `waitBarrier` or by `contBarrier`.  With `waitBarrier`,
the second arrival of node 1 is counted before node 0 has removed the state of the first use.  With
`contBarrier`, that state is never removed.  All messages are handled, and nobody is released from
the second use. -/
theorem barrier_arrival_lost :
    LosesArrival (star (0 : Fin 2)) (.named 5) true ∧
    LosesArrival (star (0 : Fin 2)) (.named 5) false := by
  constructor
  · refine losesArrival_of_run [.enter 0 (some 5), .enter 1 (some 5), .up 0 (.named 5) 0,
      .down 1 (.named 5) 0, .leave 1 (.named 5), .enter 1 (some 5), .down 0 (.named 5) 0,
      .up 0 (.named 5) 0, .leave 0 (.named 5), .enter 0 (some 5)] ?_
    decide +kernel
  · refine losesArrival_of_run [.enter 0 (some 5), .enter 1 (some 5), .up 0 (.named 5) 0,
      .down 1 (.named 5) 0, .down 0 (.named 5) 0, .enter 1 (some 5), .enter 0 (some 5)] ?_
    decide +kernel

end VtRuntime.Collective
