import VtRuntime.Lib.Run
import VtRuntime.Lib.Sum
import VtRuntime.Lib.Tree
import VtRuntime.Termination.TermState
import Mathlib.Algebra.Order.Group.Int
import Mathlib.Algebra.Order.Monoid.Prod
import Mathlib.Algebra.Ring.Int.Defs

/-!
# The wave protocol on a spanning tree

`TerminationDetector` for one epoch that is detected by waves, on every node of a
spanning tree at once.  A counter message travels from a node to its parent, a continue
signal from the root to every other node; messages are delivered in any order.

The units of the epoch are tracked beside the protocol: a unit is held by the node that
produced it, may be shipped to another node and is consumed where it is held.  Three
more ghost fields record what the statements speak of: the samples of the local
counters, the pairs the root evaluated, and the local counters at the moment the
current wave began.
-/

namespace VtRuntime.Termination

open Lib Function

universe u

/-- The state of the protocol for one epoch. -/
structure WaveSys (N : Type u) where
  /-- The entry of `epoch_state_` for the epoch, if it has been created. -/
  states : N → Option TermState
  /-- Counter messages in flight from a node to its parent. -/
  toParent : N → List (ℤ × ℤ)
  /-- Continue signals in flight to a node. -/
  continues : N → List ℤ
  /-- Units held by a node. -/
  held : N → ℕ
  /-- Units in flight to a node. -/
  flight : N → ℕ
  /-- The local counters a node submitted, by the node's wave number. -/
  samples : N → ℤ → List (ℤ × ℤ)
  /-- The pairs the root evaluated, with the wave. -/
  evals : List (ℤ × (ℤ × ℤ))
  /-- The local counters when the current wave began. -/
  cut : N → ℤ × ℤ

/-- The actions: production, consumption and transport of units, deliveries, and what
the runtime does to the state of an epoch. -/
inductive WaveAct (N : Type u)
  | produce (n : N) (numUnits : ℕ)
  | consume (n : N) (numUnits : ℕ)
  | ship (src dst : N) (numUnits : ℕ)
  | arrive (n : N) (numUnits : ℕ)
  | propagateEpochExternal (src : N) (msg : ℤ × ℤ)
  | epochContinue (n : N) (wave : ℤ)
  | activateEpoch (n : N)
  | notifyLocalTerminated (n : N) (terminated : Bool)
  | incrementDependency (n : N) (isReady : Bool)
  | removeEpochStateDependency (n : N)
  | enableTD (n : N)
  | maybePropagate (n : N)

namespace WaveSys

variable {N : Type u} [Fintype N] [DecidableEq N] (T : SpanningTree N)

variable (s : WaveSys N) (n : N) (st : TermState) (counters : ℤ × ℤ)

/-- The state `findOrCreateState` emplaces. -/
def newState (isReady : Bool) : TermState :=
  { localTerminated := isReady, epochActive := isReady, numChildren := T.numChildren n }

def findOrCreateState (isReady : Bool) : TermState :=
  (s.states n).getD (newState T n isReady)

/-- The state of a node, a new inactive one if there is no entry. -/
def get : TermState := s.findOrCreateState T n false

/-- Store the state of a node. -/
def setState : WaveSys N :=
  { s with states := update s.states n (some st) }

/-- Record the local counters of a node as its sample of its current wave. -/
def sample : N → ℤ → List (ℤ × ℤ) :=
  update s.samples n
    (update (s.samples n) (s.get T n).curWave
      ((s.get T n).loc :: s.samples n (s.get T n).curWave))

/-- A node other than the root sends its counters to its parent. -/
def submit : WaveSys N :=
  { s.setState n st with
    toParent := update s.toParent n (counters :: s.toParent n)
    samples := s.sample T n }

/-- The root has detected termination. -/
def detect : WaveSys N :=
  { s.setState n st with
    samples := s.sample T n
    evals := ((s.get T n).curWave, counters) :: s.evals }

/-- The root starts the next wave; the broadcast does not reach the root itself. -/
def continueWave (wave : ℤ) : WaveSys N :=
  { s.setState n st with
    continues := fun m => if m = T.root then s.continues m else wave :: s.continues m
    samples := s.sample T n
    evals := ((s.get T n).curWave, counters) :: s.evals
    cut := fun m => (s.get T m).loc }

/-- Call `propagateEpoch` on a node's state if it is active and ready. -/
def propagate : WaveSys N :=
  if (s.get T n).epochActive && (s.get T n).readySubmitParent then
    match (s.get T n).propagateEpoch (n == T.root) with
    | (_, .idle) => s
    | (st, .submitted counters) => s.submit T n st counters
    | (st, .detected counters) => s.detect T n st counters
    | (st, .continued counters wave) => s.continueWave T n st counters wave
  else s

def produceConsumeState (numUnits : ℕ) (produce : Bool) : WaveSys N :=
  propagate T (s.setState n ((s.get T n).addUnits numUnits produce)) n

/-- The counters of a child arrive, before the parent is tested for readiness. -/
def addCounters (src : N) (msg : ℤ × ℤ) : WaveSys N :=
  { s.setState (T.parent src)
      ((s.get T (T.parent src)).addChild msg.1 msg.2).notifyChildReceive with
    toParent := update s.toParent src ((s.toParent src).erase msg) }

/-- A continue signal arrives; it is ignored where the epoch has no state. -/
def signalContinue (wave : ℤ) : WaveSys N :=
  { s with
    states := update s.states n
      ((s.states n).map fun st => st.receiveContinueSignal wave)
    continues := update s.continues n ((s.continues n).erase wave) }

/-- One action.  Units are produced by a node that holds a unit, or that has not taken
part in a wave yet, as when an epoch is created. -/
def step : WaveAct N → Option (WaveSys N)
  | .produce n k =>
      if 0 < s.held n ∨
          ((s.get T n).submittedWave = -1 ∧ (s.get T n).termDetected = false) then
        some (produceConsumeState T
          { s with held := update s.held n (s.held n + k) } n k true)
      else none
  | .consume n k =>
      if k ≤ s.held n then
        some (produceConsumeState T
          { s with held := update s.held n (s.held n - k) } n k false)
      else none
  | .ship src dst k =>
      if k ≤ s.held src then
        some { s with
          held := update s.held src (s.held src - k)
          flight := update s.flight dst (s.flight dst + k) }
      else none
  | .arrive n k =>
      if k ≤ s.flight n then
        some { s with
          held := update s.held n (s.held n + k)
          flight := update s.flight n (s.flight n - k) }
      else none
  | .propagateEpochExternal src msg =>
      if msg ∈ s.toParent src then
        some (propagate T (s.addCounters T src msg) (T.parent src))
      else none
  | .epochContinue n wave =>
      if wave ∈ s.continues n then some (propagate T (s.signalContinue n wave) n) else none
  | .activateEpoch n =>
      let st := s.findOrCreateState T n true
      some (propagate T (s.setState n (st.activateEpoch.notifyLocalTerminated true)) n)
  | .notifyLocalTerminated n terminated =>
      some (s.setState n ((s.get T n).notifyLocalTerminated terminated))
  | .incrementDependency n isReady =>
      some (s.setState n (s.findOrCreateState T n isReady).incrementDependency)
  | .removeEpochStateDependency n =>
      let st := (s.findOrCreateState T n true).decrementDependency
      some (if st.deps = 0 then propagate T (s.setState n st) n else s.setState n st)
  | .enableTD n => some (s.setState n (s.get T n).decrementDependency)
  | .maybePropagate n => some (propagate T s n)

/-- Before the epoch is used: no unit, no message, and on each node no state or a new
one with any flags. -/
structure Init : Prop where
  fresh : ∀ n, s.states n = none ∨ ∃ localTerminated epochActive,
    s.states n = some { localTerminated, epochActive, numChildren := T.numChildren n }
  toParent : ∀ n, s.toParent n = []
  continues : ∀ n, s.continues n = []
  held : ∀ n, s.held n = 0
  flight : ∀ n, s.flight n = 0
  samples : ∀ n w, s.samples n w = []
  evals : s.evals = []
  cut : ∀ n, s.cut n = 0

/-- The states of all runs. -/
def Reachable : Prop := Reach (Init T) (step T) anyStep s

/-! ## What the operations do -/

variable {T}

theorem get_of_update {s s' : WaveSys N} {n : N} {st : TermState}
    (h : s'.states = update s.states n (some st)) (m : N) :
    s'.get T m = if m = n then st else s.get T m := by
  simp only [get, findOrCreateState, h]
  by_cases hm : m = n
  · subst hm
    simp
  · simp [hm]

/-- The entry a node's sample is recorded in, and no other, grows by the sample. -/
theorem sample_apply (s : WaveSys N) (n m : N) (w : ℤ) :
    s.sample T n m w =
      if m = n ∧ w = (s.get T n).curWave then (s.get T n).loc :: s.samples m w
      else s.samples m w := by
  simp only [sample]
  by_cases hm : m = n
  · subst hm
    by_cases hw : w = (s.get T m).curWave
    · subst hw
      simp
    · simp [hw]
  · simp [hm]

theorem propagate_cases (s : WaveSys N) (n : N) :
    s.propagate T n = s ∨
    ((s.get T n).readySubmitParent = true ∧ n ≠ T.root ∧
      s.propagate T n = s.submit T n (s.get T n).afterSubmit (s.get T n).counted) ∨
    ((s.get T n).readySubmitParent = true ∧ n = T.root ∧ (s.get T n).isTerm = true ∧
      s.propagate T n = s.detect T n (s.get T n).afterDetect (s.get T n).counted) ∨
    ((s.get T n).readySubmitParent = true ∧ n = T.root ∧
      s.propagate T n = s.continueWave T n (s.get T n).afterContinue (s.get T n).counted
        ((s.get T n).curWave + 1)) := by
  by_cases hready : (s.get T n).readySubmitParent = true
  · have hact := ((s.get T n).readySubmitParent_iff.mp hready).1
    right
    by_cases hroot : n = T.root
    · have hb : (n == T.root) = true := beq_iff_eq.mpr hroot
      right
      by_cases hterm : (s.get T n).isTerm = true
      · exact .inl ⟨hready, hroot, hterm, by
          simp [propagate, TermState.propagateEpoch, hact, hready, hb, hterm]⟩
      · exact .inr ⟨hready, hroot, by
          simp [propagate, TermState.propagateEpoch, hact, hready, hb, hterm]⟩
    · have hb : (n == T.root) = false := beq_eq_false_iff_ne.mpr hroot
      exact .inl ⟨hready, hroot, by
        simp [propagate, TermState.propagateEpoch, hact, hready, hb]⟩
  · left
    simp [propagate, hready]

end WaveSys
end VtRuntime.Termination
