import VtRuntime.Lib.Sum
import VtRuntime.Epoch.Manip

/-!
# Epochs on the termination detector of every node

`TerminationDetector` across all epochs at once: creation of collective, rooted wave and
rooted Dijkstra–Scholten epochs, `finishedEpoch`, dependencies between epochs, the
termination test with its inquiries and replies, and `epochTerminated`.  The detection of
an epoch is one action here; that it comes about correctly is the subject of the modules on
the wave and on Dijkstra–Scholten.  A wave detects an epoch only when every node takes part
in it, and a node takes part in an identifier's next use only after it has processed the
termination of the use before.
-/

namespace VtRuntime.Termination

open Lib Epoch Function

universe u

def isDS (epoch : EpochType) : Bool :=
  isRooted epoch && category epoch == some .dijkstraScholtenEpoch

inductive TermStatusEnum
  | pending
  | terminated
  | remote
deriving DecidableEq

/-- A call of `setEpochTerminated`: whether the epoch was present already, and whether the
assertion of the interval set holds. -/
structure Mark where
  epoch : EpochType
  present : Bool
  valid : Bool

/-- The epoch windows of a node.  The other two fields are books: how often each epoch has
become live, and the calls that marked an epoch terminated. -/
structure Windows where
  manip : EpochManip := .make
  joins : EpochType → ℕ := fun _ => 0
  marks : List Mark := []

namespace Windows

variable (w : Windows) (epoch : EpochType)

def isTerminated : Bool := w.manip.isTerminated epoch

/-- Store a state in which further epochs are live. -/
def store (m : EpochManip) : Windows :=
  { w with
    manip := m
    joins := fun e =>
      if w.manip.isTerminated e && !m.isTerminated e then w.joins e + 1 else w.joins e }

def activateEpoch : Windows :=
  w.store (w.manip.activateEpoch epoch)

def setEpochTerminated : Windows :=
  { w with
    manip := w.manip.setEpochTerminated epoch
    marks := ⟨epoch, w.manip.isTerminated epoch,
      (w.manip.getTerminatedWindow epoch).terminatedEpochs.validInsert
        (.single epoch.toNat)⟩ :: w.marks }

@[simp] theorem isTerminated_store (m : EpochManip) (e : EpochType) :
    (w.store m).isTerminated e = m.isTerminated e := rfl

@[simp] theorem isTerminated_activateEpoch (e e' : EpochType) :
    (w.activateEpoch e).isTerminated e' = (w.isTerminated e' && e' != e) :=
  w.manip.isTerminated_activateEpoch e e'

@[simp] theorem isTerminated_setEpochTerminated (e e' : EpochType) :
    (w.setEpochTerminated e).isTerminated e' = (e' == e || w.isTerminated e') :=
  w.manip.isTerminated_setEpochTerminated e e'

end Windows

/-- One node.  The second group of fields are its books: what it has created and not
finished, created and not seen terminated, and produced on the global epoch and not
consumed, with the number of units produced and consumed there for each epoch. -/
structure Detector where
  windows : Windows := {}
  lProd : ℤ := 0
  lCons : ℤ := 0
  epochReady : Finset EpochType := ∅
  epochActive : Finset EpochType := ∅
  epochWaitStatus : Finset EpochType := ∅
  successors : Finset (EpochType × EpochType) := ∅
  unfinished : Finset EpochType := ∅
  live : Finset EpochType := ∅
  globals : Finset EpochType := ∅
  globProd : EpochType → ℕ := fun _ => 0
  globCons : EpochType → ℕ := fun _ => 0

namespace Detector

variable (self : NodeType) (d : Detector) (epoch : EpochType)

/-- Count units on the global epoch, as every `produce` does. -/
def produce (numUnits : ℕ) : Detector := { d with lProd := d.lProd + numUnits }

def consume (numUnits : ℕ) : Detector := { d with lCons := d.lCons + numUnits }

def produceOnGlobal (ep : EpochType) : Detector :=
  { d.produce 1 with
    globals := insert ep d.globals
    globProd := update d.globProd ep (d.globProd ep + 1) }

def consumeOnGlobal (ep : EpochType) : Detector :=
  { d.consume 1 with
    globals := d.globals.erase ep
    globCons := update d.globCons ep (d.globCons ep + 1) }

/-- The node after an allocation from its windows. -/
def allocated (m : EpochManip) : Detector :=
  { d with windows := d.windows.store m }

/-- Release every successor of an epoch. -/
def clearSuccessors : Detector :=
  { d.consume (d.successors.filter fun p => p.1 = epoch).card with
    successors := d.successors.filter fun p => p.1 ≠ epoch }

def updateResolvedEpochs : Detector :=
  { d with windows := d.windows.setEpochTerminated epoch }

/-- Forget the state of an epoch.  The root of the tree erases its wave state later, but the
state takes no part in a wave once termination is detected. -/
def cleanupEpoch : Detector :=
  { d with
    epochActive := d.epochActive.erase epoch
    epochReady := d.epochReady.erase epoch
    live := d.live.erase epoch }

def epochTerminated : Detector :=
  let d := ((d.clearSuccessors epoch).updateResolvedEpochs epoch).cleanupEpoch epoch
  if !isRooted epoch || isDS epoch || node epoch == self then d.consumeOnGlobal epoch else d

def activateEpoch : Detector :=
  if isDS epoch then d
  else
    let d := if isRooted epoch && node epoch == self then d.produceOnGlobal epoch else d
    { d with epochActive := insert epoch d.epochActive }

def finishNoActivateEpoch : Detector :=
  if epoch ∈ d.epochReady then d
  else { d.consume 1 with epochReady := insert epoch d.epochReady }

def finishedEpoch : Detector :=
  activateEpoch self (d.finishNoActivateEpoch epoch) epoch

/-- Enter an epoch this node creates into the books. -/
def record : Detector :=
  { d with unfinished := insert epoch d.unfinished, live := insert epoch d.live }

/-- An epoch is no longer one that this node has to finish. -/
def settle : Detector :=
  { d with unfinished := d.unfinished.erase epoch }

/-- Collective and Dijkstra–Scholten epochs count on the global epoch when created. -/
def initializeCollectiveEpoch : Detector :=
  ((d.produce 1).produceOnGlobal epoch).record epoch

def initializeRootedDSEpoch : Detector :=
  ((d.produce 1).produceOnGlobal epoch).record epoch

def makeRootedHan (isRoot : Bool) : Detector :=
  let d : Detector := { d.produce 1 with windows := d.windows.activateEpoch epoch }
  if isRoot then d else finishedEpoch self d epoch

def initializeRootedWaveEpoch : Detector :=
  (makeRootedHan self d epoch true).record epoch

/-- The answer of `testEpochTerminated`, without its message. -/
def testEpochTerminated : TermStatusEnum :=
  if d.windows.isTerminated epoch then .terminated
  else if isRooted epoch && node epoch != self then .remote
  else .pending

/-- Whether `testEpochTerminated` sends an inquiry to the root of the epoch. -/
def inquires : Bool :=
  decide (testEpochTerminated self d epoch = .remote) && decide (epoch ∉ d.epochWaitStatus)

/-- The part of `addDependency` after the test: release the successors shared with the new
one, then add it. -/
def addSuccessor (predecessor successor : EpochType) : Detector :=
  let shared := d.successors.filter fun p =>
    p.1 = predecessor ∧ (successor, p.2) ∈ d.successors
  let d : Detector := { d.consume shared.card with successors := d.successors \ shared }
  if (predecessor, successor) ∈ d.successors then d
  else { d.produce 1 with successors := insert (predecessor, successor) d.successors }

/-- A node asks only about epochs that are live in its windows and rooted elsewhere. -/
theorem of_inquires {self : NodeType} {d : Detector} {epoch : EpochType}
    (h : inquires self d epoch = true) :
    d.windows.isTerminated epoch = false ∧ isRooted epoch = true ∧ node epoch ≠ self := by
  simp only [inquires, testEpochTerminated, Bool.and_eq_true, decide_eq_true_eq] at h
  by_cases ht : d.windows.isTerminated epoch = true
  · simp [ht] at h
  · simp only [ht, Bool.false_eq_true, if_false, ite_eq_left_iff, reduceCtorEq, imp_false,
      not_not, bne_iff_ne] at h
    exact ⟨Bool.eq_false_iff.mpr ht, h.1⟩

/-! The windows, the epochs that take part in a wave and the live ones, after each function. -/

@[simp] theorem addSuccessor_frame (p q : EpochType) :
    (d.addSuccessor p q).windows = d.windows ∧
      (d.addSuccessor p q).epochActive = d.epochActive ∧ (d.addSuccessor p q).live = d.live := by
  simp only [addSuccessor]
  split <;> exact ⟨rfl, rfl, rfl⟩

@[simp] theorem epochTerminated_frame :
    (epochTerminated self d epoch).windows = d.windows.setEpochTerminated epoch ∧
      (epochTerminated self d epoch).epochActive = d.epochActive.erase epoch ∧
      (epochTerminated self d epoch).live = d.live.erase epoch := by
  simp only [epochTerminated]
  split <;> exact ⟨rfl, rfl, rfl⟩

@[simp] theorem finishedEpoch_frame :
    (finishedEpoch self d epoch).windows = d.windows ∧
      (finishedEpoch self d epoch).epochActive =
        (if isDS epoch then d.epochActive else insert epoch d.epochActive) ∧
      (finishedEpoch self d epoch).live = d.live := by
  simp only [finishedEpoch, activateEpoch, finishNoActivateEpoch]
  repeat' split
  all_goals exact ⟨rfl, rfl, rfl⟩

theorem epochActive_finished : d.epochActive ⊆ (finishedEpoch self d epoch).epochActive := by
  rw [(finishedEpoch_frame self d epoch).2.1]
  split
  · exact fun _ h => h
  · exact Finset.subset_insert epoch _

@[simp] theorem makeRootedHan_frame (isRoot : Bool) :
    (makeRootedHan self d epoch isRoot).windows = d.windows.activateEpoch epoch ∧
      (makeRootedHan self d epoch isRoot).live = d.live := by
  cases isRoot
  · simp [makeRootedHan, produce]
  · exact ⟨rfl, rfl⟩

theorem epochActive_makeRootedHan (isRoot : Bool) :
    d.epochActive ⊆ (makeRootedHan self d epoch isRoot).epochActive := by
  cases isRoot
  · exact epochActive_finished self { d.produce 1 with windows := d.windows.activateEpoch epoch }
      epoch
  · exact fun _ h => h

end Detector

/-- The messages between detectors. -/
inductive DetMsg (N : Type u)
  | makeRooted (epoch : EpochType)
  | terminated (epoch : EpochType)
  | inquire (epoch : EpochType) (source : N)
  | reply (epoch : EpochType)
deriving DecidableEq

def DetMsg.epoch {N : Type u} : DetMsg N → EpochType
  | makeRooted e => e
  | terminated e => e
  | inquire e _ => e
  | reply e => e

/-- All nodes with the messages in flight and the replies that wait for a termination
(`inquirers`) or to be run (`replies`).  The last group of fields are books: the units of
the application, the epochs created and detected, and for each node the epochs it has
activated in their current use. -/
structure DetSys (N : Type u) where
  node : N → Detector
  inbox : N → List (DetMsg N)
  inquirers : N → List (EpochType × N)
  replies : N → List (EpochType × N)
  units : ℕ
  created : Finset EpochType
  detected : Finset EpochType
  joined : N → Finset EpochType

/-- The operations and deliveries. -/
inductive DetAct (N : Type u)
  | makeEpochCollective (n : N) (fuel : ℕ)
  | makeEpochRootedWave (n : N) (fuel : ℕ)
  | makeEpochRootedDS (n : N) (fuel : ℕ)
  | finishedEpoch (n : N) (epoch : EpochType)
  | produce (n : N) (numUnits : ℕ)
  | consume (n : N) (numUnits : ℕ)
  | testEpochTerminated (n : N) (epoch : EpochType)
  | addDependency (n : N) (predecessor successor : EpochType)
  | deliver (n : N) (msg : DetMsg N)
  | runReply (n : N) (epoch : EpochType) (source : N)
  | detectWave (epoch : EpochType)
  | detectDS (n : N) (epoch : EpochType)

/-- What a call that returns without an error returns. -/
def returned {α : Type} : Option (Except String α) → Option α
  | some (.ok x) => some x
  | _ => none

theorem returned_eq_some {α : Type} {r : Option (Except String α)} {x : α}
    (h : returned r = some x) : r = some (.ok x) := by
  cases r with
  | none => cases h
  | some r =>
    cases r with
    | error msg => cases h
    | ok y => exact congrArg (some ∘ Except.ok) (Option.some.inj h)

namespace DetSys

variable {N : Type u} [DecidableEq N]

/-- The nodes: their numbers and the root of the tree that the waves run on. -/
structure Nodes (N : Type u) where
  ident : N → NodeType
  injective : Function.Injective ident
  treeRoot : N

variable (I : Nodes N)

variable (s : DetSys N) (n : N) (e : EpochType) (r : EpochType × EpochManip) (msg : DetMsg N)

def setNode (d : Detector) : DetSys N :=
  { s with node := update s.node n d }

/-- Add a message to an inbox. -/
def post : DetSys N :=
  { s with inbox := update s.inbox n (msg :: s.inbox n) }

/-- Send a message to all nodes but one. -/
def broadcast : DetSys N :=
  { s with inbox := fun m => if m = n then s.inbox m else msg :: s.inbox m }

theorem mem_broadcast {s : DetSys N} {n m : N} {msg msg' : DetMsg N}
    (h : msg' ∈ (s.broadcast n msg).inbox m) : (m ≠ n ∧ msg' = msg) ∨ msg' ∈ s.inbox m := by
  by_cases hm : m = n
  · exact .inr (by simpa [broadcast, hm] using h)
  · have hcons : msg' ∈ msg :: s.inbox m := by simpa [broadcast, hm] using h
    cases List.mem_cons.mp hcons with
    | inl heq => exact .inl ⟨hm, heq⟩
    | inr hold => exact .inr hold

/-- A node activates an epoch in its current use. -/
def join : DetSys N :=
  { s with joined := update s.joined n (insert e (s.joined n)) }

/-- A node begins a new use of an identifier. -/
def beginUse : DetSys N :=
  { s with
    detected := s.detected.erase e
    joined := fun m => if m = n then insert e (s.joined m) else (s.joined m).erase e }

/-- `epochTerminated` on a node; the replies that wait for the epoch are queued. -/
def terminate : DetSys N :=
  { s.setNode n (Detector.epochTerminated (I.ident n) (s.node n) e) with
    inquirers := update s.inquirers n ((s.inquirers n).filter fun r => r.1 ≠ e)
    replies := update s.replies n
      (s.replies n ++ (s.inquirers n).filter fun r => r.1 = e) }

/-- The inquiry of `testEpochTerminated`, if it sends one. -/
def inquire : DetSys N :=
  if Detector.inquires (I.ident n) (s.node n) e then
    { s.setNode n { s.node n with epochWaitStatus := insert e (s.node n).epochWaitStatus } with
      inbox := fun m => if I.ident m = Epoch.node e then .inquire e n :: s.inbox m
        else s.inbox m }
  else s

/-- The epoch that a rooted allocation on a node takes first and does not return. -/
def leak (cat : EpochCategory) : EpochType :=
  (s.node n).windows.manip.next (generateEpoch true (I.ident n) cat)

/-- Take a message from an inbox. -/
def take : DetSys N :=
  { s with inbox := update s.inbox n ((s.inbox n).erase msg) }

theorem inbox_take (n m : N) (msg : DetMsg N) : ((s.take n msg).inbox m).Sublist (s.inbox m) := by
  by_cases hm : m = n
  · subst hm
    simpa [take] using List.erase_sublist
  · simp [take, hm]

/-- The handler of a message that was taken from the inbox. -/
def handle : DetMsg N → DetSys N
  | .makeRooted e =>
      { (s.setNode n (Detector.makeRootedHan (I.ident n) (s.node n) e false)).join n e with
        units := if e ∈ (s.node n).epochReady then s.units + 1 else s.units }
  | .terminated e => s.terminate I n e
  | .reply e =>
      (s.setNode n { s.node n with
        epochWaitStatus := (s.node n).epochWaitStatus.erase e }).terminate I n e
  | .inquire e source =>
      if (s.node n).windows.isTerminated e then
        { s with replies := update s.replies n ((e, source) :: s.replies n) }
      else { s with inquirers := update s.inquirers n ((e, source) :: s.inquirers n) }

/-- A node creates a collective epoch: it joins the use in progress, if there is one. -/
def enter : DetSys N :=
  if e ∈ s.created ∧ e ∉ s.detected then s.join n e else s.beginUse n e

/-- `makeEpochCollective` with the epoch and the windows of its allocation. -/
def makeEpochCollective : DetSys N :=
  { s.setNode n (((s.node n).allocated r.2).initializeCollectiveEpoch r.1) with
    created := insert r.1 s.created
    detected := (s.enter n r.1).detected
    joined := (s.enter n r.1).joined }

/-- `makeEpochRootedWave` with the epoch and the windows of its allocation. -/
def makeEpochRootedWave : DetSys N :=
  broadcast
    { ((s.beginUse n (s.leak I n .noCategoryEpoch)).beginUse n r.1).setNode n
        (Detector.initializeRootedWaveEpoch (I.ident n) ((s.node n).allocated r.2) r.1) with
      created := insert r.1 (s.created.erase (s.leak I n .noCategoryEpoch)) }
    n (.makeRooted r.1)

/-- `makeEpochRootedDS` with the epoch and the windows of its allocation. -/
def makeEpochRootedDS : DetSys N :=
  { ((s.beginUse n (s.leak I n .dijkstraScholtenEpoch)).beginUse n r.1).setNode n
      (((s.node n).allocated r.2).initializeRootedDSEpoch r.1) with
    created := insert r.1 (s.created.erase (s.leak I n .dijkstraScholtenEpoch)) }

variable [Fintype N]

/-- One operation or delivery.  An allocation that does not return an epoch has no next
state, an epoch is finished once by each node that has created it, and the epochs asked
about are identifiers that an allocation can return. -/
def step (s : DetSys N) : DetAct N → Option (DetSys N)
  | .makeEpochCollective n fuel =>
      (returned ((s.node n).windows.manip.getNextCollectiveEpoch fuel .noCategoryEpoch)).map
        (s.makeEpochCollective n)
  | .makeEpochRootedWave n fuel =>
      (returned ((s.node n).windows.manip.getNextRootedEpoch fuel .noCategoryEpoch
        (I.ident n))).map (s.makeEpochRootedWave I n)
  | .makeEpochRootedDS n fuel =>
      (returned ((s.node n).windows.manip.getNextRootedEpoch fuel .dijkstraScholtenEpoch
        (I.ident n))).map (s.makeEpochRootedDS I n)
  | .finishedEpoch n e =>
      if e ∈ (s.node n).unfinished then
        some (s.setNode n ((Detector.finishedEpoch (I.ident n) (s.node n) e).settle e))
      else none
  | .produce n k => some { s.setNode n ((s.node n).produce k) with units := s.units + k }
  | .consume n k =>
      if k ≤ s.units then
        some { s.setNode n ((s.node n).consume k) with units := s.units - k }
      else none
  | .testEpochTerminated n e =>
      if EpochManip.InRange e e then some (s.inquire I n e) else none
  | .addDependency n p q =>
      if EpochManip.InRange p p then
        some (if Detector.testEpochTerminated (I.ident n) (s.node n) p = .terminated then s
          else (s.inquire I n p).setNode n (((s.inquire I n p).node n).addSuccessor p q))
      else none
  | .deliver n msg =>
      if msg ∈ s.inbox n then
        some (handle I (s.take n msg) n msg)
      else none
  | .runReply n e source =>
      if (e, source) ∈ s.replies n then
        some (post
          { s with replies := update s.replies n ((s.replies n).erase (e, source)) }
          source (.reply e))
      else none
  | .detectWave e =>
      if isDS e = false ∧ (∀ n, e ∈ (s.node n).epochActive) ∧ ∀ n, .terminated e ∉ s.inbox n then
        some (broadcast { s.terminate I I.treeRoot e with detected := insert e s.detected }
          I.treeRoot (.terminated e))
      else none
  | .detectDS n e =>
      if isDS e = true ∧ Epoch.node e = I.ident n ∧ e ∈ (s.node n).epochReady then
        some { s.terminate I n e with detected := insert e s.detected }
      else none

/-- No epoch has been created. -/
def start : DetSys N where
  node := fun _ => {}
  inbox := fun _ => []
  inquirers := fun _ => []
  replies := fun _ => []
  units := 0
  created := ∅
  detected := ∅
  joined := fun _ => ∅

def Init (s : DetSys N) : Prop := s = start

/-- The states of the runs whose every step satisfies a condition. -/
def Reachable (ok : DetSys N → DetAct N → Prop) : DetSys N → Prop := Reach Init (step I) ok

/-- Two nodes with the numbers 0 and 1. -/
def pair (treeRoot : Fin 2) : Nodes (Fin 2) where
  ident := fun n => BitVec.ofNat 16 n.val
  injective := by decide
  treeRoot := treeRoot

end DetSys
end VtRuntime.Termination
