import VtRuntime.Lib.Run
import Mathlib.Data.Finset.SDiff

/-!
# Dependent send chains

A chain is a sequence of sends.  Each step has an epoch, and its send is released when the epoch of
the step before has terminated.  For this the send is handed to an action of that epoch.  A step of
two chains waits for two epochs: both get an action, and the one that is run last releases the send.

An epoch does not terminate as long as units are outstanding.  A pending send holds a unit of the
epoch of its message, and an epoch holds a unit of each of its successors.

The model is of one node.  When an epoch may end depends on the other nodes too; here it may end
whenever no unit is outstanding on this node.
-/

namespace VtRuntime.SendChain

open Lib Function

/-- What a `PendingSend` was made from: nothing, a message with the epoch of its envelope, or an
action with its epoch.  A message whose envelope has no epoch, or that belongs to the detector, has
none. -/
inductive Payload
  | empty
  | msg (epoch : Option ℕ)
  | epochAction (epoch : Option ℕ)
  deriving DecidableEq

/-- The epoch on which a constructor of `PendingSend` produces. -/
def Payload.epoch : Payload → Option ℕ
  | .empty => none
  | .msg epoch => epoch
  | .epochAction epoch => epoch

/-- The number is a book. -/
structure PendingSend where
  id : ℕ
  payload : Payload
  epochProduced : Option ℕ
  deriving DecidableEq

/-- A `PendingSend` that was released. -/
def PendingSend.emptied (p : PendingSend) : PendingSend := { p with payload := .empty }

/-- `PendingClosure`, or `MergedClosure` with its pointer. -/
inductive Closure
  | pending (p : PendingSend)
  | merged (sharedState : ℕ)
  deriving DecidableEq

/-- An action of an epoch, added in another epoch. -/
structure EpochAction where
  epoch : ℕ
  encap : Option ℕ
  closure : Closure

/-- A shared `PendingSend`, and the number of pointers to it. -/
structure Shared where
  useCount : ℕ
  pending : PendingSend

/-- A step of a chain, or of two: its epoch, the epochs whose actions release its send, and the
epochs of the steps before. -/
structure ChainStep where
  epoch : ℕ
  after : List ℕ
  previous : List ℕ

/-- The epochs of a node.  `ended` says that an epoch has terminated, `terminated` that the node
knows. -/
structure Term where
  numEpochs : ℕ := 0
  units : ℕ → ℕ := fun _ => 0
  ended : ℕ → Bool := fun _ => false
  terminated : ℕ → Bool := fun _ => false
  successors : ℕ → Finset ℕ := fun _ => ∅

/-- A node.  `actions` are those that are still to be run.

Books are: the units that belong to other work, the epoch of the last step of each chain since
`done`, the steps, and the sends that were released.  The send of a step has the number of the
step. -/
structure ChainSys (C : Type) where
  term : Term := {}
  actions : List EpochAction := []
  shared : List Shared := []
  lastEpoch : C → Option ℕ := fun _ => none
  work : ℕ → ℕ := fun _ => 0
  previous : C → Option ℕ := fun _ => none
  steps : List ChainStep := []
  released : List ℕ := []

/-- What users do.  The current epoch is `cur`, if it is not the global one. -/
inductive ChainCall (C : Type)
  | makeEpoch (cur : Option ℕ)
  | produce (epoch : ℕ)
  | consume (epoch : ℕ)
  | addDependency (predecessor successor : ℕ)
  | add (c : C) (cur : Option ℕ) (newEpoch : ℕ) (link : Payload)
  | mergeChainStep (a b : C) (cur : Option ℕ) (newEpoch : ℕ) (link : Payload)
  | done (c : C) (cur : Option ℕ)

/-- What the detector does. -/
inductive Detect
  | endEpoch (epoch : ℕ)
  | epochTerminated (epoch : ℕ)
  | runAction (i : ℕ)

namespace Term

variable (t : Term)

variable (e : ℕ)

/-- The epoch was made. -/
def Made : Prop := e < t.numEpochs

instance (e : ℕ) : Decidable (t.Made e) := inferInstanceAs (Decidable (e < _))

/-- The units of the global epoch are not counted. -/
def produce : Option ℕ → Term
  | none => t
  | some e => { t with units := update t.units e (t.units e + 1) }

def consume : Option ℕ → Term
  | none => t
  | some e => { t with units := update t.units e (t.units e - 1) }

/-- A unit is consumed on each of the epochs. -/
def consumeAll (es : Finset ℕ) : Term :=
  { t with units := fun e => if e ∈ es then t.units e - 1 else t.units e }

def setSuccessors (es : Finset ℕ) : Term :=
  { t with successors := update t.successors e es }

/-- `EpochDependency::removeIntersection`. -/
def removeIntersection (successors : Finset ℕ) : Term :=
  let intersection := successors ∩ t.successors e
  (t.consumeAll intersection).setSuccessors e (t.successors e \ intersection)

/-- `EpochDependency::addSuccessor`. -/
def addSuccessor (e successor : ℕ) : Term :=
  if successor ∈ t.successors e then t
  else (t.produce (some successor)).setSuccessors e (insert successor (t.successors e))

/-- `EpochDependency::clearSuccessors`. -/
def clearSuccessors : Term := (t.consumeAll (t.successors e)).setSuccessors e ∅

/-- `TerminationDetector::addDependency`. -/
def addDependency (predecessor successor : ℕ) : Term :=
  if t.terminated predecessor then t
  else
    (t.removeIntersection predecessor (t.successors successor)).addSuccessor predecessor successor

/-- `TerminationDetector::makeEpochRooted`.  The current epoch becomes a successor. -/
def makeEpochRooted (cur : Option ℕ) : Term :=
  let epoch := t.numEpochs
  let t := { t with numEpochs := t.numEpochs + 1 }.produce (some epoch)
  match cur with
  | none => t
  | some successor => t.addDependency epoch successor

/-- The part of `TerminationDetector::epochTerminated` before the actions. -/
def epochTerminated : Term :=
  { t with terminated := update t.terminated e true }.clearSuccessors e

end Term

namespace ChainSys

variable {C : Type} (s : ChainSys C)

/-- `TermAction::addActionUnique`.  The actions of an epoch are run once it has terminated. -/
def addActionUnique (epoch : ℕ) (cur : Option ℕ) (c : Closure) : ChainSys C :=
  { s with term := s.term.produce cur, actions := s.actions ++ [⟨epoch, cur, c⟩] }

/-- The constructors of `PendingSend`. -/
def pendingSend (link : Payload) : ChainSys C × PendingSend :=
  ({ s with term := s.term.produce link.epoch }, ⟨s.steps.length, link, link.epoch⟩)

/-- Other work begins in an epoch: a message is in flight. -/
def begin : Option ℕ → ChainSys C
  | none => s
  | some e => { s with
      term := s.term.produce (some e), work := update s.work e (s.work e + 1) }

/-- `PendingSend::consumeMsg`. -/
def consumeMsg (p : PendingSend) : ChainSys C :=
  { s with term := s.term.consume p.epochProduced }

/-- `PendingSend::release`.  In the first case it was released before. -/
def release (p : PendingSend) : ChainSys C :=
  match p.payload with
  | .empty => s
  | .msg epoch => { s.begin epoch with released := s.released ++ [p.id] }.consumeMsg p
  | .epochAction _ => { s with released := s.released ++ [p.id] }.consumeMsg p

/-- An action is called and then destroyed. -/
def invoke : Closure → ChainSys C
  | .pending p => (s.release p).release p.emptied
  | .merged k =>
    match s.shared[k]? with
    | none => s
    | some x =>
      -- the pointer is reset, and the last one releases the send
      if x.useCount = 1 then
        { s with shared := s.shared.set k ⟨0, x.pending.emptied⟩ }.release x.pending
      else { s with shared := s.shared.set k ⟨x.useCount - 1, x.pending⟩ }

section Calls

variable [DecidableEq C]

variable (c : C) (cur : Option ℕ)

/-- `DependentSendChain::reset`: a new epoch that is finished at once. -/
def reset : ChainSys C :=
  let epoch := s.term.numEpochs
  { s with
    term := (s.term.makeEpochRooted cur).consume (some epoch)
    lastEpoch := update s.lastEpoch c (some epoch) }

/-- `DependentSendChain::checkInit`. -/
def checkInit : ChainSys C :=
  if s.lastEpoch c = none then s.reset c cur else s

/-- `last_epoch_` of a chain on which `checkInit` was called. -/
def last : ℕ := (s.lastEpoch c).getD 0

def addDependency (predecessor successor : ℕ) : ChainSys C :=
  { s with term := s.term.addDependency predecessor successor }

/-- The end of a step of a chain, with its entry in the book. -/
def setLast (epoch : ℕ) : ChainSys C :=
  { s with
    lastEpoch := update s.lastEpoch c (some epoch)
    previous := update s.previous c (some epoch) }

/-- `DependentSendChain::add` after `checkInit`. -/
def addStep (newEpoch : ℕ) (p : PendingSend) : ChainSys C :=
  let step : ChainStep := ⟨newEpoch, [s.last c], (s.previous c).toList⟩
  let s := s.addDependency (s.last c) newEpoch
  let s := s.addActionUnique (s.last c) cur (.pending p)
  { s with steps := s.steps ++ [step] }.setLast c newEpoch

/-- `DependentSendChain::add`. -/
def add (newEpoch : ℕ) (link : Payload) : ChainSys C :=
  let (s, p) := s.pendingSend link
  (s.checkInit c cur).addStep c cur newEpoch p

/-- `DependentSendChain::mergeChainStep` after `checkInit`. -/
def mergeStep (a b : C) (cur : Option ℕ) (newEpoch : ℕ) (p : PendingSend) : ChainSys C :=
  let step : ChainStep :=
    ⟨newEpoch, [s.last a, s.last b], (s.previous a).toList ++ (s.previous b).toList⟩
  let s := (s.addDependency (s.last a) newEpoch).addDependency (s.last b) newEpoch
  let sharedState := s.shared.length
  let s := { s with shared := s.shared ++ [Shared.mk 2 p] }
  let s := s.addActionUnique (s.last a) cur (.merged sharedState)
  let s := s.addActionUnique (s.last b) cur (.merged sharedState)
  ({ s with steps := s.steps ++ [step] }.setLast a newEpoch).setLast b newEpoch

/-- `DependentSendChain::mergeChainStep`. -/
def mergeChainStep (a b : C) (cur : Option ℕ) (newEpoch : ℕ) (link : Payload) : ChainSys C :=
  let (s, p) := s.pendingSend link
  ((s.checkInit a cur).checkInit b cur).mergeStep a b cur newEpoch p

/-- `DependentSendChain::done`. -/
def done : ChainSys C :=
  { s.reset c cur with previous := update s.previous c none }

/-- What users do.  Nobody consumes a unit of somebody else. -/
def call : ChainCall C → Option (ChainSys C)
  | .makeEpoch cur =>
    if ∀ e ∈ cur, s.term.Made e then
      let e := s.term.numEpochs
      some { s with
        term := s.term.makeEpochRooted cur, work := update s.work e (s.work e + 1) }
    else none
  | .produce e => if s.term.Made e then some (s.begin (some e)) else none
  | .consume e =>
    if 0 < s.work e then
      some { s with
        term := s.term.consume (some e), work := update s.work e (s.work e - 1) }
    else none
  | .addDependency p q =>
    if s.term.Made p ∧ s.term.Made q then some (s.addDependency p q) else none
  | .add c cur newEpoch link =>
    if s.term.Made newEpoch ∧ ∀ e ∈ cur, s.term.Made e then some (s.add c cur newEpoch link)
    else none
  | .mergeChainStep a b cur newEpoch link =>
    if s.term.Made newEpoch ∧ ∀ e ∈ cur, s.term.Made e then
      some (s.mergeChainStep a b cur newEpoch link)
    else none
  | .done c cur => if ∀ e ∈ cur, s.term.Made e then some (s.done c cur) else none

end Calls

/-- What the detector does.  It runs each action of an epoch once, and only after the epoch has
terminated. -/
def detect : Detect → Option (ChainSys C)
  | .endEpoch e =>
    if s.term.Made e ∧ s.term.ended e = false ∧ s.term.units e = 0 then
      some { s with term := { s.term with ended := update s.term.ended e true } }
    else none
  | .epochTerminated e =>
    if s.term.Made e ∧ s.term.ended e = true ∧ s.term.terminated e = false then
      some { s with term := s.term.epochTerminated e }
    else none
  | .runAction i =>
    match s.actions[i]? with
    | none => none
    | some a =>
      if s.term.terminated a.epoch then
        some ({ s with
          actions := s.actions.eraseIdx i, term := s.term.consume a.encap }.invoke a.closure)
      else none

def step [DecidableEq C] (s : ChainSys C) : ChainCall C ⊕ Detect → Option (ChainSys C)
  | .inl a => s.call a
  | .inr a => s.detect a

/-- The send holds a unit of the epoch of its step, which has not terminated. -/
def HoldsUnit (newEpoch : ℕ) (link : Payload) : Prop :=
  link.epoch = some newEpoch ∧ s.term.ended newEpoch = false

instance (newEpoch : ℕ) (link : Payload) : Decidable (s.HoldsUnit newEpoch link) :=
  inferInstanceAs (Decidable (_ ∧ _))

/-- Every send that is handed to a chain holds a unit of the epoch of its step. -/
def Sound : ChainCall C ⊕ Detect → Prop
  | .inl (.add _ _ newEpoch link) => s.HoldsUnit newEpoch link
  | .inl (.mergeChainStep _ _ _ newEpoch link) => s.HoldsUnit newEpoch link
  | _ => True

instance : (a : ChainCall C ⊕ Detect) → Decidable (s.Sound a)
  | .inl (.add _ _ newEpoch link) | .inl (.mergeChainStep _ _ _ newEpoch link) =>
    inferInstanceAs (Decidable (s.HoldsUnit newEpoch link))
  | .inl (.makeEpoch _) | .inl (.produce _) | .inl (.consume _) | .inl (.addDependency _ _)
  | .inl (.done _ _) | .inr _ => .isTrue trivial

end ChainSys

/-- What is expected of the chains. -/
structure ChainsInOrder {C : Type} (s : ChainSys C) : Prop where
  /-- A send is released once. -/
  once : s.released.Nodup
  /-- It waits for the epoch of the step before, in both chains if there are two. -/
  previous : ∀ step ∈ s.steps, ∀ e ∈ step.previous, e ∈ step.after
  /-- It is not released before these epochs have terminated. -/
  after : ∀ i step, s.steps[i]? = some step → i ∈ s.released →
    ∀ e ∈ step.after, s.term.ended e = true
  /-- The epoch of a step does not terminate before its send was released. -/
  before : ∀ i step, s.steps[i]? = some step → s.term.ended step.epoch = true → i ∈ s.released
  /-- The detector comes to rest, and then all sends were released that wait for no epoch. -/
  runs : Ends ChainSys.detect (fun s' => ∀ i step, s'.steps[i]? = some step →
    (∀ e ∈ step.after, s'.term.ended e = true) → i ∈ s'.released) s

end VtRuntime.SendChain
