import VtRuntime.Termination.Detector
import VtRuntime.Termination.TermState
import VtRuntime.Termination.TermDS

/-!
# The counters of one node

The part of `TerminationDetector` that counts units on one node: the state of the global epoch,
the wave states and the Dijkstra–Scholten states of the other epochs, and the successor sets
that `EpochDependency` adds to both.  Messages are left out.  A state whose termination is
detected has its flag set; `epochTerminated` is then called for it, which for an epoch that is
propagated in the course of another call is an operation of its own here.
-/

namespace VtRuntime.Termination

open Epoch Function

/-- A set of successors, in the order in which it is traversed. -/
def SuccessorBag : Type := { l : List EpochType // l.Nodup }

namespace SuccessorBag

def empty : SuccessorBag := ⟨[], List.nodup_nil⟩

def insert (s : SuccessorBag) (e : EpochType) : SuccessorBag := ⟨s.1.insert e, s.2.insert⟩

/-- `std::set_intersection`. -/
def inter (s t : SuccessorBag) : SuccessorBag := ⟨s.1.filter (· ∈ t.1), s.2.filter _⟩

/-- `std::set_difference`. -/
def diff (s t : SuccessorBag) : SuccessorBag := ⟨s.1.filter (· ∉ t.1), s.2.filter _⟩

@[simp] theorem mem_insert {s : SuccessorBag} {e x : EpochType} :
    x ∈ (s.insert e).1 ↔ x = e ∨ x ∈ s.1 :=
  List.mem_insert_iff

@[simp] theorem mem_inter {s t : SuccessorBag} {x : EpochType} :
    x ∈ (s.inter t).1 ↔ x ∈ s.1 ∧ x ∈ t.1 := by
  simp [inter]

@[simp] theorem mem_diff {s t : SuccessorBag} {x : EpochType} :
    x ∈ (s.diff t).1 ↔ x ∈ s.1 ∧ x ∉ t.1 := by
  simp [diff]

end SuccessorBag

/-- A node, with its place in the spanning tree. -/
structure Place where
  thisNode : NodeType
  isRoot : Bool
  numChildren : ℕ

/-- A Dijkstra–Scholten state of a node. -/
def OwnDS (I : Place) : Type := { t : TermDS NodeType // t.self = I.thisNode }

/-- The detector of one node. -/
structure NodeDetector (I : Place) where
  isTerminated : EpochType → Bool
  anyEpochState : TermState
  epochState : EpochType → Option TermState
  term : EpochType → Option (OwnDS I)
  successors : EpochType → SuccessorBag
  epochReady : Finset EpochType

namespace TermDS

variable (t : TermDS NodeType) (pred : NodeType) (count : ℤ)

theorem own_tryAck : t.tryAck.1.self = t.self ∧ t.tryAck.1.lC = t.lC ∧ t.tryAck.1.lD = t.lD := by
  simp only [tryAck]
  repeat' split
  all_goals exact ⟨rfl, rfl, rfl⟩

theorem own_tryLast : t.tryLast.1.self = t.self ∧ t.tryLast.1.lC = t.lC ∧
    t.tryLast.1.lD = t.lD := by
  simp only [tryLast]
  repeat' split
  all_goals exact ⟨rfl, rfl, rfl⟩

theorem own_enterRequest : (t.enterRequest pred count).self = t.self ∧
    (t.enterRequest pred count).lC = t.lC ∧ (t.enterRequest pred count).lD = t.lD := by
  simp only [enterRequest]
  repeat' split
  all_goals exact ⟨rfl, rfl, rfl⟩

theorem own_msgProcessed : (t.msgProcessed pred count).1.self = t.self ∧
    (t.msgProcessed pred count).1.lC = (t.credit pred count).lC ∧
    (t.msgProcessed pred count).1.lD = t.lD := by
  have hcredit : (t.credit pred count).self = t.self ∧ (t.credit pred count).lD = t.lD := by
    unfold credit
    split <;> exact ⟨rfl, rfl⟩
  obtain ⟨hself, hC, hD⟩ := own_enterRequest (t.credit pred count) pred count
  simp only [msgProcessed]
  rw [(own_tryLast _).1, (own_tryLast _).2.1, (own_tryLast _).2.2, (own_tryAck _).1,
    (own_tryAck _).2.1, (own_tryAck _).2.2]
  split <;> exact ⟨hself.trans hcredit.1, hC, hD.trans hcredit.2⟩

theorem self_msgSent : (t.msgSent pred count).self = t.self := by
  unfold msgSent
  split <;> rfl

end TermDS

namespace OwnDS

variable {I : Place}

def make (isRoot : Bool) : OwnDS I := ⟨.make isRoot I.thisNode, rfl⟩

variable (t : OwnDS I)

def msgSent (node : NodeType) (count : ℤ) : OwnDS I :=
  ⟨t.1.msgSent node count, (TermDS.self_msgSent t.1 node count).trans t.2⟩

def msgProcessed (node : NodeType) (count : ℤ) : OwnDS I :=
  ⟨(t.1.msgProcessed node count).1, (TermDS.own_msgProcessed t.1 node count).1.trans t.2⟩

/-- The local units, produced and consumed. -/
def loc : ℤ × ℤ := (t.1.lD, t.1.lC)

theorem loc_msgSent (count : ℤ) : (t.msgSent I.thisNode count).loc = t.loc + (count, 0) := by
  simp [loc, msgSent, TermDS.msgSent_self t.2]

theorem loc_msgProcessed (count : ℤ) :
    (t.msgProcessed I.thisNode count).loc = t.loc + (0, count) := by
  obtain ⟨-, hC, hD⟩ := TermDS.own_msgProcessed t.1 I.thisNode count
  have hcredit : (t.1.credit I.thisNode count).lC = t.1.lC + count := by
    rw [TermDS.credit, if_pos t.2.symm]
  ext
  · exact hD.trans (add_zero _).symm
  · exact hC.trans hcredit

end OwnDS

namespace NodeDetector

variable {I : Place}

/-! ## States of epochs -/

variable (d : NodeDetector I) (epoch : EpochType) (st : TermState) (numUnits : ℕ)

def findOrCreateState (isReady : Bool) : TermState :=
  (d.epochState epoch).getD
    { numChildren := I.numChildren, localTerminated := isReady, epochActive := isReady }

def setState : NodeDetector I :=
  { d with epochState := update d.epochState epoch (some st) }

def getDSTerm (isRoot : Bool) : OwnDS I :=
  (d.term epoch).getD (.make isRoot)

def setDSTerm (t : OwnDS I) : NodeDetector I :=
  { d with term := update d.term epoch (some t) }

/-- Create the state of an epoch if it has none. -/
def getEpochDep : NodeDetector I :=
  if isDS epoch then d.setDSTerm epoch (d.getDSTerm epoch false)
  else d.setState epoch (d.findOrCreateState epoch false)

def setSuccessors (s : SuccessorBag) : NodeDetector I :=
  { d with successors := update d.successors epoch s }

/-! ## Units -/

/-- Propagate the state of an epoch if it is active and ready. -/
def propagateReady (I : Place) (st : TermState) : TermState :=
  if st.epochActive && st.readySubmitParent then (st.propagateEpoch I.isRoot).1 else st

def produceConsumeState (I : Place) (st : TermState) (numUnits : ℕ) (produce : Bool) : TermState :=
  propagateReady I (st.addUnits numUnits produce)

def produceConsume (produce : Bool) : NodeDetector I :=
  let d := { d with anyEpochState := produceConsumeState I d.anyEpochState numUnits produce }
  if epoch = anyEpochSentinel then d
  else if isDS epoch then
    let t := d.getDSTerm epoch false
    -- no node is passed: a unit of the node itself
    d.setDSTerm epoch (if produce then t.msgSent I.thisNode numUnits
      else t.msgProcessed I.thisNode numUnits)
  else d.setState epoch (produceConsumeState I (d.findOrCreateState epoch false) numUnits produce)

def produce : NodeDetector I :=
  d.produceConsume (if epoch = noEpoch then anyEpochSentinel else epoch) numUnits true

def consume : NodeDetector I :=
  d.produceConsume (if epoch = noEpoch then anyEpochSentinel else epoch) numUnits false

def produceOnGlobal : NodeDetector I := d.produce anyEpochSentinel 1

def consumeOnGlobal : NodeDetector I := d.consume anyEpochSentinel 1

def maybePropagate : NodeDetector I :=
  { d with
    anyEpochState := propagateReady I d.anyEpochState
    epochState := fun e => (d.epochState e).map (propagateReady I) }

/-! ## Dependencies -/

def addEpochStateDependency (ep : EpochType) : NodeDetector I :=
  if isDS ep then d else d.setState ep (d.findOrCreateState ep true).incrementDependency

def removeEpochStateDependency (ep : EpochType) : NodeDetector I :=
  if isDS ep then d
  else
    let st := (d.findOrCreateState ep true).decrementDependency
    let d := d.setState ep st
    if st.deps = 0 then d.maybePropagate else d

/-- Release the unit and the dependency on a successor. -/
def release (successor : EpochType) : NodeDetector I :=
  (d.consume successor 1).removeEpochStateDependency successor

def addSuccessor (epoch inSuccessor : EpochType) : NodeDetector I :=
  if inSuccessor ∈ (d.successors epoch).1 then d
  else
    let d := d.produce inSuccessor 1
    let d := d.setSuccessors epoch ((d.successors epoch).insert inSuccessor)
    d.addEpochStateDependency inSuccessor

def removeIntersection (successors : SuccessorBag) : NodeDetector I :=
  let intersection := successors.inter (d.successors epoch)
  let remaining := (d.successors epoch).diff intersection
  (intersection.1.foldl release d).setSuccessors epoch remaining

def clearSuccessors : NodeDetector I :=
  ((d.successors epoch).1.foldl release d).setSuccessors epoch .empty

def addDependency (predecessor successor : EpochType) : NodeDetector I :=
  if d.isTerminated predecessor then d
  else
    let d := (d.getEpochDep predecessor).getEpochDep successor
    let succSuccessors := d.successors successor
    (d.removeIntersection predecessor succSuccessors).addSuccessor predecessor successor

/-! ## Termination and finishing -/

/-- Remove the state of an epoch, with its successors; at the root of a tree or of an epoch this is
done later. -/
def eraseEpoch : NodeDetector I :=
  if isDS epoch then
    { d with
      term := update d.term epoch none
      successors := update d.successors epoch .empty }
  else
    { d with
      epochState := update d.epochState epoch none
      successors := update d.successors epoch .empty }

def cleanupEpoch (fromRoot : Bool) : NodeDetector I :=
  let d := if fromRoot then d else d.eraseEpoch epoch
  { d with epochReady := d.epochReady.erase epoch }

def updateResolvedEpochs : NodeDetector I :=
  { d with isTerminated := update d.isTerminated epoch true }

def epochTerminated (fromRoot : Bool) : NodeDetector I :=
  let d := ((d.getEpochDep epoch).clearSuccessors epoch).updateResolvedEpochs epoch
  let d := d.cleanupEpoch epoch fromRoot
  if !isRooted epoch || isDS epoch || node epoch == I.thisNode then d.consumeOnGlobal else d

/-- Whether a call of `propagateEpoch` for a state detects termination. -/
def detects (I : Place) (st : TermState) : Bool :=
  st.readySubmitParent && I.isRoot && st.isTerm

/-- The epochs `nested` are those whose termination is detected and handled in the course of the
call. -/
def activateEpoch (nested : List EpochType) : NodeDetector I :=
  if isDS epoch then d
  else
    let d := if isRooted epoch && node epoch == I.thisNode then d.produceOnGlobal else d
    let st := ((d.findOrCreateState epoch true).activateEpoch).notifyLocalTerminated true
    let d := d.setState epoch (st.propagateEpoch I.isRoot).1
    if detects I st then
      nested.foldl (fun d e => d.epochTerminated e true) (d.epochTerminated epoch true)
    else d

def finishNoActivateEpoch : NodeDetector I :=
  if epoch ∈ d.epochReady then d
  else { d with epochReady := insert epoch d.epochReady }.consume epoch 1

def finishedEpoch (nested : List EpochType) : NodeDetector I :=
  (d.finishNoActivateEpoch epoch).activateEpoch epoch nested

/-! ## Reading the counters -/

/-- The units that this node produced and consumed on an epoch: `l_prod` and `l_cons` of a wave
state, `lD` and `lC` of a Dijkstra–Scholten state. -/
def units (e : EpochType) : ℤ × ℤ :=
  if isDS e then ((d.term e).map (·.loc)).getD 0
  else ((d.epochState e).map (·.loc)).getD 0

/-- The dependencies that keep a wave epoch from submitting. -/
def deps (e : EpochType) : ℤ := ((d.epochState e).map (·.deps)).getD 0

@[simp] theorem propagateEpoch_frame (isRoot : Bool) (st : TermState) :
    (st.propagateEpoch isRoot).1.loc = st.loc ∧ (st.propagateEpoch isRoot).1.deps = st.deps := by
  unfold TermState.propagateEpoch
  repeat' split
  all_goals exact ⟨rfl, rfl⟩

@[simp] theorem propagateReady_frame :
    (propagateReady I st).loc = st.loc ∧ (propagateReady I st).deps = st.deps := by
  unfold propagateReady
  split
  · exact propagateEpoch_frame I.isRoot st
  · exact ⟨rfl, rfl⟩

/-- What a call of `produceConsume` adds to the units of its epoch. -/
def change (produce : Bool) : ℤ × ℤ :=
  if produce then (numUnits, 0) else (0, numUnits)

@[simp] theorem loc_produceConsumeState (n : ℕ) (b : Bool) :
    (produceConsumeState I st n b).loc = st.loc + change n b := by
  rw [produceConsumeState, (propagateReady_frame _).1]
  cases b <;> simp [TermState.addUnits, TermState.loc, change]

@[simp] theorem deps_produceConsumeState (n : ℕ) (b : Bool) :
    (produceConsumeState I st n b).deps = st.deps := by
  rw [produceConsumeState, (propagateReady_frame _).2]
  cases b <;> rfl

variable (d : NodeDetector I)

theorem loc_findOrCreateState {e : EpochType} (he : isDS e = false) (b : Bool) :
    (d.findOrCreateState e b).loc = d.units e := by
  rw [units, he, findOrCreateState]
  cases d.epochState e <;> rfl

theorem deps_findOrCreateState (e : EpochType) (b : Bool) :
    (d.findOrCreateState e b).deps = d.deps e := by
  rw [deps, findOrCreateState]
  cases d.epochState e <;> rfl

theorem units_setState {x : EpochType} (hx : isDS x = false) (st : TermState) (e : EpochType) :
    (d.setState x st).units e = if e = x then st.loc else d.units e := by
  by_cases he : e = x
  · subst he
    simp [units, setState, hx]
  · simp [units, setState, he]

variable (x : EpochType)

theorem deps_setState (st : TermState) (e : EpochType) :
    (d.setState x st).deps e = if e = x then st.deps else d.deps e := by
  by_cases he : e = x
  · subst he
    simp [deps, setState]
  · simp [deps, setState, he]

theorem units_setDSTerm {x : EpochType} (hx : isDS x = true) (t : OwnDS I) (e : EpochType) :
    (d.setDSTerm x t).units e = if e = x then t.loc else d.units e := by
  by_cases he : e = x
  · subst he
    simp [units, setDSTerm, hx]
  · simp [units, setDSTerm, he]

theorem loc_getDSTerm {x : EpochType} (hx : isDS x = true) (b : Bool) :
    (d.getDSTerm x b).loc = d.units x := by
  rw [units, hx, getDSTerm]
  cases d.term x <;> rfl

/-- A call counts on its epoch and on no other. -/
theorem units_produceConsume {x : EpochType} (hx : x ≠ anyEpochSentinel) (n : ℕ) (b : Bool)
    (e : EpochType) :
    (d.produceConsume x n b).units e = if e = x then d.units e + change n b else d.units e := by
  unfold produceConsume
  rw [if_neg hx]
  cases hds : isDS x with
  | false =>
    have hloc := loc_findOrCreateState
      { d with anyEpochState := produceConsumeState I d.anyEpochState n b } hds false
    simp only [Bool.false_eq_true, if_false]
    rw [units_setState _ hds, loc_produceConsumeState, hloc]
    split
    · next he => rw [he]; rfl
    · rfl
  | true =>
    have hloc := loc_getDSTerm
      { d with anyEpochState := produceConsumeState I d.anyEpochState n b } hds false
    simp only [if_true]
    rw [units_setDSTerm _ hds]
    split
    · next he =>
      rw [he]
      cases b
      · exact (OwnDS.loc_msgProcessed _ n).trans (congrArg (· + change n false) hloc)
      · exact (OwnDS.loc_msgSent _ n).trans (congrArg (· + change n true) hloc)
    · rfl

@[simp] theorem deps_produceConsume (n : ℕ) (b : Bool) (e : EpochType) :
    (d.produceConsume x n b).deps e = d.deps e := by
  unfold produceConsume
  have hdeps := deps_findOrCreateState
    { d with anyEpochState := produceConsumeState I d.anyEpochState n b } x false
  split
  · rfl
  · split
    · rfl
    · rw [deps_setState, deps_produceConsumeState, hdeps]
      split
      · next he => rw [he]; rfl
      · rfl

@[simp] theorem loc_any_produceConsume (n : ℕ) (b : Bool) :
    (d.produceConsume x n b).anyEpochState.loc = d.anyEpochState.loc + change n b := by
  rw [← loc_produceConsumeState (I := I)]
  unfold produceConsume
  split
  · rfl
  · split <;> rfl

@[simp] theorem maybePropagate_frame (e : EpochType) : d.maybePropagate.units e = d.units e ∧
    d.maybePropagate.deps e = d.deps e := by
  simp only [units, deps, maybePropagate, Option.map_map]
  cases d.epochState e <;> simp

@[simp] theorem loc_any_maybePropagate : d.maybePropagate.anyEpochState.loc = d.anyEpochState.loc :=
  (propagateReady_frame d.anyEpochState).1

end NodeDetector
end VtRuntime.Termination
