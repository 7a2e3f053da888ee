import VtRuntime.Lib.Run
import VtRuntime.Lib.Sum

/-!
# The element of an index

What the nodes hold of one index of a collection.  An element is made by `insert`: the home of the
index decides, by its location record, whether there is one already.  It is moved by `migrateOut`
and `migrateIn`, and it is removed by a unit that `destroyElm` puts in the queue of the scheduler
of the node where it is.

The tables of the source are keyed by the index, and nothing is shared between two indices.  A
collection is a family of these states.
-/

namespace VtRuntime.Collection

open Lib Function

/-- What the listeners of a collection are told. -/
inductive ElementEvent
  | created
  | destroyed
  | migratedIn
  | migratedOut
  deriving DecidableEq

structure InsertMsg (N E : Type) where
  constructNode : N
  insertEpoch : E
  pinged : Bool
  deriving DecidableEq

/-- The messages about an index.  The destroy message is routed, so it has no destination. -/
inductive Msg (N E : Type)
  | insert (m : InsertMsg N E)
  | pingHome (m : InsertMsg N E)
  | destroyElm (modifierEpoch : E)
  | migrate (dest : N)
  | updateLocation
  deriving DecidableEq

/-- What the nodes hold of an index.  `existsAt` is `Holder::exists`.  `homeRec` says whether the
location manager of the home has a record: those of other nodes are not asked.  `units` are the
tokens of the units that `destroyElm` has put in the queues of the schedulers.  A book says whether
an element is due because an insert was issued while there was none. -/
structure IndexState (N E : Type) where
  existsAt : N → Bool := fun _ => false
  registered : N → Bool := fun _ => false
  homeRec : Bool := false
  msgs : List (Msg N E) := []
  units : N → List E := fun _ => []
  events : List (ElementEvent × N) := []
  failed : Bool := false
  due : Bool := false

/-- What can happen to an index: the calls of users, the delivery of a message on a node, a unit of
the scheduler that is run, and an update of the record of the home by `handleEagerUpdate`. -/
inductive Act (N E : Type)
  | insert (n : N) (node : Option N) (token : E)
  | destroyElm (n : N) (token : E)
  | migrateOut (n dest : N)
  | deliver (n : N) (m : Msg N E)
  | runUnit (n : N) (token : E)
  | handleEagerUpdate
  deriving DecidableEq

/-- The node where something happens to an index. -/
def Act.node {N E : Type} (home : N) : Act N E → N
  | .insert n _ _ | .destroyElm n _ | .migrateOut n _ | .deliver n _ | .runUnit n _ => n
  | .handleEagerUpdate => home

namespace Msg

variable {N E : Type}

/-- A message of an insert that is not complete. -/
def isInsert : Msg N E → Bool
  | .insert _ | .pingHome _ => true
  | _ => false

def isMigrate : Msg N E → Bool
  | .migrate _ => true
  | _ => false

/-- The message with which the home accepts an insert. -/
def isPinged : Msg N E → Bool
  | .insert m => m.pinged
  | _ => false

end Msg

namespace IndexState

variable {N E : Type}

section Code

variable [DecidableEq N] (s : IndexState N E) (home n : N)

/-- `isCached`, on the home. -/
def isCached : Bool := s.homeRec

def send (m : Msg N E) : IndexState N E := { s with msgs := m :: s.msgs }

def applyListeners (event : ElementEvent) : IndexState N E :=
  { s with events := s.events ++ [(event, n)] }

/-- The pending actions that it triggers are deliveries of routed messages. -/
def registerEntity : IndexState N E :=
  let s := { s with
    failed := s.failed || s.registered n
    registered := update s.registered n true
    homeRec := s.homeRec || home = n }
  if home ≠ n then s.send .updateLocation else s

/-- The record is made for the node that is to construct the element. -/
def registerEntityRemote : IndexState N E :=
  { s with
    failed := s.failed || s.registered n || home ≠ n
    homeRec := s.homeRec || home = n }

def unregisterEntity : IndexState N E :=
  { s with
    failed := s.failed || !s.registered n
    registered := update s.registered n false
    homeRec := s.homeRec && home ≠ n }

/-- `LocLookup::update` makes a record if there is none. -/
def entityEmigrated : IndexState N E :=
  { s with
    registered := update s.registered n false
    homeRec := s.homeRec || home = n }

/-- An element that exists here already is kept. -/
def insertCollectionElement (isMigratedIn : Bool) : IndexState N E :=
  if s.existsAt n then s
  else
    let s := ({ s with
      existsAt := update s.existsAt n true
      due := isMigratedIn && s.due } : IndexState N E)
    (s.registerEntity home n).applyListeners n (if isMigratedIn then .migratedIn else .created)

/-- What `insertCollectionElement` does on a node that has no element. -/
theorem insertCollectionElement_eq (isMigratedIn : Bool) (hn : s.existsAt n = false) :
    s.insertCollectionElement home n isMigratedIn =
      { s with
        existsAt := update s.existsAt n true
        registered := update s.registered n true
        homeRec := s.homeRec || home = n
        msgs := if home = n then s.msgs else .updateLocation :: s.msgs
        events := s.events ++ [(if isMigratedIn then .migratedIn else .created, n)]
        failed := s.failed || s.registered n
        due := isMigratedIn && s.due } := by
  rw [insertCollectionElement, hn]
  by_cases hhome : home = n <;> simp [registerEntity, hhome, applyListeners, send]

/-- `insert` on node `n`, called by a user or by `insertHandler`. -/
def insert (node : Option N) (token : E) (pinged : Bool) : IndexState N E :=
  let insertNode := node.getD home
  if insertNode = n then
    if pinged then s.insertCollectionElement home n false
    else if home = n then
      if s.existsAt n then s
      else if s.isCached then s
      else s.insertCollectionElement home n false
    else s.send (.pingHome ⟨insertNode, token, false⟩)
  else s.send (.insert ⟨insertNode, token, false⟩)

def pingHomeHandler (m : InsertMsg N E) : IndexState N E :=
  if s.isCached then s
  else
    (s.registerEntityRemote home home).send (.insert { m with pinged := true })

/-- `destroyElm` on node `n`, called by a user or by `destroyElmHandler`. -/
def destroyElm (token : E) : IndexState N E :=
  if s.existsAt n then { s with units := update s.units n (token :: s.units n) }
  else s.send (.destroyElm token)

/-- What a unit of `destroyElm` does. -/
def removeElm : IndexState N E :=
  if s.existsAt n then
    ({ s with existsAt := update s.existsAt n false } : IndexState N E).unregisterEntity home n
  else s

/-- What `destroyMatching` does on node `n`. -/
def destroyMatching : IndexState N E :=
  if s.existsAt n then
    { (s.applyListeners n .destroyed).unregisterEntity home n with
      existsAt := update s.existsAt n false }
  else s

def migrateOut (dest : N) : Option (IndexState N E) :=
  if s.existsAt n then
    some (((({ s with existsAt := update s.existsAt n false } : IndexState N E).send
      (.migrate dest)).entityEmigrated home n).applyListeners n .migratedOut)
  else none

/-- A message may be delivered on its destination, the destroy message where the location manager
has a registration. -/
def arrivesAt : Msg N E → Bool
  | .insert m => m.constructNode = n
  | .pingHome _ => home = n
  | .destroyElm _ => s.registered n
  | .migrate dest => dest = n
  | .updateLocation => home = n

/-- The handler of a message. -/
def receive : Msg N E → IndexState N E
  | .insert m => s.insert home n (some m.constructNode) m.insertEpoch m.pinged
  | .pingHome m => s.pingHomeHandler home m
  | .destroyElm token => s.destroyElm n token
  | .migrate _ => s.insertCollectionElement home n true
  | .updateLocation => { s with homeRec := true }

end Code

section Count

variable [Fintype N] (s : IndexState N E)

/-- The number of elements on the nodes. -/
def residents : ℕ := ∑ n, (s.existsAt n).toNat

/-- The elements on the nodes and on their way. -/
def live : ℕ := s.residents + s.msgs.countP Msg.isMigrate

/-- There is no element, and no insert is pending. -/
def isVacant : Bool := s.live = 0 && s.msgs.countP Msg.isInsert = 0

end Count

variable [DecidableEq N] [DecidableEq E]

/-- Take a message from the network. -/
def take (s : IndexState N E) (m : Msg N E) : IndexState N E := { s with msgs := s.msgs.erase m }

variable [Fintype N]

/-- A step of the index with the given home. -/
def step (home : N) (s : IndexState N E) : Act N E → Option (IndexState N E)
  | .insert n node token =>
      some ({ s with due := s.due || s.isVacant }.insert home n node token false)
  | .destroyElm n token => some (s.destroyElm n token)
  | .migrateOut n dest => s.migrateOut home n dest
  | .deliver n m =>
      if m ∈ s.msgs ∧ s.arrivesAt home n m then some ((s.take m).receive home n m) else none
  | .runUnit n token =>
      if token ∈ s.units n then
        some ({ s with units := update s.units n ((s.units n).erase token) }.removeElm home n)
      else none
  | .handleEagerUpdate => some { s with homeRec := true }

end IndexState

end VtRuntime.Collection
