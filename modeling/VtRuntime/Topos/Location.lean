import VtRuntime.Lib.Run
import VtRuntime.Epoch.Layout
import VtRuntime.Topos.Lookup
import Mathlib.Data.Finset.Basic

/-!
# The location manager

`EntityLocationCoord` on all nodes.  Entities are registered on nodes, migrate between them,
and get messages from anywhere.  A message is sent towards the node the entity is believed
to be on (eager protocol), or kept as a pending action until its node has been asked for.  A
message that arrives on a node where the entity is not registered is kept as a pending
action too.

The handlers of messages are code outside of the location manager, and they run in the middle
of its functions.  A node therefore has a stack `frames` of what it still has to do: while
`code` is on top, code outside of the location manager is running, and it may make any call
and run the scheduler; what is below is resumed when that code returns.
-/

namespace VtRuntime.Topos

open Lib Epoch

universe u

def defaultMaxCacheSize : ℕ := 4096

def smallMsgMaxSize : ℕ := 256

/-- A message to an entity.  The token is a book entry that tells it from all other messages.
The last fields are those of the envelope and of the type of the message. -/
structure EntityMsg (E N : Type u) where
  token : ℕ
  entity : E
  homeNode : N
  locFromNode : Option N
  handler : Option ℕ
  askNode : Option N
  isEpochType : Bool
  epoch : EpochType
  isSer : Bool
  size : ℕ

/-- The actions that wait for the location of an entity: those of `routeMsgNode` and of
`routePreparedMsg`, which have captured the message and its epoch, that of
`getLocationRequest`, which has captured where to send the answer, and one given to
`routeNonEagerAction`. -/
inductive Pending (E N : Type u)
  | routed (homeNode : N) (msg : EntityMsg E N) (epoch : EpochType)
  | lookup (msg : EntityMsg E N) (epoch : EpochType)
  | request (cb homeNode : N)
  | action

/-- What a node still has to do: wait for the return of `code` outside of the location
manager, run the end of a delivery (`eagerUpdate`) or of an action (`consume`), the rest of a
loop over pending actions, or the end of `registerEntity` (`tell`). -/
inductive Frame (E N : Type u)
  | code
  | eagerUpdate (id : E) (homeNode : N) (askNode : Option N)
  | consume (token : ℕ) (epoch : EpochType)
  | actions (id : E) (resolved : N) (rest : List (Pending E N))
  | tell (id : E) (home : N)

/-- What location managers send to each other. -/
inductive LocMsg (E N : Type u)
  | routed (msg : EntityMsg E N)
  | getLocationRequest (id : E) (homeNode cb : N)
  | updateLocation (id : E) (answer homeNode : N)
  | eagerUpdate (id : E) (homeNode deliverNode : N)

/-- The run of a handler, and whether the entity was registered. -/
structure Delivery where
  token : ℕ
  registered : Bool
deriving DecidableEq

namespace EntityMsg

variable {E N : Type u}

variable (m : EntityMsg E N)

/-- The epoch of a message when the current epoch is `cur`. -/
def getEpochContextMsg (cur : EpochType) : EpochType :=
  if m.isEpochType then
    if m.epoch ≠ noEpoch ∧ m.epoch ≠ anyEpochSentinel then m.epoch else cur
  else anyEpochSentinel

/-- Sending puts the epoch on a message that has none. -/
def setupEpochMsg (cur : EpochType) : EntityMsg E N :=
  if m.isEpochType ∧ m.epoch = noEpoch ∧ m.getEpochContextMsg cur ≠ anyEpochSentinel then
    { m with epoch := m.getEpochContextMsg cur }
  else m

def useEagerProtocol : Bool :=
  if m.isSer then false else m.size < smallMsgMaxSize

end EntityMsg

/-- The location manager of the node `here`.  The messages it has sent stay in its outbox until
they are delivered.  The last group of fields are books: the units that it has produced and
consumed for messages, and the handlers it has run. -/
structure Coord (E N : Type u) where
  here : N
  localRegistered : Finset E
  localRegisteredMsgHan : Finset E
  recs : LocLookup E (LocRecord E N) N
  pendingLookups : List (E × Pending E N)
  locAsks : List (E × N)
  frames : List (Frame E N)
  outbox : List (N × LocMsg E N)
  produced : List (ℕ × EpochType)
  consumed : List (ℕ × EpochType)
  delivered : List Delivery

namespace Coord

variable {E N : Type u}

def init (n : N) : Coord E N where
  here := n
  localRegistered := ∅
  localRegisteredMsgHan := ∅
  recs := ⟨n, fun _ => none, { maxSize := defaultMaxCacheSize }⟩
  pendingLookups := []
  locAsks := []
  frames := []
  outbox := []
  produced := []
  consumed := []
  delivered := []

variable (c : Coord E N)

/-- Code outside of the location manager is in control. -/
def free : Bool :=
  match c.frames with
  | [] => true
  | .code :: _ => true
  | _ => false

def push (fs : List (Frame E N)) : Coord E N :=
  { c with frames := fs ++ c.frames }

def send (n : N) (msg : LocMsg E N) : Coord E N :=
  { c with outbox := c.outbox ++ [(n, msg)] }

def produce (token : ℕ) (epoch : EpochType) : Coord E N :=
  { c with produced := (token, epoch) :: c.produced }

def consume (token : ℕ) (epoch : EpochType) : Coord E N :=
  { c with consumed := (token, epoch) :: c.consumed }

def insertPendingEntityAction (id : E) (p : Pending E N) : Coord E N :=
  { c with pendingLookups := c.pendingLookups ++ [(id, p)] }

variable [DecidableEq E] [DecidableEq N]

variable (c : Coord E N) (id : E) (homeNode : N) (m : EntityMsg E N) (cur : EpochType)

def insertRec (home : N) (state : LocState) (n : N) : Coord E N :=
  { c with recs := c.recs.insert id home ⟨id, state, n⟩ }

/-- The pending actions of an entity. -/
def lookups : List (Pending E N) :=
  (c.pendingLookups.filter fun x => x.1 = id).map Prod.snd

/-- Extract the pending actions of an entity and run them with its node. -/
def resolve (n : N) : Coord E N :=
  { c with
    pendingLookups := c.pendingLookups.filter fun x => x.1 ≠ id
    frames := .actions id n (c.lookups id) :: c.frames }

def sendEagerUpdate (askNode homeNode deliverNode : N) : Coord E N :=
  if askNode ≠ c.here then c.send askNode (.eagerUpdate id homeNode deliverNode) else c

/-! ## Routing -/

/-- Enter the run of a handler into the books. -/
def deliver (token : ℕ) : Coord E N :=
  { c with delivered := ⟨token, id ∈ c.localRegistered⟩ :: c.delivered }

/-- The closure `trigger_msg_handler_action` of `routeMsgNode`: run the handler of the message,
or the one of the registration. -/
def triggerMsgHandlerAction (hid : E) : Option (Coord E N) :=
  if m.handler.isSome ∨ hid ∈ c.localRegisteredMsgHan then
    some ((c.deliver hid m.token).push [.code, .eagerUpdate hid homeNode m.askNode])
  else none

/-- Remember the node that sent the message here. -/
def insertAsk : Option N → Coord E N
  | none => c
  | some n => { c with locAsks := c.locAsks.insert (id, n) }

def routeMsgNode (homeNode toNode : N) (m : EntityMsg E N) (cur : EpochType) : Option (Coord E N) :=
  if toNode ≠ c.here then
    some ((c.insertAsk id m.askNode).send toNode
      (.routed ({ m with askNode := some c.here }.setupEpochMsg cur)))
  else if id ∈ c.localRegistered then
    ((c.produce m.token (m.getEpochContextMsg cur)).push
      [.consume m.token (m.getEpochContextMsg cur)]).triggerMsgHandlerAction homeNode m id
  else
    some ((c.produce m.token (m.getEpochContextMsg cur)).insertPendingEntityAction id
      (.routed homeNode m (m.getEpochContextMsg cur)))

/-- Run a pending action.  The epoch it has captured is current meanwhile. -/
def runAction (resolved : N) : Pending E N → Option (Coord E N)
  | .routed homeNode m epoch =>
      if resolved = c.here then
        (c.push [.consume m.token epoch]).triggerMsgHandlerAction homeNode m id
      else (c.push [.consume m.token epoch]).routeMsgNode id homeNode resolved m epoch
  | .lookup m epoch =>
      (c.push [.consume m.token epoch]).routeMsgNode m.entity m.homeNode resolved m epoch
  | .request cb homeNode => some (c.send cb (.updateLocation id resolved homeNode))
  | .action => some (c.push [.code])

def getLocation (p : Pending E N) : Option (Coord E N) :=
  if id ∈ c.localRegistered then
    (c.insertRec id homeNode .localTo c.here).runAction id c.here p
  else if c.recs.existsKey id then
    (c.recs.get id).bind fun (r, recs) =>
      -- a record of an entity on this node would fail an assertion
      if r.isLocal then none else { c with recs := recs }.runAction id r.getRemoteNode p
  else if homeNode ≠ c.here then
    some ((c.send homeNode (.getLocationRequest id homeNode c.here)).insertPendingEntityAction
      id p)
  else some (c.insertPendingEntityAction id p)

def routeMsgEager : Option (Coord E N) :=
  if id ∈ c.localRegistered then
    (c.insertRec id homeNode .localTo c.here).routeMsgNode id homeNode c.here m cur
  else if c.recs.existsKey id then
    (c.recs.get id).bind fun (r, recs) =>
      { c with recs := recs }.routeMsgNode id homeNode
        (if r.isLocal then c.here else r.getRemoteNode) m cur
  else c.routeMsgNode id homeNode (if homeNode ≠ c.here then homeNode else c.here) m cur

def routePreparedMsg : Option (Coord E N) :=
  if m.useEagerProtocol then
    c.routeMsgEager m.entity m.homeNode m (m.getEpochContextMsg cur)
  else
    (c.produce m.token (m.getEpochContextMsg cur)).getLocation m.entity m.homeNode
      (.lookup m (m.getEpochContextMsg cur))

def routeMsg (fromNode : Option N) (cur : EpochType) : Option (Coord E N) :=
  c.routePreparedMsg
    { m with entity := id, homeNode := homeNode, locFromNode := some (fromNode.getD c.here) } cur

def routeMsgHandlerLocal : Coord E N :=
  (c.deliver m.entity m.token).push [.code]

def routePreparedMsgHandler : Option (Coord E N) :=
  if m.entity ∉ c.localRegistered then c.routePreparedMsg m cur
  else some (c.routeMsgHandlerLocal m)

def routeMsgHandler (handler : ℕ) (m : EntityMsg E N) (cur : EpochType) : Option (Coord E N) :=
  c.routePreparedMsgHandler
    { m with handler := some handler, entity := id, homeNode := homeNode,
             locFromNode := some c.here } cur

def routeNonEagerAction : Option (Coord E N) :=
  c.getLocation id homeNode .action

def routedHandler : Option (Coord E N) :=
  c.routeMsg m.entity m.homeNode m m.locFromNode cur

/-! ## Registration and location updates -/

/-- Store the handler of a registration, if it comes with one. -/
def emplaceHandler (msgAction : Bool) : Coord E N :=
  if msgAction then { c with localRegisteredMsgHan := insert id c.localRegisteredMsgHan } else c

def setRegistered (ids : Finset E) : Coord E N :=
  { c with localRegistered := ids }

def registerEntity (home : N) (msgAction : Bool) : Option (Coord E N) :=
  if id ∉ c.localRegistered then
    some (((((c.setRegistered (insert id c.localRegistered)).insertRec id home .localTo
      c.here).emplaceHandler id msgAction).push [.tell id home]).resolve id c.here)
  else none

def registerEntityRemote (home createNode : N) (msgAction : Bool) : Option (Coord E N) :=
  if id ∉ c.localRegistered ∧ home = c.here then
    some ((c.insertRec id home .remote createNode).emplaceHandler id msgAction)
  else none

def unregisterEntity : Option (Coord E N) :=
  if id ∈ c.localRegistered then
    some { c.setRegistered (c.localRegistered.erase id) with
      recs := if c.recs.existsKey id then c.recs.remove id else c.recs
      localRegisteredMsgHan := c.localRegisteredMsgHan.erase id }
  else none

def entityEmigrated (newNode : N) : Coord E N :=
  { c.setRegistered (c.localRegistered.erase id) with
    recs := c.recs.update id ⟨id, .remote, newNode⟩ }

def entityImmigrated (msgAction : Bool) : Option (Coord E N) :=
  c.registerEntity id homeNode msgAction

def clearCache : Coord E N :=
  { c with recs := c.recs.clearCache defaultMaxCacheSize }

def updatePendingRequest (n homeNode : N) : Coord E N :=
  (c.insertRec id homeNode .remote n).resolve id n

/-- The nodes that have asked about an entity are told where it is. -/
def answerAsks (homeNode deliverNode : N) : Coord E N :=
  let told := ((c.locAsks.filter fun x => x.1 = id).map Prod.snd).foldl
    (fun c n => c.sendEagerUpdate id n homeNode deliverNode) c
  { told with locAsks := told.locAsks.filter fun x => x.1 ≠ id }

def handleEagerUpdate (homeNode deliverNode : N) : Option (Coord E N) :=
  if c.here ≠ deliverNode then
    some ((c.insertRec id homeNode .remote deliverNode).answerAsks id homeNode deliverNode)
  else none

/-- The handler of a message; `cur` is the epoch current in it. -/
def receive : LocMsg E N → Option (Coord E N)
  | .routed m => c.routedHandler m cur
  | .getLocationRequest id homeNode cb => c.getLocation id homeNode (.request cb homeNode)
  | .updateLocation id answer homeNode => some (c.updatePendingRequest id answer homeNode)
  | .eagerUpdate id homeNode deliverNode => c.handleEagerUpdate id homeNode deliverNode

/-- Continue with a frame that has been taken from the stack. -/
def resumeFrame : Frame E N → Option (Coord E N)
  | .code => some c
  | .eagerUpdate _ _ none => some c
  | .eagerUpdate id homeNode (some askNode) =>
      some (c.sendEagerUpdate id askNode homeNode c.here)
  | .consume token epoch => some (c.consume token epoch)
  | .actions _ _ [] => some c
  | .actions id resolved (p :: rest) =>
      (c.push [.actions id resolved rest]).runAction id resolved p
  | .tell id home =>
      some (if home ≠ c.here then c.send home (.updateLocation id c.here home) else c)

/-- Continue with the frame on top of the stack. -/
def resume : Option (Coord E N) :=
  match c.frames with
  | [] => none
  | f :: fs => { c with frames := fs }.resumeFrame f

end Coord

/-! ## The system -/

/-- The calls made by code outside of the location manager. -/
inductive Call (E N : Type u)
  | registerEntity (id : E) (home : N) (msgAction : Bool)
  | registerEntityRemote (id : E) (home createNode : N) (msgAction : Bool)
  | unregisterEntity (id : E)
  | entityEmigrated (id : E) (newNode : N)
  | entityImmigrated (id : E) (homeNode : N) (msgAction : Bool)
  | clearCache
  | routeNonEagerAction (id : E) (homeNode : N)
  | routeMsg (id : E) (homeNode : N) (msg : EntityMsg E N) (fromNode : Option N)
      (cur : EpochType)
  | routeMsgHandler (id : E) (homeNode : N) (handler : ℕ) (msg : EntityMsg E N)
      (cur : EpochType)

/-- The number of messages that a call routes. -/
def Call.messages {E N : Type u} : Call E N → ℕ
  | .routeMsg .. => 1
  | .routeMsgHandler .. => 1
  | _ => 0

/-- Run a call.  A message it routes gets the given token. -/
def Coord.invoke {E N : Type u} [DecidableEq E] [DecidableEq N] (c : Coord E N) (token : ℕ) :
    Call E N → Option (Coord E N)
  | .registerEntity id home act => c.registerEntity id home act
  | .registerEntityRemote id home n act => c.registerEntityRemote id home n act
  | .unregisterEntity id => c.unregisterEntity id
  | .entityEmigrated id n => some (c.entityEmigrated id n)
  | .entityImmigrated id home act => c.entityImmigrated id home act
  | .clearCache => some c.clearCache
  | .routeNonEagerAction id home => c.routeNonEagerAction id home
  | .routeMsg id home m from? cur => c.routeMsg id home { m with token := token } from? cur
  | .routeMsgHandler id home han m cur =>
      c.routeMsgHandler id home han { m with token := token } cur

/-- All nodes, and the number of messages that have been routed. -/
structure LocSys (E N : Type u) where
  coords : N → Coord E N
  routed : ℕ

/-- A call on a node, the continuation of what a node still has to do, and the delivery of a
message from the outbox of a node. -/
inductive LocAct (E N : Type u)
  | call (n : N) (k : Call E N)
  | resume (n : N)
  | deliver (sender : N) (i : ℕ) (cur : EpochType)

namespace LocSys

variable {E N : Type u} [DecidableEq E] [DecidableEq N]

variable (s : LocSys E N)

def setCoord (n : N) (c : Coord E N) : LocSys E N :=
  { s with coords := Function.update s.coords n c }

/-- Take a message from the outbox of its sender. -/
def take (sender : N) (i : ℕ) : LocSys E N :=
  s.setCoord sender { s.coords sender with outbox := (s.coords sender).outbox.eraseIdx i }

def step : LocAct E N → Option (LocSys E N)
  | .call n k =>
      if (s.coords n).free then
        ((s.coords n).invoke s.routed k).map fun c =>
          { s.setCoord n c with routed := s.routed + k.messages }
      else none
  | .resume n => (s.coords n).resume.map fun c => s.setCoord n c
  | .deliver sender i cur =>
      ((s.coords sender).outbox[i]?).bind fun (n, msg) =>
        if (s.coords n).free then
          (((s.take sender i).coords n).receive cur msg).map fun c =>
            (s.take sender i).setCoord n c
        else none

def start : LocSys E N := ⟨Coord.init, 0⟩

def Init : Prop := s = start

def Reachable (ok : LocSys E N → LocAct E N → Prop) : LocSys E N → Prop :=
  Reach Init step ok

end LocSys

end VtRuntime.Topos
