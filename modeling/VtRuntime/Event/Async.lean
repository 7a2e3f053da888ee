import VtRuntime.Lib.Run

/-!
# Asynchronous events

A node owns events of three kinds: an MPI request, a normal event that is triggered, and a parent
event that waits for its children.  An action is attached to an event on any node.  It is run at
once if the event is ready, and kept with the event if it is not.  If another node owns the event,
a normal event takes its place, and the owner is asked to send a message when the event is ready.

The action that sends this message keeps a pointer to the message that asked for it.  That message
is freed when its handler returns, and its memory may be used again before the action is called.

The actions of an event are run one after the other, and whatever is called from inside an action
happens before the next one.  So a node has a stack of the events whose actions it is running.
-/

namespace VtRuntime.Event

open Lib Function

/-- `EventType`: the owning node, and the identifier on this node. -/
abbrev EventId (N : Type) := N × ℕ

/-- `eEventRecord`. -/
inductive EventRecordType
  | mpi
  | parent
  | normal
  deriving DecidableEq

/-- `EventState`. -/
inductive EventState
  | ready
  | waiting
  | remote
  deriving DecidableEq

/-- An action: one of a user, with its number and the event that it was attached to, or the
`send_back_fun` of a node that is asked for an event.  The latter has a copy of the event, and a
pointer to the message.  Its `eventBack` is a book: what the message said when it came. -/
inductive Action (N : Type)
  | user (id : ℕ) (event : EventId N)
  | sendBack (event eventBack : EventId N) (slot : ℕ)
  deriving DecidableEq

/-- The message that an action points to. -/
def Action.slot {N : Type} : Action N → Option ℕ
  | .user .. => none
  | .sendBack _ _ slot => some slot

/-- `EventRecord`.  `proxyFor` is a book: the event of another node that the event stands for. -/
structure EventRecord (N : Type) where
  type : EventRecordType
  eventList : List (EventId N) := []
  proxyFor : Option (EventId N) := none

structure EventHolder (N : Type) where
  event : EventRecord N
  actions : List (Action N) := []

/-- A call of `executeActions`, and the actions that are still to be run. -/
structure Frame (N : Type) where
  event : ℕ
  rest : List (Action N)

/-- `AsyncEvent` on a node.  The two containers hold what is in the lookup table: the events that
need polling, and the normal ones. -/
structure EventNode (N : Type) where
  curEvent : ℕ := 0
  lookup : ℕ → Option (EventHolder N) := fun _ => none
  frames : List (Frame N) := []

/-- `EventCheckFinishedMsg` and `EventFinishedMsg`. -/
inductive EventMsg (N : Type)
  | checkFinished (event : EventId N) (sentFromNode : N) (eventBack : EventId N)
  | finished (event eventBack : EventId N)

/-- What has happened to the events: the requests that are complete, the normal events that are
triggered, and the children of the parent events. -/
structure Facts (N : Type) where
  complete : EventId N → Bool := fun _ => false
  children : EventId N → Option (List (EventId N)) := fun _ => none

/-- The event is ready: for a parent event, all its children are. -/
inductive Facts.Done {N : Type} (f : Facts N) : EventId N → Prop
  | complete {e : EventId N} : f.complete e = true → f.Done e
  | parent {e : EventId N} {cs : List (EventId N)} : f.children e = some cs →
      (∀ c ∈ cs, f.Done c) → f.Done e

/-- An action of a user was run, when these were the facts. -/
structure Ran (N : Type) where
  id : ℕ
  event : EventId N
  facts : Facts N

/-- The nodes, the messages in flight, and the memory of a node: the message that is or was last in
a slot, if no other data are there.  The answers of `MPI_Test` are among the facts.  The events to
which actions were attached and the actions run are books; `aborted` says that an assertion has
failed, or that memory was read that holds no such message. -/
structure EventSys (N : Type) where
  node : N → EventNode N := fun _ => {}
  inbox : N → List (EventMsg N) := fun _ => []
  memory : N → ℕ → Option (EventMsg N) := fun _ _ => none
  facts : Facts N := {}
  attached : List (EventId N) := []
  log : List (Ran N) := []
  aborted : Bool := false

/-- What users and MPI do.  Other data are stored in a slot that is free. -/
inductive EventCall (N : Type)
  | createMPIEvent (n : N)
  | createNormalEvent (n : N)
  | createParentEvent (n : N) (children : List (EventId N))
  | complete (e : EventId N)
  | attachAction (n : N) (e : EventId N)
  | makeReadyTrigger (e : EventId N)
  | overwrite (n : N) (slot : ℕ)

/-- What the runtime does.  A message that is delivered is in a slot that is free. -/
inductive EventRun (N : Type)
  | deliver (n : N) (i slot : ℕ)
  | poll (n : N) (event : ℕ)
  | act (n : N)
  | finish (n : N)

variable {N : Type} [DecidableEq N]

/-- `AsyncEvent::testEventComplete` with `EventRecord::testReady`, for parent events nested up to
the given depth.  The list of a parent event that is ready is not cleared, since its children stay
ready. -/
def testEventComplete (f : Facts N) (n : N) (x : EventNode N) : ℕ → EventId N → EventState
  | depth, e =>
    if e.1 ≠ n then .remote
    else
      match x.lookup e.2 with
      | none => .ready
      | some holder =>
        match holder.event.type with
        | .mpi => if f.complete e then .ready else .waiting
        | .normal => .waiting
        | .parent =>
          match depth with
          | 0 => .waiting
          | depth + 1 =>
            if holder.event.eventList.all fun c =>
              testEventComplete f n x depth c = .ready then .ready
            else .waiting

namespace EventNode

/-- The actions of an event are being run. -/
def Executing (x : EventNode N) (i : ℕ) : Prop := i ∈ x.frames.map (·.event)

instance (x : EventNode N) (i : ℕ) : Decidable (x.Executing i) :=
  inferInstanceAs (Decidable (_ ∈ _))

/-- The actions of an event that are still to be run. -/
def stored (x : EventNode N) (i : ℕ) : List (Action N) :=
  match x.frames.find? (·.event = i) with
  | some frame => frame.rest
  | none => (x.lookup i).elim [] (·.actions)

/-- The messages that actions which are still to be run point to. -/
def slots (x : EventNode N) : List ℕ :=
  (List.range x.curEvent).flatMap fun i => (x.stored i).filterMap (·.slot)

end EventNode

namespace EventSys

variable (s : EventSys N)

variable (n : N) (e : EventId N)

def holder : Option (EventHolder N) := (s.node e.1).lookup e.2

def setNode (x : EventNode N) : EventSys N :=
  { s with node := update s.node n x }

def setHolder (h : Option (EventHolder N)) : EventSys N :=
  s.setNode e.1 { s.node e.1 with lookup := update (s.node e.1).lookup e.2 h }

def send (dest : N) (msg : EventMsg N) : EventSys N :=
  { s with inbox := update s.inbox dest (s.inbox dest ++ [msg]) }

/-- An event is nested less deep than there are events. -/
def testEventComplete : EventState :=
  Event.testEventComplete s.facts n (s.node n) (s.node n).curEvent e

/-- `AsyncEvent::createEvent` on the node that will own the event. -/
def createEvent (h : EventHolder N) : EventSys N :=
  let x := s.node n
  s.setNode n
    { x with curEvent := x.curEvent + 1, lookup := update x.lookup x.curEvent (some h) }

/-- What is in a slot is replaced. -/
def place (slot : ℕ) (msg : Option (EventMsg N)) : EventSys N :=
  { s with memory := update s.memory n (update (s.memory n) slot msg) }

/-- An action is called.  The `send_back_fun` reads what is now where its message was. -/
def perform : Action N → EventSys N
  | .user id event => { s with log := s.log ++ [⟨id, event, s.facts⟩] }
  | .sendBack event _ slot =>
    match s.memory event.1 slot with
    | some (.checkFinished _ sentFromNode eventBack) =>
      if eventBack.1 = sentFromNode then s.send eventBack.1 (.finished event eventBack)
      else { s with aborted := true }
    | _ => { s with aborted := true }

/-- A normal event that takes the place of an event of another node. -/
def proxy (a : Action N) : EventHolder N :=
  { event := { type := .normal, proxyFor := some e }, actions := [a] }

/-- `AsyncEvent::attachAction` on node `n`. -/
def attachAction (a : Action N) : EventSys N :=
  match s.testEventComplete n e with
  | .ready => s.perform a
  | .waiting =>
    match s.holder e with
    | none => { s with aborted := true }
    | some h => s.setHolder e (some { h with actions := h.actions ++ [a] })
  | .remote =>
    let eventBack := (n, (s.node n).curEvent)
    (s.createEvent n (proxy e a)).send e.1 (.checkFinished e n eventBack)

/-- `EventHolder::executeActions` is called. -/
def executeActions (i : ℕ) (h : EventHolder N) : EventSys N :=
  s.setNode n { s.node n with frames := ⟨i, h.actions⟩ :: (s.node n).frames }

/-- `EventHolder::makeReadyTrigger`, up to the actions. -/
def makeReadyTrigger (h : EventHolder N) : EventSys N :=
  if h.event.type = .normal then
    { s with facts := { s.facts with complete := update s.facts.complete e true } }
      |>.executeActions e.1 e.2 h
  else { s with aborted := true }

/-- The handler `AsyncEvent::eventFinished`. -/
def eventFinished (eventBack : EventId N) : EventSys N :=
  if s.testEventComplete n eventBack = .waiting then
    match s.holder eventBack with
    | none => { s with aborted := true }
    | some h => s.makeReadyTrigger eventBack h
  else { s with aborted := true }

/-- The handler `AsyncEvent::checkEventFinished`, for a message in a slot. -/
def checkEventFinished (event eventBack : EventId N) (slot : ℕ) : EventSys N :=
  if event.1 = n then
    match s.testEventComplete n event with
    | .ready => s.perform (.sendBack event eventBack slot)
    | .waiting => s.attachAction n event (.sendBack event eventBack slot)
    | .remote => { s with aborted := true }
  else { s with aborted := true }

def receive (slot : ℕ) : EventMsg N → EventSys N
  | .checkFinished event _ eventBack => s.checkEventFinished n event eventBack slot
  | .finished _ eventBack => s.eventFinished n eventBack

/-- What users and MPI do.  A user attaches actions to events that exist or existed, and triggers an
event that waits and that was created for this. -/
def call : EventCall N → Option (EventSys N)
  | .createMPIEvent n => some (s.createEvent n { event := { type := .mpi } })
  | .createNormalEvent n => some (s.createEvent n { event := { type := .normal } })
  | .createParentEvent n children =>
    -- the children are added before anything else is done
    if ∀ c ∈ children, c.2 < (s.node c.1).curEvent then
      let e := (n, (s.node n).curEvent)
      let facts := { s.facts with children := update s.facts.children e (some children) }
      some ({ s with facts := facts }.createEvent n
        { event := { type := .parent, eventList := children } })
    else none
  | .complete e =>
    match s.holder e with
    | none => none
    | some h =>
      if h.event.type = .mpi then
        some { s with
          facts := { s.facts with complete := update s.facts.complete e true } }
      else none
  | .attachAction n e =>
    if e.2 < (s.node e.1).curEvent then
      some ({ s with attached := s.attached ++ [e] }.attachAction n e (.user s.attached.length e))
    else none
  | .makeReadyTrigger e =>
    match s.holder e with
    | none => none
    | some h =>
      if h.event.type = .normal ∧ h.event.proxyFor.isNone then some (s.makeReadyTrigger e h)
      else none
  | .overwrite n slot => some (s.place n slot none)

/-- What the runtime does.  `testEventsTrigger` goes through the events that need polling; an
iteration for an event that is ready is one step. -/
def run : EventRun N → Option (EventSys N)
  | .deliver n i slot =>
    (s.inbox n)[i]?.map fun msg =>
      ({ s with inbox := update s.inbox n ((s.inbox n).eraseIdx i) }.place n slot
        (some msg)).receive n slot msg
  | .poll n i =>
    match s.holder (n, i) with
    | none => none
    | some h =>
      if h.event.type ≠ .normal ∧ s.testEventComplete n (n, i) = .ready then
        some (s.executeActions n i h)
      else none
  | .act n =>
    match (s.node n).frames with
    | ⟨i, a :: rest⟩ :: frames =>
      some ((s.setNode n { s.node n with frames := ⟨i, rest⟩ :: frames }).perform a)
    | _ => none
  | .finish n =>
    match (s.node n).frames with
    | ⟨i, []⟩ :: frames =>
      -- the actions are cleared, and the event is removed
      some (s.setNode n { s.node n with
        frames := frames
        lookup := update (s.node n).lookup i none })
    | _ => none

def step : EventCall N ⊕ EventRun N → Option (EventSys N)
  | .inl a => s.call a
  | .inr a => s.run a

/-- If the event is a normal one, its actions are not being run. -/
def NotTriggering : Prop :=
  ∀ h ∈ s.holder e, h.event.type = .normal → ¬ (s.node e.1).Executing e.2

instance (e : EventId N) : Decidable (s.NotTriggering e) :=
  inferInstanceAs (Decidable (∀ h ∈ s.holder e, h.event.type = .normal → ¬ _))

/-- The children of a parent event are on its node.  No action is attached to a normal event, and
no event is triggered or polled, from inside its own actions.  The memory of a message is not used
again while an action that is still to be run points to it. -/
def OrderlyCall : EventCall N → Prop
  | .createParentEvent n children => ∀ c ∈ children, c.1 = n
  | .attachAction n e => n = e.1 → s.NotTriggering e
  | .makeReadyTrigger e => ¬ (s.node e.1).Executing e.2
  | .overwrite n slot => slot ∉ (s.node n).slots
  | _ => True

def OrderlyRun : EventRun N → Prop
  | .deliver n i slot => slot ∉ (s.node n).slots ∧
    ∀ msg ∈ (s.inbox n)[i]?,
      match msg with
      | .checkFinished event _ _ => s.NotTriggering event
      | .finished _ _ => True
  | .poll n i => ¬ (s.node n).Executing i
  | _ => True

def Orderly : EventCall N ⊕ EventRun N → Prop
  | .inl a => s.OrderlyCall a
  | .inr a => s.OrderlyRun a

instance : (a : EventRun N) → Decidable (s.OrderlyRun a)
  | .deliver n i slot =>
    match h : (s.inbox n)[i]? with
    | none => decidable_of_iff (slot ∉ (s.node n).slots) (by simp [OrderlyRun, h])
    | some (.checkFinished event _ _) =>
      decidable_of_iff (slot ∉ (s.node n).slots ∧ s.NotTriggering event)
        (by simp [OrderlyRun, h])
    | some (.finished _ _) =>
      decidable_of_iff (slot ∉ (s.node n).slots) (by simp [OrderlyRun, h])
  | .poll n i => inferInstanceAs (Decidable (¬ (s.node n).Executing i))
  | .act _ | .finish _ => .isTrue trivial

instance : (a : EventCall N ⊕ EventRun N) → Decidable (s.Orderly a)
  | .inl (.createMPIEvent _) | .inl (.createNormalEvent _) => .isTrue trivial
  | .inl (.createParentEvent _ children) => inferInstanceAs (Decidable (∀ c ∈ children, _ = _))
  | .inl (.complete _) => .isTrue trivial
  | .inl (.attachAction ..) => inferInstanceAs (Decidable (_ → s.NotTriggering _))
  | .inl (.makeReadyTrigger _) | .inl (.overwrite ..) => inferInstanceAs (Decidable (¬ _))
  | .inr a => inferInstanceAs (Decidable (s.OrderlyRun a))

end EventSys

/-- What is expected of the actions. -/
structure ActionsOnce (s : EventSys N) : Prop where
  /-- No assertion has failed. -/
  aborted : s.aborted = false
  /-- An action is run once, after it was attached. -/
  once : (s.log.map (·.id)).Nodup
  attached : ∀ r ∈ s.log, s.attached[r.id]? = some r.event
  /-- It is run when its event is ready. -/
  ready : ∀ r ∈ s.log, r.facts.Done r.event
  /-- The runtime comes to an end, and has run the actions of all events that are ready. -/
  runs : Ends (guarded EventSys.run EventSys.OrderlyRun) (fun s' =>
    ∀ id e, s'.attached[id]? = some e → s'.facts.Done e → id ∈ s'.log.map (·.id)) s

end VtRuntime.Event
