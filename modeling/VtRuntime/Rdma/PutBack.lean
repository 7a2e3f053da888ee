import VtRuntime.Rdma.State

/-!
# The acknowledgement of a put

The receiver of a put sends `PutBackMessage` to the node that asked for it.  The data comes with the
message, or is received into a buffer of the system and passed to the state, or is received into the
buffer of the user.  The last path does not test `send_back` as the others do.
-/

namespace VtRuntime.Rdma

def uninitializedDestination : ℤ := -1

/-- `PutMessage`, with the tag of its envelope. -/
structure PutMessage where
  tag : Tag
  opId : ℕ
  sendBack : ℤ
  mpiTagToRecv : Tag
  numBytes : ℕ
  offset : ℕ
  packedDirect : Bool
  dataPtr : ℕ

/-- The action that follows a put: the values that it captures. -/
structure PutAction where
  sendBack : ℤ
  opId : ℕ

/-- The messages that the action sends, with their destinations. -/
def PutAction.run (a : PutAction) : List (ℤ × ℕ) :=
  if a.sendBack ≠ uninitializedDestination then [(a.sendBack, a.opId)] else []

/-- The state of the handle on the receiver, with the fields of the default handler. -/
structure Receiver (F M : Type) where
  state : State F M PutAction
  usingDefaultPutHandler : Bool
  ptr : Option ℕ

namespace Receiver

variable {F M : Type} (r : Receiver F M)

def tryPutPtr : Option ℕ := if r.usingDefaultPutHandler then r.ptr else none

/-- The messages that are sent, unless a missing entry is dereferenced.  The action runs after a
function was called, and not if the request is parked. -/
def triggerPutRecvData (msg : PutMessage) (dataPtr numBytes : ℕ) : Option (List (ℤ × ℕ)) :=
  let info :=
    ⟨numBytes, msg.tag, some dataPtr, none, some ⟨msg.sendBack, msg.opId⟩, msg.offset, false⟩
  let state := r.state.putData info
  let calls := (state.registry .put).calls.drop (r.state.registry .put).calls.length
  if state.invalid then none
  else some (calls.flatMap fun c => (c.info.contAction.map (·.run)).getD [])

/-- A function is there for a put, or none has to be acknowledged. -/
def Serves (msg : PutMessage) : Prop :=
  r.state.invalid = false ∧
    if r.state.testReadyPutData msg.tag then ((r.state.registry .put).lookup msg.tag).isSome
    else msg.sendBack = uninitializedDestination

end Receiver

variable {F M : Type}

variable (now later : Receiver F M)

/-- The messages that a put sends in the end, unless an assertion fails.  `later` is the receiver
when the data has come, as `data`. -/
def putRecvMsg (data : ℕ × ℕ) (msg : PutMessage) : Option (List (ℤ × ℕ)) :=
  if msg.packedDirect then now.triggerPutRecvData msg msg.dataPtr msg.numBytes
  else if msg.mpiTagToRecv = noTag then none
  else match now.tryPutPtr with
    | none => later.triggerPutRecvData msg data.1 data.2
    -- the test is that of a number
    | some _ => some (if msg.sendBack ≠ 0 then [(msg.sendBack, msg.opId)] else [])

/-- One message to the node that asked for it, and none if no node did. -/
def PutMessage.acknowledgement (msg : PutMessage) : List (ℤ × ℕ) :=
  if msg.sendBack = uninitializedDestination then [] else [(msg.sendBack, msg.opId)]

/-- The data has a place to go to, and the node that asked is not one that the last path
mistakes. -/
def Acknowledges (msg : PutMessage) : Prop :=
  if msg.packedDirect then now.Serves msg
  else msg.mpiTagToRecv ≠ noTag ∧ match now.tryPutPtr with
    | none => later.Serves msg
    | some _ => msg.sendBack ≠ 0 ∧ msg.sendBack ≠ uninitializedDestination

theorem triggerPutRecvData_iff (r : Receiver F M) (msg : PutMessage) (dataPtr numBytes : ℕ) :
    r.triggerPutRecvData msg dataPtr numBytes = some msg.acknowledgement ↔ r.Serves msg := by
  rw [Receiver.triggerPutRecvData, Receiver.Serves, State.putData]
  cases r.state.testReadyPutData msg.tag with
  | true =>
    cases (r.state.registry .put).lookup msg.tag with
    | none => simp
    | some fn => simp [State.setRegistry, Registry.serve, PutAction.run, PutMessage.acknowledgement]
  | false => simp [State.setRegistry, Registry.park, PutMessage.acknowledgement]

/-- A put is acknowledged once, or not at all if no node asked for it, exactly under the
condition. -/
theorem put_acknowledged_iff (data : ℕ × ℕ) (msg : PutMessage) :
    putRecvMsg now later data msg = some msg.acknowledgement ↔ Acknowledges now later msg := by
  rw [putRecvMsg, Acknowledges]
  by_cases hdirect : msg.packedDirect = true
  · rw [if_pos hdirect, if_pos hdirect]
    exact triggerPutRecvData_iff now msg _ _
  rw [if_neg hdirect, if_neg hdirect]
  by_cases htag : msg.mpiTagToRecv = noTag
  · simp [htag]
  cases now.tryPutPtr with
  | none => simpa [htag] using triggerPutRecvData_iff later msg _ _
  | some ptr =>
    by_cases hzero : msg.sendBack = 0
    · simp [htag, hzero, PutMessage.acknowledgement, uninitializedDestination]
    · simp [htag, hzero, PutMessage.acknowledgement]

/-- Node 0 asks for a put into the buffer of the user and is not told that it was made. -/
theorem put_of_node_zero :
    let r : Receiver Unit Unit := ⟨{}, true, some 100⟩
    let msg : PutMessage := ⟨noTag, 7, 0, 3, 8, 0, false, 0⟩
    putRecvMsg r r (0, 0) msg = some [] ∧ msg.acknowledgement = [(0, 7)] := by
  decide

end VtRuntime.Rdma
