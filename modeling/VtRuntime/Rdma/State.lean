import VtRuntime.Lib.Run

/-!
# The state of an RDMA handle

A user registers functions that serve the gets and the puts on a handle: one for requests without a
tag, which may serve all tags, and one for each tag.  A request for which no function is registered
is parked.
-/

namespace VtRuntime.Rdma

/-- `TagType`. -/
abbrev Tag := ℤ

def noTag : Tag := -1

/-- The two kinds of requests. -/
inductive Kind
  | get
  | put
  deriving DecidableEq

/-- `rdma::Info`, with continuations from `A`. -/
structure Info (A : Type) where
  numBytes : ℕ
  tag : Tag
  dataPtr : Option ℕ
  cont : Option A
  contAction : Option A
  offset : ℕ
  isLocal : Bool

/-- A call of a registered function; `id` numbers the requests of a kind.  Without a message of the
user the function is given a message with the state. -/
structure Call (F M A : Type) where
  id : ℕ
  fn : F
  baseMsg : Option M
  info : Info A

/-- The functions that are registered for one kind of requests.  The vectors of parked requests are
one list, since a request holds its tag.  `requests` and `calls` are books. -/
structure Registry (F M A : Type) where
  thisRdmaHandler : Option ℕ := none
  anyTag : Bool := false
  rdmaFn : Option F := none
  tagHolder : Tag → Option (F × ℕ) := fun _ => none
  pendingTag : List (ℕ × Info A) := []
  userStateMsg : Option M := none
  requests : ℕ := 0
  calls : List (Call F M A) := []

/-- What is called on a state.  A call for a type that stands for both kinds is two calls. -/
inductive Act (F M A : Type)
  | getData (info : Info A)
  | putData (info : Info A)
  | setRDMAGetFn (msg : Option M) (fn : F) (anyTag : Bool) (tag : Tag)
  | setRDMAPutFn (msg : Option M) (fn : F) (anyTag : Bool) (tag : Tag)
  | unregisterRdmaType (type : Kind) (tag : Tag) (useDefault : Bool)
  | unregisterRdmaHandler (handler : ℕ) (tag : Tag)

/-- `rdma::State`, with the next handler of the manager.  `invalid` says that a missing entry was
dereferenced, and `history` is a book of the calls; one for a handler is in it as calls for the
kinds that have the handler. -/
structure State (F M A : Type) where
  registry : Kind → Registry F M A := fun _ => {}
  curRdmaHandler : ℕ := 1
  invalid : Bool := false
  history : List (Act F M A) := []

variable {F M A : Type}

namespace Registry

variable (r : Registry F M A)

/-- The function that serves a tag. -/
def lookup (tag : Tag) : Option F :=
  if tag = noTag ∨ r.anyTag = true then r.rdmaFn else (r.tagHolder tag).map (·.1)

/-- The next request is passed to `fn`. -/
def serve (fn : F) (info : Info A) : Registry F M A :=
  { r with
    calls := r.calls ++ [⟨r.requests, fn, r.userStateMsg, info⟩]
    requests := r.requests + 1 }

/-- The next request is parked. -/
def park (info : Info A) : Registry F M A :=
  { r with
    pendingTag := r.pendingTag ++ [(r.requests, info)]
    requests := r.requests + 1 }

/-- The function without a tag, or that for a tag, is replaced. -/
def assign (f : Option (F × ℕ)) (anyTag : Bool) (tag : Tag) : Registry F M A :=
  if tag = noTag then { r with rdmaFn := f.map (·.1), anyTag := anyTag }
  else { r with tagHolder := Function.update r.tagHolder tag f }

/-- A function is unregistered; the flag is left as it is. -/
def unregister (tag : Tag) : Registry F M A :=
  let handler := if tag = noTag then none else r.thisRdmaHandler
  assign { r with thisRdmaHandler := handler } none r.anyTag tag

/-- The handler under which the function is registered. -/
def handlerOf (tag : Tag) : Option ℕ :=
  if tag = noTag then r.thisRdmaHandler else (r.tagHolder tag).map (·.2)

end Registry

namespace State

variable (s : State F M A)

def setRegistry (k : Kind) (r : Registry F M A) : State F M A :=
  { s with registry := Function.update s.registry k r }

def testReadyGetData (tag : Tag) : Bool :=
  let get := s.registry .get
  let notReady :=
    ((tag = noTag ∨ get.anyTag = true) ∧ get.rdmaFn.isNone) ∨
      (tag ≠ noTag ∧ ¬ get.anyTag = true ∧ (get.tagHolder tag).isNone)
  ¬ notReady

def testReadyPutData (tag : Tag) : Bool :=
  let put := s.registry .put
  let notReady :=
    ((tag = noTag ∨ put.anyTag = true) ∧ put.rdmaFn.isNone) ∨
      -- the flag of the gets
      (tag ≠ noTag ∧ ¬ (s.registry .get).anyTag = true ∧ (put.tagHolder tag).isNone)
  ¬ notReady

def getData (info : Info A) : State F M A :=
  let get := s.registry .get
  if s.testReadyGetData info.tag then
    match get.lookup info.tag with
    | none => { s with invalid := true }
    | some fn =>
      -- the data is given to the continuation, or copied into the buffer
      if info.cont.isSome ∨ info.dataPtr.isSome then s.setRegistry .get (get.serve fn info)
      else s.setRegistry .get { get with requests := get.requests + 1 }
  else s.setRegistry .get (get.park info)

def putData (info : Info A) : State F M A :=
  let put := s.registry .put
  if s.testReadyPutData info.tag then
    match put.lookup info.tag with
    | none => { s with invalid := true }
    | some fn => s.setRegistry .put (put.serve fn info)
  else s.setRegistry .put (put.park info)

/-- The handler of a kind, which is allocated by the manager if there is none. -/
def makeRdmaHandler (k : Kind) : ℕ × State F M A :=
  match (s.registry k).thisRdmaHandler with
  | some handler => (handler, s)
  | none => (s.curRdmaHandler, { s with curRdmaHandler := s.curRdmaHandler + 1 })

/-- A function is registered for a kind of requests. -/
def setRDMAFn (k : Kind) (msg : Option M) (fn : F) (anyTag : Bool) (tag : Tag) : State F M A :=
  let (handler, s) := s.makeRdmaHandler k
  let r := { s.registry k with thisRdmaHandler := some handler, userStateMsg := msg }
  s.setRegistry k (r.assign (some (fn, handler)) anyTag tag)

def setRDMAGetFn : Option M → F → Bool → Tag → State F M A := s.setRDMAFn .get

def setRDMAPutFn : Option M → F → Bool → Tag → State F M A := s.setRDMAFn .put

/-- The function of a kind is unregistered. -/
def unregister (k : Kind) (tag : Tag) : State F M A :=
  { s.setRegistry k ((s.registry k).unregister tag) with
    history := s.history ++ [.unregisterRdmaType k tag false] }

def unregisterRdmaHandler (handler : ℕ) (tag : Tag) : State F M A :=
  let s' := if (s.registry .get).handlerOf tag = some handler then s.unregister .get tag else s
  if tag = noTag then
    if (s.registry .put).handlerOf tag = some handler then s'.unregister .put tag else s'
  else if ((s.registry .put).tagHolder tag).isSome ∧ ((s'.registry .get).tagHolder tag).isNone then
    -- the handler is read from the entry of the gets, which is not there
    { s' with invalid := true }
  else s'

/-- The calls whose assertions on their arguments hold: a function for any tag is registered without
a tag, and a put has no continuation. -/
def call : Act F M A → Option (State F M A)
  | .getData info => some (s.getData info)
  | .putData info => if info.cont.isNone then some (s.putData info) else none
  | .setRDMAGetFn msg fn anyTag tag =>
    if anyTag = true → tag = noTag then some (s.setRDMAGetFn msg fn anyTag tag) else none
  | .setRDMAPutFn msg fn anyTag tag =>
    if anyTag = true → tag = noTag then some (s.setRDMAPutFn msg fn anyTag tag) else none
  | _ => none

def step : Act F M A → Option (State F M A)
  | .unregisterRdmaType k tag useDefault =>
    some (s.unregister k (if useDefault then noTag else tag))
  | .unregisterRdmaHandler handler tag => some (s.unregisterRdmaHandler handler tag)
  | a => (s.call a).map fun s' => { s' with history := s.history ++ [a] }

end State

end VtRuntime.Rdma
