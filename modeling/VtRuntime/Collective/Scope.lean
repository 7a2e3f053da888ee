import VtRuntime.Collective.Reduce

/-!
# Scopes of MPI collectives

An MPI collective has to be entered by all nodes in one order.  A node plans a collective in a scope
by `mpiCollectiveAsync` and contributes to a reduction.  The root of the reduction broadcasts
`runCollective` when all nodes have contributed.  These messages come to the nodes in different
orders, so each call of `runCollective` begins with a consensus: the root tells all nodes which
collective to run.  A message that comes meanwhile is postponed.

The consensus is an `MPI_Ibcast` and an `MPI_Ibarrier`.  MPI matches these calls by their order on
the nodes: the number of a round on a node is the number of calls of `runCollective` it has begun.
-/

namespace VtRuntime.Collective

open Lib

/-- A collective: its scope, and its number in the scope. -/
structure CollId where
  isUserTag : Bool
  scope : ℕ
  seq : ℕ
deriving DecidableEq

/-- The scope of a collective. -/
def CollId.key (c : CollId) : Bool × ℕ := (c.isUserTag, c.scope)

/-- The stamp of the reduction: a `TagPair`. -/
def CollId.stamp (c : CollId) : ℕ × ℕ := (c.scope, c.seq)

/-- `detail::ScopeImpl`: the collectives planned, with their epochs. -/
structure ScopeImpl (E : Type) where
  live : Bool := true
  nextSeq : ℕ := 1
  plannedCollective : List (ℕ × E) := []

/-- The operation of a consensus that a node waits for. -/
inductive Phase
  | bcast
  | barrier
deriving DecidableEq

/-- A node.  The books: the messages for which it began a consensus, the collectives executed, and
those planned and consumed with their epochs. -/
structure ScopeNode (E : Type) where
  scopes : Bool × ℕ → Option (ScopeImpl E) := fun _ => none
  /-- `reenter_counter_`, and where the call is. -/
  running : Option Phase := none
  postponedCollectives : List CollId := []
  begun : List CollId := []
  executed : List CollId := []
  produced : List (CollId × E) := []
  consumed : List (CollId × E) := []

namespace ScopeNode

variable {E : Type} (x : ScopeNode E)

/-- The collectives that the node has planned. -/
def planned : List CollId := x.produced.map (·.1)

/-- The rounds that are over. -/
def completed : ℕ := x.begun.length - if x.running.isSome then 1 else 0

/-- The barriers that the node has entered. -/
def entered : ℕ := x.begun.length - if x.running = some .bcast then 1 else 0

end ScopeNode

/-- The nodes, the reducer and the messages in flight.  `decided` is what the root has broadcast in
its rounds; `aborted` says that an assertion has failed. -/
structure ScopeSys (N E : Type) where
  node : N → ScopeNode E
  reduce : ReduceSys N N (ℕ × ℕ) Unit CollId := {}
  inbox : N → List CollId := fun _ => []
  decided : List CollId := []
  aborted : Bool := false

/-- What a user calls. -/
inductive ScopeCall (N E : Type)
  | mpiCollectiveAsync (n : N) (key : Bool × ℕ) (epoch : E)
  | destroy (n : N) (key : Bool × ℕ)

/-- What the runtime does. -/
inductive ScopeRun (N : Type)
  | reduceUp (i : ℕ)
  | runCollective (n : N) (i : ℕ)
  | bcastDone (n : N)
  | barrierDone (n : N)

variable {N E : Type} [Fintype N] [DecidableEq N] (T : SpanningTree N)

/-- The reducer; a message without a value is not combined. -/
def reducer : Reduce N N Unit CollId := ⟨T, id, fun _ a _ => a⟩

/-- A node contributes to a reduction once. -/
def reducePlan : Plan N N (ℕ × ℕ) Unit :=
  ⟨fun _ => T.root, fun _ => (), fun _ _ => 1, fun _ _ => Nat.one_pos⟩

/-- `Reduce::reduceImmediate` with the stamp of the collective. -/
def reduceImmediate (r : ReduceSys N N (ℕ × ℕ) Unit CollId) (n : N) (c : CollId) :
    ReduceSys N N (ℕ × ℕ) Unit CollId :=
  startReduce (reducer T)
    (reduceAddMsg (r.record n c.stamp c) n ⟨c.stamp, (), T.root, c⟩ true (some 1)) n c.stamp

namespace ScopeSys

variable (s : ScopeSys N E) (n : N) (c : CollId)

/-- The callback of a reduction that is complete broadcasts `runCollective`. -/
def announce (r : ReduceSys N N (ℕ × ℕ) Unit CollId) : ScopeSys N E :=
  let msgs := (r.rootRuns.drop s.reduce.rootRuns.length).map (·.2.val)
  { s with reduce := r, inbox := fun n => s.inbox n ++ msgs }

def setNode (x : ScopeNode E) : ScopeSys N E :=
  { s with node := Function.update s.node n x }

/-- `CollectiveScope::mpiCollectiveAsync` on a live scope. -/
def mpiCollectiveAsync (key : Bool × ℕ) (impl : ScopeImpl E) (epoch : E) : ScopeSys N E :=
  let x := s.node n
  let tag := impl.nextSeq
  let c : CollId := ⟨key.1, key.2, tag⟩
  let impl :=
    { impl with
      nextSeq := tag + 1
      plannedCollective := impl.plannedCollective ++ [(tag, epoch)] }
  announce
    (s.setNode n
      { x with
        scopes := Function.update x.scopes key (some impl)
        produced := x.produced ++ [(c, epoch)] })
    (reduceImmediate T s.reduce n c)

/-- The destructor of a `CollectiveScope`. -/
def destroy (key : Bool × ℕ) (impl : ScopeImpl E) : ScopeSys N E :=
  let x := s.node n
  let impl := if impl.plannedCollective.isEmpty then none else some { impl with live := false }
  s.setNode n { x with scopes := Function.update x.scopes key impl }

/-- The beginning of `runCollective`, up to the `MPI_Ibcast`. -/
def enter : ScopeSys N E :=
  let x := s.node n
  let next := s.setNode n { x with begun := x.begun ++ [c], running := some .bcast }
  if n = T.root then
    -- the root decides, and its scope has to exist
    if (x.scopes c.key).isSome then { next with decided := s.decided ++ [c] }
    else { s with aborted := true }
  else next

/-- `CollectiveAlg::runCollective` on a message. -/
def runCollective : ScopeSys N E :=
  let x := s.node n
  if x.running.isSome then
    s.setNode n { x with postponedCollectives := x.postponedCollectives ++ [c] }
  else s.enter T n c

/-- The collective is run, and erased from its scope; a scope that is not used any more is
erased. -/
def execute (impl : ScopeImpl E) (epoch : E) : ScopeSys N E :=
  let x := s.node n
  let impl := { impl with plannedCollective := impl.plannedCollective.filter (·.1 ≠ c.seq) }
  let impl := if !impl.live && impl.plannedCollective.isEmpty then none else some impl
  s.setNode n
    { x with
      scopes := Function.update x.scopes c.key impl
      running := none
      executed := x.executed ++ [c]
      consumed := x.consumed ++ [(c, epoch)] }

/-- A postponed message is run. -/
def next : ScopeSys N E :=
  let x := s.node n
  match x.postponedCollectives.getLast? with
  | none => s
  | some c =>
    (s.setNode n { x with postponedCollectives := x.postponedCollectives.dropLast }).enter T n c

/-- The part of `runCollective` after the consensus on `c`. -/
def finish : ScopeSys N E :=
  match (s.node n).scopes c.key with
  | none => { s with aborted := true }
  | some impl =>
    match impl.plannedCollective.find? (·.1 = c.seq) with
    | none => { s with aborted := true }
    | some e => (s.execute n c impl e.2).next T n

/-- What the runtime does. -/
def run : ScopeRun N → Option (ScopeSys N E)
  | .reduceUp i => (s.reduce.step (reducer T) (reducePlan T) (.up i)).map s.announce
  | .runCollective n i =>
    (s.inbox n)[i]?.map fun c =>
      { s with inbox := Function.update s.inbox n ((s.inbox n).eraseIdx i) }.runCollective T n c
  | .bcastDone n =>
    -- the root has entered the round
    if (s.node n).running = some .bcast ∧ (s.node n).begun.length ≤ s.decided.length then
      some (s.setNode n { s.node n with running := some .barrier })
    else none
  | .barrierDone n =>
    -- all nodes have entered the barrier of the round
    if (s.node n).running = some .barrier ∧ ∀ m, (s.node n).begun.length ≤ (s.node m).entered then
      s.decided[(s.node n).begun.length - 1]?.map (s.finish T n)
    else none

/-- What a user calls, on a scope that is live. -/
def call : ScopeCall N E → Option (ScopeSys N E)
  | .mpiCollectiveAsync n key epoch =>
    ((s.node n).scopes key).bind fun impl =>
      if impl.live then some (s.mpiCollectiveAsync T n key impl epoch) else none
  | .destroy n key =>
    ((s.node n).scopes key).bind fun impl => if impl.live then some (s.destroy n key impl) else none

def step : ScopeCall N E ⊕ ScopeRun N → Option (ScopeSys N E)
  | .inl a => s.call T a
  | .inr a => s.run T a

/-- The scopes that are live at the start are the same on all nodes. -/
def start (live : Bool × ℕ → Bool) : ScopeSys N E :=
  { node := fun _ => { scopes := fun key => if live key then some {} else none } }

/-- No node has planned the collective with the same numbers in a scope of the other kind. -/
def Separate : ScopeCall N E ⊕ ScopeRun N → Prop
  | .inl (.mpiCollectiveAsync n key _) =>
    ∀ impl ∈ (s.node n).scopes key, ∀ m, ⟨!key.1, key.2, impl.nextSeq⟩ ∉ (s.node m).planned
  | _ => True

instance (s : ScopeSys N E) : (a : ScopeCall N E ⊕ ScopeRun N) → Decidable (s.Separate a)
  | .inl (.mpiCollectiveAsync ..) => inferInstanceAs (Decidable (∀ impl ∈ _, ∀ _, _ ∉ _))
  | .inl (.destroy ..) | .inr _ => .isTrue trivial

end ScopeSys

/-- What is expected of the collectives. -/
structure AgreedOrder (s : ScopeSys N E) : Prop where
  /-- All nodes execute the same sequence. -/
  agreed : ∀ n m, (s.node n).executed <+: (s.node m).executed ∨
    (s.node m).executed <+: (s.node n).executed
  /-- A collective is executed once, after it was planned. -/
  once : ∀ n, (s.node n).executed.Nodup
  planned : ∀ n, ∀ c ∈ (s.node n).executed, c ∈ (s.node n).planned
  /-- No assertion has failed. -/
  aborted : s.aborted = false
  /-- The epoch of a collective is produced when it is planned, and consumed when it is executed. -/
  produced : ∀ n, (s.node n).planned.Nodup
  consumed : ∀ n, (s.node n).consumed.map (·.1) = (s.node n).executed ∧
    ∀ p ∈ (s.node n).consumed, p ∈ (s.node n).produced
  /-- When all nodes have planned the same collectives, all of them are run. -/
  runs : (∀ n m, ∀ c ∈ (s.node n).planned, c ∈ (s.node m).planned) →
    Ends (ScopeSys.run T) (fun s' => ∀ n, (s'.node n).executed.Perm (s.node n).planned) s

end VtRuntime.Collective
