import VtRuntime.Group.Broadcast
import VtRuntime.Lib.Network
import VtRuntime.Lib.Tree

/-!
# Construction of a collective group

All nodes call `setupCollective`, and each says whether it is in the group.  The nodes of the group
are then connected in a tree of their own, `span_children_`, in three phases that overlap.

* Up.  A node that has heard from all its children in the initial tree reports itself to its parent.
  It may pass on what its children reported, and then tells the parent how many such extra messages
  to expect.
* Down.  A node that has too many children to report sends some of them down to another one, which
  takes them as its own children or sends them further down.  Each such message is answered.
* Finalize.  The root of the initial tree tells all nodes the root of the new tree.  A node passes
  this on and contributes to the finish reduction when all messages it sent down are answered.

A handler gives the next `InfoColl` of a node and the messages that it sends.  The continuations
under which a message finds its handler exist once `setupCollective` has run; a message that comes
before waits in a buffer, and here it stays in flight.
-/

namespace VtRuntime.Group

open Lib

universe u

/-- `GroupCollectiveMsg`: the child that is reported, with the size of its part of the group. -/
structure GroupCollectiveMsg (N : Type u) where
  isInGroup : Bool
  subtreeSize : ℕ
  child : N
  level : ℕ := 0
  extraNodes : ℕ := 0
deriving DecidableEq

/-- The messages of the construction. -/
inductive CollMsg (N : Type u)
  /-- The call of `setupCollective`, which each node makes at some time. -/
  | setupCollective
  | upTree (m : GroupCollectiveMsg N)
  | newRoot (m : GroupCollectiveMsg N)
  | downTree (m : GroupCollectiveMsg N)
  | downTreeFinished
  | finalizeTree (root : Option N) (isDefault : Bool)
deriving DecidableEq

/-- `InfoColl` on a node. -/
structure InfoColl (N : Type u) where
  /-- `collective_` exists and the continuations are registered. -/
  isSetup : Bool := false
  inPhaseTwo : Bool := false
  collWaitCount : ℕ := 0
  msgs : List (GroupCollectiveMsg N) := []
  arrivedCount : ℕ := 0
  extraCount : ℕ := 0
  extraArrivedCount : ℕ := 0
  sendDown : ℕ := 0
  sendDownFinished : ℕ := 0
  knownRootNode : Option N := none
  isNewRoot : Bool := false
  hasRoot : Bool := false
  isDefaultGroup : Bool := false
  isEmptyGroup : Bool := false
  subtree : ℕ := 0
  spanChildren : List N := []
  /-- Book: the node has reported itself, or it is the root and `upTree` has run. -/
  reported : Bool := false
  /-- Book: how often `finalizeTree` ran. -/
  told : ℕ := 0
  /-- Book: how often the body of `finalize` ran. -/
  finalized : ℕ := 0
deriving DecidableEq

/-- The nodes that construct a group. -/
structure CollGroup (N : Type u) where
  /-- The initial tree, `init_span_`. -/
  tree : SpanningTree N
  getChildren : N → List N
  nodup_getChildren : ∀ n, (getChildren n).Nodup
  mem_getChildren : ∀ {n c}, c ∈ getChildren n ↔ c ≠ tree.root ∧ tree.parent c = n
  isInGroup : N → Bool
  /-- The node as a number. -/
  number : N → ℕ
  /-- `std::sort` with `GroupCollSort`, which does not say what happens to equal elements. -/
  sort : List (GroupCollectiveMsg N) → List (GroupCollectiveMsg N)
  sort_perm : ∀ l, (sort l).Perm l
  sort_sorted : ∀ l, (sort l).Pairwise fun a b => a.subtreeSize ≤ b.subtreeSize

namespace CollGroup

variable {N : Type u} (G : CollGroup N)

/-- What a handler gives: the next state of the node, and the messages sent with their
destinations. -/
abbrev Effect (N : Type u) := InfoColl N × List (N × CollMsg N)

variable (n : N) (l : InfoColl N)

/-- `InfoColl::finalize`. -/
def finalize : Effect N :=
  if l.inPhaseTwo ∧ l.sendDownFinished = l.sendDown then
    ({ l with finalized := l.finalized + 1 },
      (G.getChildren n).map fun c => (c, .finalizeTree l.knownRootNode l.isDefaultGroup))
  else (l, [])

/-- `setupCollectiveSingular`, on the only node. -/
def setupCollectiveSingular : InfoColl N :=
  if G.isInGroup n then
    { l with
      knownRootNode := some n, isNewRoot := true, inPhaseTwo := true, hasRoot := true
      isDefaultGroup := true, reported := true }
  else
    { l with
      knownRootNode := none, isNewRoot := false, inPhaseTwo := true, hasRoot := true
      isDefaultGroup := false, reported := true }

/-- `InfoColl::newRoot`. -/
def newRoot : InfoColl N :=
  { l with knownRootNode := some n, hasRoot := true, isNewRoot := true }

/-- `InfoColl::finalizeTree`. -/
def finalizeTree (root : Option N) (isDefault : Bool) : Effect N :=
  G.finalize n
    { l with
      inPhaseTwo := true, knownRootNode := root, hasRoot := true, isDefaultGroup := isDefault
      told := l.told + 1 }

/-- `InfoColl::downTreeFinished`. -/
def downTreeFinished : Effect N :=
  G.finalize n { l with sendDownFinished := l.sendDownFinished + 1 }

/-- `InfoColl::downTree` on a message from `src`. -/
def downTree (src : N) (m : GroupCollectiveMsg N) : Effect N :=
  if l.spanChildren.length < 4 then
    ({ l with spanChildren := l.spanChildren ++ [m.child] }, [(src, .downTreeFinished)])
  else
    match l.spanChildren[G.number m.child % l.spanChildren.length]? with
    | some c =>
      ({ l with sendDown := l.sendDown + 1 }, [(c, .downTree m), (src, .downTreeFinished)])
    -- the index is in range
    | none => (l, [(src, .downTreeFinished)])

section Up

variable [Fintype N] [DecidableEq N]

variable (n : N) (l : InfoColl N)

/-- `upTree` on the root of the initial tree, with the messages of nodes in the group. -/
def upTreeRoot (msgInGroup : List (GroupCollectiveMsg N)) : Effect N :=
  if G.isInGroup n then
    G.finalize n
      { l with
        spanChildren := l.spanChildren ++ msgInGroup.map (·.child)
        isDefaultGroup := if l.subtree + 1 = Fintype.card N then true else l.isDefaultGroup
        knownRootNode := some n, isNewRoot := true, inPhaseTwo := true, hasRoot := true }
  else
    match G.sort msgInGroup with
    -- there is no message
    | [] => G.finalize n { l with isEmptyGroup := true, inPhaseTwo := true }
    | first :: rest =>
      let rootNode := first.child
      let r := G.finalize n
        { l with
          knownRootNode := some rootNode, isNewRoot := false, hasRoot := true
          sendDown := l.sendDown + rest.length, inPhaseTwo := true }
      (r.1, (rootNode, .newRoot ⟨true, 0, rootNode, 0, msgInGroup.length - 1⟩) ::
        rest.map (fun m => (rootNode, .downTree m)) ++ r.2)

/-- The level of a node with no or two messages. -/
def nextLevel : List (GroupCollectiveMsg N) → ℕ
  | [] => 0
  | m :: _ => m.level + 1

/-- `upTree` on another node: the cases in the order of the source. -/
def upTreeInner (msgInGroup : List (GroupCollectiveMsg N)) : Effect N :=
  let p := G.tree.parent n
  let subtreeThis := if G.isInGroup n then 1 else 0
  if G.isInGroup n ∧ (msgInGroup.length = 2 ∨ msgInGroup.length = 0) then
    let level := nextLevel msgInGroup
    ({ l with spanChildren := l.spanChildren ++ msgInGroup.map (·.child) },
      [(p, .upTree ⟨G.isInGroup n, l.subtree + subtreeThis, n, level, 0⟩)])
  else if ¬ G.isInGroup n ∧ msgInGroup.length < 3 then
    let subtree := l.subtree - (msgInGroup.map (·.subtreeSize)).sum
    ({ l with subtree := subtree },
      (p, .upTree ⟨G.isInGroup n, subtree, n, 0, msgInGroup.length⟩) ::
        msgInGroup.map fun m => (p, .upTree m))
  else if G.isInGroup n ∧ msgInGroup.length = 1 then
    let subtree := l.subtree - (msgInGroup.map (·.subtreeSize)).sum
    ({ l with subtree := subtree },
      (p, .upTree ⟨G.isInGroup n, subtree + subtreeThis, n, 0, 1⟩) ::
        msgInGroup.map fun m => (p, .upTree m))
  else
    let msgList := (G.sort msgInGroup).reverse
    let extra := msgInGroup.length / 2
    let up := msgList.take extra
    let down := msgList.drop extra
    let subtree := l.subtree - (up.map (·.subtreeSize)).sum
    match up with
    | [] => (l, [])  -- there are more than two messages
    | first :: _ =>
      -- the index into the nodes that are passed on is not advanced
      ({ l with subtree := subtree, sendDown := l.sendDown + down.length },
        (p, .upTree ⟨G.isInGroup n, subtreeThis + subtree, n, 0, extra⟩) ::
          up.map (fun m => (p, .upTree m)) ++ down.map fun m => (first.child, .downTree m))

/-- `InfoColl::upTree`. -/
def upTree : Effect N :=
  let msgInGroup := l.msgs.filter (·.isInGroup)
  let l := { l with subtree := (msgInGroup.map (·.subtreeSize)).sum, reported := true }
  if n = G.tree.root then G.upTreeRoot n l msgInGroup else G.upTreeInner n l msgInGroup

/-- A message from below is counted: that of a child, or an extra one. -/
def arrive (m : GroupCollectiveMsg N) : InfoColl N :=
  let found := m.child ∈ G.getChildren n
  { l with
    msgs := l.msgs ++ [m]
    arrivedCount := if found then l.arrivedCount + 1 else l.arrivedCount
    extraCount := if found then l.extraCount + m.extraNodes else l.extraCount
    extraArrivedCount := if found then l.extraArrivedCount else l.extraArrivedCount + 1 }

/-- All messages from below are there. -/
def Ready : Prop :=
  l.collWaitCount + l.extraCount = l.arrivedCount + l.extraArrivedCount + 1 ∧
    l.collWaitCount = l.arrivedCount + 1

instance (l : InfoColl N) : Decidable (Ready l) := inferInstanceAs (Decidable (_ ∧ _))

/-- `InfoColl::collectiveFn`. -/
def collectiveFn (m : GroupCollectiveMsg N) : Effect N :=
  let l := G.arrive n l m
  if Ready l then G.upTree n l else (l, [])

/-- `InfoColl::setupCollective`. -/
def setupCollective : Effect N :=
  let l := { l with isSetup := true }
  if Fintype.card N = 1 then (G.setupCollectiveSingular n l, [])
  else
    let l := { l with collWaitCount := (G.getChildren n).length + 1 }
    if (G.getChildren n).length = 0 then
      ({ l with reported := true },
        [(G.tree.parent n, .upTree ⟨G.isInGroup n, if G.isInGroup n then 1 else 0, n, 0, 0⟩)])
    else (l, [])

/-- What a node does with a message from `src`. -/
def dispatch (src : N) : CollMsg N → Effect N
  | .setupCollective => G.setupCollective n l
  | .upTree m => G.collectiveFn n l m
  | .newRoot _ => (newRoot n l, [])
  | .downTree m => G.downTree l src m
  | .downTreeFinished => G.downTreeFinished n l
  | .finalizeTree root isDefault => G.finalizeTree n l root isDefault

/-- A message is handled when its continuation is registered. -/
def handle : Network.Handler N (InfoColl N) (CollMsg N) := fun n l d =>
  if l.isSetup ∨ d.2 = .setupCollective then some (G.dispatch n l d.1 d.2) else none

/-- The state of the construction. -/
abbrev CollSys (N : Type u) := Network N (InfoColl N) (CollMsg N)

/-- No node has called `setupCollective` yet. -/
def start : CollSys N := ⟨fun _ => {}, fun n => [(n, .setupCollective)]⟩

/-- One message is handled. -/
def step : CollSys N → N × ℕ → Option (CollSys N) := Network.deliver G.handle

end Up

/-! ## The default tree -/

/-- A group on the default tree of `k + 1` nodes, with a stable sort. -/
def ofMembers (k : ℕ) (isInGroup : Fin (k + 1) → Bool) : CollGroup (Fin (k + 1)) where
  tree :=
    { root := ⟨0, k.succ_pos⟩
      parent := fun n => ⟨(n - 1) / 2, by omega⟩
      depth := fun n => n
      depth_parent := fun n hn => by
        have hpos : (n : ℕ) ≠ 0 := fun h => hn (Fin.ext h)
        simp only
        omega }
  getChildren := fun n => (treeChildren (k + 1) n).filterMap fun c =>
    if h : c < k + 1 then some ⟨c, h⟩ else none
  nodup_getChildren := fun n => by
    refine (nodup_treeChildren (k + 1) n).filterMap ?_
    intro a b c ha hb
    simp only [Option.mem_def, Option.dite_none_right_eq_some, Option.some.injEq] at ha hb
    exact Fin.mk.inj (ha.2.trans hb.2.symm)
  mem_getChildren := fun {n c} => by
    simp only [List.mem_filterMap, mem_treeChildren, Option.dite_none_right_eq_some,
      Option.some.injEq]
    constructor
    · rintro ⟨a, ⟨ha, hpos, hp⟩, -, rfl⟩
      exact ⟨fun h => hpos (Fin.mk.inj h), Fin.ext hp⟩
    · rintro ⟨hroot, rfl⟩
      exact ⟨c, ⟨c.isLt, fun h => hroot (Fin.ext h), rfl⟩, c.isLt, rfl⟩
  isInGroup := isInGroup
  number := fun n => n
  sort := List.insertionSort fun a b => a.subtreeSize ≤ b.subtreeSize
  sort_perm := List.perm_insertionSort _
  sort_sorted := fun l => by
    exact List.pairwise_insertionSort _ l

end CollGroup

end VtRuntime.Group
