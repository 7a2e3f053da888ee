import VtRuntime.Collection.Element

/-!
# Chain sets of collections

A chain set has a chain for every element of a collection, on the node of the element or on its
home.  It is told of elements by a listener: when one is created, when it comes to a node or leaves
it, and when it is destroyed.  With the layout `Home` the node that is told need not be the home;
it sends a message there.

The constructor is called on every node, and one node may have called it long before another.  It
registers the listener of its node, and adds the elements that are there.  Chains are idle, so
`isTerminated` holds when a chain is removed.
-/

namespace VtRuntime.ChainSet

open Collection

inductive ChainSetLayout
  | onNode
  | home
  deriving DecidableEq

/-- The messages of `addIndexHan` and `removeIndexHan`. -/
inductive IdxMsg
  | addIndex
  | removeIndex
  deriving DecidableEq

variable {I N E : Type}

/-- An index with its chains.  The messages in flight all go to its home. -/
structure IndexChains (N E : Type) where
  elem : IndexState N E := {}
  chains : N → Bool := fun _ => false
  msgs : List IdxMsg := []
  failed : Bool := false

namespace IndexChains

variable [DecidableEq N] (x : IndexChains N E) (layout : ChainSetLayout) (home n : N)

def addIndex : IndexChains N E :=
  { x with
    failed := x.failed || x.chains n
    chains := Function.update x.chains n true }

def removeIndex : IndexChains N E :=
  { x with
    failed := x.failed || !x.chains n
    chains := Function.update x.chains n false }

def send (m : IdxMsg) : IndexChains N E := { x with msgs := m :: x.msgs }

/-- `vtAssert`. -/
def assert (p : Bool) : IndexChains N E := { x with failed := x.failed || !p }

/-- Whether the chains of elements on this node are here. -/
def isHere : Bool := layout = .onNode || (layout = .home && home = n)

/-- What the listener does on node `n`. -/
def listener : ElementEvent → IndexChains N E
  | .created =>
      if isHere layout home n then
        if !x.chains n then x.addIndex n else x.assert false
      else (x.assert (layout = .home)).send .addIndex
  | .migratedIn =>
      if isHere layout home n then
        if !x.chains n then x.addIndex n else x.assert (layout = .home)
      else x
  | .destroyed =>
      if x.chains n then x.removeIndex n else (x.assert (layout = .home)).send .removeIndex
  | .migratedOut => if layout = .onNode then x.removeIndex n else x

/-- Events reach the listeners of the nodes where they happen. -/
def listenAll (events : List (ElementEvent × N)) : IndexChains N E :=
  events.foldl (fun x e => x.listener layout home e.2 e.1) x

/-- A step of the element.  A node has no listener before the chain set is constructed there. -/
def react (built : N → Bool) (elem : IndexState N E) : IndexChains N E :=
  { x with elem := elem }.listenAll layout home
    ((elem.events.drop x.elem.events.length).filter fun e => built e.2)

/-- The loop of the constructor on node `n`. -/
def addLocal : IndexChains N E :=
  if x.elem.existsAt n then
    if isHere layout home n then x.addIndex n else x.send .addIndex
  else x

/-- `destroyMatching` on node `n`. -/
def destroyMatching (built : N → Bool) : IndexChains N E :=
  x.react layout home built (x.elem.destroyMatching home n)

/-- The handler of a message on the home. -/
def receive : IdxMsg → IndexChains N E
  | .addIndex => x.addIndex home
  | .removeIndex => x.removeIndex home

/-- What is expected when no message is in flight: there is a chain on the node of the element, or
on its home, and there is none if there is no element. -/
def TracksOnce [Fintype N] : Prop :=
  match layout with
  | .onNode => ∀ n, x.chains n = x.elem.existsAt n
  | .home => ∀ n, x.chains n = (decide (n = home) && decide (0 < x.elem.live))

end IndexChains

/-- A collection with a chain set.  `built` says that the chain set was constructed on a node,
`destroyed` that the collection was destroyed there. -/
structure CollectionChainSet (I N E : Type) where
  index : I → IndexChains N E := fun _ => {}
  built : N → Bool := fun _ => false
  destroyed : N → Bool := fun _ => false

inductive ChainAct (I N E : Type)
  | element (i : I) (a : Act N E)
  | construct (n : N)
  | deliver (i : I) (m : IdxMsg)
  | destroyMatching (n : N)

/-- Where a collection has been destroyed nothing happens to its elements any more.  A message that
comes to a node before the constructor is kept until then, among the pending ones of the object
group. -/
def step [DecidableEq I] [DecidableEq E] {P : ℕ} (layout : ChainSetLayout) (home : I → Fin P)
    (s : CollectionChainSet I (Fin P) E) :
    ChainAct I (Fin P) E → Option (CollectionChainSet I (Fin P) E)
  | .element i a =>
      if s.destroyed (a.node (home i)) = false then
        ((s.index i).elem.step (home i) a).map fun t =>
          { s with
            index := Function.update s.index i ((s.index i).react layout (home i) s.built t) }
      else none
  | .construct n =>
      if s.built n = false ∧ s.destroyed n = false then
        some { s with
          built := Function.update s.built n true
          index := fun i => (s.index i).addLocal layout (home i) n }
      else none
  | .deliver i m =>
      if m ∈ (s.index i).msgs ∧ s.built (home i) = true then
        let taken := { s.index i with msgs := (s.index i).msgs.erase m }
        some { s with index := Function.update s.index i (taken.receive (home i) m) }
      else none
  | .destroyMatching n =>
      if s.destroyed n = false then
        some { s with
          destroyed := Function.update s.destroyed n true
          index := fun i => (s.index i).destroyMatching layout (home i) n s.built }
      else none

end VtRuntime.ChainSet
