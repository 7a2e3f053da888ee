import VtRuntime.Balance.Statistics
import VtRuntime.Lib.Run

/-!
# The communication graph made symmetric

Before a balancer runs, every node sends the edges that it shares with another node to that node,
which adds those it does not have.

Edges are added only on a node that has a table for the phase, so they are lost on a node that has
recorded nothing.  An edge recorded on both nodes stays on each as it is, also if the volumes
differ.  In all other cases the graph is symmetric at the end, in whatever order the nodes and the
messages come.
-/

namespace VtRuntime.Balance

open Function Lib Option

/-- The key of an edge between objects.  The fields `nfrom_`, `nto_` and `shared_id_`, which only
tell keys apart, are in `other`. -/
structure CommKey (E X : Type) where
  fromObj : E
  toObj : E
  commCategory : CommCategory
  other : X
  deriving DecidableEq

/-- The volumes of the edges that are recorded. -/
abbrev CommMap (E X V : Type) := CommKey E X → Option V

/-- The tables of the nodes for one phase, none for a node that has recorded nothing. -/
abbrev NodeComm (N E X V : Type) := N → Option (CommMap E X V)

/-- The messages are those on their way from one node to another.  The nodes that have called
`makeGraphSymmetric` are kept for the books. -/
structure GraphSys (N E X V : Type) where
  nodeComm : NodeComm N E X V
  called : N → Bool := fun _ => false
  msgs : N × N → Option (CommMap E X V) := fun _ => none

inductive GraphAct (N : Type)
  | makeGraphSymmetric (n : N)
  | recvSharedEdges (n m : N)

section Model

variable {N E X V : Type} [DecidableEq N] [DecidableEq E] (currNode : E → N) (k : CommKey E X)

def CommKey.selfEdge : Bool := k.commCategory = .sendRecv ∧ k.fromObj = k.toObj

/-- The node with which `thisNode` shares an edge. -/
def CommKey.sharedWith (thisNode : N) : Option N :=
  if k.commCategory = .sendRecv ∧ ¬ k.selfEdge then
    if currNode k.fromObj ≠ thisNode then some (currNode k.fromObj)
    else if currNode k.toObj ≠ thisNode then some (currNode k.toObj)
    else none
  else none

/-- The edges for one node. -/
def getSharedEdges (thisNode : N) (commData : CommMap E X V) (node : N) : CommMap E X V :=
  fun k => if k.sharedWith currNode thisNode = some node then commData k else none

variable (s : GraphSys N E X V) (n m : N)

/-- A message without edges, which the source does not send, changes nothing. -/
def makeGraphSymmetric : GraphSys N E X V :=
  { s with
    called := update s.called n true
    msgs := fun p => if p.1 = n then
        (s.nodeComm n).map fun comm => getSharedEdges currNode n comm p.2
      else s.msgs p }

/-- An edge that is there is kept as it is. -/
def recvSharedEdges (comm : CommMap E X V) : GraphSys N E X V :=
  { s with
    nodeComm := update s.nodeComm m ((s.nodeComm m).map fun commMap k => (commMap k).or (comm k))
    msgs := update s.msgs (n, m) none }

namespace GraphSys

def step : GraphAct N → Option (GraphSys N E X V)
  | .makeGraphSymmetric n => if s.called n then none else some (makeGraphSymmetric currNode s n)
  | .recvSharedEdges n m => (s.msgs (n, m)).map (recvSharedEdges s n m)

def Reaches (init : NodeComm N E X V) : GraphSys N E X V → Prop :=
  Reach (· = { nodeComm := init }) (step currNode) anyStep

/-- All nodes have sent their edges, and all messages have arrived. -/
abbrev Done : Prop := ∀ n, s.called n = true ∧ ∀ m, s.msgs (n, m) = none

end GraphSys

/-- The volume of an edge in a table. -/
def edge (c : Option (CommMap E X V)) : Option V := c.bind (· k)

/-- An edge from one node to the other or back. -/
def Across : Prop := k.commCategory = .sendRecv ∧ n ≠ m ∧
  (currNode k.fromObj = n ∧ currNode k.toObj = m ∨ currNode k.fromObj = m ∧ currNode k.toObj = n)

variable (init : NodeComm N E X V)

/-- A node records the edges of its objects. -/
def Recorded : Prop := ∀ n k v, edge k (init n) = some v → k.commCategory = .sendRecv →
  currNode k.fromObj = n ∨ currNode k.toObj = n

/-- What is expected of the tables at the end: an edge between two nodes is on both, and all other
edges are as they were. -/
structure Symmetric (final : NodeComm N E X V) : Prop where
  both : ∀ k n m v, Across currNode k n m → edge k (init n) = some v →
    ∃ w, edge k (final n) = some w ∧ edge k (final m) = some w
  rest : ∀ k n, (∀ m v, Across currNode k n m → edge k (init m) ≠ some v) →
    edge k (final n) = edge k (init n)

/-- The other node has a table, and in it no other volume. -/
def Agrees : Prop := ∀ k n m v, Across currNode k n m → edge k (init n) = some v →
  (init m).isSome ∧ ∀ w, edge k (init m) = some w → w = v

/-- What holds of the tables and the messages at any time. -/
structure GraphInv : Prop where
  tables : ∀ n, (s.nodeComm n).isSome = (init n).isSome
  keeps : ∀ n k v, edge k (init n) = some v → edge k (s.nodeComm n) = some v
  origin : ∀ n k v, edge k (s.nodeComm n) = some v →
    edge k (init n) = some v ∨ ∃ m, Across currNode k n m ∧ edge k (init m) = some v
  carried : ∀ n m comm k v, s.msgs (n, m) = some comm → comm k = some v →
    Across currNode k n m ∧ (edge k (init n) = some v ∨ edge k (init m) = some v)
  sent : ∀ n m k v, s.called n = true → Across currNode k n m → edge k (init n) = some v →
    (init m).isSome → (edge k (s.nodeComm m)).isSome ∨ ∃ comm, s.msgs (n, m) = some comm ∧
      (comm k).isSome

end Model

variable {N E X V : Type} [DecidableEq N] {currNode : E → N} {k : CommKey E X} {n m : N}
  {comm : CommMap E X V} {s : GraphSys N E X V} {init : NodeComm N E X V}

theorem edge_recv (n' : N) : edge k ((recvSharedEdges s n m comm).nodeComm n') =
    (edge k (s.nodeComm n')).or (if n' = m ∧ (s.nodeComm m).isSome then comm k else none) := by
  by_cases hn : n' = m
  · subst hn
    cases hc : s.nodeComm n' <;> simp [recvSharedEdges, edge, hc]
  · simp [recvSharedEdges, hn]

theorem GraphInv.recvSharedEdges (h : GraphInv currNode s init) (hmsg : s.msgs (n, m) = some comm) :
    GraphInv currNode (recvSharedEdges s n m comm) init := by
  refine ⟨fun n' => ?_, fun n' k v hv => ?_, fun n' k v hv => ?_, fun n' m' c k v hc => ?_,
    fun n' m' k v hc hk hv hm => ?_⟩
  · by_cases hn : n' = m <;> simp [Balance.recvSharedEdges, hn, h.tables]
  · rw [edge_recv, h.keeps n' k v hv, some_or]
  · obtain hv | ⟨-, hv⟩ := or_eq_some_iff.mp (edge_recv n' ▸ hv)
    · exact h.origin n' k v hv
    · obtain ⟨⟨rfl, -⟩, hk⟩ := ite_none_right_eq_some.mp hv
      obtain ⟨⟨hcat, hne, hends⟩, hn | hm⟩ := h.carried n n' comm k v hmsg hk
      · exact .inr ⟨n, ⟨hcat, hne.symm, hends.symm⟩, hn⟩
      · exact .inl hm
  · by_cases hne : (n', m') = (n, m)
    · simp [Balance.recvSharedEdges, hne] at hc
    · exact h.carried n' m' c k v (update_of_ne hne none s.msgs ▸ hc)
  · rw [edge_recv, isSome_or]
    obtain hedge | ⟨c, hc', hsome⟩ := h.sent n' m' k v hc hk hv hm
    · exact .inl (by rw [hedge, Bool.true_or])
    · by_cases hne : (n', m') = (n, m)
      · obtain ⟨rfl, rfl⟩ := Prod.mk.inj hne
        obtain rfl := some.inj (hmsg.symm.trans hc')
        exact .inl (by simp [h.tables, hm, hsome])
      · exact .inr ⟨c, by simp [Balance.recvSharedEdges, update_of_ne hne, hc'], hsome⟩

variable [DecidableEq E]

theorem sharedWith_eq (h : Across currNode k n m) : k.sharedWith currNode n = some m := by
  obtain ⟨hcat, hne, ⟨rfl, rfl⟩ | ⟨rfl, rfl⟩⟩ := h
  · simp [CommKey.sharedWith, CommKey.selfEdge, hcat, hne.symm, mt (congrArg currNode) hne]
  · simp [CommKey.sharedWith, CommKey.selfEdge, hcat, hne.symm, mt (congrArg currNode) hne.symm]

/-- A node shares the edges of its objects with the node of the other end. -/
theorem across_of_sharedWith (h : k.sharedWith currNode n = some m)
    (hn : k.commCategory = .sendRecv → currNode k.fromObj = n ∨ currNode k.toObj = n) :
    Across currNode k n m := by
  rw [CommKey.sharedWith] at h
  split_ifs at h with hcat hfrom hto <;> obtain rfl := some.inj h
  · exact ⟨hcat.1, Ne.symm hfrom, .inr ⟨rfl, (hn hcat.1).resolve_left hfrom⟩⟩
  · exact ⟨hcat.1, Ne.symm hto, .inl ⟨not_not.mp hfrom, rfl⟩⟩

theorem GraphInv.makeGraphSymmetric (hrec : Recorded currNode init) (h : GraphInv currNode s init) :
    GraphInv currNode (makeGraphSymmetric currNode s n) init := by
  refine ⟨h.tables, h.keeps, h.origin, fun n' m comm k v hmsg hk => ?_,
    fun n' m k v hc hk hv hm => ?_⟩
  all_goals by_cases hn : n' = n
  · subst hn
    simp only [Balance.makeGraphSymmetric, if_true, map_eq_some_iff] at hmsg
    obtain ⟨old, hold, rfl⟩ := hmsg
    obtain ⟨hshared, hk⟩ := ite_none_right_eq_some.mp hk
    obtain hv | ⟨m', hacross, hv⟩ := h.origin n' k v (bind_eq_some_iff.mpr ⟨old, hold, hk⟩)
    · exact ⟨across_of_sharedWith hshared (hrec n' k v hv), .inl hv⟩
    · -- the edge came from the node to which it is sent
      obtain rfl := some.inj ((sharedWith_eq hacross).symm.trans hshared)
      exact ⟨hacross, .inr hv⟩
  · exact h.carried n' m comm k v (by simpa [Balance.makeGraphSymmetric, hn] using hmsg) hk
  · subst hn
    obtain ⟨old, hold, hk'⟩ := bind_eq_some_iff.mp (h.keeps n' k v hv)
    exact .inr (by simp [Balance.makeGraphSymmetric, hold, getSharedEdges, sharedWith_eq hk, hk'])
  · simp only [Balance.makeGraphSymmetric, update_of_ne hn, if_neg hn] at hc ⊢
    exact h.sent n' m k v hc hk hv hm

theorem GraphInv.of_reaches (hrec : Recorded currNode init) (h : GraphSys.Reaches currNode init s) :
    GraphInv currNode s init := by
  refine Reach.invariant ?_ (fun s a s' hs _ hstep => ?_) h
  · rintro _ rfl
    exact ⟨fun _ => rfl, fun _ _ _ hv => hv, fun _ _ _ hv => .inl hv, nofun, nofun⟩
  · cases a with
    | makeGraphSymmetric n =>
      obtain ⟨-, heq⟩ := ite_none_left_eq_some.mp hstep
      exact some.inj heq ▸ hs.makeGraphSymmetric hrec
    | recvSharedEdges n m =>
      obtain ⟨comm, hmsg, rfl⟩ := map_eq_some_iff.mp hstep
      exact hs.recvSharedEdges hmsg

/-- The graph becomes symmetric if and only if every edge between two nodes that is recorded on one
of them finds a table on the other, and no other volume in it. -/
theorem graph_symmetric_iff (hrec : Recorded currNode init) (h : GraphSys.Reaches currNode init s)
    (hdone : s.Done) : Symmetric currNode init s.nodeComm ↔ Agrees currNode init := by
  have hinv := GraphInv.of_reaches hrec h
  constructor
  · intro hsym k n m v hk hv
    obtain ⟨w, hn, hm⟩ := hsym.both k n m v hk hv
    obtain rfl : v = w := some.inj ((hinv.keeps n k v hv).symm.trans hn)
    refine ⟨?_, fun w hw => some.inj ((hinv.keeps m k w hw).symm.trans hm)⟩
    obtain ⟨c, hc, -⟩ := bind_eq_some_iff.mp hm
    rw [← hinv.tables, hc, isSome_some]
  · refine fun hagree => ⟨fun k n m v hk hv => ⟨v, hinv.keeps n k v hv, ?_⟩, fun k n hk => ?_⟩
    · obtain ⟨htable, hsame⟩ := hagree k n m v hk hv
      obtain hedge | ⟨c, hc, -⟩ := hinv.sent n m k v (hdone n).1 hk hv htable
      · obtain ⟨w, hw⟩ := isSome_iff_exists.mp hedge
        obtain hm | ⟨n', hk', hn'⟩ := hinv.origin m k w hw
        · rw [hw, hsame w hm]
        · have hback : Across currNode k m n := ⟨hk.1, hk.2.1.symm, hk.2.2.symm⟩
          obtain rfl := some.inj ((sharedWith_eq hback).symm.trans (sharedWith_eq hk'))
          rw [hw, ← hn', hv]
      · simp [(hdone n).2 m] at hc
    · refine Option.ext fun v => ⟨fun hv => ?_, hinv.keeps n k v⟩
      exact (hinv.origin n k v hv).resolve_right fun ⟨m, hm, hv⟩ => hk m v hm hv

/-- An edge of volume 8 from an object of one node to an object of the other. -/
private def oneEdge : CommMap Bool Unit ℕ := fun k =>
  if k = ⟨false, true, .sendRecv, ()⟩ then some 8 else none

private theorem recorded_oneEdge {init : NodeComm Bool Bool Unit ℕ}
    (h : ∀ n k v, edge k (init n) = some v → oneEdge k = some v) : Recorded id init := by
  rintro n k v hv -
  obtain ⟨rfl, -⟩ := ite_none_right_eq_some.mp (h n k v hv)
  cases n
  · exact .inl rfl
  · exact .inr rfl

/-- One node has recorded the edge, and the other has the given table. -/
private def oneSided (other : Option (CommMap Bool Unit ℕ)) : NodeComm Bool Bool Unit ℕ :=
  fun n => bif n then other else some oneEdge

/-- The other node has a table without the edge. -/
theorem graph_symmetric_sent : ∃ s : GraphSys Bool Bool Unit ℕ, s.Done ∧
    Symmetric id (oneSided (some fun _ => none)) s.nodeComm := by
  obtain ⟨s, hs, hdone⟩ := @Reach.of_run _ _
    (· = { nodeComm := oneSided (some fun _ => none) })
    (GraphSys.step id) [.makeGraphSymmetric true, .makeGraphSymmetric false,
      .recvSharedEdges true false, .recvSharedEdges false true, .recvSharedEdges false false,
      .recvSharedEdges true true]
    GraphSys.Done _ _ rfl (by decide +kernel)
  have hedge : ∀ n k v, edge k (oneSided (some fun _ => none) n) = some v → oneEdge k = some v := by
    intro n k v hv
    cases n
    · exact hv
    · exact absurd hv nofun
  refine ⟨s, hdone, (graph_symmetric_iff (recorded_oneEdge hedge) hs hdone).mpr ?_⟩
  intro k n m v _ hv
  refine ⟨by cases m <;> rfl, fun w hw => ?_⟩
  exact some.inj ((hedge m k w hw).symm.trans (hedge n k v hv))

/-- One node has recorded nothing, and does not get the edge. -/
theorem graph_not_symmetric : Recorded id (oneSided none) ∧
    ∃ s, GraphSys.Reaches id (oneSided none) s ∧ s.Done ∧
    edge ⟨false, true, .sendRecv, ()⟩ (s.nodeComm false) = some 8 ∧
    edge ⟨false, true, .sendRecv, ()⟩ (s.nodeComm true) = none := by
  constructor
  · refine recorded_oneEdge fun n k v hv => ?_
    cases n
    · exact hv
    · exact absurd hv nofun
  · exact Reach.of_run _ [.makeGraphSymmetric false, .recvSharedEdges false true,
      .recvSharedEdges false false, .makeGraphSymmetric true] _ rfl (by decide +kernel)

end VtRuntime.Balance
