import VtRuntime.Lib.Flood
import Mathlib.Algebra.Order.BigOperators.Group.List
import Mathlib.Data.List.Count

/-!
# Broadcasts, and those on the default group

A broadcast begins in `doMessageSend` on its origin.  Every node that the message comes to calls
`groupHandler` in `processActiveMsg`, which sends the message on and says whether it is
delivered here.  A message that is not delivered is only forwarded.

The default group has all nodes, in a binary tree with node 0 at its root.  An origin that is not
the root sends the message to its own children and to the root; no node sends it to the origin.
-/

namespace VtRuntime.Group

open Lib List

/-- The parts of an envelope that a group reads.  The destination of a broadcast is its origin. -/
structure Envelope where
  dest : ℕ
  deliverBcast : Bool

/-- The nodes that a message is sent to, and whether it is delivered on this node. -/
structure Outcome where
  sends : List ℕ
  deliver : Bool
deriving DecidableEq

/-- `GroupManager::groupHandler` on a broadcast, where `send` is the function of the group. -/
def groupHandler (send : Option ℕ → Bool → Bool → Outcome) (sender : Option ℕ) (root : Bool) :
    Outcome :=
  -- deliver the message normally if this is not the root of the broadcast
  send sender root !root

/-- A message on its way from a node to another. -/
structure Hop where
  sender : ℕ
  node : ℕ
deriving DecidableEq

section Cast

variable (handler : ℕ → Option ℕ → Bool → Outcome)

/-- `processActiveMsg`: what a node sends when the message comes. -/
def forward (h : Hop) : List Hop :=
  (handler h.node (some h.sender) false).sends.map fun n => ⟨h.node, n⟩

variable (origin : ℕ)

/-- `doMessageSend` on the origin. -/
def firstHops : List Hop :=
  (handler origin none true).sends.map fun n => ⟨origin, n⟩

/-- The states of a broadcast, whatever the order in which its messages are handled. -/
def CastReaches : Flood Hop → Prop :=
  Flood.Reaches (forward handler) (firstHops handler origin)

/-- The message is sent finitely often. -/
def CastEnds : Prop := Flood.Ends (forward handler) (firstHops handler origin)

/-- The nodes that the message has come to. -/
def received (s : Flood Hop) : List ℕ := s.handled.map (·.node)

/-- The nodes on which the message was delivered. -/
def delivered (s : Flood Hop) : List ℕ :=
  (if (handler origin none true).deliver then [origin] else []) ++
    (s.handled.filter fun h => (handler h.node (some h.sender) false).deliver).map (·.node)

end Cast

/-- `Tree::setupTree`: the children of a node. -/
def treeChildren (numNodes node : ℕ) : List ℕ :=
  (if node * 2 + 1 < numNodes then [node * 2 + 1] else []) ++
    if node * 2 + 2 < numNodes then [node * 2 + 2] else []

theorem mem_treeChildren {numNodes node c : ℕ} :
    c ∈ treeChildren numNodes node ↔ c < numNodes ∧ c ≠ 0 ∧ (c - 1) / 2 = node := by
  simp only [treeChildren, mem_append, mem_ite_nil_right, mem_singleton]
  omega

theorem nodup_treeChildren (numNodes node : ℕ) : (treeChildren numNodes node).Nodup := by
  unfold treeChildren
  split <;> split <;> simp

namespace DefaultGroup

/-- `DefaultGroup::broadcast` on a node. -/
def broadcast (numNodes : ℕ) (env : Envelope) (node : ℕ) (sender : Option ℕ)
    (isRoot deliver : Bool) :
    Outcome :=
  let children := treeChildren numNodes node
  let sendToRoot := isRoot && node != 0
  let thisNodeDest := env.dest == node
  let firstSend := sender == none
  let sends :=
    if (0 < children.length || sendToRoot) && (!thisNodeDest || firstSend) then
      children.filter (· ≠ env.dest) ++ if sendToRoot then [0] else []
    else []
  ⟨sends, if isRoot then env.deliverBcast else deliver⟩

/-- `groupHandler` on a node, for a broadcast on the default group. -/
def handler (numNodes : ℕ) (env : Envelope) (node : ℕ) : Option ℕ → Bool → Outcome :=
  groupHandler (broadcast numNodes env node)

end DefaultGroup

open DefaultGroup

/-! ## The two traversals -/

/-- Whether a message to `m` leads to one to `n`: `n` is below `m` in the tree, and the origin is
not between them. -/
def covers (o m n : ℕ) : ℕ :=
  if n = o then 0 else if n = m then 1 else if n = 0 then 0 else covers o m ((n - 1) / 2)
termination_by n

variable {numNodes o m n : ℕ}

theorem covers_origin : covers o m o = 0 := by
  rw [covers, if_pos rfl]

theorem covers_self (h : m ≠ o) : covers o m m = 1 := by
  rw [covers, if_neg h, if_pos rfl]

theorem covers_parent (ho : n ≠ o) (hm : n ≠ m) (h0 : n ≠ 0) :
    covers o m n = covers o m ((n - 1) / 2) := by
  rw [covers, if_neg ho, if_neg hm, if_neg h0]

theorem covers_above (h : n < m) : covers o m n = 0 := by
  induction n using Nat.strong_induction_on with
  | _ n ih =>
    rw [covers]
    split
    · rfl
    · rw [if_neg (by omega)]
      split
      · rfl
      · exact ih _ (by omega) (by omega)

/-- The total over the children of a node that are not the origin. -/
theorem sum_treeChildren (f : ℕ → ℕ) :
    (((treeChildren numNodes m).filter (· ≠ o)).map f).sum =
      (if m * 2 + 1 < numNodes ∧ m * 2 + 1 ≠ o then f (m * 2 + 1) else 0) +
        if m * 2 + 2 < numNodes ∧ m * 2 + 2 ≠ o then f (m * 2 + 2) else 0 := by
  rw [treeChildren, filter_append, map_append, sum_append]
  congr 1 <;>
  · split <;> simp_all [filter_singleton]
    split <;> simp_all

/-- A node other than the origin passes the message on to all it covers but itself. -/
theorem covers_eq (hm : m ≠ o) (hn : n < numNodes) :
    covers o m n = (if m = n then 1 else 0) +
      (((treeChildren numNodes m).filter (· ≠ o)).map (covers o · n)).sum := by
  rw [sum_treeChildren]
  induction n using Nat.strong_induction_on with
  | _ n ih =>
    by_cases ho : n = o
    · subst ho
      simp [covers_origin, hm]
    by_cases hnm : n = m
    · subst hnm
      rw [covers_self hm, covers_above (by omega), covers_above (by omega)]
      simp
    by_cases h0 : n = 0
    · subst h0
      rw [covers_above (by omega), covers_above (by omega), covers_above (by omega),
        if_neg (by omega)]
      simp
    rw [covers_parent ho hnm h0, if_neg (Ne.symm hnm), Nat.zero_add]
    by_cases hpm : (n - 1) / 2 = m
    · -- one of the two children is the node, and the other does not cover it
      rw [hpm, covers_self hm]
      obtain hc | hc : n = m * 2 + 1 ∨ n = m * 2 + 2 := by omega
      · rw [if_pos ⟨by omega, by omega⟩, ← hc, covers_self ho, covers_above (by omega)]
        simp
      · have hother : covers o (m * 2 + 1) n = 0 := by
          rw [covers_parent ho (by omega) h0]
          exact covers_above (by omega)
        rw [hother, if_pos (c := m * 2 + 2 < numNodes ∧ m * 2 + 2 ≠ o) ⟨by omega, by omega⟩, ← hc,
          covers_self ho]
        simp
    · rw [ih _ (by omega) (by omega), if_neg (Ne.symm hpm), Nat.zero_add,
        covers_parent ho (m := m * 2 + 1) (by omega) h0,
        covers_parent ho (m := m * 2 + 2) (by omega) h0]

/-- The children of the origin and the root of the tree: the nodes that the origin sends to. -/
theorem covers_firstHops (hn : n < numNodes) (ho : n ≠ o) :
    (((treeChildren numNodes o).filter (· ≠ o)).map (covers o · n)).sum +
      (if o = 0 then 0 else covers o 0 n) = 1 := by
  rw [sum_treeChildren]
  induction n using Nat.strong_induction_on with
  | _ n ih =>
    by_cases h0 : n = 0
    · subst h0
      rw [covers_above (by omega), covers_above (by omega), covers_self ho, if_neg (Ne.symm ho)]
      simp
    by_cases hpo : (n - 1) / 2 = o
    · have hroot : (if o = 0 then 0 else covers o 0 n) = 0 := by
        split
        · rfl
        · rw [covers_parent ho h0 h0, hpo, covers_origin]
      rw [hroot]
      obtain hc | hc : n = o * 2 + 1 ∨ n = o * 2 + 2 := by omega
      · rw [if_pos ⟨by omega, by omega⟩, ← hc, covers_self ho, covers_above (by omega)]
        simp
      · have hother : covers o (o * 2 + 1) n = 0 := by
          rw [covers_parent ho (by omega) h0, hpo, covers_origin]
        rw [hother, if_pos (c := o * 2 + 2 < numNodes ∧ o * 2 + 2 ≠ o) ⟨by omega, by omega⟩, ← hc,
          covers_self ho]
        simp
    · rw [covers_parent ho (m := o * 2 + 1) (by omega) h0,
        covers_parent ho (m := o * 2 + 2) (by omega) h0, covers_parent ho h0 h0]
      exact ih _ (by omega) (by omega) hpo

/-! ## Exactly once -/

/-- What a broadcast on the default group does, in every order in which its messages are handled. -/
structure BroadcastsOnce (numNodes : ℕ) (env : Envelope) : Prop where
  ends : CastEnds (handler numNodes env) env.dest
  once : ∀ s, CastReaches (handler numNodes env) env.dest s →
    ∀ n, (received s).count n ≤ if n < numNodes ∧ n ≠ env.dest then 1 else 0
  all : ∀ s, CastReaches (handler numNodes env) env.dest s → s.inflight = [] →
    ∀ n, n < numNodes → n ≠ env.dest → (received s).count n = 1
  delivery : ∀ s, CastReaches (handler numNodes env) env.dest s →
    delivered (handler numNodes env) env.dest s =
      (if env.deliverBcast then [env.dest] else []) ++ received s

variable {env : Envelope} {s : Flood Hop}

/-- A node other than the origin sends to its children except the origin. -/
theorem handler_other (h : m ≠ env.dest) (sender : ℕ) :
    handler numNodes env m (some sender) false =
      ⟨(treeChildren numNodes m).filter (· ≠ env.dest), true⟩ := by
  cases hc : treeChildren numNodes m with
  | nil => simp [handler, groupHandler, broadcast, hc]
  | cons c cs =>
    simp [handler, groupHandler, broadcast, hc, Ne.symm h]

/-- The origin sends to its children and to the root of the tree. -/
theorem handler_origin :
    handler numNodes env env.dest none true =
      ⟨(treeChildren numNodes env.dest).filter (· ≠ env.dest) ++
        if env.dest = 0 then [] else [0], env.deliverBcast⟩ := by
  by_cases h0 : env.dest = 0
  · cases hc : treeChildren numNodes 0 with
    | nil | cons c cs => simp [handler, groupHandler, broadcast, h0, hc]
  · simp [handler, groupHandler, broadcast, h0]

/-- A message on its way is for another node than the origin. -/
def Elsewhere (numNodes : ℕ) (env : Envelope) (x : Hop) : Prop :=
  x.node < numNodes ∧ x.node ≠ env.dest

theorem firstHops_elsewhere (ho : env.dest < numNodes) :
    ∀ x ∈ firstHops (handler numNodes env) env.dest, Elsewhere numNodes env x := by
  intro x hx
  rw [firstHops, handler_origin] at hx
  obtain ⟨n, hn, rfl⟩ := mem_map.mp hx
  rcases mem_append.mp hn with hn | hn
  · obtain ⟨hc, hne⟩ := mem_filter.mp hn
    exact ⟨(mem_treeChildren.mp hc).1, of_decide_eq_true hne⟩
  · split at hn
    next => simp at hn
    next h0 =>
      obtain rfl := mem_singleton.mp hn
      exact ⟨Nat.zero_lt_of_lt ho, Ne.symm h0⟩

theorem forward_elsewhere (x : Hop) (hx : Elsewhere numNodes env x) :
    ∀ y ∈ forward (handler numNodes env) x, Elsewhere numNodes env y := by
  intro y hy
  rw [forward, handler_other hx.2] at hy
  obtain ⟨n, hn, rfl⟩ := mem_map.mp hy
  obtain ⟨hc, hne⟩ := mem_filter.mp hn
  exact ⟨(mem_treeChildren.mp hc).1, of_decide_eq_true hne⟩

theorem count_received (s : Flood Hop) (n : ℕ) :
    (s.handled.map fun x => if x.node = n then 1 else 0).sum = (received s).count n := by
  rw [received, ← sum_map_eq_count, map_map]
  rfl

section

variable (ho : env.dest < numNodes)
  (h : CastReaches (handler numNodes env) env.dest s)
include ho h

theorem handled_elsewhere : ∀ x ∈ s.handled, Elsewhere numNodes env x :=
  (Flood.forall_mem (firstHops_elsewhere ho) forward_elsewhere h).2

/-- A node has received the message, or one of the messages on their way leads to it. -/
theorem received_account (hn : n < numNodes) (hne : n ≠ env.dest) :
    (received s).count n + (s.inflight.map fun x => covers env.dest x.node n).sum = 1 := by
  have haccount := Flood.account (fun x : Hop => if x.node = n then 1 else 0)
    (fun x : Hop => covers env.dest x.node n) (firstHops_elsewhere ho) forward_elsewhere ?_ h
  · rw [count_received] at haccount
    rw [haccount, ← covers_firstHops hn hne, firstHops, handler_origin, map_map,
      map_append, sum_append]
    split <;> simp [Function.comp_def]
  · intro x hx
    rw [forward, handler_other hx.2, map_map, covers_eq hx.2 hn]
    rfl

theorem count_received_le (n : ℕ) :
    (received s).count n ≤ if n < numNodes ∧ n ≠ env.dest then 1 else 0 := by
  split
  case isTrue hn =>
    have haccount := received_account ho h hn.1 hn.2
    omega
  case isFalse hn =>
    refine le_of_eq (count_eq_zero.mpr ?_)
    intro hmem
    obtain ⟨x, hx, rfl⟩ := mem_map.mp hmem
    exact hn (handled_elsewhere ho h x hx)

theorem count_received_quiet (hquiet : s.inflight = []) (hn : n < numNodes) (hne : n ≠ env.dest) :
    (received s).count n = 1 := by
  have haccount := received_account ho h hn hne
  rwa [hquiet, map_nil, sum_nil, Nat.add_zero] at haccount

theorem delivered_default :
    delivered (handler numNodes env) env.dest s =
      (if env.deliverBcast then [env.dest] else []) ++ received s := by
  have hall : s.handled.filter
      (fun x => (handler numNodes env x.node (some x.sender) false).deliver) =
      s.handled := by
    rw [filter_eq_self]
    intro x hx
    rw [handler_other (handled_elsewhere ho h x hx).2]
  rw [delivered, hall, handler_origin, received]

end

theorem cast_ends (ho : env.dest < numNodes) :
    CastEnds (handler numNodes env) env.dest := by
  refine Flood.ends_of_count (·.node) (List.range numNodes) ?_
  intro s hs n
  refine (count_received_le ho hs n).trans ?_
  simp only [mem_range]
  split <;> split <;> omega

/-- For every number of nodes and every origin, each other node receives the message once, and
it is delivered where it is received, and on the origin if this is asked for. -/
theorem broadcast_exactly_once (ho : env.dest < numNodes) : BroadcastsOnce numNodes env where
  ends := cast_ends ho
  once _ hs := count_received_le ho hs
  all _ hs hquiet _ hn hne := count_received_quiet ho hs hquiet hn hne
  delivery _ hs := delivered_default ho hs

/-- A broadcast from an inner node of a tree of nine. -/
theorem broadcast_exactly_once_inner : BroadcastsOnce 9 ⟨3, false⟩ :=
  broadcast_exactly_once (by decide)

end VtRuntime.Group
