import VtRuntime.Group.CollectiveFinalize
import VtRuntime.Lib.Children
import Mathlib.Algebra.BigOperators.Fin

/-!
# Broadcasts to a collective group

The members of a finished group form a tree, and a message is passed down this tree.  A member that
is not the root of the tree sends a broadcast to its own children and to the root, and the message
that comes down from the root is not sent to it.  Another node sends it to the root only.
-/

namespace VtRuntime.Group

open Lib List

/-- What a node knows about a collective group. -/
structure CollInfo where
  inGroup : Bool
  isReady : Bool
  isEmptyGroup : Bool
  getRoot : Option ℕ
  /-- The children in `span_`. -/
  children : List ℕ

/-- What a call of `sendGroupCollective` does.  It may be repeated when the group is ready. -/
structure CollOutcome extends Outcome where
  postponed : Bool := false

/-- `GroupManager::sendGroupCollective` on a node. -/
def sendGroupCollective (info : CollInfo) (env : Envelope) (node : ℕ) (sender : Option ℕ)
    (isRoot deliver : Bool) : CollOutcome :=
  if info.isEmptyGroup then { sends := [], deliver }
  else if info.inGroup && info.isReady then
    match info.getRoot with
    | none => { sends := [], deliver }
    | some rootNode =>
      let sendToRoot := isRoot && node != rootNode
      let thisNodeDest := env.dest == node
      let firstSend := sender == none
      if (0 < info.children.length || sendToRoot) && (!thisNodeDest || firstSend) then
        { sends := info.children.filter (· ≠ env.dest) ++ if sendToRoot then [rootNode] else []
          deliver := if !firstSend && thisNodeDest then false else true }
      else { sends := [], deliver := true }
  else if info.inGroup then { sends := [], deliver := true, postponed := true }
  else
    match info.getRoot with
    | none => { sends := [], deliver }
    | some rootNode => { sends := [rootNode], deliver := false }

/-- `groupHandler` on a node, for a broadcast to the group. -/
def collHandler (info : ℕ → CollInfo) (env : Envelope) (node : ℕ) : Option ℕ → Bool → Outcome :=
  groupHandler fun sender isRoot deliver =>
    (sendGroupCollective (info node) env node sender isRoot deliver).toOutcome

/-- The group is finished, and its members form a tree with the root that all nodes know. -/
structure CollTree (numNodes : ℕ) (info : ℕ → CollInfo) (members : List ℕ) (root : ℕ) : Prop where
  nodup : members.Nodup
  lt : ∀ n ∈ members, n < numNodes
  inGroup : ∀ n < numNodes, ((info n).inGroup = true ↔ n ∈ members)
  isReady : ∀ n < numNodes, (info n).isReady = true
  isEmptyGroup : ∀ n < numNodes, (info n).isEmptyGroup = false
  getRoot : ∀ n < numNodes, (info n).getRoot = some root
  root_mem : root ∈ members
  /-- A member is a child of one member, once, unless it is the root; no other node is a child. -/
  count : ∀ c, (members.map fun n => (info n).children.count c).sum =
    if c ∈ members ∧ c ≠ root then 1 else 0
  /-- From a member the parents lead to the root. -/
  reaches : ∀ c ∈ members,
    Relation.ReflTransGen (fun c p => p ∈ members ∧ c ∈ (info p).children) c root

/-- In every order in which its messages are handled, a broadcast by `origin` is sent finitely
often, and is delivered once on every member and on no other node. -/
structure DeliversOnce (handler : ℕ → Option ℕ → Bool → Outcome) (members : List ℕ) (origin : ℕ) :
    Prop where
  ends : CastEnds handler origin
  once : ∀ s, CastReaches handler origin s →
    ∀ n, (delivered handler origin s).count n ≤ if n ∈ members then 1 else 0
  all : ∀ s, CastReaches handler origin s → s.inflight = [] →
    ∀ n ∈ members, (delivered handler origin s).count n = 1

/-! ## The tree without the origin -/

/-- The nodes that a member sends a broadcast of `o` on to. -/
def castKids (info : ℕ → CollInfo) (members : List ℕ) (o m : ℕ) : List ℕ :=
  if m ∈ members then (info m).children.filter (· ≠ o) else []

section Tree

variable {numNodes o m n c p root : ℕ} {info : ℕ → CollInfo} {members : List ℕ} {s : Flood Hop}

theorem mem_castKids : c ∈ castKids info members o m ↔
    (m ∈ members ∧ c ∈ (info m).children) ∧ c ≠ o := by
  unfold castKids
  by_cases hm : m ∈ members <;> simp [hm]

section CollTree

variable (ht : CollTree numNodes info members root)
include ht

theorem count_children_le (hp : p ∈ members) (c : ℕ) :
    (info p).children.count c ≤ if c ∈ members ∧ c ≠ root then 1 else 0 := by
  rw [← ht.count c]
  exact single_le_sum (fun _ _ => Nat.zero_le _) _
    (mem_map_of_mem (f := fun n => (info n).children.count c) hp)

theorem mem_children (hp : p ∈ members) (hc : c ∈ (info p).children) : c ∈ members ∧ c ≠ root := by
  have hle := count_children_le ht hp c
  have hpos := count_pos_iff.mpr hc
  by_contra hnot
  rw [if_neg hnot] at hle
  omega

theorem parent_unique (hm : m ∈ members) (hc : c ∈ (info m).children) (hp : p ∈ members)
    (hc' : c ∈ (info p).children) : m = p := by
  by_contra hne
  have hsum := ht.count c
  rw [((perm_cons_erase hm).map _).sum_eq, map_cons, sum_cons] at hsum
  have hle := single_le_sum (fun _ _ => Nat.zero_le _) _ (mem_map_of_mem
    (f := fun n => (info n).children.count c) ((mem_erase_of_ne (Ne.symm hne)).mpr hp))
  have hone := count_pos_iff.mpr hc
  have hone' := count_pos_iff.mpr hc'
  split at hsum <;> omega

theorem exists_parent (hn : n ∈ members) (hne : n ≠ root) :
    ∃ p ∈ members, n ∈ (info p).children := by
  rcases (ht.reaches n hn).cases_head with rfl | ⟨p, hp, -⟩
  · exact absurd rfl hne
  · exact ⟨p, hp⟩

theorem acyclic_children : Acyclic fun c p => p ∈ members ∧ c ∈ (info p).children := by
  refine Acyclic.of_reaches (r := root) ?_ ?_ ?_
  · exact fun hp hp' => parent_unique ht hp.1 hp.2 hp'.1 hp'.2
  · exact fun p hp => (mem_children ht hp.1 hp.2).2 rfl
  · exact fun c p hp => ht.reaches c (mem_children ht hp.1 hp.2).1

theorem forest_castKids (o : ℕ) : KidForest (castKids info members o) := by
  refine ⟨?_, ?_, ?_⟩
  · intro m
    unfold castKids
    split
    · rename_i hm
      refine List.Nodup.filter _ (nodup_iff_count_le_one.mpr ?_)
      intro c
      refine (count_children_le ht hm c).trans ?_
      split <;> omega
    · exact nodup_nil
  · intro m m' c hc hc'
    rw [mem_castKids] at hc hc'
    exact parent_unique ht hc.1.1 hc.1.2 hc'.1.1 hc'.1.2
  · exact (acyclic_children ht).mono fun c p h => (mem_castKids.mp h).1

/-- A member is below the origin or, without the origin, below the root. -/
theorem spans_origin_or_root (hn : n ∈ members) :
    spans (castKids info members o) o n +
      (if o = root then 0 else spans (castKids info members o) root n) = 1 := by
  have hforest := forest_castKids ht o
  have htop : ∀ p, o ∉ castKids info members o p := fun p h => (mem_castKids.mp h).2 rfl
  induction n using (acyclic_children ht).induction with
  | hstep n ih =>
    by_cases hno : n = o
    · subst hno
      rw [spans_self]
      split
      · rfl
      · rename_i hroot
        rw [spans_of_top htop hroot]
    by_cases hroot : n = root
    · subst hroot
      have hn : ∀ p, n ∉ castKids info members o p := by
        intro p h
        obtain ⟨⟨hp, hc⟩, -⟩ := mem_castKids.mp h
        exact (mem_children ht hp hc).2 rfl
      rw [spans_of_top hn hno, if_neg (Ne.symm hno), spans_self]
    obtain ⟨p, hp, hc⟩ := exists_parent ht hn hroot
    have hkid : n ∈ castKids info members o p := mem_castKids.mpr ⟨⟨hp, hc⟩, hno⟩
    rw [hforest.spans_kid hkid hno, hforest.spans_kid hkid hroot]
    exact ih p ⟨hp, hc⟩ hp

/-! ## Exactly once -/

/-- A member other than the origin passes the message on to its children. -/
theorem collHandler_member (hm : m ∈ members) (hne : m ≠ o) (sender : ℕ) :
    collHandler info ⟨o, true⟩ m (some sender) false = ⟨castKids info members o m, true⟩ := by
  have hlt := ht.lt m hm
  have hin := (ht.inGroup m hlt).mpr hm
  cases hc : (info m).children with
  | nil | cons c cs =>
    simp [collHandler, groupHandler, sendGroupCollective, hin, ht.isReady m hlt,
      ht.isEmptyGroup m hlt, ht.getRoot m hlt, castKids, hm, hc, Ne.symm hne]

/-- The origin sends to its children, if it is a member, and to the root. -/
theorem collHandler_origin (ho : o < numNodes) :
    collHandler info ⟨o, true⟩ o none true =
      ⟨castKids info members o o ++ if o = root then [] else [root], decide (o ∈ members)⟩ := by
  have hin := ht.inGroup o ho
  by_cases hm : o ∈ members
  · by_cases hroot : o = root
    · cases hc : (info o).children with
      | nil | cons c cs =>
        simp [collHandler, groupHandler, sendGroupCollective, hin.mpr hm, ht.isReady o ho,
          ht.isEmptyGroup o ho, ht.getRoot o ho, castKids, hm, hc, ← hroot]
    · simp [collHandler, groupHandler, sendGroupCollective, hin.mpr hm, ht.isReady o ho,
        ht.isEmptyGroup o ho, ht.getRoot o ho, castKids, hm, hroot]
  · have hroot : o ≠ root := fun h => hm (h ▸ ht.root_mem)
    have hfalse : (info o).inGroup = false := by
      rw [← Bool.not_eq_true]
      exact fun h => hm (hin.mp h)
    simp [collHandler, groupHandler, sendGroupCollective, hfalse, ht.isEmptyGroup o ho,
      ht.getRoot o ho, castKids, hm, hroot]

/-- The messages on their way are for members other than the origin. -/
theorem firstHops_member (ho : o < numNodes) : ∀ x ∈ firstHops (collHandler info ⟨o, true⟩) o,
    x.node ∈ members ∧ x.node ≠ o := by
  intro x hx
  rw [firstHops, collHandler_origin ht ho] at hx
  obtain ⟨n, hn, rfl⟩ := mem_map.mp hx
  rcases mem_append.mp hn with hn | hn
  · obtain ⟨⟨hp, hc⟩, hne⟩ := mem_castKids.mp hn
    exact ⟨(mem_children ht hp hc).1, hne⟩
  · obtain ⟨hroot, hn⟩ := mem_ite_nil_left.mp hn
    obtain rfl := mem_singleton.mp hn
    exact ⟨ht.root_mem, Ne.symm hroot⟩

theorem forward_member (x : Hop) (hx : x.node ∈ members ∧ x.node ≠ o) :
    ∀ y ∈ forward (collHandler info ⟨o, true⟩) x, y.node ∈ members ∧ y.node ≠ o := by
  intro y hy
  rw [forward, collHandler_member ht hx.1 hx.2] at hy
  obtain ⟨n, hn, rfl⟩ := mem_map.mp hy
  obtain ⟨⟨hp, hc⟩, hne⟩ := mem_castKids.mp hn
  exact ⟨(mem_children ht hp hc).1, hne⟩

theorem handled_member (ho : o < numNodes) (h : CastReaches (collHandler info ⟨o, true⟩) o s) :
    ∀ x ∈ s.handled, x.node ∈ members ∧ x.node ≠ o :=
  (Flood.forall_mem (firstHops_member ht ho) (forward_member ht) h).2

/-- A member is the origin, has received the message, or a message on its way leads to it. -/
theorem cast_received (ho : o < numNodes) (h : CastReaches (collHandler info ⟨o, true⟩) o s)
    (hn : n ∈ members) : (if o = n then 1 else 0) + (received s).count n +
      (s.inflight.map fun x => spans (castKids info members o) x.node n).sum = 1 := by
  have hforest := forest_castKids ht o
  have haccount := Flood.account (fun x : Hop => if x.node = n then 1 else 0)
    (fun x : Hop => spans (castKids info members o) x.node n) (firstHops_member ht ho)
    (forward_member ht) ?_ h
  · have hone := spans_origin_or_root ht hn (o := o)
    have hroot : ((if o = root then [] else [root]).map
        (spans (castKids info members o) · n)).sum =
          if o = root then 0 else spans (castKids info members o) root n := by
      split <;> simp
    rw [hforest.spans_eq o n] at hone
    rw [count_received, firstHops, collHandler_origin ht ho, map_map, map_append,
      sum_append] at haccount
    simp only [Function.comp_def] at haccount
    omega
  · intro x hx
    rw [forward, collHandler_member ht hx.1 hx.2, map_map, hforest.spans_eq]
    rfl

theorem delivered_eq (ho : o < numNodes) (h : CastReaches (collHandler info ⟨o, true⟩) o s) :
    delivered (collHandler info ⟨o, true⟩) o s =
      (if o ∈ members then [o] else []) ++ received s := by
  have hall : s.handled.filter
      (fun x => (collHandler info ⟨o, true⟩ x.node (some x.sender) false).deliver) = s.handled := by
    rw [filter_eq_self]
    intro x hx
    obtain ⟨hmem, hne⟩ := handled_member ht ho h x hx
    rw [collHandler_member ht hmem hne]
  rw [delivered, hall, collHandler_origin ht ho, received]
  simp

end CollTree

/-- For every tree of the members and every origin, a broadcast to a finished collective group is
delivered once on each member, and on no other node. -/
theorem collective_broadcast_once (ht : CollTree numNodes info members root) (ho : o < numNodes) :
    DeliversOnce (collHandler info ⟨o, true⟩) members o := by
  have hcount : ∀ s, CastReaches (collHandler info ⟨o, true⟩) o s → ∀ n ∈ members,
      (delivered (collHandler info ⟨o, true⟩) o s).count n +
        (s.inflight.map fun x => spans (castKids info members o) x.node n).sum = 1 := by
    intro s hs n hn
    rw [delivered_eq ht ho hs, count_append, ← cast_received ht ho hs hn]
    congr 2
    by_cases hon : o = n
    · simp [hon, hn]
    · split <;> simp [hon]
  constructor
  case ends =>
    refine Flood.ends_of_count (·.node) members ?_
    intro s hs n
    change (received s).count n ≤ _
    split
    case isTrue hn =>
      have h := cast_received ht ho hs hn
      omega
    case isFalse hn =>
      refine (count_eq_zero.mpr ?_).le
      intro h
      obtain ⟨x, hx, rfl⟩ := mem_map.mp h
      exact hn (handled_member ht ho hs x hx).1
  case once =>
    intro s hs n
    split
    case isTrue hn =>
      have h := hcount s hs n hn
      omega
    case isFalse hn =>
      refine (count_eq_zero.mpr ?_).le
      rw [delivered_eq ht ho hs, mem_append]
      rintro (h | h)
      · obtain ⟨hmem, h⟩ := mem_ite_nil_right.mp h
        exact hn (mem_singleton.mp h ▸ hmem)
      · obtain ⟨x, hx, rfl⟩ := mem_map.mp h
        exact hn (handled_member ht ho hs x hx).1
  case all =>
    intro s hs hquiet n hn
    have h := hcount s hs n hn
    rwa [hquiet, map_nil, sum_nil, Nat.add_zero] at h

end Tree

/-! ## The group that the construction leaves -/

namespace CollGroup

section Aware

variable {N : Type*} [Fintype N] [DecidableEq N] {G : CollGroup N} {x : CollSys N} {n src : N}
  {msg : CollMsg N} {l l' : InfoColl N} {out : List (N × CollMsg N)} {fin : Bool}

/-- A node that knows the root says so, and the group is found empty only by the root of the initial
tree when it reports no root. -/
structure Aware (G : CollGroup N) (n : N) (l : InfoColl N) : Prop where
  hasRoot : l.knownRootNode ≠ none → l.hasRoot = true
  isEmptyGroup : l.isEmptyGroup = true →
    n = G.tree.root ∧ l.reported = true ∧ l.knownRootNode = none

theorem Does.aware (h : G.Does n l src msg l' out fin) (he : G.Expects n l msg)
    (ha : G.AvoidsRoot n msg) (hu : n = G.tree.root → l.reported = false → Unknown l)
    (hl : G.Aware n l) : G.Aware n l' := by
  -- a message from below finds the node before its report
  have hopen : ∀ m, msg = .upTree m → l.isEmptyGroup ≠ true := by
    intro m hm hempty
    have hrep := (hl.isEmptyGroup hempty).2.1
    rw [he.reported m hm] at hrep
    exact Bool.noConfusion hrep
  cases h with
  | singular =>
    rw [he.fresh rfl]
    exact ⟨fun _ => rfl, fun h => Bool.noConfusion h⟩
  | leaf | inner =>
    rw [he.fresh rfl]
    exact ⟨fun h => absurd rfl h, fun h => Bool.noConfusion h⟩
  | arrive m | report m => exact ⟨hl.hasRoot, fun h => absurd h (hopen m rfl)⟩
  | rootIn m | rootOut m => exact ⟨fun _ => rfl, fun h => absurd h (hopen m rfl)⟩
  | rootEmpty m _ hroot =>
    exact ⟨hl.hasRoot, fun _ => ⟨hroot, rfl, (hu hroot (he.reported m rfl)).1⟩⟩
  | newRoot | told =>
    exact ⟨fun _ => rfl, fun h => absurd (hl.isEmptyGroup h).1 ha⟩
  | _ => exact ⟨hl.hasRoot, hl.isEmptyGroup⟩

theorem Reaches.aware (h : G.Reaches x) : ∀ n, G.Aware n (x.node n) := by
  refine Reaches.invariant ?_ ?_ h
  · exact fun n => ⟨fun h => absurd rfl h, fun h => Bool.noConfusion h⟩
  · intro x x' n src msg l out fin hx hi hh
    refine hh.forall_node (P := G.Aware) ?_ hi ?_
    · intro n l k
      exact propext ⟨fun h => ⟨h.hasRoot, h.isEmptyGroup⟩, fun h => ⟨h.hasRoot, h.isEmptyGroup⟩⟩
    · exact hh.does.aware (hx.expects hx.counts hh) (hx.avoidsRoot n _ hh.delivers.mem)
        (fun hn => hn ▸ hx.unknown) (hi n)

end Aware

variable {k : ℕ} (G : CollGroup (Fin k)) (x : CollSys (Fin k))

/-- What the nodes know when the new tree has come to all members; there is no other node. -/
def info (n : ℕ) : CollInfo :=
  if h : n < k then
    { inGroup := G.isInGroup ⟨n, h⟩
      isReady := (x.node ⟨n, h⟩).inPhaseTwo && (x.node ⟨n, h⟩).hasRoot
      isEmptyGroup := (x.node ⟨n, h⟩).isEmptyGroup
      getRoot := if (x.node ⟨n, h⟩).hasRoot then (x.node ⟨n, h⟩).knownRootNode.map (·.val) else none
      children := (x.node ⟨n, h⟩).spanChildren.map (·.val) }
  else ⟨false, false, false, none, []⟩

/-- The nodes of the group. -/
def members : List ℕ := ((List.finRange k).filter (G.isInGroup ·)).map (·.val)

variable {G x} {r : Fin k}

theorem mem_members {n : ℕ} : n ∈ G.members ↔ ∃ h : n < k, G.isInGroup ⟨n, h⟩ = true := by
  simp only [members, mem_map, mem_filter, mem_finRange, true_and]
  constructor
  · rintro ⟨i, hi, rfl⟩
    exact ⟨i.isLt, hi⟩
  · rintro ⟨h, hn⟩
    exact ⟨⟨n, h⟩, hn, rfl⟩

theorem sum_members (f : ℕ → ℕ) (hf : ∀ n : Fin k, G.isInGroup n = false → f n = 0) :
    (G.members.map f).sum = ∑ n : Fin k, f n := by
  rw [Fin.sum_univ_def, members, map_map]
  induction List.finRange k with
  | nil => rfl
  | cons n l ih => cases hn : G.isInGroup n <;> simp [hn, ih, hf n]

theorem info_of_lt {n : ℕ} (h : n < k) : G.info x n =
    { inGroup := G.isInGroup ⟨n, h⟩
      isReady := (x.node ⟨n, h⟩).inPhaseTwo && (x.node ⟨n, h⟩).hasRoot
      isEmptyGroup := (x.node ⟨n, h⟩).isEmptyGroup
      getRoot := if (x.node ⟨n, h⟩).hasRoot then (x.node ⟨n, h⟩).knownRootNode.map (·.val) else none
      children := (x.node ⟨n, h⟩).spanChildren.map (·.val) } :=
  dif_pos h

theorem children_info (n : Fin k) :
    (G.info x n).children = (x.node n).spanChildren.map (·.val) := by
  rw [info_of_lt n.isLt]

/-- A node is a child as often as in the lists of the construction. -/
theorem Built.count_info (hb : G.Built x r) (c : ℕ) :
    (G.members.map fun n => (G.info x n).children.count c).sum =
      if c ∈ G.members ∧ c ≠ r then 1 else 0 := by
  rw [sum_members]
  · by_cases hc : c < k
    · have hcount : ∀ n : Fin k, (G.info x n).children.count c =
          (x.node n).spanChildren.count ⟨c, hc⟩ := by
        intro n
        rw [children_info]
        exact count_map_of_injective _ _ Fin.val_injective ⟨c, hc⟩
      rw [Finset.sum_congr rfl fun n _ => hcount n, hb.count ⟨c, hc⟩]
      refine if_congr (and_congr ?_ ?_) rfl rfl
      · rw [mem_members]
        exact ⟨fun h => ⟨hc, h⟩, fun ⟨_, h⟩ => h⟩
      · exact not_congr Fin.ext_iff
    · rw [if_neg fun h => hc (mem_members.mp h.1).1]
      refine Finset.sum_eq_zero ?_
      intro n _
      rw [children_info, count_eq_zero]
      intro hmem
      obtain ⟨i, -, rfl⟩ := mem_map.mp hmem
      exact hc i.isLt
  · intro n hn
    rw [children_info, hb.spanChildren n hn]
    rfl

/-- The construction leaves a group whose members form a tree. -/
theorem Built.collTree (hb : G.Built x r) (h : G.Reaches x) (hset : ∀ n, (x.node n).isSetup = true)
    (hquiet : ∀ n, x.inbox n = []) : CollTree k (G.info x) G.members r := by
  have hknown : ∀ n, (x.node n).knownRootNode ≠ none := by
    intro n hnone
    rw [hb.knownRootNode n] at hnone
    exact Option.some_ne_none r hnone
  have hroot : ∀ n, (x.node n).hasRoot = true := fun n => (h.aware n).hasRoot (hknown n)
  have hphase := phase_of_quiet h hquiet hset
  refine ⟨?_, ?_, ?_, ?_, ?_, ?_, ?_, hb.count_info, ?_⟩
  · exact ((nodup_finRange k).filter _).map Fin.val_injective
  · exact fun n hn => (mem_members.mp hn).1
  · intro n hn
    rw [info_of_lt hn, mem_members]
    exact ⟨fun h => ⟨hn, h⟩, fun ⟨_, h⟩ => h⟩
  · intro n hn
    rw [info_of_lt hn, hphase, hroot]
    rfl
  · intro n hn
    rw [info_of_lt hn, Bool.eq_false_iff]
    exact fun hempty => hknown _ ((h.aware _).isEmptyGroup hempty).2.2
  · intro n hn
    rw [info_of_lt hn, hroot, hb.knownRootNode]
    rfl
  · exact mem_members.mpr ⟨r.isLt, hb.isInGroup⟩
  · intro c hc
    obtain ⟨hlt, hin⟩ := mem_members.mp hc
    refine (hb.reaches ⟨c, hlt⟩ hin).lift Fin.val ?_
    intro c p hcp
    refine ⟨mem_members.mpr ⟨p.isLt, ?_⟩, ?_⟩
    · by_contra hp
      rw [hb.spanChildren p (Bool.eq_false_iff.mpr hp)] at hcp
      exact absurd hcp not_mem_nil
    · rw [children_info]
      exact mem_map_of_mem hcp

end CollGroup

/-- A broadcast to the group of three nodes without the root of the initial tree, by that node. -/
theorem collective_broadcast_once_outsider : ∃ info : ℕ → CollInfo,
    DeliversOnce (collHandler info ⟨0, true⟩) [1, 2] 0 := by
  obtain ⟨x, hx, hset, hquiet⟩ : ∃ x, (CollGroup.ofMembers 2 (· ≠ 0)).Reaches x ∧
      (∀ n, (x.node n).isSetup = true) ∧ ∀ n, x.inbox n = [] := by
    refine Reach.of_run _ [(0, 0), (1, 0), (2, 0), (0, 0), (0, 0), (1, 0), (1, 0), (0, 0), (1, 0),
      (2, 0)] _ rfl ?_
    decide +kernel
  obtain ⟨r, hb⟩ := CollGroup.built_of_quiet hx hset hquiet ⟨1, rfl⟩
  exact ⟨_, collective_broadcast_once (hb.collTree hx hset hquiet) (by decide)⟩

end VtRuntime.Group
