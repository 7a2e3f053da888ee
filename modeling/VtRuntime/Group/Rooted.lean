import VtRuntime.Group.Broadcast
import VtRuntime.Group.Region

/-!
# Rooted groups

A node creates a rooted group for a region.  If the region is small and has the creator in it, the
creator sends to all its nodes itself.  Otherwise the lowest node of the region becomes the root of
a tree: `groupSetupHandler` takes the head of a region as the root of its part of the tree, and
splits the tail among its children.

A broadcast to the group goes from its origin to the creator, which forwards it to the root of the
tree unless it is the root itself.  The creator knows the group by its local group info, the inner
nodes of the tree know their children by their remote group info.
-/

namespace VtRuntime.Group

open Lib List Flood Nat

def minSpanningTreeSize : ℕ := 3
def minRegionSize : ℕ := 1
def defaultNumChildren : ℕ := 2
def maxRegionListSize : ℕ := 4

/-- A `GroupListMsg` or `GroupRangeMsg`, to the root of a part of the tree. -/
structure SetupMsg where
  root : ℕ
  region : Region
deriving DecidableEq

namespace SetupMsg

variable (m : SetupMsg)

/-- The part is too small for a tree. -/
def isLeaf : Bool := m.region.getSize - 1 < minSpanningTreeSize

def parts : List Region := m.region.tail.splitN defaultNumChildren

/-- The children that `groupSetupHandler` puts into the remote group info of the node. -/
def children : List ℕ :=
  if m.isLeaf then m.region.tail.makeList else m.parts.map (·.head)

end SetupMsg

/-- The messages that `groupSetupHandler` sends. -/
def groupSetup (m : SetupMsg) : List SetupMsg :=
  if m.isLeaf then [] else m.parts.map fun p => ⟨p.head, p⟩

/-- What `setupRooted` leaves on the creator: the node it forwards to, the remote group info if it
sends to the nodes itself, and the message it sends otherwise. -/
structure LocalInfo where
  forwardNode : ℕ
  remote : Option (List ℕ)
  sent : List SetupMsg

/-- `InfoRooted::setupRooted` on the creator.  The size is asserted not to be too small.  A range
whose list has been made is searched for the creator in its list. -/
def setupRooted (madeList : Bool) (thisNode : ℕ) (region : Region) : Option LocalInfo :=
  let size := region.getSize
  if size < minRegionSize then none
  else
    let region := region.sort
    if region.isList || size < maxRegionListSize then
      let nodes := region.makeList
      let containsThisNode :=
        if madeList then decide (thisNode ∈ nodes) else region.contains thisNode
      if size < minSpanningTreeSize && containsThisNode then
        some ⟨thisNode, some nodes, []⟩
      else
        let low := nodes.headD 0
        some ⟨low, none, [⟨low, .list nodes⟩]⟩
    else
      some ⟨region.head, none, [⟨region.head, region⟩]⟩

/-- A rooted group: its creator, and what the nodes know about it. -/
structure RootedGroup where
  creator : ℕ
  forwardNode : ℕ
  remoteInfo : ℕ → Option (List ℕ)

/-- The group after the messages of its setup have been handled.  A node keeps its first info. -/
def RootedGroup.ofSetup (creator : ℕ) (info : LocalInfo) (t : Flood SetupMsg) : RootedGroup where
  creator := creator
  forwardNode := info.forwardNode
  remoteInfo n := (if n = creator then info.remote else none) <|>
    (t.handled.find? (·.root = n)).map (·.children)

/-- `GroupManager::sendGroup` on a node. -/
def sendGroup (g : RootedGroup) (env : Envelope) (node : ℕ) (sender : Option ℕ)
    (isRoot deliver : Bool) : Outcome :=
  let thisNodeDest := env.dest == node
  let firstSend := sender == none
  if isRoot && g.creator != node then ⟨[g.creator], false⟩
  else if node == g.creator && g.forwardNode != node then ⟨[g.forwardNode], false⟩
  else
    match g.remoteInfo node with
    | none => ⟨[], deliver⟩
    | some children =>
        if !thisNodeDest || firstSend then
          ⟨children.filter (· ≠ node),
            if isRoot && firstSend then true else if !isRoot && thisNodeDest then false else true⟩
        else ⟨[], deliver⟩

namespace RootedGroup

/-- `groupHandler` on a node, for a broadcast to the group. -/
def handler (g : RootedGroup) (env : Envelope) (node : ℕ) : Option ℕ → Bool → Outcome :=
  groupHandler (sendGroup g env node)

/-- The nodes that a node passes a message on to. -/
def kids (g : RootedGroup) (n : ℕ) : List ℕ := ((g.remoteInfo n).getD []).filter (· ≠ n)

end RootedGroup

open RootedGroup

/-- A broadcast to the group by `origin`, in every order in which its messages are handled, is sent
finitely often, and is delivered once on every node and on no other. -/
structure CastsOnce (g : RootedGroup) (nodes : List ℕ) (origin : ℕ) : Prop where
  ends : CastEnds (g.handler ⟨origin, true⟩) origin
  once : ∀ s, CastReaches (g.handler ⟨origin, true⟩) origin s →
    ∀ n, (delivered (g.handler ⟨origin, true⟩) origin s).count n ≤ if n ∈ nodes then 1 else 0
  all : ∀ s, CastReaches (g.handler ⟨origin, true⟩) origin s → s.inflight = [] →
    ∀ n ∈ nodes, (delivered (g.handler ⟨origin, true⟩) origin s).count n = 1

/-- The creator is in the region just if it is the node that the messages are forwarded to, and the
origin is the creator or sends to no other node of the group. -/
def RootedGroup.Sound (g : RootedGroup) (nodes : List ℕ) (origin : ℕ) : Prop :=
  (g.creator ∈ nodes ↔ g.forwardNode = g.creator) ∧ (origin = g.creator ∨ g.kids origin = [])

/-! ## The handler -/

section Handler

variable {g : RootedGroup} {origin n x : ℕ}

/-- The creator is not the root of the tree, and passes the message on without delivering it. -/
def RootedGroup.Relay (g : RootedGroup) (n : ℕ) : Prop := n = g.creator ∧ g.forwardNode ≠ g.creator

instance : Decidable (g.Relay n) :=
  inferInstanceAs (Decidable (n = g.creator ∧ g.forwardNode ≠ g.creator))

theorem handler_first (h : origin ≠ g.creator) :
    g.handler ⟨origin, true⟩ origin none true = ⟨[g.creator], false⟩ := by
  simp [handler, groupHandler, sendGroup, Ne.symm h]

theorem handler_first_root {cs : List ℕ} (h : g.forwardNode = g.creator)
    (hcs : g.remoteInfo g.creator = some cs) :
    g.handler ⟨g.creator, true⟩ g.creator none true = ⟨g.kids g.creator, true⟩ := by
  simp [handler, groupHandler, sendGroup, h, hcs, kids]

theorem handler_relay (h : g.Relay n) {sender : Option ℕ} {isRoot : Bool} :
    g.handler ⟨origin, true⟩ n sender isRoot = ⟨[g.forwardNode], false⟩ := by
  obtain ⟨rfl, hne⟩ := h
  simp [handler, groupHandler, sendGroup, hne]

/-- Every other node delivers the message; the origin does not pass it on. -/
theorem handler_member (h : ¬ g.Relay n) :
    g.handler ⟨origin, true⟩ n (some x) false = ⟨if origin = n then [] else g.kids n, true⟩ := by
  have hrelay : (n == g.creator && g.forwardNode != n) = false := by
    by_cases hn : n = g.creator
    · have hf : g.forwardNode = g.creator := by
        by_contra hne
        exact h ⟨hn, hne⟩
      simp [hn, hf]
    · simp [hn]
  rw [handler, groupHandler, sendGroup, hrelay]
  cases hinfo : g.remoteInfo n with
  | none => simp [kids, hinfo]
  | some cs =>
    by_cases ho : origin = n
    · simp [ho]
    · simp [ho, kids, hinfo]

end Handler

/-! ## Groups whose nodes form a tree -/

/-- The nodes form a tree, in which `part n` are the nodes at and below `n`. -/
structure GroupTree (nodes : List ℕ) (root : ℕ) (kids part : ℕ → List ℕ) : Prop where
  nodup : nodes.Nodup
  root_mem : root ∈ nodes
  top : (part root).Perm nodes
  inner : ∀ n ∈ nodes, (part n).Perm (n :: (kids n).flatMap part)
  inside : ∀ n, ∀ c ∈ kids n, n ∈ nodes ∧ c ∈ nodes
  parent : ∀ n n' c, c ∈ kids n → c ∈ kids n' → n = n'
  rootless : ∀ n, root ∉ kids n

theorem GroupTree.perm {nodes nodes' : List ℕ} {root : ℕ} {kids part : ℕ → List ℕ}
    (ht : GroupTree nodes root kids part) (hp : nodes.Perm nodes') :
    GroupTree nodes' root kids part :=
  { ht with
    nodup := hp.nodup_iff.mp ht.nodup
    root_mem := hp.mem_iff.mp ht.root_mem
    top := ht.top.trans hp
    inner := fun n hn => ht.inner n (hp.mem_iff.mpr hn)
    inside := fun n c hc => (ht.inside n c hc).imp hp.mem_iff.mp hp.mem_iff.mp }

section Tree

variable {g : RootedGroup} {nodes : List ℕ} {part : ℕ → List ℕ} {origin n : ℕ} {s : Flood Hop}

/-- What a message to a node causes in all, if it causes `f n` on each node `n` of the tree and
`a` on the creator that only passes it on. -/
def castWeight (g : RootedGroup) (part : ℕ → List ℕ) (f : ℕ → ℕ) (a n : ℕ) : ℕ :=
  if g.Relay n then a + ((part g.forwardNode).map f).sum else ((part n).map f).sum

/-- A message is on its way to a node of the tree or to the creator, which does not get the
message back that it has sent. -/
def Inbound (g : RootedGroup) (nodes : List ℕ) (origin : ℕ) (h : Hop) : Prop :=
  (h.node ∈ nodes ∨ h.node = g.creator) ∧ (origin = g.creator → h.node ≠ g.creator)

/-- The creator passes messages on only if it is outside the tree. -/
theorem not_relay (hs : g.Sound nodes origin) (h : n ∈ nodes) : ¬ g.Relay n := by
  rintro ⟨rfl, hne⟩
  exact hne (hs.1.mp h)

theorem Inbound.mem_nodes (hs : g.Sound nodes origin) {h : Hop} (hi : Inbound g nodes origin h)
    (hr : ¬ g.Relay h.node) : h.node ∈ nodes := by
  rcases hi.1 with hmem | hc
  · exact hmem
  · rw [hc]
    refine hs.1.mpr ?_
    by_contra hne
    exact hr ⟨hc, hne⟩

section

variable (ht : GroupTree nodes g.forwardNode g.kids part)
include ht

variable (hs : g.Sound nodes origin)
include hs

theorem kids_ne_creator {c : ℕ} (hc : c ∈ g.kids n) : c ≠ g.creator := by
  rintro rfl
  refine ht.rootless n ?_
  rwa [hs.1.mp (ht.inside n _ hc).2]

theorem forward_inbound (h : Hop) (_ : Inbound g nodes origin h) :
    ∀ y ∈ forward (g.handler ⟨origin, true⟩) h, Inbound g nodes origin y := by
  intro y hy
  rw [forward] at hy
  obtain ⟨n, hn, rfl⟩ := mem_map.mp hy
  by_cases hr : g.Relay h.node
  · rw [handler_relay hr, mem_singleton] at hn
    subst hn
    exact ⟨Or.inl ht.root_mem, fun _ => hr.2⟩
  · rw [handler_member hr] at hn
    have hkid := (mem_ite_nil_left.mp hn).2
    exact ⟨Or.inl (ht.inside _ n hkid).2, fun _ => kids_ne_creator ht hs hkid⟩

/-- What the messages to the children of a node cause. -/
theorem sum_castWeight_kids (f : ℕ → ℕ) (a n : ℕ) :
    ((g.kids n).map (castWeight g part f a)).sum = (((g.kids n).flatMap part).map f).sum := by
  have hw : ∀ c ∈ g.kids n, castWeight g part f a c = ((part c).map f).sum := by
    intro c hc
    rw [castWeight, if_neg (not_relay hs (ht.inside n c hc).2)]
  rw [map_congr_left hw, map_flatMap]
  induction g.kids n with
  | nil => rfl
  | cons c cs ih => simp [ih]

theorem castWeight_eq (f : ℕ → ℕ) (a : ℕ) (h : Hop) (hi : Inbound g nodes origin h) :
    castWeight g part f a h.node = (if g.Relay h.node then a else f h.node) +
      ((forward (g.handler ⟨origin, true⟩) h).map fun y => castWeight g part f a y.node).sum := by
  rw [forward, map_map]
  by_cases hr : g.Relay h.node
  · rw [handler_relay hr, castWeight, if_pos hr, if_pos hr]
    simp [castWeight, not_relay hs ht.root_mem]
  · have hperm := ht.inner _ (hi.mem_nodes hs hr)
    rw [handler_member hr, castWeight, if_neg hr, if_neg hr, (hperm.map f).sum_eq, map_cons,
      sum_cons]
    congr 1
    split
    case isTrue ho =>
      -- the origin is not the creator, and has no children
      have hkids : g.kids h.node = [] := by
        rw [← ho]
        refine hs.2.resolve_left ?_
        intro hc
        exact hi.2 hc (ho ▸ hc)
      simp [hkids]
    case isFalse =>
      rw [← sum_castWeight_kids ht hs f a]
      rfl

variable (hinfo : g.forwardNode = g.creator → ∃ cs, g.remoteInfo g.creator = some cs)
include hinfo

theorem firstHops_inbound :
    ∀ h ∈ firstHops (g.handler ⟨origin, true⟩) origin, Inbound g nodes origin h := by
  intro h hh
  rw [firstHops] at hh
  obtain ⟨n, hn, rfl⟩ := mem_map.mp hh
  by_cases ho : origin = g.creator
  · by_cases hf : g.forwardNode = g.creator
    · subst ho
      obtain ⟨cs, hcs⟩ := hinfo hf
      rw [handler_first_root hf hcs] at hn
      exact ⟨Or.inl (ht.inside _ n hn).2, fun _ => kids_ne_creator ht hs hn⟩
    · rw [handler_relay ⟨ho, hf⟩, mem_singleton] at hn
      subst hn
      exact ⟨Or.inl ht.root_mem, fun _ => hf⟩
  · rw [handler_first ho, mem_singleton] at hn
    subst hn
    exact ⟨Or.inr rfl, fun heq => absurd heq ho⟩

/-- The conservation rule for a sound broadcast. -/
theorem cast_account (hr : CastReaches (g.handler ⟨origin, true⟩) origin s) (f : ℕ → ℕ) (a : ℕ) :
    (s.handled.map fun h => if g.Relay h.node then a else f h.node).sum +
      (s.inflight.map fun h => castWeight g part f a h.node).sum =
        ((firstHops (g.handler ⟨origin, true⟩) origin).map fun h =>
          castWeight g part f a h.node).sum :=
  account _ _ (firstHops_inbound ht hs hinfo) (forward_inbound ht hs)
    (castWeight_eq ht hs f a) hr

/-- What a broadcast causes on the nodes of the tree, the origin included. -/
theorem sum_firstHops (f : ℕ → ℕ) :
    (if (g.handler ⟨origin, true⟩ origin none true).deliver then f origin else 0) +
      ((firstHops (g.handler ⟨origin, true⟩) origin).map fun h =>
        castWeight g part f 0 h.node).sum =
        (nodes.map f).sum := by
  rw [← (ht.top.map f).sum_eq, firstHops, map_map]
  by_cases ho : origin = g.creator
  · by_cases hf : g.forwardNode = g.creator
    · subst ho
      obtain ⟨cs, hcs⟩ := hinfo hf
      have hperm := ht.inner _ (hf ▸ ht.root_mem)
      rw [handler_first_root hf hcs, hf, (hperm.map f).sum_eq, map_cons, sum_cons,
        ← sum_castWeight_kids ht hs f 0]
      rfl
    · rw [handler_relay ⟨ho, hf⟩]
      simp [castWeight, not_relay hs ht.root_mem]
  · rw [handler_first ho]
    by_cases hf : g.forwardNode = g.creator <;> simp [castWeight, RootedGroup.Relay, hf]

end

theorem count_delivered (s : Flood Hop) (n : ℕ) :
    (delivered (g.handler ⟨origin, true⟩) origin s).count n =
      (if (g.handler ⟨origin, true⟩ origin none true).deliver then
        if origin = n then 1 else 0 else 0) +
        (s.handled.map fun h => if g.Relay h.node then 0 else if h.node = n then 1 else 0).sum := by
  rw [delivered, count_append]
  congr 1
  · split <;> simp [count_singleton]
  · induction s.handled with
    | nil => rfl
    | cons h hs ih =>
      rw [map_cons, sum_cons, ← ih]
      by_cases hr : g.Relay h.node
      · rw [filter_cons_of_neg (by simp [handler_relay hr]), if_pos hr, zero_add]
      · rw [filter_cons_of_pos (by simp [handler_member hr]), if_neg hr, map_cons,
          count_cons, add_comm]
        simp

theorem castsOnce_of_sound (ht : GroupTree nodes g.forwardNode g.kids part)
    (hs : g.Sound nodes origin)
    (hinfo : g.forwardNode = g.creator → ∃ cs, g.remoteInfo g.creator = some cs) :
    CastsOnce g nodes origin := by
  have hcount : ∀ s, CastReaches (g.handler ⟨origin, true⟩) origin s → ∀ n,
      (delivered (g.handler ⟨origin, true⟩) origin s).count n +
        (s.inflight.map fun h => castWeight g part (fun m => if m = n then 1 else 0) 0 h.node).sum =
          nodes.count n := by
    intro s hr n
    have hsum := sum_firstHops ht hs hinfo fun m => if m = n then 1 else 0
    have haccount := cast_account ht hs hinfo hr (fun m => if m = n then 1 else 0) 0
    rw [count_delivered, add_assoc, haccount, hsum, sum_map_eq_count]
  constructor
  case ends =>
    refine ⟨((firstHops (g.handler ⟨origin, true⟩) origin).map fun h =>
      castWeight g part (fun _ => 1) 1 h.node).sum, ?_⟩
    intro s hr
    rw [← cast_account ht hs hinfo hr]
    simp
  case once =>
    intro s hr n
    have h := hcount s hr n
    rw [List.Nodup.count ht.nodup] at h
    omega
  case all =>
    intro s hr hquiet n hn
    have h := hcount s hr n
    rwa [hquiet, map_nil, sum_nil, add_zero, count_eq_one_of_mem ht.nodup hn] at h

/-- A node to which no message goes is left out. -/
theorem not_castsOnce_of_missed (hn : n ∈ nodes) (h : ∀ s,
    CastReaches (g.handler ⟨origin, true⟩) origin s →
      n ∉ delivered (g.handler ⟨origin, true⟩) origin s) : ¬ CastsOnce g nodes origin := by
  intro hcast
  obtain ⟨s, hs, hquiet⟩ := hcast.ends.exists_quiet
  have hone := hcast.all s hs hquiet n hn
  rw [count_eq_zero.mpr (h s hs)] at hone
  omega

/-- A creator that is not the root of the tree passes every message on and delivers none. -/
theorem creator_notMem_delivered (hne : g.forwardNode ≠ g.creator) (s : Flood Hop) :
    g.creator ∉ delivered (g.handler ⟨origin, true⟩) origin s := by
  intro hdel
  rw [delivered, mem_append] at hdel
  rcases hdel with hdel | hdel
  · by_cases ho : origin = g.creator
    · rw [handler_relay ⟨ho, hne⟩] at hdel
      simp at hdel
    · rw [handler_first ho] at hdel
      simp at hdel
  · obtain ⟨h, hh, heq⟩ := mem_map.mp hdel
    obtain ⟨-, hdeliver⟩ := mem_filter.mp hh
    rw [handler_relay ⟨heq, hne⟩] at hdeliver
    simp at hdeliver

theorem not_castsOnce_of_relay (hmem : g.creator ∈ nodes) (hne : g.forwardNode ≠ g.creator) :
    ¬ CastsOnce g nodes origin :=
  not_castsOnce_of_missed hmem fun s _ => creator_notMem_delivered hne s

/-- An origin that is not the creator does not pass on the message that comes back to it. -/
theorem not_castsOnce_of_inner (ht : GroupTree nodes g.forwardNode g.kids part)
    (hiff : g.creator ∈ nodes ↔ g.forwardNode = g.creator) (ho : origin ≠ g.creator)
    (hkids : g.kids origin ≠ []) : ¬ CastsOnce g nodes origin := by
  obtain ⟨c, cs, hcs⟩ := exists_cons_of_ne_nil hkids
  have hc : c ∈ g.kids origin := hcs ▸ mem_cons_self
  have hmem : c ∈ nodes := (ht.inside origin c hc).2
  have hroot : c ≠ g.forwardNode := fun heq => ht.rootless origin (heq ▸ hc)
  have hcreator : c ≠ g.creator := by
    rintro rfl
    exact hroot (hiff.mp hmem).symm
  refine not_castsOnce_of_missed hmem ?_
  intro s hs hdel
  -- only its parent would send the message to the child, and that is the origin
  have hnever := (forall_mem (P := fun h : Hop => h.node ≠ c) ?_ ?_ hs).2
  · rw [delivered, handler_first ho, mem_append] at hdel
    rcases hdel with hdel | hdel
    · simp at hdel
    · obtain ⟨h, hh, heq⟩ := mem_map.mp hdel
      exact hnever h (mem_of_mem_filter hh) heq
  · intro h hh
    rw [firstHops, handler_first ho] at hh
    obtain rfl := mem_singleton.mp hh
    exact hcreator.symm
  · intro h _ y hy
    rw [forward] at hy
    obtain ⟨m, hm, rfl⟩ := mem_map.mp hy
    rintro rfl
    by_cases hr : g.Relay h.node
    · rw [handler_relay hr, mem_singleton] at hm
      exact hroot hm
    · rw [handler_member hr] at hm
      obtain ⟨hne, hm⟩ := mem_ite_nil_left.mp hm
      exact hne (ht.parent _ _ _ hc hm)

/-- A creator that does not belong to the region delivers the message. -/
theorem not_castsOnce_of_outsider (hmem : g.creator ∉ nodes) (heq : g.forwardNode = g.creator)
    (hinfo : ∃ cs, g.remoteInfo g.creator = some cs) : ¬ CastsOnce g nodes origin := by
  intro hcast
  obtain ⟨s, hs, hquiet⟩ := hcast.ends.exists_quiet
  have hdel : g.creator ∈ delivered (g.handler ⟨origin, true⟩) origin s := by
    rw [delivered, mem_append]
    by_cases ho : origin = g.creator
    · subst ho
      obtain ⟨cs, hcs⟩ := hinfo
      simp [handler_first_root heq hcs]
    · have hhop : (⟨origin, g.creator⟩ : Hop) ∈ s.handled := by
        have hsent := (sent_mem hs).1 ⟨origin, g.creator⟩
        rw [firstHops, handler_first ho, hquiet] at hsent
        simpa using hsent
      refine Or.inr (mem_map.mpr ⟨_, mem_filter.mpr ⟨hhop, ?_⟩, rfl⟩)
      rw [handler_member fun hr => hr.2 heq]
  have hone := hcast.once s hs g.creator
  rw [if_neg hmem] at hone
  have hpos := count_pos_iff.mpr hdel
  omega

/-- The broadcasts on a group whose nodes form a tree. -/
theorem castsOnce_iff (ht : GroupTree nodes g.forwardNode g.kids part)
    (hinfo : g.forwardNode = g.creator → ∃ cs, g.remoteInfo g.creator = some cs) :
    CastsOnce g nodes origin ↔ g.Sound nodes origin := by
  refine ⟨?_, fun hs => castsOnce_of_sound ht hs hinfo⟩
  intro hcast
  have hiff : g.creator ∈ nodes ↔ g.forwardNode = g.creator := by
    refine ⟨?_, fun heq => heq ▸ ht.root_mem⟩
    intro hmem
    by_contra hne
    exact not_castsOnce_of_relay hmem hne hcast
  refine ⟨hiff, ?_⟩
  by_contra hnot
  rw [not_or] at hnot
  exact not_castsOnce_of_inner ht hiff hnot.1 hnot.2 hcast

end Tree

/-! ## The setup of the tree -/

namespace SetupMsg

variable {m : SetupMsg} {t : Flood SetupMsg} {n : ℕ}

/-- A message goes to the first node of its region, which has no node twice. -/
def WellFormed (m : SetupMsg) : Prop :=
  m.region.Nonempty ∧ m.root = m.region.head ∧ m.region.makeList.Nodup

theorem WellFormed.makeList_eq (h : m.WellFormed) :
    m.region.makeList = m.root :: m.region.tail.makeList := by
  rw [h.2.1, Region.makeList_eq_cons h.1]

theorem WellFormed.root_notMem (h : m.WellFormed) : m.root ∉ m.region.tail.makeList := by
  have hnodup := h.2.2
  rw [h.makeList_eq, nodup_cons] at hnodup
  exact hnodup.1

theorem WellFormed.exists_parts (h : m.WellFormed) (hleaf : m.isLeaf = false) :
    ∃ p q, groupSetup m = [⟨p.head, p⟩, ⟨q.head, q⟩] ∧ m.children = [p.head, q.head] ∧
      p.Nonempty ∧ q.Nonempty ∧ m.region.tail.makeList = p.makeList ++ q.makeList := by
  have hsize : 4 ≤ m.region.getSize := by
    have hnot := of_decide_eq_false hleaf
    rw [minSpanningTreeSize] at hnot
    omega
  obtain ⟨p, q, hsplit, hp, hq, hnodes⟩ := Region.exists_halves h.1 hsize
  have hparts : m.parts = [p, q] := hsplit
  refine ⟨p, q, ?_, ?_, hp, hq, hnodes⟩
  · simp [groupSetup, hleaf, hparts]
  · simp [children, hleaf, hparts]

theorem WellFormed.sent (h : m.WellFormed) : ∀ c ∈ groupSetup m, c.WellFormed := by
  cases hleaf : m.isLeaf with
  | true => simp [groupSetup, hleaf]
  | false =>
    obtain ⟨p, q, hsetup, -, hp, hq, hnodes⟩ := h.exists_parts hleaf
    have hnodup := h.2.2
    rw [h.makeList_eq, hnodes, nodup_cons, nodup_append] at hnodup
    rw [hsetup]
    intro c hc
    simp only [mem_cons, not_mem_nil, or_false] at hc
    rcases hc with rfl | rfl
    · exact ⟨hp, rfl, hnodup.2.1⟩
    · exact ⟨hq, rfl, hnodup.2.2.1⟩

/-- The nodes that a message settles: all of its part if that is not split, and otherwise the
root. -/
def own (m : SetupMsg) : List ℕ := if m.isLeaf then m.region.makeList else [m.root]

theorem WellFormed.root_mem_own (h : m.WellFormed) : m.root ∈ m.own := by
  rw [own]
  split
  · rw [h.makeList_eq]
    exact mem_cons_self
  · exact mem_singleton_self _

/-- Every node of a part is settled by one of its messages, and is the child of one node of the
part unless it is the root. -/
theorem WellFormed.perm_own (h : m.WellFormed) :
    m.region.makeList.Perm (m.own ++ (groupSetup m).flatMap (·.region.makeList)) := by
  cases hleaf : m.isLeaf with
  | true => simp [own, groupSetup, hleaf]
  | false =>
    obtain ⟨p, q, hsetup, -, -, -, hnodes⟩ := h.exists_parts hleaf
    simp [own, hleaf, hsetup, h.makeList_eq, hnodes]

theorem WellFormed.perm_children (h : m.WellFormed) :
    m.region.tail.makeList.Perm
      (m.children ++ (groupSetup m).flatMap (·.region.tail.makeList)) := by
  cases hleaf : m.isLeaf with
  | true => simp [children, groupSetup, hleaf]
  | false =>
    obtain ⟨p, q, hsetup, hchildren, hp, hq, hnodes⟩ := h.exists_parts hleaf
    simp [hsetup, hchildren, hnodes, Region.makeList_eq_cons hp, Region.makeList_eq_cons hq]

/-! The setup that begins with one message is complete. -/

section Complete

variable {m₀ : SetupMsg}

theorem handled_wellFormed (h₀ : m₀.WellFormed) (ht : Flood.Reaches groupSetup [m₀] t) :
    ∀ m ∈ t.handled, m.WellFormed :=
  (forall_mem (by simpa using h₀) (fun _ => WellFormed.sent) ht).2

/-- The setup ends: every message settles a node. -/
theorem ends_of_wellFormed (h₀ : m₀.WellFormed) : Flood.Ends groupSetup [m₀] := by
  refine ⟨m₀.region.makeList.length, ?_⟩
  intro t ht
  have haccount := account (fun m => m.own.length) (fun m => m.region.makeList.length)
    (by simpa using h₀) (fun _ => WellFormed.sent)
    (fun _ h => by simpa [length_flatMap] using h.perm_own.length_eq) ht
  have hpos : ∀ k ∈ t.handled.map (fun m => m.own.length), 1 ≤ k := by
    rintro k hk
    obtain ⟨m, hm, rfl⟩ := mem_map.mp hk
    exact length_pos_of_mem (handled_wellFormed h₀ ht m hm).root_mem_own
  have hlen := length_le_sum_of_one_le _ hpos
  rw [length_map] at hlen
  rw [map_singleton, sum_singleton] at haccount
  omega

/-- The nodes at and below a node. -/
def part (t : Flood SetupMsg) (n : ℕ) : List ℕ :=
  ((t.handled.find? (·.root = n)).map (·.region.makeList)).getD [n]

/-- The children of a node without a message. -/
theorem part_of_notRoot (h : ∀ m ∈ t.handled, m.root ≠ n) : part t n = [n] := by
  have hnone : t.handled.find? (·.root = n) = none := by
    rw [List.find?_eq_none]
    intro m hm
    simpa using h m hm
  rw [part, hnone]
  rfl

variable (h₀ : m₀.WellFormed) (ht : Flood.Reaches groupSetup [m₀] t) (hq : t.inflight = [])
include h₀ ht hq

/-- The messages share out the nodes of the region. -/
theorem perm_of_sent {own all : SetupMsg → List ℕ}
    (hperm : ∀ m, m.WellFormed → (all m).Perm (own m ++ (groupSetup m).flatMap all)) :
    (t.handled.flatMap own).Perm (all m₀) := by
  refine perm_iff_count.mpr ?_
  intro n
  have haccount := account (fun m => (own m).count n) (fun m => (all m).count n)
    (by simpa using h₀) (fun _ => WellFormed.sent)
    (fun m h => by simpa [count_flatMap, Function.comp_def] using (hperm m h).count_eq n) ht
  simpa [hq, count_flatMap, Function.comp_def] using haccount

theorem own_perm : (t.handled.flatMap own).Perm m₀.region.makeList :=
  perm_of_sent h₀ ht hq fun _ => WellFormed.perm_own

theorem children_perm : (t.handled.flatMap children).Perm m₀.region.tail.makeList :=
  perm_of_sent h₀ ht hq fun _ => WellFormed.perm_children

theorem own_unique {m m' : SetupMsg} (hm : m ∈ t.handled) (hm' : m' ∈ t.handled) {x : ℕ}
    (hx : x ∈ m.own) (hx' : x ∈ m'.own) : m = m' :=
  eq_of_mem_flatMap ((own_perm h₀ ht hq).nodup_iff.mpr h₀.2.2) hm hm' hx hx'

theorem find_root (hm : m ∈ t.handled) : t.handled.find? (·.root = m.root) = some m := by
  obtain ⟨m', hm'⟩ : ∃ m', t.handled.find? (·.root = m.root) = some m' := by
    rw [← Option.isSome_iff_exists, List.find?_isSome]
    exact ⟨m, hm, by simp⟩
  have hroot : m'.root = m.root := by simpa using List.find?_some hm'
  have hmem := mem_of_find?_eq_some hm'
  have hwf := handled_wellFormed h₀ ht
  rw [hm', own_unique h₀ ht hq hmem hm (hwf m' hmem).root_mem_own
    (hroot ▸ (hwf m hm).root_mem_own)]

theorem part_root (hm : m ∈ t.handled) : part t m.root = m.region.makeList := by
  rw [part, find_root h₀ ht hq hm]
  rfl

theorem part_eq (hm : m ∈ t.handled) :
    m.region.makeList = m.root :: m.children.flatMap (part t) := by
  have hwf := handled_wellFormed h₀ ht m hm
  rw [hwf.makeList_eq]
  congr 1
  cases hleaf : m.isLeaf with
  | true =>
    -- the other nodes of the part have no message
    have hsingle : ∀ x ∈ m.region.tail.makeList, part t x = [x] := by
      intro x hx
      refine part_of_notRoot ?_
      rintro m' hm' rfl
      have hown : m'.root ∈ m.own := by
        rw [own, hleaf, if_pos rfl, hwf.makeList_eq]
        exact mem_cons_of_mem _ hx
      have heq := own_unique h₀ ht hq hm' hm (handled_wellFormed h₀ ht m' hm').root_mem_own hown
      exact hwf.root_notMem (heq ▸ hx)
    rw [children, hleaf, if_pos rfl, flatMap_congr hsingle]
    simp
  | false =>
    obtain ⟨p, q, hsetup, hchildren, -, -, hnodes⟩ := hwf.exists_parts hleaf
    have hsub : ∀ c ∈ groupSetup m, c ∈ t.handled := by
      intro c hc
      simpa [hq] using (sent_mem ht).2 m hm c hc
    rw [hsetup] at hsub
    have hp := part_root h₀ ht hq (hsub ⟨p.head, p⟩ (by simp))
    have hq' := part_root h₀ ht hq (hsub ⟨q.head, q⟩ (by simp))
    rw [hchildren, hnodes]
    simp [hp, hq']

end Complete

theorem WellFormed.children_subset (h : m.WellFormed) {c : ℕ} (hc : c ∈ m.children) :
    c ∈ m.region.tail.makeList :=
  h.perm_children.mem_iff.mpr (mem_append_left _ hc)

end SetupMsg

open SetupMsg
open RootedGroup (ofSetup)

variable {creator low n origin : ℕ} {m m₀ : SetupMsg} {t : Flood SetupMsg} {region : Region}
  {madeList : Bool}
  {info : LocalInfo}

theorem kids_root (h₀ : m₀.WellFormed) (ht : Flood.Reaches groupSetup [m₀] t) (hq : t.inflight = [])
    (hm : m ∈ t.handled) : (ofSetup creator ⟨low, none, [m₀]⟩ t).kids m.root = m.children := by
  have hwf := handled_wellFormed h₀ ht m hm
  have hfind := find_root h₀ ht hq hm
  have hne : ∀ c ∈ m.children, c ≠ m.root := by
    rintro c hc rfl
    exact hwf.root_notMem (hwf.children_subset hc)
  simpa [kids, ofSetup, hfind] using hne

theorem mem_kids {c : ℕ} (h : c ∈ (ofSetup creator ⟨low, none, [m₀]⟩ t).kids n) :
    ∃ m ∈ t.handled, m.root = n ∧ c ∈ m.children := by
  rw [kids, ofSetup] at h
  have hmem := mem_of_mem_filter h
  cases hfind : t.handled.find? (·.root = n) with
  | none => simp [hfind] at hmem
  | some m =>
    refine ⟨m, mem_of_find?_eq_some hfind, by simpa using List.find?_some hfind, ?_⟩
    simpa [hfind] using hmem

/-- The nodes of a group that is set up by messages form a tree. -/
theorem groupTree_of_setup (h₀ : m₀.WellFormed) (ht : Flood.Reaches groupSetup [m₀] t)
    (hq : t.inflight = []) :
    GroupTree m₀.region.makeList m₀.root
      (ofSetup creator ⟨low, none, [m₀]⟩ t).kids (part t) := by
  have hmem₀ : m₀ ∈ t.handled := by
    simpa [hq] using (sent_mem ht).1 m₀ mem_cons_self
  have hchildren := children_perm h₀ ht hq
  have hnodup := h₀.2.2
  rw [h₀.makeList_eq, nodup_cons] at hnodup
  constructor
  case nodup => exact h₀.2.2
  case root_mem =>
    rw [h₀.makeList_eq]
    exact mem_cons_self
  case top => rw [part_root h₀ ht hq hmem₀]
  case inner =>
    intro n _
    by_cases hroot : ∃ m ∈ t.handled, m.root = n
    · obtain ⟨m, hm, rfl⟩ := hroot
      rw [kids_root h₀ ht hq hm, part_root h₀ ht hq hm, part_eq h₀ ht hq hm]
    · have hnil : (ofSetup creator ⟨low, none, [m₀]⟩ t).kids n = [] := by
        rw [eq_nil_iff_forall_not_mem]
        intro c hc
        obtain ⟨m, hm, heq, -⟩ := mem_kids hc
        exact hroot ⟨m, hm, heq⟩
      rw [hnil, part_of_notRoot fun m hm heq => hroot ⟨m, hm, heq⟩, flatMap_nil]
  case inside =>
    intro n c hkid
    obtain ⟨m, hm, rfl, hc⟩ := mem_kids hkid
    constructor
    · refine (own_perm h₀ ht hq).mem_iff.mp (mem_flatMap.mpr ⟨m, hm, ?_⟩)
      exact (handled_wellFormed h₀ ht m hm).root_mem_own
    · rw [h₀.makeList_eq]
      exact mem_cons_of_mem _ (hchildren.mem_iff.mp (mem_flatMap.mpr ⟨m, hm, hc⟩))
  case parent =>
    intro n n' c hkid hkid'
    obtain ⟨m, hm, rfl, hc⟩ := mem_kids hkid
    obtain ⟨m', hm', rfl, hc'⟩ := mem_kids hkid'
    rw [eq_of_mem_flatMap (hchildren.nodup_iff.mpr hnodup.2) hm hm' hc hc']
  case rootless =>
    intro n hkid
    obtain ⟨m, hm, -, hc⟩ := mem_kids hkid
    exact h₀.root_notMem (hchildren.mem_iff.mp (mem_flatMap.mpr ⟨m, hm, hc⟩))

/-- A creator that sends to the nodes of the region itself is the root of a tree without inner
nodes. -/
theorem groupTree_of_star {nodes : List ℕ} (hnodup : nodes.Nodup) (hc : creator ∈ nodes)
    (hnone : t.handled = []) :
    GroupTree nodes creator (ofSetup creator ⟨creator, some nodes, []⟩ t).kids
      fun n => if n = creator then nodes else [n] := by
  have hkids : ∀ n, (ofSetup creator ⟨creator, some nodes, []⟩ t).kids n =
      if n = creator then nodes.erase creator else [] := by
    intro n
    rw [hnodup.erase_eq_filter]
    by_cases hn : n = creator
    · simp [kids, ofSetup, hn]
      rfl
    · simp [kids, ofSetup, hnone, hn]
  have hmem : ∀ {n c}, c ∈ (ofSetup creator ⟨creator, some nodes, []⟩ t).kids n →
      n = creator ∧ c ∈ nodes.erase creator := fun h => mem_ite_nil_right.mp (hkids _ ▸ h)
  constructor
  case nodup => exact hnodup
  case root_mem => exact hc
  case top => simp
  case inner =>
    intro n _
    rw [hkids]
    by_cases hn : n = creator
    · have hsingle : ∀ x ∈ nodes.erase creator,
          (if x = creator then nodes else [x]) = [x] := by
        intro x hx
        rw [if_neg (hnodup.mem_erase_iff.mp hx).1]
      rw [if_pos hn, if_pos hn, flatMap_congr hsingle, flatMap_singleton', hn]
      exact perm_cons_erase hc
    · simp [hn]
  case inside =>
    intro n c hkid
    obtain ⟨rfl, hkid⟩ := hmem hkid
    exact ⟨hc, mem_of_mem_erase hkid⟩
  case parent => exact fun n n' c hkid hkid' => (hmem hkid).1.trans (hmem hkid').1.symm
  case rootless => exact fun n hkid => (hnodup.mem_erase_iff.mp (hmem hkid).2).1 rfl

/-- How a group is set up: the creator sends to all nodes, or a tree is built from one message. -/
theorem setupRooted_cases (hv : region.Valid)
    (h : setupRooted madeList creator region = some info) :
    info = ⟨creator, some region.sort.makeList, []⟩ ∨
      ∃ m₀ : SetupMsg, m₀.WellFormed ∧ m₀.region.makeList = region.sort.makeList ∧
        info = ⟨m₀.root, none, [m₀]⟩ := by
  have hsort := hv.sort
  rw [setupRooted] at h
  obtain ⟨-, h⟩ := Option.ite_none_left_eq_some.mp h
  dsimp only at h
  -- whether the creator finds itself in the region is not asked again
  generalize (if madeList = true then _ else _ : Bool) = found at h
  split at h
  · split at h
    · exact Or.inl (Option.some.inj h).symm
    · refine Or.inr ⟨⟨region.sort.makeList.headD 0, .list region.sort.makeList⟩, ⟨?_, ?_, ?_⟩, rfl,
        (Option.some.inj h).symm⟩
      · show region.sort.makeList ≠ []
        rw [Region.makeList_eq_cons hsort.nonempty]
        exact cons_ne_nil _ _
      · rfl
      · exact hsort.nodup
  · exact Or.inr ⟨⟨region.sort.head, region.sort⟩, ⟨hsort.nonempty, rfl, hsort.nodup⟩, rfl,
      (Option.some.inj h).symm⟩

/-- The setup of a group for a valid region completes. -/
theorem setup_completes (hv : region.Valid) (hs : setupRooted madeList creator region = some info) :
    ∃ t, Flood.Reaches groupSetup info.sent t ∧ t.inflight = [] := by
  rcases setupRooted_cases hv hs with rfl | ⟨m₀, h₀, -, rfl⟩
  · exact ⟨_, Reach.start rfl, rfl⟩
  · exact (ends_of_wellFormed h₀).exists_quiet

/-- The nodes of a group form a tree, unless the creator sends to all of them from outside. -/
theorem exists_groupTree (hv : region.Valid) (hs : setupRooted madeList creator region = some info)
    (ht : Flood.Reaches groupSetup info.sent t) (hq : t.inflight = []) :
    (creator ∉ region.makeList ∧ info.forwardNode = creator ∧
      (ofSetup creator info t).remoteInfo creator = some region.sort.makeList) ∨
    ∃ part, GroupTree region.makeList info.forwardNode (ofSetup creator info t).kids part ∧
      (info.forwardNode = creator →
        ∃ cs, (ofSetup creator info t).remoteInfo creator = some cs) := by
  rcases setupRooted_cases hv hs with rfl | ⟨m₀, h₀, hlist, rfl⟩
  · have hnone : t.handled = [] := by
      rw [eq_nil_iff_forall_not_mem]
      exact (forall_mem (P := fun _ => False) (by simp) (by simp) ht).2
    have hinfo : (ofSetup creator ⟨creator, some region.sort.makeList, []⟩ t).remoteInfo
        creator = some region.sort.makeList := by simp [ofSetup]
    by_cases hc : creator ∈ region.makeList
    · have htree := groupTree_of_star hv.sort.nodup (region.sort_perm.mem_iff.mpr hc) hnone
      exact Or.inr ⟨_, htree.perm region.sort_perm, fun _ => ⟨_, hinfo⟩⟩
    · exact Or.inl ⟨hc, rfl, hinfo⟩
  · have hmem₀ : m₀ ∈ t.handled := by
      simpa [hq] using (sent_mem ht).1 m₀ mem_cons_self
    have htree : GroupTree m₀.region.makeList m₀.root
        (ofSetup creator ⟨m₀.root, none, [m₀]⟩ t).kids (part t) :=
      groupTree_of_setup h₀ ht hq
    refine Or.inr ⟨_, htree.perm (hlist ▸ region.sort_perm), ?_⟩
    intro hroot
    refine ⟨m₀.children, ?_⟩
    have hfind := find_root h₀ ht hq hmem₀
    rw [show m₀.root = creator from hroot] at hfind
    simp [ofSetup, hfind]

/-- A broadcast to a rooted group, once its setup is complete, is delivered once on every node of
the region and on no other, just if the creator is in the region and is the root of its tree, or is
outside of both, and the origin is the creator or a node without children. -/
theorem group_broadcast_iff (hv : region.Valid)
    (hs : setupRooted madeList creator region = some info)
    (ht : Flood.Reaches groupSetup info.sent t) (hq : t.inflight = []) :
    CastsOnce (ofSetup creator info t) region.makeList origin ↔
      (ofSetup creator info t).Sound region.makeList origin := by
  rcases exists_groupTree hv hs ht hq with ⟨hc, hforward, hinfo⟩ | ⟨part, htree, hinfo⟩
  · refine iff_of_false (not_castsOnce_of_outsider hc hforward ⟨_, hinfo⟩) ?_
    exact fun hsound => hc (hsound.1.mpr hforward)
  · exact castsOnce_iff htree hinfo

/-- Node 7 creates a group of the nodes 0 to 4 and node 2 broadcasts to it. -/
theorem group_broadcast_iff_outside : ∃ info t,
    setupRooted false 7 (.list [3, 1, 4, 0, 2]) = some info ∧ Flood.Reaches groupSetup info.sent t ∧
      t.inflight = [] ∧ CastsOnce (ofSetup 7 info t) [3, 1, 4, 0, 2] 2 := by
  obtain ⟨t, ht, hp⟩ := exists_reaches groupSetup [⟨0, .list [0, 1, 2, 3, 4]⟩] [0, 0, 0]
    (fun t => t.inflight.isEmpty ∧ ((ofSetup 7
      ⟨0, none, [⟨0, .list [0, 1, 2, 3, 4]⟩]⟩ t).kids 2).isEmpty) (by decide)
  rw [List.isEmpty_iff, List.isEmpty_iff] at hp
  have hs : setupRooted false 7 (.list [3, 1, 4, 0, 2]) =
      some ⟨0, none, [⟨0, .list [0, 1, 2, 3, 4]⟩]⟩ := rfl
  have hsound : (ofSetup 7 ⟨0, none, [⟨0, .list [0, 1, 2, 3, 4]⟩]⟩ t).Sound
      [3, 1, 4, 0, 2] 2 := ⟨by simp [ofSetup], Or.inr hp.2⟩
  exact ⟨_, t, hs, ht, hp.1, (group_broadcast_iff (by decide) hs ht hp.1).mpr hsound⟩

/-- Node 1 creates a group of the nodes 0 to 3 and broadcasts to it.  It sends the message to the
root of the tree, which is its own parent and sends the message back, and so on. -/
theorem group_broadcast_cycles : ∃ info t,
    setupRooted false 1 (.list [0, 1, 2, 3]) = some info ∧ Flood.Reaches groupSetup info.sent t ∧
      t.inflight = [] ∧ ¬ CastEnds ((ofSetup 1 info t).handler ⟨1, true⟩) 1 ∧
        ¬ CastsOnce (ofSetup 1 info t) [0, 1, 2, 3] 1 := by
  obtain ⟨t, ht, hp⟩ := exists_reaches groupSetup [⟨0, .list [0, 1, 2, 3]⟩] [0, 0, 0]
    (fun t => t.inflight.isEmpty ∧ 1 ∈ (ofSetup 1
      ⟨0, none, [⟨0, .list [0, 1, 2, 3]⟩]⟩ t).kids 0) (by decide)
  rw [List.isEmpty_iff] at hp
  have hrelay : (ofSetup 1 ⟨0, none, [⟨0, .list [0, 1, 2, 3]⟩]⟩ t).Relay 1 :=
    ⟨rfl, zero_ne_one⟩
  refine ⟨⟨0, none, [⟨0, .list [0, 1, 2, 3]⟩]⟩, t, rfl, ht, hp.1, ?_,
    not_castsOnce_of_relay (mem_cons_of_mem _ mem_cons_self) hrelay.2⟩
  refine not_ends (C := fun h => h.node = 0 ∨ h.node = 1) ?_ ?_
  · refine ⟨⟨1, 0⟩, ?_, Or.inl rfl⟩
    rw [firstHops, handler_relay hrelay]
    exact mem_singleton.mpr rfl
  · rintro ⟨sender, node⟩ (rfl | rfl)
    · refine ⟨⟨0, 1⟩, ?_, Or.inr rfl⟩
      rw [forward, handler_member fun hr => zero_ne_one hr.1, if_neg one_ne_zero]
      exact mem_map_of_mem hp.2
    · refine ⟨⟨1, 0⟩, ?_, Or.inl rfl⟩
      rw [forward, handler_relay hrelay]
      exact mem_singleton.mpr rfl

end VtRuntime.Group
