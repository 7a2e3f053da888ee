import VtRuntime.Group.Rooted
import VtRuntime.Group.CollectiveCast

/-!
# Broadcasts that are not for their sender

The flag `deliver_bcast` of an envelope says whether a broadcast is delivered on its origin.  Only
the default group reads it.  On a rooted or collective group the message is delivered on an origin
that is a member as on the others, or else does not reach the others as it should.
-/

namespace VtRuntime.Group

open Lib List

/-- In every order in which its messages are handled, a broadcast by `origin` is sent finitely
often, is delivered once on every other member, and neither on the origin nor on a node that is no
member. -/
structure SkipsSender (handler : ℕ → Option ℕ → Bool → Outcome) (members : List ℕ) (origin : ℕ) :
    Prop where
  ends : CastEnds handler origin
  once : ∀ s, CastReaches handler origin s →
    ∀ n, (delivered handler origin s).count n ≤ if n ∈ members ∧ n ≠ origin then 1 else 0
  all : ∀ s, CastReaches handler origin s → s.inflight = [] →
    ∀ n ∈ members, n ≠ origin → (delivered handler origin s).count n = 1

/-- A group, once its setup is complete. -/
inductive Cast
  | default (numNodes : ℕ)
  | rooted (creator : ℕ) (region : Region) (info : LocalInfo) (t : Flood SetupMsg)
      {madeList : Bool} (valid : region.Valid)
      (setup : setupRooted madeList creator region = some info)
      (reached : Flood.Reaches groupSetup info.sent t) (quiet : t.inflight = [])
  | collective (numNodes : ℕ) (info : ℕ → CollInfo) (members : List ℕ) (root : ℕ)
      (tree : CollTree numNodes info members root)

namespace Cast

def handler (env : Envelope) : Cast → ℕ → Option ℕ → Bool → Outcome
  | default numNodes => DefaultGroup.handler numNodes env
  | rooted creator _ info t _ _ _ _ => (RootedGroup.ofSetup creator info t).handler env
  | collective _ info _ _ _ => collHandler info env

def members : Cast → List ℕ
  | default numNodes => List.range numNodes
  | rooted _ region _ _ _ _ _ _ => region.makeList
  | collective _ _ members _ _ => members

def isDefault : Cast → Bool
  | default _ => true
  | _ => false

end Cast

section Skips

variable {handler : ℕ → Option ℕ → Bool → Outcome} {members : List ℕ} {origin n : ℕ} {s : Flood Hop}

theorem SkipsSender.notMem_delivered (h : SkipsSender handler members origin)
    (hs : CastReaches handler origin s) : origin ∉ delivered handler origin s := by
  have hcount := h.once s hs origin
  rw [if_neg fun hne => hne.2 rfl] at hcount
  exact count_eq_zero.mp (Nat.le_zero.mp hcount)

/-- A node that handles the message and does not only pass it on. -/
theorem mem_delivered_of_handled {x : Hop} (hx : x ∈ s.handled)
    (hdel : (handler x.node (some x.sender) false).deliver = true) (origin : ℕ) :
    x.node ∈ delivered handler origin s :=
  mem_append_right _ (mem_map.mpr ⟨x, mem_filter.mpr ⟨hx, hdel⟩, rfl⟩)

/-- When nothing is on its way any more, the messages that the origin sent were handled. -/
theorem handled_first (hs : CastReaches handler origin s) (hquiet : s.inflight = [])
    (hn : n ∈ (handler origin none true).sends) : (⟨origin, n⟩ : Hop) ∈ s.handled := by
  have hsent := (Flood.sent_mem hs).1 ⟨origin, n⟩ (mem_map.mpr ⟨n, hn, rfl⟩)
  simpa [hquiet] using hsent

theorem handled_next (hs : CastReaches handler origin s) (hquiet : s.inflight = []) {x : Hop}
    (hx : x ∈ s.handled) (hn : n ∈ (handler x.node (some x.sender) false).sends) :
    (⟨x.node, n⟩ : Hop) ∈ s.handled := by
  have hsent := (Flood.sent_mem hs).2 x hx ⟨x.node, n⟩ (mem_map.mpr ⟨n, hn, rfl⟩)
  simpa [hquiet] using hsent

end Skips

/-! ## The default group -/

theorem skipsSender_default {numNodes origin : ℕ} (ho : origin < numNodes) :
    SkipsSender (DefaultGroup.handler numNodes ⟨origin, false⟩) (List.range numNodes) origin where
  ends := cast_ends ho
  once s hs n := by
    have hdel : delivered (DefaultGroup.handler numNodes ⟨origin, false⟩) origin s = received s :=
      delivered_default ho hs
    have hcount : (received s).count n ≤ if n < numNodes ∧ n ≠ origin then 1 else 0 :=
      count_received_le ho hs n
    rw [hdel]
    simpa [mem_range] using hcount
  all s hs hquiet n hn hne := by
    have hdel : delivered (DefaultGroup.handler numNodes ⟨origin, false⟩) origin s = received s :=
      delivered_default ho hs
    rw [hdel]
    exact count_received_quiet ho hs hquiet (mem_range.mp hn) hne

/-! ## Collective groups -/

theorem not_skipsSender_collective {numNodes root origin : ℕ} {info : ℕ → CollInfo}
    {members : List ℕ}
    (ht : CollTree numNodes info members root) (ho : origin ∈ members) :
    ¬ SkipsSender (collHandler info ⟨origin, false⟩) members origin := by
  intro h
  have hstart : CastReaches (collHandler info ⟨origin, true⟩) origin
      ⟨firstHops (collHandler info ⟨origin, true⟩) origin, []⟩ := .start rfl
  refine h.notMem_delivered hstart ?_
  change origin ∈ delivered (collHandler info ⟨origin, true⟩) origin _
  rw [delivered_eq ht (ht.lt origin ho) hstart, if_pos ho]
  exact mem_append_left _ mem_cons_self

/-! ## Rooted groups -/

section Rooted

variable {g : RootedGroup} {nodes : List ℕ} {part : ℕ → List ℕ} {origin n : ℕ} {s : Flood Hop}

section

variable (ht : GroupTree nodes g.forwardNode g.kids part)
include ht

/-- A node below another one is that one or below one of its children. -/
theorem GroupTree.mem_part (hn : n ∈ nodes) {x : ℕ} :
    x ∈ part n ↔ x = n ∨ ∃ c ∈ g.kids n, x ∈ part c := by
  rw [(ht.inner n hn).mem_iff, mem_cons, mem_flatMap]

theorem GroupTree.length_part_lt {c : ℕ} (hc : c ∈ g.kids n) :
    (part c).length < (part n).length := by
  have hn := (ht.inside n c hc).1
  rw [(ht.inner n hn).length_eq, length_cons, length_flatMap]
  exact Nat.lt_succ_of_le (single_le_sum (by simp) _ (mem_map.mpr ⟨c, hc, rfl⟩))

/-- The message comes from a node down to the origin, which delivers it. -/
theorem mem_delivered_of_part (hrelay : ∀ n ∈ nodes, ¬ g.Relay n)
    (hs : CastReaches (g.handler ⟨origin, true⟩) origin s) (hquiet : s.inflight = []) {x : Hop}
    (hx : x ∈ s.handled) (hn : x.node ∈ nodes) (hpart : origin ∈ part x.node) :
    origin ∈ delivered (g.handler ⟨origin, true⟩) origin s := by
  induction hlen : (part x.node).length using Nat.strong_induction_on generalizing x with
  | _ k ih =>
    have hhandler : g.handler ⟨origin, true⟩ x.node (some x.sender) false =
        ⟨if origin = x.node then [] else g.kids x.node, true⟩ := handler_member (hrelay x.node hn)
    by_cases ho : origin = x.node
    · have hdeliver : (g.handler ⟨origin, true⟩ x.node (some x.sender) false).deliver = true := by
        rw [hhandler]
      have hdel := mem_delivered_of_handled hx hdeliver origin
      rwa [← ho] at hdel
    · obtain heq | ⟨c, hc, hpart⟩ := (ht.mem_part hn).mp hpart
      · exact absurd heq ho
      · have hnext : (⟨x.node, c⟩ : Hop) ∈ s.handled :=
          handled_next hs hquiet hx (by rw [hhandler, if_neg ho]; exact hc)
        exact ih _ (hlen ▸ ht.length_part_lt hc) hnext (ht.inside _ c hc).2 hpart rfl

/-- A creator inside the tree that is not its root gets its own message back again and again. -/
theorem not_castEnds_of_relay (hmem : g.creator ∈ nodes) (hne : g.forwardNode ≠ g.creator) :
    ¬ CastEnds (g.handler ⟨g.creator, true⟩) g.creator := by
  have hrelay : g.Relay g.creator := ⟨rfl, hne⟩
  have htop : g.creator ∈ part g.forwardNode := ht.top.mem_iff.mpr hmem
  -- a message to a node above the creator leads to one further down, and the creator begins again
  refine Flood.not_ends (C := fun h => h.node ∈ nodes ∧ g.creator ∈ part h.node) ?_ ?_
  · refine ⟨⟨g.creator, g.forwardNode⟩, ?_, ht.root_mem, htop⟩
    rw [firstHops, handler_relay hrelay]
    exact mem_singleton.mpr rfl
  · rintro ⟨sender, n⟩ ⟨hn, hpart⟩
    by_cases hc : n = g.creator
    · subst hc
      refine ⟨⟨g.creator, g.forwardNode⟩, ?_, ht.root_mem, htop⟩
      rw [forward, handler_relay hrelay]
      exact mem_singleton.mpr rfl
    · obtain heq | ⟨c, hkid, hpart⟩ := (ht.mem_part hn).mp hpart
      · exact absurd heq.symm hc
      · refine ⟨⟨n, c⟩, ?_, (ht.inside n c hkid).2, hpart⟩
        rw [forward, handler_member fun hr => hc hr.1, if_neg (Ne.symm hc)]
        exact mem_map_of_mem hkid

theorem not_skipsSender_tree
    (hinfo : g.forwardNode = g.creator → ∃ cs, g.remoteInfo g.creator = some cs)
    (ho : origin ∈ nodes) : ¬ SkipsSender (g.handler ⟨origin, true⟩) nodes origin := by
  intro h
  obtain ⟨s, hs, hquiet⟩ := h.ends.exists_quiet
  by_cases hinner : g.creator ∈ nodes ∧ g.forwardNode ≠ g.creator
  · by_cases hoc : origin = g.creator
    · subst hoc
      exact not_castEnds_of_relay ht hinner.1 hinner.2 h.ends
    · have hone := h.all s hs hquiet g.creator hinner.1 (Ne.symm hoc)
      rw [count_eq_zero.mpr (creator_notMem_delivered hinner.2 s)] at hone
      omega
  · refine h.notMem_delivered hs ?_
    have hrelay : ∀ n ∈ nodes, ¬ g.Relay n := by
      rintro n hn ⟨rfl, hne⟩
      exact hinner ⟨hn, hne⟩
    by_cases hoc : origin = g.creator
    · subst hoc
      have hroot : g.forwardNode = g.creator := by
        by_contra hne
        exact hinner ⟨ho, hne⟩
      obtain ⟨cs, hcs⟩ := hinfo hroot
      rw [delivered, handler_first_root hroot hcs]
      exact mem_append_left _ mem_cons_self
    · -- the message goes to the creator, and from it or from the root down to the origin
      have hfirst : (⟨origin, g.creator⟩ : Hop) ∈ s.handled :=
        handled_first hs hquiet (by rw [handler_first hoc]; exact mem_singleton.mpr rfl)
      have htop : origin ∈ part g.forwardNode := ht.top.mem_iff.mpr ho
      by_cases hroot : g.forwardNode = g.creator
      · rw [hroot] at htop
        exact mem_delivered_of_part ht hrelay hs hquiet hfirst (hroot ▸ ht.root_mem) htop
      · have hforward : (⟨g.creator, g.forwardNode⟩ : Hop) ∈ s.handled :=
          handled_next hs hquiet hfirst
            (by rw [handler_relay ⟨rfl, hroot⟩]; exact mem_singleton.mpr rfl)
        exact mem_delivered_of_part ht hrelay hs hquiet hforward ht.root_mem htop

end

/-- A creator outside of the region that sends to all its nodes. -/
theorem not_skipsSender_star {cs : List ℕ} (hroot : g.forwardNode = g.creator)
    (hinfo : g.remoteInfo g.creator = some cs) (hcs : origin ∈ cs) (hne : origin ≠ g.creator) :
    ¬ SkipsSender (g.handler ⟨origin, true⟩) nodes origin := by
  intro h
  obtain ⟨s, hs, hquiet⟩ := h.ends.exists_quiet
  have hrelay : ∀ n, ¬ g.Relay n := fun n hr => hr.2 hroot
  have hfirst : (⟨origin, g.creator⟩ : Hop) ∈ s.handled :=
    handled_first hs hquiet (by rw [handler_first hne]; exact mem_singleton.mpr rfl)
  have hkid : origin ∈ g.kids g.creator := by
    rw [RootedGroup.kids, hinfo]
    exact mem_filter.mpr ⟨hcs, decide_eq_true hne⟩
  have hback : (⟨g.creator, origin⟩ : Hop) ∈ s.handled :=
    handled_next hs hquiet hfirst (by rw [handler_member (hrelay _), if_neg hne]; exact hkid)
  exact h.notMem_delivered hs (mem_delivered_of_handled hback
    (by rw [handler_member (hrelay _)]) origin)

end Rooted

/-- A broadcast by a member that asks not to be delivered on its sender is treated so on the default
group, and on no group of another kind. -/
theorem deliver_to_sender_iff (c : Cast) (origin : ℕ) (ho : origin ∈ c.members) :
    SkipsSender (c.handler ⟨origin, false⟩) c.members origin ↔ c.isDefault = true := by
  cases c with
  | default numNodes => exact iff_of_true (skipsSender_default (mem_range.mp ho)) rfl
  | rooted creator region info t valid setup reached quiet =>
    refine iff_of_false ?_ Bool.false_ne_true
    rcases exists_groupTree valid setup reached quiet with
      ⟨hc, hforward, hinfo⟩ | ⟨part, htree, hinfo⟩
    · refine not_skipsSender_star hforward hinfo (region.sort_perm.mem_iff.mpr ho) ?_
      rintro rfl
      exact hc ho
    · exact not_skipsSender_tree htree hinfo ho
  | collective numNodes info members root tree =>
    exact iff_of_false (not_skipsSender_collective tree ho) Bool.false_ne_true

/-- Node 3 of nine nodes broadcasts to all other nodes. -/
theorem deliver_to_sender_iff_default :
    SkipsSender ((Cast.default 9).handler ⟨3, false⟩) (List.range 9) 3 :=
  (deliver_to_sender_iff (.default 9) 3 (by decide)).mpr rfl

/-- Node 0 creates a group of the nodes 0 and 1 and broadcasts to it with the flag cleared.  The
message is delivered on node 0. -/
theorem rooted_delivers_to_sender : ∃ info t,
    setupRooted false 0 (.list [0, 1]) = some info ∧ Flood.Reaches groupSetup info.sent t ∧
      t.inflight = [] ∧ ∀ s, CastReaches ((RootedGroup.ofSetup 0 info t).handler ⟨0, false⟩) 0 s →
        0 ∈ delivered ((RootedGroup.ofSetup 0 info t).handler ⟨0, false⟩) 0 s :=
  ⟨⟨0, some [0, 1], []⟩, ⟨[], []⟩, rfl, .start rfl, rfl,
    fun _ _ => mem_append_left _ mem_cons_self⟩

end VtRuntime.Group
