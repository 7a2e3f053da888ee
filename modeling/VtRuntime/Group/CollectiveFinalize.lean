import VtRuntime.Group.CollectiveTree

/-!
# How often the nodes of a collective group finalize

A node runs the body of `finalize` when it is in phase two and its messages down are answered.  With
four children it sends a message down further and has a new one open.  If it has finalized before,
it does so again when that one is answered; the finish reduction has its contribution by then.

If no node that has finalized sends a message further down, every node finalizes once, and no
message down is in flight when all have done so.
-/

namespace VtRuntime.Group

open Lib Network CollGroup Nat

universe u

/-- A message of `downTree`. -/
def CollMsg.isDownTree {N : Type u} : CollMsg N → Bool
  | .downTree _ => true
  | _ => false

namespace CollGroup

variable {N : Type u} [Fintype N] [DecidableEq N] {G : CollGroup N} {x x' : CollSys N} {n src : N}
  {msg : CollMsg N} {l l' : InfoColl N} {out : List (N × CollMsg N)} {fin : Bool}

/-- The message to be handled is not one that a node with four children sends further down after it
has finalized. -/
def Timely (x : CollSys N) (a : N × ℕ) : Prop :=
  ∀ d ∈ (x.inbox a.1)[a.2]?, d.2.isDownTree = true →
    (x.node a.1).finalized = 0 ∨ (x.node a.1).spanChildren.length < 4

instance (x : CollSys N) (a : N × ℕ) : Decidable (Timely x a) :=
  inferInstanceAs (Decidable (∀ d ∈ (x.inbox a.1)[a.2]?, _ → _ ∨ _))

/-- What is expected of `finalize`.  A node contributes to the finish reduction in its body, so the
reduction is not complete before every node has run it. -/
structure FinalizesOnce (G : CollGroup N) (x : CollSys N) : Prop where
  le_one : ∀ n, (x.node n).finalized ≤ 1
  /-- The finish reduction completes after the last message down. -/
  finished : (∀ n, 1 ≤ (x.node n).finalized) → ∀ y, ∀ d ∈ x.inbox y, d.2.isDownTree = false
  /-- In the end every node has finalized. -/
  ends : Ends G.step (fun x => ∀ n, 1 ≤ (x.node n).finalized) x

/-! ## Who is in phase two -/

theorem Does.phase_told (h : G.Does n l src msg l' out fin) (he : G.Expects n l msg)
    (hn : n ≠ G.tree.root) (hl : l.inPhaseTwo = true → 1 ≤ l.told) :
    l'.inPhaseTwo = true → 1 ≤ l'.told := by
  cases h with
  | singular hcard => exact absurd (Fintype.card_le_one_iff.mp hcard.le _ _) hn
  | rootIn _ _ _ hroot | rootEmpty _ _ hroot | rootOut _ _ _ _ _ _ hroot => exact absurd hroot hn
  | leaf | inner =>
    rw [he.fresh rfl]
    exact fun h => Bool.noConfusion h
  | told => exact fun _ => le_add_left 1 _
  | _ => exact hl

/-- A node other than the root is in phase two after it was told. -/
theorem Reaches.phase_told (h : G.Reaches x) :
    ∀ n, n ≠ G.tree.root → (x.node n).inPhaseTwo = true → 1 ≤ (x.node n).told := by
  refine Reaches.invariant ?_ ?_ h
  · exact fun _ _ h => Bool.noConfusion h
  · intro x x' n src msg l out fin hx hi hh
    refine hh.forall_node (P := fun n l => n ≠ G.tree.root → l.inPhaseTwo = true → 1 ≤ l.told)
      (fun _ _ _ => rfl) hi ?_
    exact fun hn => hh.does.phase_told (hx.expects hx.counts hh) hn (hi n hn)

/-- At any time all nodes in phase two agree, and then no report is on its way. -/
theorem phase_two_agrees (h : G.Reaches x) (hn : (x.node n).inPhaseTwo = true) (m : N) :
    Knows (x.node n) (x.node m) ∧ ∀ src r, (src, .upTree r) ∉ x.inbox m := by
  obtain ⟨hrep, hroot, hdef⟩ := h.agrees.knows n hn
  have hall := h.counts.all_reported hrep
  constructor
  · intro hm
    obtain ⟨-, hroot', hdef'⟩ := h.agrees.knows m hm
    exact ⟨hall n, hroot'.trans hroot.symm, hdef'.trans hdef.symm⟩
  · intro src r hr
    exact Bool.noConfusion ((h.counts.not_reported hr).symm.trans (hall m))

/-- Three nodes, when the root and one of the others are in phase two. -/
theorem phase_two_agrees_three : ∃ x, (ofMembers 2 (· ≠ 0)).Reaches x ∧
    (x.node 0).inPhaseTwo = true ∧ (x.node 1).inPhaseTwo = true ∧
    (x.node 1).knownRootNode = (x.node 0).knownRootNode ∧
    ∀ m src r, (src, .upTree r) ∉ x.inbox m := by
  obtain ⟨x, hx, h0, h1⟩ : ∃ x, (ofMembers 2 (· ≠ 0)).Reaches x ∧
      (x.node 0).inPhaseTwo = true ∧ (x.node 1).inPhaseTwo = true :=
    Reach.of_run _ [(0, 0), (1, 0), (2, 0), (0, 0), (0, 0), (1, 0), (1, 0), (0, 0), (1, 0)] _ rfl
      (by decide +kernel)
  have hknows := (phase_two_agrees hx h0 1).1 h1
  exact ⟨x, hx, h0, h1, hknows.2.1, fun m => (phase_two_agrees hx h0 m).2⟩

/-! ## Once -/

/-- A node finalizes once, and after that it has no message down open. -/
structure Done (l : InfoColl N) : Prop where
  le_one : l.finalized ≤ 1
  inPhaseTwo : 1 ≤ l.finalized → l.inPhaseTwo = true
  answered : 1 ≤ l.finalized → l.sendDownFinished = l.sendDown

/-- What a node that has finalized may still be sent. -/
structure Closed (l : InfoColl N) (msg : CollMsg N) : Prop where
  setupCollective : msg ≠ .setupCollective
  upTree : ∀ m, msg ≠ .upTree m
  downTree : msg.isDownTree = true → l.spanChildren.length < 4
  downTreeFinished : msg ≠ .downTreeFinished
  finalizeTree : ∀ r b, msg ≠ .finalizeTree r b

theorem Handles.closed (hh : G.Handles x x' n src msg l out fin) (hx : G.Reaches x)
    (hdone : ∀ n, Done (x.node n)) (hfin : 1 ≤ (x.node n).finalized)
    (htimely : msg.isDownTree = true →
      (x.node n).finalized = 0 ∨ (x.node n).spanChildren.length < 4) : Closed (x.node n) msg := by
  have he := hx.expects hx.counts hh
  have hphase := (hdone n).inPhaseTwo hfin
  refine ⟨?_, ?_, ?_, ?_, ?_⟩
  · intro hm
    rw [he.fresh hm] at hfin
    exact absurd hfin (not_succ_le_zero 0)
  · intro m hm
    have hrep := hx.reported_of_phase hphase
    rw [he.reported m hm] at hrep
    exact Bool.noConfusion hrep
  · intro hm
    exact (htimely hm).resolve_left (ne_of_gt hfin)
  · rintro rfl
    -- all answers have come
    have hone := le_flight (w := pendingW n) hh.delivers.mem
    have hans := hx.answered n
    have heq := (hdone n).answered hfin
    simp only [pendingW, if_true] at hone
    omega
  · rintro r b rfl
    -- its parent has finalized once, and told it
    have hroot : n ≠ G.tree.root := hx.avoidsRoot n _ hh.delivers.mem
    have hone := le_flight (w := toldW n) hh.delivers.mem
    have htold := hx.phase_told n hroot hphase
    have hparent := hx.told_parent hroot
    have hle := (hdone (G.tree.parent n)).le_one
    simp only [toldW, if_true] at hone
    omega

/-- A closed node does not finalize and opens no message down. -/
theorem Does.of_closed (h : G.Does n l src msg l' out fin) (hc : Closed l msg) :
    fin = false ∧ l'.inPhaseTwo = l.inPhaseTwo ∧ l'.sendDown = l.sendDown ∧
      l'.sendDownFinished = l.sendDownFinished := by
  cases h with
  | singular | leaf | inner => exact absurd rfl hc.setupCollective
  | arrive m | report m | rootIn m | rootEmpty m | rootOut m => exact absurd rfl (hc.upTree m)
  | pass _ _ hlen => exact absurd (hc.downTree rfl) (not_lt.mpr hlen)
  | answered => exact absurd rfl hc.downTreeFinished
  | told r b => exact absurd rfl (hc.finalizeTree r b)
  | newRoot | keep => exact ⟨rfl, rfl, rfl, rfl⟩

theorem Handles.done (hh : G.Handles x x' n src msg l out fin) (hx : G.Reaches x)
    (hdone : ∀ n, Done (x.node n)) (htimely : msg.isDownTree = true →
      (x.node n).finalized = 0 ∨ (x.node n).spanChildren.length < 4) (m : N) :
    Done (x'.node m) := by
  by_cases hm : m = n
  · subst hm
    have hfin := hh.does.finalized_eq
    rw [hh.delivers.node_self, closing_eq]
    by_cases hbefore : 1 ≤ (x.node m).finalized
    · -- nothing is left to do
      obtain ⟨rfl, hphase, hsend, hanswer⟩ :=
        hh.does.of_closed (hh.closed hx hdone hbefore htimely)
      rw [if_neg fun h => Bool.noConfusion h.1]
      refine ⟨hfin ▸ (hdone m).le_one, fun _ => ?_, fun _ => ?_⟩
      · exact hphase.trans ((hdone m).inPhaseTwo hbefore)
      · rw [hsend, hanswer]
        exact (hdone m).answered hbefore
    · have hzero : l.finalized = 0 := by omega
      split
      · rename_i hbody
        exact ⟨by simp only [hzero, le_refl], fun _ => hbody.2.1, fun _ => hbody.2.2⟩
      · have hnot : ¬ 1 ≤ l.finalized := by omega
        exact ⟨hzero ▸ zero_le 1, fun h => absurd h hnot, fun h => absurd h hnot⟩
  · rw [hh.node_of_ne hm]
    exact hdone m

end CollGroup

/-- If no node that has finalized sends a message further down, every node finalizes once, and the
finish reduction completes after the last message down. -/
theorem finalizes_once {N : Type u} [Fintype N] [DecidableEq N] (G : CollGroup N)
    (hcard : Fintype.card N ≠ 1) {x : CollSys N}
    (h : Reach (· = start) G.step Timely x) : G.FinalizesOnce x := by
  have hreach : ∀ x, Reach (· = start) G.step Timely x → G.Reaches x :=
    fun x hx => hx.mono fun _ _ _ => trivial
  have hdone : ∀ n, Done (x.node n) := by
    refine Reach.invariant_of hreach ?_ ?_ h
    · rintro s rfl n
      exact ⟨zero_le 1, fun h => absurd h (not_succ_le_zero 0),
        fun h => absurd h (not_succ_le_zero 0)⟩
    · intro x a x' hx hi hok hstep
      obtain ⟨src, msg, l, out, fin, hget, hh⟩ := step_handles hstep
      exact hh.done hx hi (hok _ hget)
  have hx := hreach x h
  refine ⟨fun n => (hdone n).le_one, ?_, hx.ends ?_⟩
  · rintro hall y ⟨p, m⟩ hd
    cases m with
    | downTree m =>
      -- the sender still waits for the answer
      have hone := le_flight (w := pendingW p) hd
      have hans := hx.answered p
      have heq := (hdone p).answered (hall p)
      simp only [pendingW, if_true] at hone
      omega
    | _ => rfl
  · intro y hy hset hquiet n
    exact (hy.finalizes n).finalized hcard (phase_of_quiet hy hquiet hset n)
      (answered_of_quiet hy hquiet n)

/-- Three nodes, of which the root of the initial tree is not in the group: it finalizes first. -/
theorem finalizes_once_three : ∃ x : CollSys (Fin 3),
    (ofMembers 2 (· ≠ 0)).FinalizesOnce x ∧
      decide ((x.node 0).finalized = 1 ∧ (x.node 2).finalized = 0) = true := by
  obtain ⟨x, hx, htest⟩ := @Reach.of_guarded_run _ _ (· = start) Timely _
    (ofMembers 2 (· ≠ 0)).step [(0, 0), (1, 0), (2, 0), (0, 0), (0, 0), (1, 0), (1, 0), (0, 0)]
    (fun x => (x.node 0).finalized = 1 ∧ (x.node 2).finalized = 0) _ _ rfl (by decide +kernel)
  exact ⟨x, finalizes_once _ (by decide) hx, decide_eq_true htest⟩

/-- Nodes `0` and `10` of twelve are not in the group. -/
def lateGroup : CollGroup (Fin 12) := ofMembers 11 fun n => n.val != 0 && n.val != 10

/-- The messages of a run in which a node sends a message further down after it has finalized. -/
def lateRun : List (Fin 12 × ℕ) :=
  [(0, 0), (1, 0), (2, 0), (3, 0), (4, 0), (5, 0), (6, 0), (7, 0), (8, 0), (9, 0), (10, 0), (11, 0),
    (3, 1), (3, 0), (4, 1), (4, 0), (1, 2), (2, 0), (5, 0), (1, 0), (2, 0), (1, 0), (2, 0), (11, 0),
    (0, 2), (3, 1), (0, 1), (3, 0), (1, 0), (0, 0), (2, 0), (1, 0), (0, 0), (11, 1), (11, 0),
    (11, 1), (2, 0), (11, 1), (0, 0), (0, 0), (11, 0), (0, 0), (1, 0), (2, 0), (3, 1), (3, 0),
    (11, 0), (8, 0), (7, 0), (6, 0), (4, 0), (10, 0), (9, 1), (5, 0), (11, 0), (9, 0), (3, 0)]

/-- All nodes have finalized while a message down is in flight; then a node finalizes again. -/
theorem finalizes_twice :
    (∃ x, lateGroup.Reaches x ∧ decide ((∀ n, 1 ≤ (x.node n).finalized) ∧
      ∃ y, (x.inbox y).any (fun d => d.2.isDownTree) = true) = true) ∧
    ∃ x, lateGroup.Reaches x ∧ decide (∃ n, (x.node n).finalized = 2) = true := by
  constructor
  · refine Reach.of_run lateGroup.step (lateRun.take 55) _ rfl ?_
    decide +kernel
  · refine Reach.of_run lateGroup.step lateRun _ rfl ?_
    decide +kernel

end VtRuntime.Group
