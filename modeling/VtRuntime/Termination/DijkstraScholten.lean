import VtRuntime.Lib.Run
import VtRuntime.Lib.Sum
import VtRuntime.Lib.Tree
import VtRuntime.Termination.TermDS

/-!
# Dijkstra–Scholten termination detection

One rooted epoch that is detected by the Dijkstra–Scholten algorithm, on every node at
once: the `TermDS` of each node, the messages of the epoch and the acknowledgements in
flight, the local units that wait to be run, and the deferred cleanups that erase a
`TermDS`.  A message is received as in `prepareActiveMsgToRun`: the receiver counts a
local unit for the runnable and then credits the message.
-/

namespace VtRuntime.Termination

open Lib Function List TermDS Option Prod

universe u

/-- The state of the system for one epoch. -/
structure DSSys (N : Type u) where
  /-- The entry of `term_` for the epoch. -/
  term : N → Option (TermDS N)
  /-- Messages of the epoch in flight from a node: destination and count. -/
  app : N → List (N × ℤ)
  /-- Acknowledgements in flight to a node. -/
  acks : N → List ℤ
  /-- Local units that have not been run. -/
  units : N → ℕ
  /-- Whether `finishedEpoch` was called on the root. -/
  finished : Bool
  /-- Enqueued actions of `StateDS::disengage`. -/
  cleanups : N → ℕ
  /-- Enqueued actions of `cleanupEpoch` at the root. -/
  erasures : N → ℕ
  /-- How often `terminated` was called. -/
  terminatedCalls : ℕ

inductive DSAct (N : Type u)
  | send (src dst : N) (count : ℤ)
  | localSend (n : N) (count : ℕ)
  | receive (src dst : N) (count : ℤ)
  | run (n : N)
  | finishedEpoch
  | gotAck (n : N) (count : ℤ)
  | disengageCleanup (n : N)
  | cleanupEpoch (n : N)

namespace DSSys

variable {N : Type u} [DecidableEq N]

variable (root : N) (s : DSSys N) (n : N)

/-- The state of a node; a node without an entry gets one that is not the root's. -/
def getDSTerm : TermDS N := (s.term n).getD (.make false n)

def setTerm (t : TermDS N) : DSSys N :=
  { s with term := update s.term n (some t) }

/-- What a call into the communication layer on node `n` does. -/
def effect (s : DSSys N) : EffectDS N → DSSys N
  | .acknowledge predecessor count =>
      { s with acks := update s.acks predecessor (count :: s.acks predecessor) }
  | .rootTerminated =>
      { s with
        terminatedCalls := s.terminatedCalls + 1
        erasures := update s.erasures n (s.erasures n + 1) }
  | .disengage => { s with cleanups := update s.cleanups n (s.cleanups n + 1) }

/-- Store the new state of a node and make its calls. -/
def perform (r : TermDS N × List (EffectDS N)) : DSSys N :=
  r.2.foldl (effect n) (s.setTerm n r.1)

/-- A node may send while it holds a unit that was not run, and the root until it has
finished the epoch. -/
def MaySend : Prop :=
  0 < s.units n ∨ (n = root ∧ s.finished = false)

instance (root : N) (s : DSSys N) (n : N) : Decidable (s.MaySend root n) :=
  inferInstanceAs (Decidable (_ ∨ _))

def step : DSAct N → Option (DSSys N)
  | .send src dst count =>
      if s.MaySend root src ∧ dst ≠ src ∧ 0 < count then
        some { s.setTerm src ((s.getDSTerm src).msgSent dst count) with
          app := update s.app src ((dst, count) :: s.app src) }
      else none
  | .localSend n count =>
      if s.MaySend root n then
        some { s.setTerm n ((s.getDSTerm n).msgSent n count) with
          units := update s.units n (s.units n + count) }
      else none
  | .receive src dst count =>
      if (dst, count) ∈ s.app src then
        some (perform
          { s with
            app := update s.app src ((s.app src).erase (dst, count))
            units := update s.units dst (s.units dst + 1) }
          dst (((s.getDSTerm dst).msgSent dst 1).msgProcessed src count))
      else none
  | .run n =>
      if 0 < s.units n then
        some (perform { s with units := update s.units n (s.units n - 1) }
          n ((s.getDSTerm n).msgProcessed n 1))
      else none
  | .finishedEpoch =>
      if s.finished = false then
        some (perform { s with finished := true } root ((s.getDSTerm root).msgProcessed root 1))
      else none
  | .gotAck n count =>
      if count ∈ s.acks n then
        some (perform { s with acks := update s.acks n ((s.acks n).erase count) }
          n ((s.getDSTerm n).gotAck count))
      else none
  | .disengageCleanup n =>
      if 0 < s.cleanups n then
        some { s with
          cleanups := update s.cleanups n (s.cleanups n - 1)
          term := if (s.getDSTerm n).isEngaged then s.term else update s.term n none }
      else none
  | .cleanupEpoch n =>
      if 0 < s.erasures n then
        some { s with
          erasures := update s.erasures n (s.erasures n - 1)
          term := update s.term n none }
      else none

/-- After `makeEpochRootedDS`: the root has a request to itself and one local unit. -/
structure Init : Prop where
  term : ∀ n, s.term n =
    if n = root then some ((make true root).msgSent root 1) else none
  app : ∀ n, s.app n = []
  acks : ∀ n, s.acks n = []
  units : ∀ n, s.units n = 0
  finished : s.finished = false
  cleanups : ∀ n, s.cleanups n = 0
  erasures : ∀ n, s.erasures n = 0
  terminatedCalls : s.terminatedCalls = 0

/-- The states of all runs. -/
def Reachable : Prop := Reach (Init root) (step root) anyStep s

/-! ## The invariant -/

variable [Fintype N]

/-- What a node owes to another: the count it was engaged with, if by that node. -/
def share (t : TermDS N) (x : N) : ℤ :=
  if t.parent = some x then t.engagementMessageCount else 0

/-- Before the root terminates: the root holds its own request, every other node is idle or
engaged, local counters count the units, the debt of a node is what is in flight from it
and to it and what the nodes it engaged owe, and engagement forms a forest. -/
structure Live (root : N) (st : N → TermDS N) (app : N → List (N × ℤ)) (acks : N → List ℤ)
    (units : N → ℕ) (finished : Bool) : Prop where
  self : ∀ x, (st x).self = x
  atRoot : ∃ a, (st root).Active a ∧ a.pred = root
  atNode : ∀ x, x ≠ root → ((st x).Vacant ∧ (st x).lC = (st x).lD) ∨
    ∃ a, (st x).Active a ∧ a.pred ≠ x
  counted : ∀ x, (st x).lD = (st x).lC + units x + if x = root ∧ finished = false then 1 else 0
  debt : ∀ x, (st x).D = ((app x).map snd).sum + (acks x).sum + ∑ y, share (st y) x
  message : ∀ x, ∀ m ∈ app x, 0 < m.2 ∧ m.1 ≠ x
  ack : ∀ x, ∀ n ∈ acks x, 0 < n
  tree : ∃ depth : N → ℕ, ∀ x y, (st y).parent = some x → depth x < depth y

namespace Live

variable {root : N} {st st' : N → TermDS N} {app app' : N → List (N × ℤ)}
  {acks acks' : N → List ℤ} {units units' : N → ℕ} {finished finished' : Bool}

variable (h : Live root st app acks units finished)
include h

theorem engaged {x y : N} (hp : (st y).parent = some x) :
    y ≠ root ∧ 0 < (st y).engagementMessageCount := by
  by_cases hy : y = root
  · obtain ⟨a, ha, hpred⟩ := h.atRoot
    rcases ha.kind with ⟨hne, -⟩ | ⟨-, hnone, -⟩
    · exact absurd (hpred.trans (h.self root).symm) hne
    · rw [hy, hnone] at hp
      exact absurd hp (some_ne_none x).symm
  · refine ⟨hy, ?_⟩
    rcases h.atNode y hy with ⟨hv, -⟩ | ⟨a, ha, -⟩
    · rw [hv.parent] at hp
      exact absurd hp (some_ne_none x).symm
    · rcases ha.kind with ⟨-, -, hpos⟩ | ⟨-, hnone, -⟩
      · exact hpos
      · rw [hnone] at hp
        exact absurd hp (some_ne_none x).symm

theorem share_nonneg (x y : N) : 0 ≤ share (st y) x := by
  rw [share]
  split
  · rename_i hp
    exact (h.engaged hp).2.le
  · exact le_rfl

theorem parts_nonneg (x : N) :
    0 ≤ ((app x).map snd).sum ∧ 0 ≤ (acks x).sum ∧ 0 ≤ ∑ y, share (st y) x := by
  refine ⟨?_, ?_, Finset.sum_nonneg fun y _ => h.share_nonneg x y⟩
  · refine sum_nonneg ?_
    intro c hc
    obtain ⟨m, hm, rfl⟩ := mem_map.mp hc
    exact (h.message x m hm).1.le
  · exact sum_nonneg fun c hc => (h.ack x c hc).le

/-- A node that has engaged another is in debt. -/
theorem debt_pos {x y : N} (hp : (st y).parent = some x) : 0 < (st x).D := by
  obtain ⟨h1, h2, -⟩ := h.parts_nonneg x
  have h3 : share (st y) x ≤ ∑ z, share (st z) x :=
    Finset.single_le_sum (fun z _ => h.share_nonneg x z) (Finset.mem_univ y)
  have h4 := (h.engaged hp).2
  rw [share, if_pos hp] at h3
  have := h.debt x
  omega

/-- A node in debt, or with a local unit, is active. -/
theorem active {x : N} (hx : (st x).D ≠ 0 ∨ (st x).lC ≠ (st x).lD) :
    ∃ a, (st x).Active a ∧ (a.pred = x ↔ x = root) := by
  by_cases hr : x = root
  · obtain ⟨a, ha, hpred⟩ := h.atRoot
    subst hr
    exact ⟨a, ha, iff_of_true hpred rfl⟩
  · rcases h.atNode x hr with ⟨hv, hl⟩ | ⟨a, ha, hpred⟩
    · rcases hx with hd | hl'
      · exact absurd hv.D hd
      · exact absurd hl hl'
    · exact ⟨a, ha, iff_of_false hpred hr⟩

/-- When the root owes nothing, no other node is engaged. -/
theorem no_parent (hd : (st root).D = 0) : ∀ x, (st x).parent = none := by
  -- the parent of a node is in debt, so it is active, and it has a parent unless it is the root
  refine Forest.induction h.tree ?_
  intro x ih
  cases hp : (st x).parent with
  | none => rfl
  | some p =>
    have hpos := h.debt_pos hp
    obtain ⟨a, ha, hpred⟩ := h.active (.inl hpos.ne')
    have hroot : p ≠ root := by
      rintro rfl
      omega
    rcases ha.kind with ⟨-, hpp, -⟩ | ⟨heq, -⟩
    · rw [ih p hp] at hpp
      exact absurd hpp (some_ne_none _).symm
    · rw [h.self] at heq
      exact absurd (hpred.mp heq) hroot

/-- The state of one node changes, and the debts change with what is in flight and with what the
node owes. -/
theorem update_node {x : N} {t : TermDS N} (hself : t.self = x)
    (hroot : x = root → ∃ a, t.Active a ∧ a.pred = root)
    (hnode : x ≠ root → (t.Vacant ∧ t.lC = t.lD) ∨ ∃ a, t.Active a ∧ a.pred ≠ x)
    (hcounted : t.lD = t.lC + units' x + if x = root ∧ finished' = false then 1 else 0)
    (hunits : ∀ y, y ≠ x → units' y = units y) (hfinished : x ≠ root → finished' = finished)
    (hdebt : ∀ y, (update st x t y).D + ((app y).map snd).sum + (acks y).sum + share (st x) y =
      (st y).D + ((app' y).map snd).sum + (acks' y).sum + share t y)
    (hmessage : ∀ y, ∀ m ∈ app' y, 0 < m.2 ∧ m.1 ≠ y) (hack : ∀ y, ∀ n ∈ acks' y, 0 < n)
    (htree : Forest fun y => (update st x t y).parent) :
    Live root (update st x t) app' acks' units' finished' where
  self := (forall_update_iff st fun y t => t.self = y).mpr ⟨hself, fun y _ => h.self y⟩
  atRoot := by
    by_cases hr : root = x
    · subst hr
      rw [update_self]
      exact hroot rfl
    · rw [update_of_ne hr]
      exact h.atRoot
  atNode := (forall_update_iff st fun y t => y ≠ root →
    (t.Vacant ∧ t.lC = t.lD) ∨ ∃ a, t.Active a ∧ a.pred ≠ y).mpr ⟨hnode, fun y _ => h.atNode y⟩
  counted := by
    refine (forall_update_iff st fun y t => t.lD = t.lC + units' y +
      if y = root ∧ finished' = false then 1 else 0).mpr ⟨hcounted, fun y hy => ?_⟩
    rw [hunits y hy, h.counted y]
    by_cases hr : y = root
    · rw [hfinished (hr ▸ Ne.symm hy)]
    · simp [hr]
  debt := by
    intro y
    have hsum := sum_change_at (f := fun z => share (st z) y)
      (g := fun z => share (update st x t z) y) x fun z hz => by rw [update_of_ne hz]
    rw [update_self] at hsum
    have hold := h.debt y
    have hnew := hdebt y
    omega
  message := hmessage
  ack := hack
  tree := htree

omit h [Fintype N] in
/-- What the new state of a node has from the old one. -/
theorem update_field {β : Type*} (f : TermDS N → β) {x : N} {t : TermDS N}
    (ht : f t = f (st x)) (y : N) :
    f (update st x t y) = f (st y) :=
  (forall_update_iff st fun y t => f t = f (st y)).mpr ⟨ht, fun _ _ => rfl⟩ y

theorem message_update {x : N} {l : List (N × ℤ)} (hl : ∀ m ∈ l, 0 < m.2 ∧ m.1 ≠ x) :
    ∀ y, ∀ m ∈ update app x l y, 0 < m.2 ∧ m.1 ≠ y :=
  (forall_update_iff app (p := fun y l => ∀ m ∈ l, 0 < m.2 ∧ m.1 ≠ y)).mpr
    ⟨hl, fun y _ => h.message y⟩

theorem ack_update {x : N} {l : List ℤ} (hl : ∀ n ∈ l, 0 < n) :
    ∀ y, ∀ n ∈ update acks x l y, 0 < n :=
  (forall_update_iff acks (p := fun _ l => ∀ n ∈ l, 0 < n)).mpr ⟨hl, fun y _ => h.ack y⟩

/-- An active node stays so with its parent and its engagement count, while its counters
and what is in flight change. -/
theorem change {x : N} {a : AckRequest N} {t : TermDS N} (ha : (st x).Active a) (ht : t.Active a)
    (hsame : t.self = (st x).self ∧ t.parent = (st x).parent ∧
      t.engagementMessageCount = (st x).engagementMessageCount)
    (hcounted : t.lD = t.lC + units' x + if x = root ∧ finished' = false then 1 else 0)
    (hunits : ∀ y, y ≠ x → units' y = units y) (hfinished : x ≠ root → finished' = finished)
    (hdebt : ∀ y, (update st x t y).D + ((app y).map snd).sum + (acks y).sum =
      (st y).D + ((app' y).map snd).sum + (acks' y).sum)
    (hmessage : ∀ y, ∀ m ∈ app' y, 0 < m.2 ∧ m.1 ≠ y) (hack : ∀ y, ∀ n ∈ acks' y, 0 < n) :
    Live root (update st x t) app' acks' units' finished' := by
  have hone : ∀ b, (st x).Active b → a = b := fun b hb =>
    (List.cons.inj (ha.outstanding.symm.trans hb.outstanding)).1
  refine h.update_node (hsame.1.trans (h.self x)) ?_ ?_ hcounted hunits hfinished ?_ hmessage hack
    (Forest.detach h.tree fun y z hz => (update_field parent hsame.2.1 z).symm.trans hz)
  · rintro rfl
    obtain ⟨b, hb, hpred⟩ := h.atRoot
    exact ⟨a, ht, hone b hb ▸ hpred⟩
  · intro hx
    rcases h.atNode x hx with ⟨hv, -⟩ | ⟨b, hb, hpred⟩
    · exact absurd (hv.outstanding.symm.trans ha.outstanding) (cons_ne_nil _ _).symm
    · exact .inr ⟨a, ht, hone b hb ▸ hpred⟩
  · intro y
    rw [hdebt, share, share, hsame.2.1, hsame.2.2]

theorem engage {x y : N} {count : ℤ} {t : TermDS N} (hv : (st y).Vacant) (hmem : (y, count) ∈ app x)
    (ht : t.Active ⟨x, count⟩) (hself : t.self = y) (hparent : t.parent = some x) (hD : t.D = 0)
    (hemc : t.engagementMessageCount = count)
    (hcounted : t.lD = t.lC + units' y + if y = root ∧ finished = false then 1 else 0)
    (hunits : ∀ z, z ≠ y → units' z = units z) :
    Live root (update st y t) (update app x ((app x).erase (y, count))) acks units' finished := by
  have hxy : y ≠ x := (h.message x _ hmem).2
  have hroot : y ≠ root := by
    intro heq
    obtain ⟨a, ha, -⟩ := h.atRoot
    rw [← heq] at ha
    exact absurd (hv.outstanding.symm.trans ha.outstanding) (cons_ne_nil _ _).symm
  have hchild : ∀ z, (st z).parent ≠ some y := by
    intro z hz
    have := h.debt_pos hz
    rw [hv.D] at this
    exact lt_irrefl _ this
  refine h.update_node hself (fun hr => absurd hr hroot) (fun _ => .inr ⟨_, ht, hxy.symm⟩) hcounted
    hunits (fun _ => rfl) ?_
    (h.message_update fun m hm => h.message x m (mem_of_mem_erase hm)) h.ack
    (Forest.attach h.tree hxy.symm hchild (by rwa [update_self])
      fun z hz => by rw [update_of_ne hz])
  intro z
  rw [update_field D (hD.trans hv.D.symm), share, share, hv.parent,
    if_neg (some_ne_none z).symm, hparent, hemc]
  by_cases hz : x = z
  · have hsum := ((perm_cons_erase hmem).map snd).sum_eq
    subst hz
    rw [if_pos rfl, update_self, hsum, map_cons, sum_cons]
    ring
  · rw [if_neg fun heq => hz (Option.some.inj heq), update_of_ne (Ne.symm hz)]

theorem disengage {x : N} {a : AckRequest N} (ha : (st x).Active a) (hpred : a.pred ≠ x)
    (hl : (st x).lC = (st x).lD) (hd : (st x).D = 0) :
    Live root (update st x ((st x).reset false)) app
      (update acks a.pred ((st x).engagementMessageCount :: acks a.pred)) units finished := by
  obtain ⟨-, hparent, hpos⟩ : a.pred ≠ (st x).self ∧ (st x).parent = some a.pred ∧
      0 < (st x).engagementMessageCount := by
    refine ha.kind.resolve_right ?_
    rintro ⟨heq, -⟩
    rw [h.self] at heq
    exact hpred heq
  have hroot : x ≠ root := (h.engaged hparent).1
  refine h.update_node (h.self x) (fun hr => absurd hr hroot)
    (fun _ => .inl ⟨vacant_reset ha hd false, hl⟩) (h.counted x) (fun _ _ => rfl) (fun _ => rfl) ?_
    h.message (h.ack_update (forall_mem_cons.mpr ⟨hpos, h.ack a.pred⟩)) (Forest.detach h.tree ?_)
  · intro y
    have hzero : share ((st x).reset false) y = 0 := rfl
    rw [update_field D (by rfl), hzero, share, hparent]
    by_cases hy : a.pred = y
    · subst hy
      rw [if_pos rfl, update_self, sum_cons]
      ring
    · rw [if_neg fun heq => hy (Option.some.inj heq), update_of_ne (Ne.symm hy)]
  · intro y z hz
    by_cases hzx : z = x
    · rw [hzx, update_self] at hz
      exact absurd hz (some_ne_none y).symm
    · rwa [update_of_ne hzx] at hz

/-- When the root answers its own request nothing is left anywhere. -/
theorem quiescent (hl : (st root).lC = (st root).lD) (hd : (st root).D = 0) :
    (∀ x, app x = []) ∧ (∀ x, acks x = []) ∧ (∀ x, units x = 0) ∧ finished = true ∧
      ∀ x, x ≠ root → (st x).Vacant ∧ (st x).lC = (st x).lD := by
  have hnode : ∀ x, x ≠ root → (st x).Vacant ∧ (st x).lC = (st x).lD := by
    intro x hx
    rcases h.atNode x hx with hv | ⟨a, ha, hpred⟩
    · exact hv
    · rcases ha.kind with ⟨-, hp, -⟩ | ⟨heq, -⟩
      · rw [h.no_parent hd x] at hp
        exact absurd hp (some_ne_none _).symm
      · rw [h.self] at heq
        exact absurd heq hpred
  have hzero : ∀ x, (st x).D = 0 ∧ (st x).lC = (st x).lD := by
    intro x
    by_cases hx : x = root
    · rw [hx]
      exact ⟨hd, hl⟩
    · exact ⟨(hnode x hx).1.D, (hnode x hx).2⟩
  have hparts : ∀ x, ((app x).map snd).sum = 0 ∧ (acks x).sum = 0 := by
    intro x
    obtain ⟨h1, h2, h3⟩ := h.parts_nonneg x
    have h4 := h.debt x
    rw [(hzero x).1] at h4
    constructor <;> omega
  refine ⟨?_, ?_, ?_, ?_, hnode⟩
  · intro x
    by_contra hne
    obtain ⟨m, hm⟩ := exists_mem_of_ne_nil _ hne
    have h1 : m.2 ≤ ((app x).map snd).sum := by
      refine single_le_sum ?_ _ (mem_map_of_mem hm)
      intro c hc
      obtain ⟨m', hm', rfl⟩ := mem_map.mp hc
      exact (h.message x m' hm').1.le
    have h2 := (h.message x m hm).1
    rw [(hparts x).1] at h1
    omega
  · intro x
    by_contra hne
    obtain ⟨n, hn⟩ := exists_mem_of_ne_nil _ hne
    have h1 : n ≤ (acks x).sum :=
      single_le_sum (fun c hc => (h.ack x c hc).le) _ hn
    have h2 := h.ack x n hn
    rw [(hparts x).2] at h1
    omega
  · intro x
    have h1 := h.counted x
    rw [(hzero x).2] at h1
    split at h1 <;> omega
  · have h1 := h.counted root
    rw [(hzero root).2] at h1
    cases hf : finished with
    | true => rfl
    | false =>
      rw [if_pos ⟨rfl, hf⟩] at h1
      omega

end Live

/-! ## Every action -/

variable {root : N} {s s' : DSSys N}

/-- Before the root terminates, and no cleanup is enqueued for the root. -/
structure Alive (root : N) (s : DSSys N) : Prop where
  live : Live root s.getDSTerm s.app s.acks s.units s.finished
  calls : s.terminatedCalls = 0
  cleanups : s.cleanups root = 0
  erasures : ∀ n, s.erasures n = 0

section

omit [Fintype N]

variable (s : DSSys N)

/-- After the root has terminated. -/
structure Over : Prop where
  vacant : ∀ n, (s.getDSTerm n).Vacant ∧ (s.getDSTerm n).lC = (s.getDSTerm n).lD
  app : ∀ n, s.app n = []
  acks : ∀ n, s.acks n = []
  units : ∀ n, s.units n = 0
  finished : s.finished = true
  calls : s.terminatedCalls = 1

theorem getDSTerm_setTerm (n : N) (t : TermDS N) :
    (s.setTerm n t).getDSTerm = update s.getDSTerm n t := by
  funext m
  by_cases hm : m = n
  · subst hm
    simp [getDSTerm, setTerm]
  · simp [getDSTerm, setTerm, hm]

theorem setTerm_setTerm (n : N) (t t' : TermDS N) :
    (s.setTerm n t).setTerm n t' = s.setTerm n t' := by
  simp [setTerm]

/-- Only the stored state counts for what a call does. -/
theorem perform_setTerm (n : N) (t : TermDS N)
    (r : TermDS N × List (EffectDS N)) : (s.setTerm n t).perform n r = s.perform n r := by
  rw [perform, perform, setTerm_setTerm]

end

theorem alive_init (h : Init root s) : Alive root s := by
  have hst : s.getDSTerm = update (make false) root ((make true root).msgSent root 1) := by
    funext x
    rw [getDSTerm, h.term, update_apply]
    split
    · rfl
    · rfl
  have hself : (make true root).msgSent root 1 = { make true root with lD := 1 } :=
    msgSent_self rfl 1
  have hparent : ∀ x, (s.getDSTerm x).parent = none := by
    rw [hst, hself]
    exact (forall_update_iff _ fun _ (t : TermDS N) => t.parent = none).mpr ⟨rfl, fun _ _ => rfl⟩
  refine ⟨?_, h.terminatedCalls, h.cleanups root, h.erasures⟩
  refine
    { self := ?_, atRoot := ?_, atNode := ?_, counted := ?_, debt := ?_, message := ?_
      ack := ?_, tree := ⟨fun _ => 0, ?_⟩ }
  · rw [hst, hself]
    exact (forall_update_iff _ fun x (t : TermDS N) => t.self = x).mpr ⟨rfl, fun _ _ => rfl⟩
  · rw [hst, hself, update_self]
    refine ⟨⟨root, 0⟩, ?_, rfl⟩
    constructor <;> simp [make]
  · intro x hx
    left
    rw [hst, update_of_ne hx]
    refine ⟨?_, rfl⟩
    constructor <;> rfl
  · rw [hst, hself, funext h.units, h.finished]
    refine (forall_update_iff _ fun x (t : TermDS N) => t.lD = t.lC + ((0 : ℕ) : ℤ) +
      if x = root ∧ false = false then 1 else 0).mpr ⟨by simp [make], fun x hx => ?_⟩
    simp [make, hx]
  · intro x
    have hD : (s.getDSTerm x).D = 0 := by
      rw [hst, hself]
      exact (forall_update_iff _ fun _ (t : TermDS N) => t.D = 0).mpr ⟨rfl, fun _ _ => rfl⟩ x
    simp [hD, h.app, h.acks, share, hparent]
  · intro x m hm
    rw [h.app] at hm
    exact absurd hm not_mem_nil
  · intro x n hn
    rw [h.acks] at hn
    exact absurd hn not_mem_nil
  · intro x y hy
    rw [hparent y] at hy
    exact absurd hy (some_ne_none x).symm

variable {a : AckRequest N} {n src dst : N} {count : ℤ}

/-- An active node tries to answer its last request. -/
theorem Alive.last (h : Alive root s) {x : N} (ha : (s.getDSTerm x).Active a)
    (hpred : a.pred = x ↔ x = root) :
    Alive root (s.perform x (s.getDSTerm x).tryLast) ∨
      Over (s.perform x (s.getDSTerm x).tryLast) := by
  have hself := h.live.self x
  rw [tryLast_of_active ha, hself]
  by_cases hq : (s.getDSTerm x).lC = (s.getDSTerm x).lD ∧ (s.getDSTerm x).D = 0
  · rw [if_pos hq]
    by_cases hr : x = root
    · right
      have hax : a.pred = x := hpred.mpr hr
      rw [if_pos hax, decide_eq_true hax]
      subst hr
      obtain ⟨h1, h2, h3, h4, h5⟩ := h.live.quiescent hq.1 hq.2
      refine ⟨?_, h1, h2, h3, h4, ?_⟩
      · change ∀ n, ((s.setTerm x _).getDSTerm n).Vacant ∧
          ((s.setTerm x _).getDSTerm n).lC = ((s.setTerm x _).getDSTerm n).lD
        rw [getDSTerm_setTerm]
        exact (forall_update_iff s.getDSTerm fun _ t => t.Vacant ∧ t.lC = t.lD).mpr
          ⟨⟨vacant_reset ha hq.2 true, hq.1⟩, h5⟩
      · change s.terminatedCalls + 1 = 1
        rw [h.calls]
    · left
      have hax : a.pred ≠ x := fun heq => hr (hpred.mp heq)
      rw [if_neg hax, decide_eq_false hax]
      refine ⟨?_, h.calls, ?_, h.erasures⟩
      · change Live root (s.setTerm x _).getDSTerm _ _ _ _
        rw [getDSTerm_setTerm]
        exact h.live.disengage ha hax hq.1 hq.2
      · change update s.cleanups x _ root = 0
        rw [update_of_ne (Ne.symm hr)]
        exact h.cleanups
  · rw [if_neg hq]
    left
    have hget : (s.perform x (s.getDSTerm x, [])).getDSTerm = s.getDSTerm :=
      (getDSTerm_setTerm s x _).trans (update_eq_self x _)
    exact ⟨by rw [hget]; exact h.live, h.calls, h.cleanups, h.erasures⟩

/-- A node that may send has a local unit, so it is active. -/
theorem Alive.maySend (h : Alive root s) (hn : s.MaySend root n) :
    (s.getDSTerm n).lC ≠ (s.getDSTerm n).lD := by
  have hc := h.live.counted n
  rcases hn with hu | ⟨hr, hf⟩
  · split at hc <;> omega
  · rw [if_pos ⟨hr, hf⟩] at hc
    omega

/-- The state of a node is stored, and the root does not terminate. -/
theorem Alive.of_live (h : Alive root s) {x : N} {t : TermDS N}
    (hs : s'.getDSTerm = update s.getDSTerm x t)
    (hlive : Live root (update s.getDSTerm x t) s'.app s'.acks s'.units s'.finished)
    (hrest : s'.terminatedCalls = s.terminatedCalls ∧ s'.cleanups = s.cleanups ∧
      s'.erasures = s.erasures) : Alive root s' :=
  ⟨hs ▸ hlive, hrest.1.trans h.calls, hrest.2.1 ▸ h.cleanups, hrest.2.2 ▸ h.erasures⟩

theorem Alive.send (h : Alive root s) (hsend : s.MaySend root src) (hne : dst ≠ src)
    (hpos : 0 < count) :
    Alive root { s.setTerm src ((s.getDSTerm src).msgSent dst count) with
      app := update s.app src ((dst, count) :: s.app src) } := by
  obtain ⟨a, ha, -⟩ := h.live.active (.inr (h.maySend hsend))
  rw [msgSent_of_ne (by rw [h.live.self]; exact hne)]
  refine h.of_live (getDSTerm_setTerm s src _) (h.live.change ha (ha.of_eq rfl) ⟨rfl, rfl, rfl⟩
    (h.live.counted src) (fun _ _ => rfl) (fun _ => rfl) ?_
    (h.live.message_update (forall_mem_cons.mpr ⟨⟨hpos, hne⟩, h.live.message src⟩)) h.live.ack)
    ⟨rfl, rfl, rfl⟩
  intro y
  change _ = _ + ((update s.app src _ y).map snd).sum + (s.acks y).sum
  by_cases hy : y = src
  · subst hy
    rw [update_self, update_self, map_cons, sum_cons]
    ring
  · rw [update_of_ne hy, update_of_ne hy]

theorem Alive.localSend (h : Alive root s) {count : ℕ} (hsend : s.MaySend root n) :
    Alive root { s.setTerm n ((s.getDSTerm n).msgSent n count) with
      units := update s.units n (s.units n + count) } := by
  obtain ⟨a, ha, -⟩ := h.live.active (.inr (h.maySend hsend))
  rw [msgSent_self (h.live.self n)]
  refine h.of_live (getDSTerm_setTerm s n _) (h.live.change ha (ha.of_eq rfl) ⟨rfl, rfl, rfl⟩ ?_
    (fun y hy => update_of_ne hy _ _) (fun _ => rfl)
    (fun y => by rw [Live.update_field D (by rfl)]; rfl)
    h.live.message h.live.ack) ⟨rfl, rfl, rfl⟩
  have hc := h.live.counted n
  change _ = _ + ((update s.units n (s.units n + count) n : ℕ) : ℤ) +
    if n = root ∧ s.finished = false then 1 else 0
  rw [update_self]
  simp only
  push_cast
  omega

/-- The system when a message has arrived and before it is processed. -/
def arrived (s : DSSys N) (src dst : N) (count : ℤ) : DSSys N :=
  { s with
    app := update s.app src ((s.app src).erase (dst, count))
    units := update s.units dst (s.units dst + 1) }

section

variable (h : Alive root s)
include h

/-- A node that gets a local unit has not credited all of its units. -/
theorem Alive.uncredited (n : N) : (s.getDSTerm n).lC ≠ (s.getDSTerm n).lD + 1 := by
  have hc := h.live.counted n
  split at hc <;> omega

/-- A message that arrives at an active node is acknowledged at once. -/
theorem Alive.acknowledge (hmem : (dst, count) ∈ s.app src) (ha : (s.getDSTerm dst).Active a) :
    Alive root ((s.arrived src dst count).perform dst
      (((s.getDSTerm dst).msgSent dst 1).msgProcessed src count)) := by
  obtain ⟨hpos, hne⟩ := h.live.message src _ hmem
  have hself := h.live.self dst
  have hsrc : src ≠ (s.getDSTerm dst).self := by rw [hself]; exact Ne.symm hne
  have hsum := ((perm_cons_erase hmem).map snd).sum_eq
  rw [map_cons, sum_cons] at hsum
  rw [msgSent_self hself]
  obtain ⟨t, heq, ht, h1, h2, h3, h4, h5, h6⟩ := msgProcessed_active
    (t := { s.getDSTerm dst with lD := (s.getDSTerm dst).lD + 1 }) (ha.of_eq rfl) hsrc
    (h.uncredited dst) count
  rw [heq]
  refine h.of_live (getDSTerm_setTerm s dst _) (h.live.change ha ht ⟨h1, h2, h6⟩ ?_
    (fun y hy => update_of_ne hy _ _) (fun _ => rfl) ?_
    (h.live.message_update fun m hm => h.live.message src m (mem_of_mem_erase hm))
    (h.live.ack_update (forall_mem_cons.mpr ⟨hpos, h.live.ack src⟩))) ⟨rfl, rfl, rfl⟩
  · have hc := h.live.counted dst
    change _ = _ + ((update s.units dst (s.units dst + 1) dst : ℕ) : ℤ) +
      if dst = root ∧ s.finished = false then 1 else 0
    rw [update_self, h4, h5]
    push_cast
    omega
  · intro y
    change _ = _ + ((update s.app src _ y).map snd).sum +
      (update s.acks src (count :: s.acks src) y).sum
    rw [Live.update_field D h3]
    by_cases hy : y = src
    · subst hy
      rw [update_self, update_self, hsum, sum_cons]
      ring
    · rw [update_of_ne hy, update_of_ne hy]

theorem Alive.engage (hmem : (dst, count) ∈ s.app src) (hact : ¬ ∃ a, (s.getDSTerm dst).Active a) :
    Alive root ((s.arrived src dst count).perform dst
      (((s.getDSTerm dst).msgSent dst 1).msgProcessed src count)) := by
  obtain ⟨hpos, hne⟩ := h.live.message src _ hmem
  have hself := h.live.self dst
  have hsrc : src ≠ (s.getDSTerm dst).self := by rw [hself]; exact Ne.symm hne
  have hroot : dst ≠ root := by
    intro heq
    obtain ⟨a, ha, -⟩ := h.live.atRoot
    rw [← heq] at ha
    exact hact ⟨a, ha⟩
  have hv : (s.getDSTerm dst).Vacant :=
    ((h.live.atNode dst hroot).resolve_right fun ⟨a, ha, _⟩ => hact ⟨a, ha⟩).1
  rw [msgSent_self hself]
  obtain ⟨t, heq, ht, h1, h2, h3, h4, h5, h6⟩ := msgProcessed_vacant
    (t := { s.getDSTerm dst with lD := (s.getDSTerm dst).lD + 1 }) { hv with } hsrc
    (h.uncredited dst) count hpos
  rw [heq]
  refine h.of_live (getDSTerm_setTerm s dst _) (h.live.engage hv hmem ht
    (h1.trans hself) h2 h3 h6 ?_
    fun y hy => update_of_ne hy _ _) ⟨rfl, rfl, rfl⟩
  have hc := h.live.counted dst
  change _ = _ + ((update s.units dst (s.units dst + 1) dst : ℕ) : ℤ) + _
  rw [update_self, h4, h5]
  push_cast
  omega

/-- A message is received: it engages the node, or is acknowledged at once. -/
theorem Alive.receive (hmem : (dst, count) ∈ s.app src) :
    Alive root ((s.arrived src dst count).perform dst
      (((s.getDSTerm dst).msgSent dst 1).msgProcessed src count)) := by
  by_cases hact : ∃ a, (s.getDSTerm dst).Active a
  · obtain ⟨a, ha⟩ := hact
    exact h.acknowledge hmem ha
  · exact h.engage hmem hact

omit h in
/-- The counters of an active node have changed, and it tries to answer its last request. -/
theorem Alive.last_setTerm {t : TermDS N} (h : Alive root (s.setTerm n t)) (ht : t.Active a)
    (hpred : a.pred = n ↔ n = root) :
    Alive root (s.perform n t.tryLast) ∨ Over (s.perform n t.tryLast) := by
  have hget := congrFun (getDSTerm_setTerm s n t) n
  rw [update_self] at hget
  have hlast := h.last (x := n) (a := a) (by rwa [hget]) hpred
  rwa [hget, perform_setTerm] at hlast

/-- A local unit is credited, and the node tries to answer its last request. -/
theorem Alive.creditLocal {units : N → ℕ} {finished : Bool}
    (hunits : ∀ y, y ≠ n → units y = s.units y) (hfinished : n ≠ root → finished = s.finished)
    (hone : (s.units n + if n = root ∧ s.finished = false then 1 else 0 : ℤ) = units n +
      (if n = root ∧ finished = false then 1 else 0) + 1)
    :
    Alive root (perform { s with units := units, finished := finished } n
        ((s.getDSTerm n).msgProcessed n 1)) ∨
      Over (perform { s with units := units, finished := finished } n
        ((s.getDSTerm n).msgProcessed n 1)) := by
  have hc := h.live.counted n
  have hl : (s.getDSTerm n).lC ≠ (s.getDSTerm n).lD := by
    have : (0 : ℤ) ≤ if n = root ∧ finished = false then 1 else 0 := by split <;> simp
    omega
  obtain ⟨a, ha, hpred⟩ := h.live.active (.inr hl)
  rw [msgProcessed_self ha (h.live.self n)]
  refine Alive.last_setTerm (h.of_live (getDSTerm_setTerm s n _) (h.live.change ha (ha.of_eq rfl)
    ⟨rfl, rfl, rfl⟩ ?_ hunits hfinished (fun y => by rw [Live.update_field D (by rfl)]; rfl)
    h.live.message h.live.ack) ⟨rfl, rfl, rfl⟩) (ha.of_eq rfl) hpred
  change (s.getDSTerm n).lD = (s.getDSTerm n).lC + 1 + (units n : ℤ) +
    if n = root ∧ finished = false then 1 else 0
  omega

theorem Alive.gotAck (hmem : count ∈ s.acks n) :
    Alive root (perform
        { s with acks := update s.acks n ((s.acks n).erase count) } n
        ((s.getDSTerm n).gotAck count)) ∨
      Over (perform { s with acks := update s.acks n ((s.acks n).erase count) } n
        ((s.getDSTerm n).gotAck count)) := by
  have hsum := (perm_cons_erase hmem).sum_eq
  rw [sum_cons] at hsum
  have hd : (s.getDSTerm n).D ≠ 0 := by
    obtain ⟨h1, -, h3⟩ := h.live.parts_nonneg n
    have h4 := h.live.debt n
    have h5 := h.live.ack n count hmem
    have h6 : count ≤ (s.acks n).sum :=
      single_le_sum (fun c hc => (h.live.ack n c hc).le) _ hmem
    omega
  obtain ⟨a, ha, hpred⟩ := h.live.active (.inl hd)
  refine Alive.last_setTerm (h.of_live (getDSTerm_setTerm s n _) (h.live.change ha (ha.of_eq rfl)
    ⟨rfl, rfl, rfl⟩ (h.live.counted n) (fun _ _ => rfl) (fun _ => rfl) ?_ h.live.message
    (h.live.ack_update fun c hc => h.live.ack n c (mem_of_mem_erase hc))) ⟨rfl, rfl, rfl⟩)
    (ha.of_eq rfl) hpred
  intro y
  change _ = _ + ((s.app y).map snd).sum + (update s.acks n _ y).sum
  by_cases hy : y = n
  · subst hy
    rw [update_self, update_self, hsum]
    ring
  · rw [update_of_ne hy, update_of_ne hy]

theorem Alive.erase (hn : n ≠ root) (hengaged : (s.getDSTerm n).isEngaged = false)
    {cleanups : N → ℕ} (hcleanups : cleanups root = 0) :
    Alive root { s with cleanups := cleanups, term := update s.term n none } := by
  obtain ⟨hv, hl⟩ : (s.getDSTerm n).Vacant ∧ (s.getDSTerm n).lC = (s.getDSTerm n).lD := by
    refine (h.live.atNode n hn).resolve_right ?_
    rintro ⟨a, ha, hpred⟩
    rcases ha.kind with ⟨-, -, hpos⟩ | ⟨heq, -⟩
    · rw [isEngaged, decide_eq_false_iff_not] at hengaged
      exact hengaged hpos
    · rw [h.live.self] at heq
      exact hpred heq
  have hget : getDSTerm { s with cleanups := cleanups, term := update s.term n none } =
      update s.getDSTerm n (make false n) := by
    funext y
    by_cases hy : y = n
    · subst hy
      simp [getDSTerm]
    · simp [getDSTerm, hy]
  refine ⟨?_, h.calls, hcleanups, h.erasures⟩
  rw [hget]
  refine h.live.update_node rfl (fun hr => absurd hr hn)
    (fun _ => .inl ⟨by constructor <;> rfl, rfl⟩) ?_ (fun _ _ => rfl) (fun _ => rfl) ?_
    h.live.message h.live.ack (Forest.detach h.live.tree ?_)
  · have hc := h.live.counted n
    rw [hl] at hc
    change (0 : ℤ) = 0 + (s.units n : ℤ) + if n = root ∧ s.finished = false then 1 else 0
    omega
  · intro y
    rw [Live.update_field D hv.D.symm, share, hv.parent]
    rfl
  · intro x y hy
    by_cases hyn : y = n
    · rw [hyn, update_self] at hy
      exact absurd hy (some_ne_none x).symm
    · rwa [update_of_ne hyn] at hy

theorem Alive.step {a : DSAct N} (hs : step root s a = some s') : Alive root s' ∨ Over s' := by
  cases a with
  | send src dst count =>
    obtain ⟨⟨hsend, hne, hpos⟩, rfl⟩ := of_guard hs
    exact .inl (h.send hsend hne hpos)
  | localSend n count =>
    obtain ⟨hsend, rfl⟩ := of_guard hs
    exact .inl (h.localSend hsend)
  | receive src dst count =>
    obtain ⟨hmem, rfl⟩ := of_guard hs
    exact .inl (h.receive hmem)
  | run n =>
    obtain ⟨hpos, rfl⟩ := of_guard hs
    refine h.creditLocal (fun y hy => update_of_ne hy _ _) (fun _ => rfl) ?_
    rw [update_self]
    omega
  | finishedEpoch =>
    obtain ⟨hf, rfl⟩ := of_guard hs
    refine h.creditLocal (fun _ _ => rfl) (fun hne => absurd rfl hne) ?_
    simp [hf]
  | gotAck n count =>
    obtain ⟨hmem, rfl⟩ := of_guard hs
    exact h.gotAck hmem
  | disengageCleanup n =>
    obtain ⟨hpos, rfl⟩ := of_guard hs
    have hn : n ≠ root := by
      rintro rfl
      have := h.cleanups
      omega
    have hcleanups : update s.cleanups n (s.cleanups n - 1) root = 0 := by
      rw [update_of_ne hn.symm]
      exact h.cleanups
    left
    cases hengaged : (s.getDSTerm n).isEngaged with
    | true => exact ⟨h.live, h.calls, hcleanups, h.erasures⟩
    | false => exact h.erase hn hengaged hcleanups
  | cleanupEpoch n =>
    obtain ⟨hpos, -⟩ := of_guard hs
    have := h.erasures n
    omega

end

omit [Fintype N] in
/-- One step after the root has terminated: only cleanups are left. -/
theorem Over.step (h : Over s) {a : DSAct N} (hs : step root s a = some s') : Over s' := by
  have hsend : ∀ n, ¬ s.MaySend root n := by
    rintro n (hu | ⟨-, hf⟩)
    · rw [h.units] at hu
      exact lt_irrefl 0 hu
    · rw [h.finished] at hf
      exact Bool.noConfusion hf
  have herase : ∀ n, Over { s with term := update s.term n none } := by
    intro n
    refine ⟨?_, h.app, h.acks, h.units, h.finished, h.calls⟩
    intro m
    by_cases hm : m = n
    · subst hm
      simp only [getDSTerm, update_self, getD_none]
      exact ⟨by constructor <;> rfl, rfl⟩
    · have := h.vacant m
      simpa only [getDSTerm, update_of_ne hm] using this
  cases a with
  | send src dst count => exact absurd (of_guard hs).1.1 (hsend src)
  | localSend n count => exact absurd (of_guard hs).1 (hsend n)
  | receive src dst count =>
    have hmem := (of_guard hs).1
    rw [h.app] at hmem
    exact absurd hmem not_mem_nil
  | run n =>
    have hpos := (of_guard hs).1
    rw [h.units] at hpos
    exact absurd hpos (lt_irrefl 0)
  | finishedEpoch =>
    have hf := (of_guard hs).1
    rw [h.finished] at hf
    exact Bool.noConfusion hf
  | gotAck n count =>
    have hmem := (of_guard hs).1
    rw [h.acks] at hmem
    exact absurd hmem not_mem_nil
  | disengageCleanup n =>
    obtain ⟨-, rfl⟩ := of_guard hs
    split
    · exact { h with }
    · exact { herase n with }
  | cleanupEpoch n =>
    obtain ⟨-, rfl⟩ := of_guard hs
    exact { herase n with }

theorem Reachable.alive_or_over (h : Reachable root s) : Alive root s ∨ Over s := by
  refine Reach.invariant (fun s hs => .inl (alive_init hs)) ?_ h
  rintro s a s' (ha | ho) - hs
  · exact ha.step hs
  · exact .inr (ho.step hs)

/-! ## Safety -/

/-- The root calls `terminated` at most once, and from then on no message of the epoch is
in flight and no node has a local unit left. -/
theorem dijkstra_scholten_safe (h : Reachable root s) :
    s.terminatedCalls ≤ 1 ∧ (0 < s.terminatedCalls →
      (∀ n, s.app n = []) ∧ ∀ n, (s.getDSTerm n).lC = (s.getDSTerm n).lD ∧ s.units n = 0) := by
  rcases h.alive_or_over with ha | ho
  · rw [ha.calls]
    exact ⟨Nat.zero_le 1, fun hpos => absurd hpos (lt_irrefl 0)⟩
  · exact ⟨ho.calls.le, fun _ => ⟨ho.app, fun n => ⟨(ho.vacant n).2, ho.units n⟩⟩⟩

/-- The system after the root has created the epoch. -/
def start (root : N) : DSSys N where
  term := fun n => if n = root then some ((make true root).msgSent root 1) else none
  app := fun _ => []
  acks := fun _ => []
  units := fun _ => 0
  finished := false
  cleanups := fun _ => 0
  erasures := fun _ => 0
  terminatedCalls := 0

/-- The root sends a message and finishes; the message is received and run, and its
acknowledgement makes the root terminate. -/
theorem dijkstra_scholten_safe_pair :
    ∃ s : DSSys (Fin 2), Reachable 0 s ∧ 0 < s.terminatedCalls ∧ s.terminatedCalls ≤ 1 ∧
      (∀ n, s.app n = []) ∧ ∀ n, (s.getDSTerm n).lC = (s.getDSTerm n).lD ∧ s.units n = 0 := by
  have hinit : Init 0 (start (0 : Fin 2)) :=
    ⟨fun _ => rfl, fun _ => rfl, fun _ => rfl, fun _ => rfl, rfl, fun _ => rfl, fun _ => rfl, rfl⟩
  obtain ⟨s, hs, hpos⟩ := Reach.of_run (step (0 : Fin 2))
    [.send 0 1 1, .finishedEpoch, .receive 0 1 1, .run 1, .gotAck 0 1, .disengageCleanup 1]
    (0 < ·.terminatedCalls) hinit (by decide +kernel)
  exact ⟨s, hs, hpos, (dijkstra_scholten_safe hs).1, (dijkstra_scholten_safe hs).2 hpos⟩

end DSSys
end VtRuntime.Termination
