import VtRuntime.Group.CollectivePhase
import Mathlib.Order.Lattice.Nat

/-!
# The tree of a collective group

Every run of the construction ends.  At the end all nodes know the same root, which is in the group.
The children that the nodes have taken form a tree of all nodes of the group below this root.

The sizes that are reported add up to the number of nodes of the group that have reported
themselves, if all nodes are in the group, and to less otherwise.  This is how the root finds out
that the group is the default one.
-/

namespace VtRuntime.Group

open Lib Network List Nat Fintype CollGroup
open Finset hiding card_le_one_iff map_cons sum_cons

universe u

namespace CollGroup

variable {N : Type u} [Fintype N] [DecidableEq N] {G : CollGroup N} {x x' : CollSys N} {n src : N}
  {msg : CollMsg N} {l l' : InfoColl N} {out : List (N × CollMsg N)} {fin : Bool}

/-! ## Sizes -/

/-- The size of the part of the group that some messages report. -/
def sizes (ms : List (GroupCollectiveMsg N)) : ℕ :=
  ((ms.filter (·.isInGroup)).map (·.subtreeSize)).sum

/-- The size that a message from below reports. -/
def sizeW : N → N × CollMsg N → ℕ
  | _, (_, .upTree m) => if m.isInGroup then m.subtreeSize else 0
  | _, _ => 0

/-- The sizes that a node has heard and not yet reported. -/
def sizeF (G : CollGroup N) (n : N) (l : InfoColl N) : ℕ :=
  if n ≠ G.tree.root ∧ l.reported then 0 else sizes l.msgs

/-- The nodes of the group that have reported themselves. -/
def doneF (G : CollGroup N) (n : N) (l : InfoColl N) : ℕ :=
  if n ≠ G.tree.root ∧ G.isInGroup n ∧ l.reported then 1 else 0

section

omit [Fintype N] [DecidableEq N]

theorem sizes_append (ms : List (GroupCollectiveMsg N)) (m : GroupCollectiveMsg N) :
    sizes (ms ++ [m]) = sizes ms + if m.isInGroup then m.subtreeSize else 0 := by
  by_cases hm : m.isInGroup <;> simp [sizes, hm]

variable {ms up span down : List (GroupCollectiveMsg N)} {target : N} {own : GroupCollectiveMsg N}

theorem Report.sum_size {p : N} (h : G.Report n ms own up span down target) :
    (up.map fun m => sizeW p (n, .upTree m)).sum = (up.map (·.subtreeSize)).sum := by
  congr 1
  refine map_congr_left ?_
  intro m hm
  have hin : m.isInGroup = true := (mem_filter.mp (h.perm.subset (by simp [hm]))).2
  simp [sizeW, hin]

theorem Report.sum_size_le (h : G.Report n ms own up span down target) :
    (up.map (·.subtreeSize)).sum ≤ sizes ms := by
  rw [sizes, ← (h.perm.map (·.subtreeSize)).sum_eq]
  simp only [map_append, List.sum_append]
  omega

end

/-- The handler reports what it has heard and itself; a node that is not in the group may report
less. -/
theorem Does.size (h : G.Does n l src msg l' out fin) (he : G.Expects n l msg) :
    outWeight sizeW n out + G.sizeF n l' + G.doneF n l ≤
        G.doneF n l' + (sizeW n (src, msg) + G.sizeF n l) ∧
      (G.isInGroup n = true → outWeight sizeW n out + G.sizeF n l' + G.doneF n l =
        G.doneF n l' + (sizeW n (src, msg) + G.sizeF n l)) := by
  -- a message from below finds the node before its report
  have hopen : ∀ m, msg = .upTree m → G.doneF n l = 0 ∧
      sizeW n (src, msg) + G.sizeF n l = sizes (l.msgs ++ [m]) := by
    rintro m rfl
    have hrep := he.reported m rfl
    refine ⟨by simp [doneF, hrep], ?_⟩
    rw [sizes_append]
    simp only [sizeW, sizeF, hrep, Bool.false_eq_true, and_false, if_false]
    omega
  cases h with
  | singular hcard =>
    have hroot : n = G.tree.root := card_le_one_iff.mp hcard.le _ _
    rw [he.fresh rfl]
    simp [sizeW, sizeF, doneF, sizes, hroot]
  | leaf hcard hnil =>
    have hn := ne_root_of_leaf hcard hnil
    rw [he.fresh rfl]
    cases hg : G.isInGroup n <;> simp [sizeW, sizeF, doneF, sizes, hn, hg]
  | inner =>
    rw [he.fresh rfl]
    simp [sizeW, sizeF, doneF, sizes]
  | arrive m =>
    obtain ⟨hdone, hsize⟩ := hopen m rfl
    have hrep := he.reported m rfl
    rw [hdone, hsize]
    simp [sizeF, doneF, CollGroup.arrive, hrep]
  | report m own up span down target subtree hready hn hr =>
    obtain ⟨hdone, hsize⟩ := hopen m rfl
    have hdown : (down.map fun m => sizeW target (n, .downTree m)).sum = 0 := by
      simp [sizeW]
    have hle := hr.sum_size_le
    rw [hsize, hdone, outWeight_reportOut, hr.sum_size, hdown]
    simp only [sizeW, hr.isInGroup, sizeF, doneF, reportInfo, hn, ne_eq,
      not_false_eq_true, and_self, if_true, true_and, and_true]
    refine ⟨?_, ?_⟩
    · by_cases hg : G.isInGroup n
      · have heq := hr.subtreeSize hg
        simp only [hg, if_true]
        unfold sizes at *
        omega
      · simp only [hg, Bool.false_eq_true, if_false]
        omega
    · intro hg
      have heq := hr.subtreeSize hg
      simp only [hg, if_true]
      unfold sizes at *
      omega
  | rootIn m _ _ hn | rootEmpty m _ hn | rootOut m _ _ _ _ _ hn =>
    obtain ⟨hdone, hsize⟩ := hopen m rfl
    rw [hdone, hsize]
    simp [sizeF, doneF, sizeW, reportInfo, CollGroup.arrive, hn, outWeight_map]
  | _ => simp [sizeF, doneF, sizeW, add_comm]

/-- The sizes that are reported are at most the number of nodes of the group that have reported
themselves, and just that number if all nodes are in the group. -/
theorem Reaches.size (h : G.Reaches x) :
    x.total sizeW G.sizeF ≤ x.total (fun _ _ => 0) G.doneF ∧
      ((∀ n, G.isInGroup n = true) → x.total sizeW G.sizeF = x.total (fun _ _ => 0) G.doneF) := by
  have hignores : Ignores sizeW G.sizeF := ⟨fun _ _ _ _ => rfl, fun _ _ _ => rfl⟩
  have hignores' : Ignores (fun _ _ => 0) G.doneF := ⟨fun _ _ _ _ => rfl, fun _ _ _ => rfl⟩
  refine Reaches.invariant ?_ ?_ h
  · simp [start_total, sizeW, sizeF, doneF, sizes]
  · rintro x x' n src msg l out fin hx ⟨hle, heq⟩ hh
    obtain ⟨hloc, hloc'⟩ := hh.does.size (hx.expects hx.counts hh)
    have htotal := hh.delivers.total sizeW G.sizeF
    have htotal' := hh.delivers.total (fun _ _ => 0) G.doneF
    rw [hignores.closing] at htotal
    rw [hignores'.closing, outWeight_zero] at htotal'
    refine ⟨by omega, ?_⟩
    intro hall
    have h₁ := heq hall
    have h₂ := hloc' (hall n)
    omega

theorem Does.isDefault (h : G.Does n l src msg l' out fin) (he : G.Expects n l msg)
    (hn : n = G.tree.root) (ha : G.AvoidsRoot n msg) (hu : l.reported = false → Unknown l)
    (hl : l.reported = true → (l.isDefaultGroup = true ↔
      G.isInGroup n = true ∧ sizes l.msgs + 1 = card N)) :
    l'.reported = true → (l'.isDefaultGroup = true ↔
      G.isInGroup n = true ∧ sizes l'.msgs + 1 = card N) := by
  cases h with
  | singular hcard =>
    rw [he.fresh rfl]
    simp [sizes, hcard]
  | leaf hcard hnil => exact absurd hn (ne_root_of_leaf hcard hnil)
  | report _ _ _ _ _ _ _ _ hne => exact absurd hn hne
  | inner =>
    rw [he.fresh rfl]
    exact fun h => Bool.noConfusion h
  | arrive m =>
    intro hrep
    have hnot := he.reported m rfl
    simp [CollGroup.arrive, hnot] at hrep
  | rootIn m subtree _ _ hg hs =>
    have hdef := (hu (he.reported m rfl)).2.1
    subst hs
    simp [hdef, hg, reportInfo, CollGroup.arrive, sizes]
  | rootEmpty m _ _ hg | rootOut m _ _ _ _ _ _ hg =>
    have hdef := (hu (he.reported m rfl)).2.1
    simp [hdef, hg, reportInfo, CollGroup.arrive]
  | newRoot | told => exact absurd hn ha
  | _ => exact hl

theorem Reaches.isDefault (h : G.Reaches x) : (x.node G.tree.root).reported = true →
    ((x.node G.tree.root).isDefaultGroup = true ↔ G.isInGroup G.tree.root = true ∧
      sizes (x.node G.tree.root).msgs + 1 = card N) := by
  refine Reaches.root (P := fun l => l.reported = true → (l.isDefaultGroup = true ↔
    G.isInGroup G.tree.root = true ∧ sizes l.msgs + 1 = card N)) (fun _ _ => rfl)
    (fun h => Bool.noConfusion h) ?_ h
  intro x x' n src msg l out fin hx hh hn hold
  subst hn
  exact hh.does.isDefault (hx.expects hx.counts hh) rfl (hx.avoidsRoot _ _ hh.delivers.mem)
    hx.unknown hold

/-! ## The result -/

/-- The construction has given the group a tree with root `r`. -/
structure Built (G : CollGroup N) (x : CollSys N) (r : N) : Prop where
  isInGroup : G.isInGroup r = true
  /-- All nodes agree on the root. -/
  knownRootNode : ∀ n, (x.node n).knownRootNode = some r
  /-- A node of the group is a child once, unless it is the root; no other node is a child. -/
  count : ∀ c, ∑ n, (x.node n).spanChildren.count c =
    if G.isInGroup c = true ∧ c ≠ r then 1 else 0
  /-- Only nodes of the group have children. -/
  spanChildren : ∀ n, G.isInGroup n = false → (x.node n).spanChildren = []
  /-- From a node of the group the parents lead to the root. -/
  reaches : ∀ c, G.isInGroup c = true →
    Relation.ReflTransGen (fun c p => c ∈ (x.node p).spanChildren) c r
  isDefaultGroup : (x.node r).isDefaultGroup = true ↔ ∀ n, G.isInGroup n = true

section Quiet

variable (h : G.Reaches x) (hset : ∀ n, (x.node n).isSetup = true) (hquiet : ∀ n, x.inbox n = [])
include h hset hquiet

theorem isDefault_of_quiet : (x.node G.tree.root).isDefaultGroup = true ↔
    ∀ n, G.isInGroup n = true := by
  have hrep := h.counts.reported_of_quiet hset hquiet
  have hsize : x.total sizeW G.sizeF = sizes (x.node G.tree.root).msgs := by
    rw [total_eq, flight_of_quiet hquiet, zero_add, Finset.sum_eq_single G.tree.root]
    · simp [sizeF]
    · intro n _ hn
      simp [sizeF, hn, hrep n]
    · exact fun hn => absurd (mem_univ _) hn
  have hdone : x.total (fun _ _ => 0) G.doneF =
      (univ.filter fun n => n ≠ G.tree.root ∧ G.isInGroup n = true).card := by
    rw [total_eq, flight_zero, zero_add, card_filter]
    refine sum_congr rfl ?_
    intro n _
    simp [doneF, hrep n]
  obtain ⟨hle, heq⟩ := h.size
  rw [hsize, hdone] at hle heq
  rw [h.isDefault (hrep _)]
  -- the nodes but the root
  have herase : (univ.erase G.tree.root).card + 1 = card N :=
    card_erase_add_one (mem_univ _)
  have hsub : (univ.filter fun n => n ≠ G.tree.root ∧ G.isInGroup n = true) ⊆
      univ.erase G.tree.root := by
    intro n hn
    exact mem_erase.mpr ⟨(mem_filter.mp hn).2.1, mem_univ n⟩
  constructor
  · rintro ⟨hroot, hcard⟩ n
    have hall := eq_of_subset_of_card_le hsub (by omega)
    by_cases hn : n = G.tree.root
    · exact hn ▸ hroot
    · have hmem : n ∈ univ.erase G.tree.root := mem_erase.mpr ⟨hn, mem_univ n⟩
      rw [← hall] at hmem
      exact (mem_filter.mp hmem).2.2
  · intro hall
    refine ⟨hall _, ?_⟩
    rw [heq hall, ← herase]
    congr 2
    ext n
    simp [hall]

/-- At the end a node of the group is a child once, or it is the root. -/
theorem count_of_quiet (c : N) : ∑ n, (x.node n).spanChildren.count c +
    (if (x.node G.tree.root).knownRootNode = some c then 1 else 0) =
      if G.isInGroup c = true then 1 else 0 := by
  have hrep := h.counts.reported_of_quiet hset hquiet
  have htoken := h.token c
  have hnode : ∀ n, G.tokenF c n (x.node n) = (x.node n).spanChildren.count c +
      if n = G.tree.root then
        (if (x.node G.tree.root).knownRootNode = some c then 1 else 0) else 0 := by
    intro n
    by_cases hn : n = G.tree.root
    · subst hn
      simp [tokenF, hrep G.tree.root]
    · simp [tokenF, hrep n, hn]
  rw [total_eq, flight_of_quiet hquiet, zero_add, sum_congr rfl fun n _ => hnode n,
    sum_add_distrib, Finset.sum_ite_eq' univ G.tree.root,
    if_pos (mem_univ _)] at htoken
  rw [htoken]
  simp [hrep c]

/-- At the end a node of the group that is not the root has a parent in the group. -/
theorem exists_parent_of_quiet {c : N} (hc : G.isInGroup c = true)
    (hroot : (x.node G.tree.root).knownRootNode ≠ some c) :
    ∃ p, c ∈ (x.node p).spanChildren ∧ G.isInGroup p = true := by
  have hcount := count_of_quiet h hset hquiet c
  rw [if_neg hroot, if_pos hc, add_zero] at hcount
  obtain ⟨p, -, hp⟩ := exists_ne_zero_of_sum_ne_zero (hcount ▸ one_ne_zero)
  have hmem := count_pos_iff.mp (pos_of_ne_zero hp)
  exact ⟨p, hmem, h.parent_isInGroup (.inl hmem)⟩

theorem exists_root_of_quiet (hmem : ∃ n, G.isInGroup n = true) :
    ∃ r, (x.node G.tree.root).knownRootNode = some r := by
  cases hroot : (x.node G.tree.root).knownRootNode with
  | some r => exact ⟨r, rfl⟩
  | none =>
    -- otherwise every node of the group has a parent in the group
    obtain ⟨n, hn⟩ := hmem
    refine absurd hn (h.acyclic.induction (P := fun n => ¬ G.isInGroup n = true) ?_ n)
    intro c ih hc
    obtain ⟨p, hp, hpin⟩ := exists_parent_of_quiet h hset hquiet hc
      (hroot ▸ (Option.some_ne_none c).symm)
    exact ih p (.inl hp) hpin

theorem built_of_quiet (hmem : ∃ n, G.isInGroup n = true) : ∃ r, G.Built x r := by
  obtain ⟨r, hr⟩ := exists_root_of_quiet h hset hquiet hmem
  have hknows := fun n => h.agrees.knows n (phase_of_quiet h hquiet hset n)
  have hrin : G.isInGroup r = true := by
    have hcount := count_of_quiet h hset hquiet r
    rw [if_pos hr] at hcount
    by_contra hn
    rw [if_neg hn] at hcount
    omega
  refine ⟨r, hrin, fun n => (hknows n).2.1.trans hr, ?_, ?_, ?_, ?_⟩
  · intro c
    have hcount := count_of_quiet h hset hquiet c
    rw [hr] at hcount
    by_cases hc : c = r
    · subst hc
      simp [hrin] at hcount ⊢
      exact hcount
    · simpa [hc, Ne.symm hc] using hcount
  · intro n hn
    refine eq_nil_iff_forall_not_mem.mpr ?_
    intro c hc
    rw [h.parent_isInGroup (.inl hc)] at hn
    exact Bool.noConfusion hn
  · refine h.acyclic.induction ?_
    intro c ih hc
    by_cases hcr : c = r
    · exact hcr ▸ .refl
    · obtain ⟨p, hp, hpin⟩ := exists_parent_of_quiet h hset hquiet hc
        (hr ▸ fun heq => hcr (Option.some.inj heq).symm)
      exact .head hp (ih p (.inl hp) hpin)
  · rw [(hknows r).2.2]
    exact isDefault_of_quiet h hset hquiet

end Quiet

/-! ## Every run ends -/

/-- The size of a tree with at most so many children at a node, below `n`. -/
def fan (G : CollGroup N) (n : N) : ℕ :=
  (card N + 1) ^ (univ.sup G.tree.depth - G.tree.depth n)

/-- No node has more below it. -/
def fanMax (G : CollGroup N) : ℕ := (card N + 1) ^ univ.sup G.tree.depth

omit [DecidableEq N] in
theorem fan_le (n : N) : G.fan n ≤ G.fanMax :=
  Nat.pow_le_pow_right (Nat.succ_pos _) (Nat.sub_le _ _)

omit [DecidableEq N] in
theorem sum_fan_lt (n : N) : ((G.getChildren n).map G.fan).sum < G.fan n := by
  have hpos : 0 < G.fan n := Nat.pow_pos (Nat.succ_pos _)
  by_cases hnil : G.getChildren n = []
  · simpa [hnil] using hpos
  · have hdepth : ∀ c ∈ G.getChildren n, G.tree.depth n < G.tree.depth c := by
      intro c hc
      obtain ⟨hroot, rfl⟩ := G.mem_getChildren.mp hc
      exact G.tree.depth_parent c hroot
    have hsup := fun c => le_sup (f := G.tree.depth) (mem_univ c)
    obtain ⟨c₀, hc₀⟩ := exists_mem_of_ne_nil _ hnil
    obtain ⟨k, hk⟩ : ∃ k, univ.sup G.tree.depth - G.tree.depth n = k + 1 := by
      have h₁ := hdepth c₀ hc₀
      have h₂ := hsup c₀
      exact ⟨univ.sup G.tree.depth - G.tree.depth n - 1, by omega⟩
    have hle : ∀ c ∈ G.getChildren n, G.fan c ≤ (card N + 1) ^ k := by
      intro c hc
      refine Nat.pow_le_pow_right (Nat.succ_pos _) ?_
      have h₁ := hdepth c hc
      omega
    have hlen : (G.getChildren n).length ≤ card N := (G.nodup_getChildren n).length_le_card
    calc ((G.getChildren n).map G.fan).sum
        ≤ ((G.getChildren n).map G.fan).length * (card N + 1) ^ k := by
          refine sum_le_card_nsmul _ _ ?_
          intro j hj
          obtain ⟨c, hc, rfl⟩ := mem_map.mp hj
          exact hle c hc
      _ ≤ card N * (card N + 1) ^ k := by
          rw [length_map]
          exact mul_le_mul_right _ hlen
      _ < (card N + 1) * (card N + 1) ^ k :=
          Nat.mul_lt_mul_of_pos_right (Nat.lt_succ_self _) (Nat.pow_pos (Nat.succ_pos _))
      _ = G.fan n := by
          rw [fan, hk, pow_succ, mul_comm]

/-- More than a message down can cause, wherever it goes. -/
def stride (G : CollGroup N) : ℕ := (G.fanMax + 1) * (card N + 1) + 1

/-- What a message can still cause; `lev` is the number of nodes above a node in the tree as far as
it is built. -/
def weight (G : CollGroup N) (lev : N → ℕ) : N → N × CollMsg N → ℕ
  | _, (_, .setupCollective) => 1
  | p, (_, .upTree _) => G.stride * (G.tree.depth p + 1) + 1
  | _, (_, .newRoot _) => 1
  | y, (_, .downTree _) => (G.fanMax + 1) * (card N + 1 - lev y)
  | _, (_, .downTreeFinished) => G.fanMax
  | c, (_, .finalizeTree _ _) => G.fan c

/-- What a node can still cause by its report. -/
def toReport (G : CollGroup N) (n : N) (l : InfoColl N) : ℕ :=
  if l.reported then 0 else G.stride * (G.tree.depth n + 1) * (1 + l.msgs.length)

section

omit [DecidableEq N]

variable (lev : N → ℕ)

/-- `finalize` causes less than a finalize message. -/
theorem outWeight_closing_le (n : N) (fin : Bool) (l : InfoColl N) (out : List (N × CollMsg N)) :
    outWeight (G.weight lev) n (G.closing n fin (l, out)).2 + (if fin then 1 else 0) ≤
      outWeight (G.weight lev) n out + if fin then G.fan n else 0 := by
  have hfan := sum_fan_lt (G := G) n
  rw [closing_eq]
  cases fin with
  | false => simp
  | true =>
    split
    · rw [outWeight_append, outWeight_map]
      have hsum : ((G.getChildren n).map fun c => G.weight lev c
          (n, .finalizeTree l.knownRootNode l.isDefaultGroup)).sum =
            ((G.getChildren n).map G.fan).sum := rfl
      rw [hsum, if_pos rfl, if_pos rfl]
      omega
    · simp only [if_true]
      omega

theorem toReport_closing (n : N) (fin : Bool) (l : InfoColl N) (out : List (N × CollMsg N)) :
    G.toReport n (G.closing n fin (l, out)).1 = G.toReport n l := by
  rw [closing_eq]
  split <;> rfl

theorem sum_down_le (y : N) (down : List (GroupCollectiveMsg N)) :
    (down.map fun m => G.weight lev y (n, .downTree m)).sum + down.length ≤
      G.stride * down.length := by
  have hle : G.weight lev y (n, .downTree ⟨true, 0, y, 0, 0⟩) + 1 ≤ G.stride := by
    simp only [weight, stride]
    exact Nat.add_le_add_right (Nat.mul_le_mul_left _ (Nat.sub_le _ _)) 1
  induction down with
  | nil => simp
  | cons m down ih =>
    rw [map_cons, sum_cons, length_cons, mul_succ]
    simp only [weight] at hle ih ⊢
    omega

theorem sum_up_le (hn : n ≠ G.tree.root) (up : List (GroupCollectiveMsg N)) :
    (up.map fun m => G.weight lev (G.tree.parent n) (n, .upTree m)).sum ≤
      G.stride * (G.tree.depth n + 1) * up.length := by
  have hdepth := G.tree.depth_parent n hn
  have hle : G.stride * (G.tree.depth (G.tree.parent n) + 1) + 1 ≤
      G.stride * (G.tree.depth n + 1) := by
    have hmul : G.stride * (G.tree.depth (G.tree.parent n) + 1) ≤ G.stride * G.tree.depth n :=
      mul_le_mul_left _ hdepth
    have hpos : 1 ≤ G.stride := le_add_left 1 _
    rw [mul_succ G.stride (G.tree.depth n)]
    omega
  induction up with
  | nil => simp
  | cons m up ih =>
    rw [map_cons, sum_cons, length_cons, mul_succ]
    simp only [weight] at ih ⊢
    omega

theorem fanMax_lt_stride : G.fanMax < G.stride := by
  have hle : (G.fanMax + 1) * 1 ≤ (G.fanMax + 1) * (card N + 1) :=
    mul_le_mul_left _ (le_add_left 1 _)
  unfold stride
  omega

/-- A message from below finds the node before its report. -/
theorem Expects.weight {m : GroupCollectiveMsg N} (he : G.Expects n l (.upTree m)) (src : N) :
    G.weight lev n (src, .upTree m) + G.toReport n l =
      G.stride * (G.tree.depth n + 1) * (1 + (l.msgs ++ [m]).length) + 1 := by
  simp only [CollGroup.weight, toReport, he.reported m rfl, Bool.false_eq_true, if_false,
    length_append, length_singleton, Nat.mul_add, Nat.mul_one]
  omega

theorem stride_le (n : N) : G.stride ≤ G.stride * (G.tree.depth n + 1) :=
  Nat.le_mul_of_pos_right _ (Nat.succ_pos _)

/-- The messages of a report of a node below the root. -/
theorem Report.weight_le {ms up span down : List (GroupCollectiveMsg N)} {target : N}
    {own : GroupCollectiveMsg N} (h : G.Report n ms own up span down target)
    (hn : n ≠ G.tree.root) :
    outWeight (G.weight lev) n (reportOut (G.tree.parent n) own up down target) ≤
      G.stride * (G.tree.depth n + 1) * (1 + ms.length) := by
  have hup := sum_up_le lev hn (own :: up)
  have hdown := sum_down_le (G := G) (n := n) lev target down
  have hmul : G.stride * down.length ≤ G.stride * (G.tree.depth n + 1) * down.length :=
    mul_le_mul_right _ (stride_le n)
  have hlen : up.length + down.length ≤ ms.length := by
    have hperm := h.perm.length_eq
    have hfilter := length_filter_le (·.isInGroup) ms
    simp only [length_append] at hperm
    omega
  have hmul' : G.stride * (G.tree.depth n + 1) * (1 + up.length + down.length) ≤
      G.stride * (G.tree.depth n + 1) * (1 + ms.length) :=
    Nat.mul_le_mul_left _ (by omega)
  rw [outWeight_reportOut]
  rw [map_cons, sum_cons, length_cons] at hup
  generalize G.stride * (G.tree.depth n + 1) = b at hup hmul hmul' ⊢
  simp only [Nat.mul_add, Nat.mul_one] at hup hmul' ⊢
  omega

/-- The messages of a root outside the group. -/
theorem weight_rest_lt {first : GroupCollectiveMsg N} {ms rest : List (GroupCollectiveMsg N)}
    (own : GroupCollectiveMsg N) (hperm : (first :: rest).Perm (ms.filter (·.isInGroup))) :
    outWeight (G.weight lev) n ((first.child, .newRoot own) ::
        rest.map fun m => (first.child, .downTree m)) + G.stride ≤
      G.stride * (G.tree.depth n + 1) * (1 + ms.length) + 1 := by
  have hdown := sum_down_le (G := G) (n := n) lev first.child rest
  have hlen : rest.length + 1 ≤ ms.length := by
    rw [← length_cons, hperm.length_eq]
    exact length_filter_le _ _
  have hmul : G.stride * (rest.length + 2) ≤ G.stride * (G.tree.depth n + 1) * (1 + ms.length) :=
    Nat.mul_le_mul (stride_le n) (by omega)
  rw [outWeight_cons, outWeight_map]
  rw [Nat.mul_add] at hmul
  simp only [CollGroup.weight] at hdown ⊢
  omega

end

/-- What a handler does causes less than the message; `finalize` included. -/
theorem Does.decreases (h : G.Does n l src msg l' out fin) (he : G.Expects n l msg) {lev : N → ℕ}
    (hle : ∀ n, lev n ≤ card N) (hspan : ∀ c ∈ l.spanChildren, lev n < lev c) :
    outWeight (G.weight lev) n out + (if fin then G.fan n else 0) + G.toReport n l' <
      G.weight lev n (src, msg) + G.toReport n l + if fin then 1 else 0 := by
  have hfan := fan_le (G := G) n
  have hmax := fanMax_lt_stride (G := G)
  cases h with
  | singular =>
    simp [weight, toReport]
  | leaf hcard hnil =>
    have hn := ne_root_of_leaf hcard hnil
    have hup := sum_up_le lev hn [⟨G.isInGroup n, if G.isInGroup n then 1 else 0, n, 0, 0⟩]
    rw [he.fresh rfl]
    simp [weight, toReport] at hup ⊢
    omega
  | inner =>
    rw [he.fresh rfl]
    simp [weight, toReport]
  | arrive m =>
    rw [he.weight]
    simp [toReport, CollGroup.arrive, he.reported m rfl]
  | report m own up span down target subtree hready hn hr =>
    have hout := hr.weight_le lev hn
    rw [he.weight]
    simp only [toReport, reportInfo, if_true, Bool.false_eq_true, if_false]
    omega
  | rootIn m | rootEmpty m =>
    have hmul : G.stride * 1 ≤ G.stride * (G.tree.depth n + 1) * (1 + (l.msgs ++ [m]).length) :=
      Nat.mul_le_mul (stride_le n) (le_add_right 1 _)
    rw [he.weight]
    simp only [outWeight_nil, toReport, reportInfo, if_true]
    omega
  | rootOut m first own rest _ _ _ _ hperm =>
    have hout := weight_rest_lt (G := G) (n := n) lev own hperm
    rw [he.weight]
    simp only [toReport, reportInfo, if_true]
    omega
  | newRoot => simp [weight, toReport]
  | keep m =>
    have hlev := hle n
    have hmul : (G.fanMax + 1) * 1 ≤ (G.fanMax + 1) * (card N + 1 - lev n) :=
      mul_le_mul_left _ (by omega)
    simp only [outWeight_cons, outWeight_nil, weight, toReport, Bool.false_eq_true, if_false]
    omega
  | pass m c hlen hc =>
    have hlev := hspan c hc
    have hlev' := hle c
    have hmul : (G.fanMax + 1) * (card N + 1 - lev c + 1) ≤
        (G.fanMax + 1) * (card N + 1 - lev n) :=
      mul_le_mul_left _ (by omega)
    rw [mul_succ] at hmul
    simp only [outWeight_cons, outWeight_nil, weight, toReport, Bool.false_eq_true, if_false]
    omega
  | answered =>
    simp [weight, toReport]
    omega
  | told =>
    simp [weight, toReport]

theorem Does.span_subset (h : G.Does n l src msg l' out fin) :
    ∀ c ∈ l.spanChildren, c ∈ l'.spanChildren := by
  intro c hc
  cases h with
  | report | rootIn | rootEmpty | rootOut | keep => exact mem_append_left _ hc
  | _ => exact hc

theorem Handles.under_mono (hh : G.Handles x x' n src msg l out fin) {a b : N} (h : Under x a b) :
    Relation.TransGen (Under x') a b := by
  have hspan : ∀ c ∈ (x.node n).spanChildren, c ∈ (x'.node n).spanChildren := by
    rw [hh.field (·.spanChildren) fun _ _ => rfl]
    exact hh.does.span_subset
  rcases h with h | ⟨s, m, hm, rfl⟩
  · by_cases hb : b = n
    · subst hb
      exact .single (.inl (hspan a h))
    · exact .single (.inl (by rwa [hh.node_of_ne hb]))
  · rcases hh.delivers.kept b _ hm with hm | ⟨rfl, hm⟩
    · exact .single (.inr ⟨s, m, hm, rfl⟩)
    · -- the message that was handled
      obtain ⟨rfl, rfl⟩ := Prod.mk.inj hm
      have hdoes := hh.does
      generalize hfrom : x.node b = l₀ at hdoes
      cases hdoes with
      | keep =>
        refine .single (.inl ?_)
        rw [hh.field (·.spanChildren) fun _ _ => rfl]
        simp
      | pass _ c _ hc =>
        have hsent := hh.delivers.sent (c, .downTree m) (by simp [closing_eq])
        exact .tail (.single (.inr ⟨b, m, hsent, rfl⟩)) (.inl (hspan c (hfrom ▸ hc)))

/-- The measure of a state. -/
noncomputable def remaining (G : CollGroup N) (x : CollSys N) : ℕ :=
  x.total (G.weight (above (Under x))) G.toReport

theorem Reaches.remaining_lt (hx : G.Reaches x) (hx' : G.Reaches x')
    (hh : G.Handles x x' n src msg l out fin) : G.remaining x' < G.remaining x := by
  have hspan : ∀ c ∈ (x.node n).spanChildren, above (Under x') n < above (Under x') c := by
    intro c hc
    refine hx'.acyclic.above_lt (.inl ?_)
    rw [hh.field (·.spanChildren) fun _ _ => rfl]
    exact hh.does.span_subset c hc
  have hlocal := hh.does.decreases (hx.expects hx.counts hh) (above_le_card (Under x')) hspan
  have hclosing := outWeight_closing_le (G := G) (above (Under x')) n fin l out
  have htotal := hh.delivers.total (G.weight (above (Under x'))) G.toReport
  rw [toReport_closing] at htotal
  -- the weights of the messages in flight have not grown
  have hmono : x.total (G.weight (above (Under x'))) G.toReport ≤ G.remaining x := by
    refine total_le ?_
    rintro y ⟨s, m⟩ -
    cases m with
    | downTree =>
      have hle : above (Under x) y ≤ above (Under x') y := above_mono (fun _ _ => hh.under_mono) y
      exact mul_le_mul_left _ (by omega)
    | _ => exact le_refl _
  unfold remaining at *
  omega

/-- Every run ends, when all nodes are set up and no message is in flight. -/
theorem Reaches.ends (h : G.Reaches x) {P : CollSys N → Prop}
    (hP : ∀ x, G.Reaches x → (∀ n, (x.node n).isSetup = true) → (∀ n, x.inbox n = []) → P x) :
    Ends G.step P x := by
  refine Ends.of_measure G.remaining ?_ ?_ h
  · intro x a x' hx hstep
    have hx' : G.Reaches x' := hx.next trivial hstep
    obtain ⟨src, msg, l, out, fin, -, hh⟩ := step_handles hstep
    exact ⟨hx', hx.remaining_lt hx' hh⟩
  · intro x hx hstuck
    have hquiet := hx.quiet_of_stuck hstuck
    exact hP x hx (fun n => (hquiet n).1) (fun n => (hquiet n).2)

end CollGroup

/-- Every run of the construction of a group that is not empty ends, and at its end the group has a
tree. -/
theorem collective_group_built {N : Type u} [Fintype N] [DecidableEq N] (G : CollGroup N)
    (hmem : ∃ n, G.isInGroup n = true) :
    Ends G.step (fun x => ∃ r, G.Built x r) start := by
  refine CollGroup.Reaches.ends (.start rfl) ?_
  intro x hx hset hquiet
  exact built_of_quiet hx hset hquiet hmem

/-- Three nodes, of which the root of the initial tree is not in the group. -/
theorem collective_group_built_three :
    Ends (ofMembers 2 (· ≠ 0)).step
      (fun x => ∃ r, (ofMembers 2 (· ≠ 0)).Built x r) start :=
  collective_group_built _ ⟨1, rfl⟩

end VtRuntime.Group
