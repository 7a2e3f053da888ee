import VtRuntime.Group.CollectiveStep

/-!
# The reports of the nodes

A node reports itself once, after all its children in the initial tree and after all extra messages
that they announced.  The counters tell the own message of a child from an extra message by the node
that it is about, which for an extra message is further below.
-/

namespace VtRuntime.Group

open Lib Network List Nat Fintype

universe u

namespace CollGroup

variable {N : Type u} [Fintype N] [DecidableEq N] {G : CollGroup N} {x x' : CollSys N} {n src : N}
  {msg : CollMsg N} {l l' : InfoColl N} {out : List (N × CollMsg N)} {fin : Bool}

/-! ## Setup -/

theorem Does.isSetup (h : G.Does n l src msg l' out fin) (hl : l.isSetup ∨ msg = .setupCollective) :
    l'.isSetup = true := by
  cases h with
  | singular | leaf | inner => rfl
  | _ => simpa [CollGroup.arrive, reportInfo] using hl

/-- The calls of `setupCollective` on `p` that are to come. -/
def setupW (p : N) : N → N × CollMsg N → ℕ
  | q, (_, .setupCollective) => if q = p then 1 else 0
  | _, _ => 0

omit [Fintype N] in
theorem setupW_of_ne (p : N) (hmsg : msg ≠ .setupCollective) : setupW p n (src, msg) = 0 := by
  cases msg <;> first | rfl | exact absurd rfl hmsg

theorem Does.setupCollective_notMem (h : G.Does n l src msg l' out fin) (y : N) :
    (y, .setupCollective) ∉ out := by
  cases h <;> simp [reportOut]

theorem Reaches.setup_once (h : G.Reaches x) (p : N) :
    x.flight (setupW p) + (x.node p).isSetup.toNat = 1 := by
  have key : x.total (setupW p) (fun n l => if n = p then l.isSetup.toNat else 0) =
      x.total (fun _ _ => 0) fun n _ => if n = p then 1 else 0 := by
    refine Reaches.account ⟨fun _ _ _ _ => rfl, fun _ _ _ => rfl⟩
      ⟨fun _ _ _ _ => rfl, fun _ _ _ => rfl⟩ ?_ ?_ h
    · simp [start_total, setupW]
    · intro x x' n src msg l out fin _ hx hh
      have hl := hh.does.isSetup hh.isSetup
      have hout : outWeight (setupW p) n out = 0 := by
        refine outWeight_eq_zero ?_
        rintro ⟨y, m⟩ ho
        exact setupW_of_ne p fun hm => hh.does.setupCollective_notMem y (hm ▸ ho)
      rw [hout, outWeight_zero]
      by_cases hn : n = p
      · subst hn
        simp only [if_true, hl, Bool.toNat_true]
        rcases hh.isSetup with hset | rfl
        · have hmsg : msg ≠ .setupCollective := by
            rintro rfl
            have hle := le_flight (w := setupW n) hh.delivers.mem
            rw [total_at, total_at, flight_zero, hset] at hx
            simp only [setupW, if_true, Bool.toNat_true] at hle hx
            omega
          simp [setupW_of_ne n hmsg, hset]
        · have hle := le_flight (w := setupW n) hh.delivers.mem
          rw [total_at, total_at, flight_zero] at hx
          simp only [setupW, if_true] at hle ⊢
          omega
      · have hzero : setupW p n (src, msg) = 0 := by
          cases msg <;> simp [setupW, hn]
        simp [hn, hzero]
  rwa [total_at, total_at, flight_zero, zero_add] at key

/-- A node that is not set up has not done anything. -/
theorem Reaches.unset (h : G.Reaches x) (hn : (x.node n).isSetup = false) : x.node n = {} := by
  have key : ∀ n, (x.node n).isSetup = false → x.node n = {} := by
    refine Reaches.invariant ?_ ?_ h
    · exact fun _ _ => rfl
    · intro x x' n src msg l out fin _ hx hh m hm
      by_cases hmn : m = n
      · subst hmn
        rw [hh.field (·.isSetup) (fun _ _ => rfl), hh.does.isSetup hh.isSetup] at hm
        exact Bool.noConfusion hm
      · rw [hh.node_of_ne hmn] at hm ⊢
        exact hx m hm
  exact key n hn

theorem Reaches.setup_fresh (h : G.Reaches x) (hmem : (src, .setupCollective) ∈ x.inbox n) :
    x.node n = {} := by
  have hle := le_flight (w := setupW n) hmem
  have honce := h.setup_once n
  refine h.unset ?_
  simp only [setupW, if_true] at hle
  cases hset : (x.node n).isSetup with
  | false => rfl
  | true =>
    rw [hset, Bool.toNat_true] at honce
    omega

/-! ## Messages from below -/

theorem ne_root_of_leaf (hcard : card N ≠ 1) (hnil : G.getChildren n = []) : n ≠ G.tree.root := by
  rintro rfl
  have hall : ∀ n, n ≠ G.tree.root → False := by
    refine G.tree.induction ?_
    intro n hn ih
    by_cases hp : G.tree.parent n = G.tree.root
    · have hmem := G.mem_getChildren.mpr ⟨hn, hp⟩
      rw [hnil] at hmem
      exact not_mem_nil hmem
    · exact ih hp
  refine hcard (card_eq_one_iff.mpr ⟨G.tree.root, ?_⟩)
  intro n
  by_contra hn
  exact hall n hn

omit [Fintype N] [DecidableEq N] in
theorem Report.up_subset {ms up span down : List (GroupCollectiveMsg N)} {target : N}
    {own m : GroupCollectiveMsg N} (h : G.Report n ms own up span down target) (hm : m ∈ up) :
    m ∈ ms :=
  mem_of_mem_filter (h.perm.subset (by simp [hm]))

/-- A message from below that `n` sends is about `n` or about a node that is reported to `n`. -/
theorem Does.below (h : G.Does n l src msg l' out fin) (hl : ∀ m ∈ l.msgs, G.tree.Below n m.child)
    (hmsg : ∀ m, msg = .upTree m → G.tree.Below n m.child) {y : N} {m : GroupCollectiveMsg N}
    (hm : (y, .upTree m) ∈ out) : G.tree.Below y m.child := by
  cases h with
  | leaf hcard hc =>
    have hn := ne_root_of_leaf hcard hc
    simp only [mem_singleton, Prod.mk.injEq, CollMsg.upTree.injEq] at hm
    obtain ⟨rfl, rfl⟩ := hm
    exact SpanningTree.below_parent hn
  | report m₀ own up span down target subtree hready hn hr =>
    simp only [reportOut, mem_append, mem_cons, mem_map, Prod.mk.injEq,
      CollMsg.upTree.injEq, reduceCtorEq, and_false, exists_false, or_false] at hm
    rcases hm with ⟨rfl, rfl⟩ | ⟨m', hm', rfl, rfl⟩
    · rw [hr.child]
      exact SpanningTree.below_parent hn
    · exact SpanningTree.Below.up (forall_mem_concat hl (hmsg m₀ rfl) m' (hr.up_subset hm')) hn
  | _ => simp at hm

/-- The messages from below are about nodes below. -/
theorem Reaches.below (h : G.Reaches x) :
    (∀ p src m, (src, .upTree m) ∈ x.inbox p → G.tree.Below p m.child) ∧
      ∀ p, ∀ m ∈ (x.node p).msgs, G.tree.Below p m.child := by
  refine Reaches.invariant ?_ ?_ h
  · simp [start]
  · rintro x x' n src msg l out fin - ⟨hflight, hmsgs⟩ hh
    have hmsg : ∀ m, msg = .upTree m → G.tree.Below n m.child := by
      rintro m rfl
      exact hflight n src m hh.delivers.mem
    constructor
    · intro p src' m hm
      rcases hh.inflight hm with hm | ⟨-, hm⟩ | ⟨-, -, -, -, hm⟩
      · exact hflight p src' m hm
      · exact hh.does.below (hmsgs n) hmsg hm
      · cases hm
    · refine hh.forall_node (P := fun p l => ∀ m ∈ l.msgs, G.tree.Below p m.child)
        (fun _ _ _ => rfl) hmsgs ?_
      have hadd : ∀ m₀, msg = .upTree m₀ → ∀ m ∈ (x.node n).msgs ++ [m₀],
          G.tree.Below n m.child := by
        exact fun m₀ hm₀ => forall_mem_concat (hmsgs n) (hmsg m₀ hm₀)
      cases hh.does with
      | arrive m₀ | report m₀ | rootIn m₀ | rootEmpty m₀ | rootOut m₀ => exact hadd m₀ rfl
      | _ => exact hmsgs n

/-! ## Counters -/

/-- The messages in flight to `p` from its children about themselves. -/
def ownW (G : CollGroup N) (p : N) : N → N × CollMsg N → ℕ
  | q, (_, .upTree m) => if q = p ∧ m.child ∈ G.getChildren p then 1 else 0
  | _, _ => 0

/-- The extra messages that these announce. -/
def announcedW (G : CollGroup N) (p : N) : N → N × CollMsg N → ℕ
  | q, (_, .upTree m) => if q = p ∧ m.child ∈ G.getChildren p then m.extraNodes else 0
  | _, _ => 0

/-- The extra messages in flight to `p`. -/
def extraW (G : CollGroup N) (p : N) : N → N × CollMsg N → ℕ
  | q, (_, .upTree m) => if q = p ∧ m.child ∉ G.getChildren p then 1 else 0
  | _, _ => 0

/-- The counters of a node, before and after its report. -/
structure CountsAt (G : CollGroup N) (n : N) (l : InfoColl N) : Prop where
  wait : l.isSetup = true → card N ≠ 1 → l.collWaitCount = (G.getChildren n).length + 1
  closed : l.reported = true →
    l.arrivedCount = (G.getChildren n).length ∧ l.extraCount = l.extraArrivedCount
  opened : l.isSetup = true → l.reported = false →
    ¬ (l.arrivedCount = (G.getChildren n).length ∧ l.extraCount = l.extraArrivedCount)

/-- The counters of all nodes. -/
structure Counts (G : CollGroup N) (x : CollSys N) : Prop where
  node : ∀ n, G.CountsAt n (x.node n)
  arrived : ∀ p, x.total (G.ownW p) (fun n l => if n = p then l.arrivedCount else 0) =
    x.total (fun _ _ => 0) fun n l => if n ∈ G.getChildren p then l.reported.toNat else 0
  extra : ∀ p, x.total (G.announcedW p) (fun n l => if n = p then l.extraCount else 0) =
    x.total (G.extraW p) fun n l => if n = p then l.extraArrivedCount else 0

namespace Counts

omit [Fintype N] in
theorem card_getChildren (G : CollGroup N) (p : N) :
    (G.getChildren p).toFinset.card = (G.getChildren p).length :=
  toFinset_card_of_nodup (G.nodup_getChildren p)

/-- The reports of the children, on their way or counted. -/
theorem arrived_eq (h : G.Counts x) (p : N) : x.flight (G.ownW p) + (x.node p).arrivedCount =
    ∑ n ∈ (G.getChildren p).toFinset, (x.node n).reported.toNat := by
  have harr := h.arrived p
  rw [total_at, total_eq, flight_zero, zero_add] at harr
  rw [harr]
  exact sum_ite_mem_list fun n => (x.node n).reported.toNat

theorem extra_eq (h : G.Counts x) (p : N) : x.flight (G.announcedW p) + (x.node p).extraCount =
    x.flight (G.extraW p) + (x.node p).extraArrivedCount := by
  have hextra := h.extra p
  rwa [total_at, total_at] at hextra

omit [Fintype N] in
theorem sum_reported_le (x : CollSys N) (p : N) :
    ∑ n ∈ (G.getChildren p).toFinset, (x.node n).reported.toNat ≤ (G.getChildren p).length := by
  rw [← card_getChildren, Finset.card_eq_sum_ones]
  exact Finset.sum_le_sum fun n _ => Bool.toNat_le _

/-- After its report a node gets no message from below. -/
theorem not_reported (h : G.Counts x) {m : GroupCollectiveMsg N}
    (hm : (src, .upTree m) ∈ x.inbox n) : (x.node n).reported = false := by
  by_contra hrep
  rw [Bool.not_eq_false] at hrep
  obtain ⟨harr, hext⟩ := (h.node n).closed hrep
  have hown : x.flight (G.ownW n) = 0 := by
    have hle := sum_reported_le (G := G) x n
    have heq := h.arrived_eq n
    omega
  -- so no extra message is announced, and none is on its way
  have hann : x.flight (G.announcedW n) = 0 := by
    refine flight_eq_zero ?_
    rintro q ⟨s, msg⟩ hd
    cases msg with
    | upTree m' =>
      have hle := le_flight (w := G.ownW n) hd
      rw [hown] at hle
      simp only [ownW] at hle
      simp only [announcedW]
      split at hle
      · omega
      · rename_i hne
        rw [if_neg hne]
    | _ => rfl
  have heq := h.extra_eq n
  have hle := le_flight (w := G.ownW n) hm
  have hle' := le_flight (w := G.extraW n) hm
  simp only [ownW, extraW, true_and] at hle hle'
  split at hle
  · omega
  · rename_i hne
    rw [if_pos hne] at hle'
    omega

end Counts

omit [Fintype N] [DecidableEq N] in
theorem ready_iff {k : ℕ} (h : l.collWaitCount = k + 1) :
    Ready l ↔ l.arrivedCount = k ∧ l.extraCount = l.extraArrivedCount := by
  unfold Ready
  omega

omit [DecidableEq N] in
theorem getChildren_of_card (h : card N = 1) (n : N) : G.getChildren n = [] := by
  refine eq_nil_iff_forall_not_mem.mpr ?_
  intro c hc
  exact (G.mem_getChildren.mp hc).1 (card_le_one_iff.mp h.le _ _)

/-- A message finds a node in order: it is fresh at setup, and it waits for a message from below. -/
structure Expects (G : CollGroup N) (n : N) (l : InfoColl N) (msg : CollMsg N) : Prop where
  isSetup : l.isSetup = true ∨ msg = .setupCollective
  fresh : msg = .setupCollective → l = {}
  reported : ∀ m, msg = .upTree m → l.reported = false
  below : ∀ m, msg = .upTree m → G.tree.Below n m.child
  msgs : ∀ m ∈ l.msgs, G.tree.Below n m.child

omit [DecidableEq N] in
theorem Expects.card_ne (h : G.Expects n l msg) {m : GroupCollectiveMsg N} (hm : msg = .upTree m) :
    card N ≠ 1 := by
  intro hcard
  exact (h.below m hm).ne (card_le_one_iff.mp hcard.le _ _)

omit [Fintype N] [DecidableEq N] in
theorem Expects.below_of_mem {m m' : GroupCollectiveMsg N} (h : G.Expects n l (.upTree m))
    (hm' : m' ∈ l.msgs ++ [m]) : G.tree.Below n m'.child := by
  exact forall_mem_concat h.msgs (h.below m rfl) m' hm'

theorem Does.countsAt (h : G.Does n l src msg l' out fin) (he : G.Expects n l msg)
    (hc : G.CountsAt n l) : G.CountsAt n l' := by
  have hready : ∀ m, msg = .upTree m → (Ready (G.arrive n l m) ↔
      (G.arrive n l m).arrivedCount = (G.getChildren n).length ∧
        (G.arrive n l m).extraCount = (G.arrive n l m).extraArrivedCount) := by
    intro m hm
    refine ready_iff (hc.wait ?_ (he.card_ne hm))
    exact he.isSetup.resolve_right fun h => by simp [hm] at h
  cases h with
  | singular hcard =>
    have hnil := getChildren_of_card (G := G) hcard n
    rw [he.fresh rfl]
    exact ⟨fun _ h => absurd hcard h, fun _ => ⟨by simp [hnil], rfl⟩, by simp⟩
  | leaf hcard hnil =>
    rw [he.fresh rfl]
    exact ⟨fun _ _ => by simp [hnil], fun _ => ⟨by simp [hnil], rfl⟩, by simp⟩
  | inner hcard hne =>
    rw [he.fresh rfl]
    refine ⟨fun _ _ => rfl, by simp, ?_⟩
    rintro - - ⟨hlen, -⟩
    exact hne (length_eq_zero_iff.mp hlen.symm)
  | arrive m hnot =>
    refine ⟨hc.wait, ?_, ?_⟩
    · intro hrep
      have := he.reported m rfl
      simp [CollGroup.arrive, this] at hrep
    · intro _ _
      exact fun h => hnot ((hready m rfl).mpr h)
  | report m _ _ _ _ _ _ hr | rootIn m _ hr | rootEmpty m hr | rootOut m _ _ _ _ hr =>
    exact ⟨hc.wait, fun _ => (hready m rfl).mp hr, fun _ h => Bool.noConfusion h⟩
  | _ => exact ⟨hc.wait, hc.closed, hc.opened⟩

omit [Fintype N] [DecidableEq N] in
/-- An extra message is not about a child of the node it goes to. -/
theorem Report.up_notMem {m own : GroupCollectiveMsg N} {up span down : List (GroupCollectiveMsg N)}
    {target : N} (he : G.Expects n l (.upTree m)) (hn : n ≠ G.tree.root)
    (hr : G.Report n (l.msgs ++ [m]) own up span down target) {m' : GroupCollectiveMsg N}
    (hm' : m' ∈ up) : m'.child ∉ G.getChildren (G.tree.parent n) := by
  intro hmem
  exact (he.below_of_mem (hr.up_subset hm')).parent_ne hn (G.mem_getChildren.mp hmem).2

omit [Fintype N] [DecidableEq N] in
theorem root_notMem (p : N) : G.tree.root ∉ G.getChildren p :=
  fun h => (G.mem_getChildren.mp h).1 rfl

omit [Fintype N] in
theorem arrive_arrived (G : CollGroup N) (n src : N) (l : InfoColl N) (m : GroupCollectiveMsg N)
    (p : N) :
    (if n = p then (G.arrive n l m).arrivedCount else 0) =
      G.ownW p n (src, .upTree m) + if n = p then l.arrivedCount else 0 := by
  by_cases hn : n = p
  · subst hn
    by_cases hm : m.child ∈ G.getChildren n <;> simp [arrive, ownW, hm, add_comm]
  · simp [ownW, hn]

theorem Does.arrived (h : G.Does n l src msg l' out fin) (he : G.Expects n l msg) (p : N) :
    outWeight (G.ownW p) n out + (if n = p then l'.arrivedCount else 0) +
        (if n ∈ G.getChildren p then l.reported.toNat else 0) =
      (if n ∈ G.getChildren p then l'.reported.toNat else 0) +
        (G.ownW p n (src, msg) + if n = p then l.arrivedCount else 0) := by
  cases h with
  | singular hcard =>
    have hnil := getChildren_of_card (G := G) hcard p
    simp [hnil, ownW]
  | leaf hcard hnil =>
    rw [he.fresh rfl]
    by_cases hmem : n ∈ G.getChildren p
    · simp [ownW, hmem, (G.mem_getChildren.mp hmem).2]
    · simp [ownW, hmem]
  | arrive m hnot =>
    have harr := G.arrive_arrived n src l m p
    simp only [outWeight_nil, harr]
    simp only [CollGroup.arrive]
    omega
  | report m own up span down target subtree hready hn hr =>
    have harr := G.arrive_arrived n src l m p
    have hup : (up.map fun m => G.ownW p (G.tree.parent n) (n, .upTree m)).sum = 0 := by
      refine sum_eq_zero ?_
      intro k hk
      obtain ⟨m', hm', rfl⟩ := mem_map.mp hk
      simp only [ownW]
      rw [if_neg]
      rintro ⟨rfl, hmem⟩
      exact hr.up_notMem he hn hm' hmem
    have hdown : (down.map fun m => G.ownW p target (n, .downTree m)).sum = 0 := by
      simp [ownW]
    have hown : G.ownW p (G.tree.parent n) (n, .upTree own) =
        if n ∈ G.getChildren p then 1 else 0 := by
      simp only [ownW, hr.child]
      by_cases hmem : n ∈ G.getChildren p
      · simp [hmem, (G.mem_getChildren.mp hmem).2]
      · simp [hmem]
    simp only [outWeight_reportOut, hup, hdown, hown, reportInfo, harr, he.reported m rfl,
      Bool.toNat_true, Bool.toNat_false, ite_self]
    omega
  | rootIn m _ _ hn | rootEmpty m _ hn | rootOut m _ _ _ _ _ hn =>
    have harr := G.arrive_arrived n src l m p
    have hmem : n ∉ G.getChildren p := hn ▸ root_notMem p
    simp [reportInfo, hmem, harr, outWeight_map, ownW]
  | _ => simp [ownW, add_comm]

omit [Fintype N] in
theorem arrive_extra (G : CollGroup N) (n src : N) (l : InfoColl N) (m : GroupCollectiveMsg N)
    (p : N) :
    (if n = p then (G.arrive n l m).extraCount else 0) +
        (G.extraW p n (src, .upTree m) + if n = p then l.extraArrivedCount else 0) =
      (if n = p then (G.arrive n l m).extraArrivedCount else 0) +
        (G.announcedW p n (src, .upTree m) + if n = p then l.extraCount else 0) := by
  by_cases hn : n = p
  · subst hn
    by_cases hm : m.child ∈ G.getChildren n
    · simp [arrive, extraW, announcedW, hm]
      omega
    · simp [arrive, extraW, announcedW, hm]
      omega
  · simp [extraW, announcedW, hn]

/-- The handler counts the extra messages, and announces those that it sends. -/
theorem Does.extra (h : G.Does n l src msg l' out fin) (he : G.Expects n l msg) (p : N) :
    outWeight (G.announcedW p) n out + (if n = p then l'.extraCount else 0) +
        (G.extraW p n (src, msg) + if n = p then l.extraArrivedCount else 0) =
      outWeight (G.extraW p) n out + (if n = p then l'.extraArrivedCount else 0) +
        (G.announcedW p n (src, msg) + if n = p then l.extraCount else 0) := by
  cases h with
  | leaf hcard hnil =>
    have hn := ne_root_of_leaf hcard hnil
    have hmem : G.tree.parent n = p → n ∈ G.getChildren p := fun h => G.mem_getChildren.mpr ⟨hn, h⟩
    rw [he.fresh rfl]
    by_cases hp : G.tree.parent n = p <;> simp [announcedW, extraW, hp, hmem]
  | arrive m hnot =>
    have hext := G.arrive_extra n src l m p
    simpa using hext
  | report m own up span down target subtree hready hn hr =>
    have hext := G.arrive_extra n src l m p
    have hmem : n ∈ G.getChildren (G.tree.parent n) := G.mem_getChildren.mpr ⟨hn, rfl⟩
    have hout : outWeight (G.announcedW p) n (reportOut (G.tree.parent n) own up down target) =
        outWeight (G.extraW p) n (reportOut (G.tree.parent n) own up down target) := by
      by_cases hp : G.tree.parent n = p
      · subst hp
        have hup : ∀ m' ∈ up, m'.child ∉ G.getChildren (G.tree.parent n) :=
          fun m' hm' => hr.up_notMem he hn hm'
        have hann : up.map (fun m => G.announcedW (G.tree.parent n) (G.tree.parent n)
            (n, .upTree m)) = up.map fun _ => 0 := by
          refine map_congr_left ?_
          intro m' hm'
          simp [announcedW, hup m' hm']
        have hextra : up.map (fun m => G.extraW (G.tree.parent n) (G.tree.parent n)
            (n, .upTree m)) = up.map fun _ => 1 := by
          refine map_congr_left ?_
          intro m' hm'
          simp [extraW, hup m' hm']
        rw [outWeight_reportOut, outWeight_reportOut, hann, hextra]
        simp [announcedW, extraW, hr.child, hmem, hr.extraNodes]
      · simp [outWeight_reportOut, announcedW, extraW, hp]
    rw [hout]
    simp only [reportInfo]
    omega
  | rootIn m | rootEmpty m | rootOut m =>
    have hext := G.arrive_extra n src l m p
    simpa [reportInfo, outWeight_map, announcedW, extraW] using hext
  | _ => simp [announcedW, extraW, add_comm]

theorem Reaches.expects (h : G.Reaches x) (hc : G.Counts x)
    (hh : G.Handles x x' n src msg l out fin) : G.Expects n (x.node n) msg where
  isSetup := hh.isSetup
  fresh := by
    rintro rfl
    exact h.setup_fresh hh.delivers.mem
  reported := by
    rintro m rfl
    exact hc.not_reported hh.delivers.mem
  below := by
    rintro m rfl
    exact h.below.1 n src m hh.delivers.mem
  msgs := h.below.2 n

theorem Reaches.counts (h : G.Reaches x) : G.Counts x := by
  refine Reaches.invariant ?_ ?_ h
  · refine ⟨fun n => ⟨by simp [start], by simp [start], by simp [start]⟩, ?_, ?_⟩
    · intro p
      simp [start_total, ownW]
    · intro p
      simp [start_total, announcedW, extraW]
  · intro x x' n src msg l out fin hx hc hh
    have he := hx.expects hc hh
    refine ⟨hh.forall_node (P := G.CountsAt) ?_ hc.node (hh.does.countsAt he (hc.node n)), ?_, ?_⟩
    · exact fun n l k => propext ⟨fun h => ⟨h.wait, h.closed, h.opened⟩,
        fun h => ⟨h.wait, h.closed, h.opened⟩⟩
    · intro p
      refine hh.balance ⟨fun _ _ _ _ => rfl, fun _ _ _ => rfl⟩
        ⟨fun _ _ _ _ => rfl, fun _ _ _ => rfl⟩ (hc.arrived p) ?_
      have hloc := hh.does.arrived he p
      rw [outWeight_zero]
      omega
    · intro p
      exact hh.balance ⟨fun _ _ _ _ => rfl, fun _ _ _ => rfl⟩
        ⟨fun _ _ _ _ => rfl, fun _ _ _ => rfl⟩ (hc.extra p) (hh.does.extra he p)

/-! ## Everyone reports -/

theorem Counts.children_reported (h : G.Counts x) (hn : (x.node n).reported = true) :
    ∀ m ∈ G.getChildren n, (x.node m).reported = true := by
  have harr := h.arrived_eq n
  rw [((h.node n).closed hn).1, ← card_getChildren, Finset.card_eq_sum_ones] at harr
  intro m hm
  have heq := (Finset.sum_eq_sum_iff_of_le fun m _ => Bool.toNat_le (x.node m).reported).mp
    (le_antisymm (Finset.sum_le_sum fun m _ => Bool.toNat_le _) (by omega)) m
    (mem_toFinset.mpr hm)
  exact Bool.toNat_eq_one.mp heq

theorem Counts.all_reported (h : G.Counts x)
    (hroot : (x.node G.tree.root).reported = true) (n : N) :
    (x.node n).reported = true := by
  refine G.tree.induction_down hroot ?_ n
  intro n hn hp
  exact h.children_reported hp n (G.mem_getChildren.mpr ⟨hn, rfl⟩)

/-- When nothing is in flight everyone has reported. -/
theorem Counts.reported_of_quiet (h : G.Counts x) (hset : ∀ n, (x.node n).isSetup = true)
    (hquiet : ∀ n, x.inbox n = []) (n : N) : (x.node n).reported = true := by
  refine G.tree.induction_up ?_ n
  intro n ih
  have hchild : ∀ m ∈ (G.getChildren n).toFinset, (x.node m).reported.toNat = 1 := by
    intro m hm
    rw [ih m (G.tree.mem_children.mpr (G.mem_getChildren.mp (mem_toFinset.mp hm))),
      Bool.toNat_true]
  have hzero := flight_of_quiet hquiet
  have harr := h.arrived_eq n
  have hext := h.extra_eq n
  rw [hzero, zero_add, Finset.sum_congr rfl hchild, ← Finset.card_eq_sum_ones,
    card_getChildren] at harr
  rw [hzero, hzero, zero_add, zero_add] at hext
  by_contra hrep
  exact (h.node n).opened (hset n) (Bool.not_eq_true _ ▸ hrep) ⟨harr, hext⟩

end CollGroup

end VtRuntime.Group
