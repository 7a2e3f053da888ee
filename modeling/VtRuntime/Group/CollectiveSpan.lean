import VtRuntime.Group.CollectiveUp
import VtRuntime.Lib.Acyclic

/-!
# The places of the nodes of a group

A node of the group that has reported itself is at one place: in a message from below, among the
messages that a node has kept for its own report, in a message down, among the children of a node,
or it is the root.  The handlers move it from one place to the next.

A node that is a child of another, or that is sent down to it, is under that node.  A node is only
put under one that is under nobody, or passed on to a sibling.  So there is no cycle.
-/

namespace VtRuntime.Group

open Lib Network List

universe u

namespace CollGroup

variable {N : Type u} [Fintype N] [DecidableEq N] {G : CollGroup N} {x x' : CollSys N} {n src : N}
  {msg : CollMsg N} {l l' : InfoColl N} {out : List (N × CollMsg N)} {fin : Bool}

/-! ## The root of the initial tree -/

/-- These messages do not go to the root. -/
def AvoidsRoot (G : CollGroup N) (n : N) : CollMsg N → Prop
  | .newRoot _ => n ≠ G.tree.root
  | .finalizeTree _ _ => n ≠ G.tree.root
  | _ => True

theorem Does.finalizeTree_notMem (h : G.Does n l src msg l' out fin) (y : N) (r : Option N)
    (b : Bool) : (y, .finalizeTree r b) ∉ out := by
  cases h <;> simp [reportOut]

/-- Only the root of the initial tree names another root. -/
theorem Does.newRoot_of_mem (h : G.Does n l src msg l' out fin) (he : G.Expects n l msg) {y : N}
    {m : GroupCollectiveMsg N} (hm : (y, .newRoot m) ∈ out) : n = G.tree.root ∧ y ≠ G.tree.root ∧
      l'.reported = true ∧ l'.knownRootNode = some y := by
  cases h with
  | rootOut m₀ first _ rest _ _ hroot _ hperm =>
    have hfirst : first ∈ l.msgs ++ [m₀] :=
      mem_of_mem_filter (hperm.subset mem_cons_self)
    simp only [mem_cons, mem_map, Prod.mk.injEq, reduceCtorEq, and_false, exists_false,
      or_false] at hm
    exact ⟨hroot, hm.1 ▸ (he.below_of_mem hfirst).ne_root, rfl, hm.1 ▸ rfl⟩
  | _ => simp [reportOut] at hm

theorem Does.avoidsRoot (h : G.Does n l src msg l' out fin) (he : G.Expects n l msg) {y : N}
    {m : CollMsg N} (hm : (y, m) ∈ out) : G.AvoidsRoot y m := by
  cases m with
  | newRoot => exact (h.newRoot_of_mem he hm).2.1
  | finalizeTree => exact absurd hm (h.finalizeTree_notMem _ _ _)
  | _ => trivial

theorem Reaches.avoidsRoot (h : G.Reaches x) : ∀ y, ∀ d ∈ x.inbox y, G.AvoidsRoot y d.2 := by
  refine Reaches.invariant ?_ ?_ h
  · intro y d hd
    rw [mem_singleton.mp hd]
    trivial
  · rintro x x' n src msg l out fin hx hi hh y ⟨s, m⟩ hd
    rcases hh.inflight hd with hd | ⟨-, hd⟩ | ⟨-, -, -, hc, hm⟩
    · exact hi y _ hd
    · exact hh.does.avoidsRoot (hx.expects hx.counts hh) hd
    · rw [hm]
      exact (G.mem_getChildren.mp hc).1

/-- What the root knows before its report. -/
def Unknown (l : InfoColl N) : Prop :=
  l.knownRootNode = none ∧ l.isDefaultGroup = false ∧ l.inPhaseTwo = false

theorem Does.unknown (h : G.Does n l src msg l' out fin) (he : G.Expects n l msg)
    (hroot : n = G.tree.root) (ha : G.AvoidsRoot n msg) (hl : l.reported = false → Unknown l) :
    l'.reported = false → Unknown l' := by
  cases h with
  | singular | leaf | report | rootIn | rootEmpty | rootOut => exact fun h => Bool.noConfusion h
  | inner =>
    rw [he.fresh rfl]
    exact fun _ => ⟨rfl, rfl, rfl⟩
  | newRoot | told => exact absurd hroot ha
  | _ => exact hl

theorem Reaches.unknown (h : G.Reaches x) (hrep : (x.node G.tree.root).reported = false) :
    Unknown (x.node G.tree.root) := by
  refine Reaches.root (P := fun l => l.reported = false → Unknown l) (fun _ _ => rfl)
    (fun _ => ⟨rfl, rfl, rfl⟩) ?_ h hrep
  intro x x' n src msg l out fin hx hh hroot hold
  exact hh.does.unknown (hx.expects hx.counts hh) hroot (hx.avoidsRoot n _ hh.delivers.mem) hold

/-! ## Places -/

/-- The nodes of the group that are reported in some messages. -/
def inGroup (ms : List (GroupCollectiveMsg N)) : List N :=
  (ms.filter (·.isInGroup)).map (·.child)

/-- The messages in flight that have node `c` of the group. -/
def tokenW (c : N) : N → N × CollMsg N → ℕ
  | _, (_, .upTree m) => if m.isInGroup ∧ m.child = c then 1 else 0
  | _, (_, .downTree m) => if m.child = c then 1 else 0
  | _, _ => 0

/-- How often a node has `c`: among the messages it has kept, among its children, or as the root
that it has chosen. -/
def tokenF (G : CollGroup N) (c : N) (n : N) (l : InfoColl N) : ℕ :=
  (if l.reported then 0 else (inGroup l.msgs).count c) + l.spanChildren.count c +
    if n = G.tree.root ∧ l.reported ∧ l.knownRootNode = some c then 1 else 0

/-- Node `c` is in the group and has reported itself. -/
def memberF (G : CollGroup N) (c : N) (n : N) (l : InfoColl N) : ℕ :=
  if n = c ∧ G.isInGroup c ∧ l.reported then 1 else 0

omit [Fintype N] in
theorem count_inGroup_append (ms : List (GroupCollectiveMsg N)) (m : GroupCollectiveMsg N) (c : N) :
    (inGroup (ms ++ [m])).count c =
      (inGroup ms).count c + if m.isInGroup ∧ m.child = c then 1 else 0 := by
  by_cases hm : m.isInGroup
  · by_cases hc : m.child = c <;> simp [inGroup, hm, hc]
  · simp [inGroup, hm]

omit [Fintype N] in
theorem sum_child_eq_count (ms : List (GroupCollectiveMsg N)) (c : N) :
    (ms.map fun m => if m.child = c then 1 else 0).sum = (ms.map (·.child)).count c := by
  rw [← sum_map_eq_count, map_map]
  rfl

variable {ms up span down : List (GroupCollectiveMsg N)} {target p c : N} {own m :
    GroupCollectiveMsg N}

section

omit [Fintype N]

/-- The nodes of the messages that are divided. -/
theorem Report.count (h : G.Report n ms own up span down target) (c : N) :
    (up.map (·.child)).count c + (span.map (·.child)).count c + (down.map (·.child)).count c =
      (inGroup ms).count c := by
  rw [inGroup, ← (h.perm.map (·.child)).count_eq c]
  simp only [map_append, count_append]

theorem Report.sum_up (h : G.Report n ms own up span down target) (c : N) :
    (up.map fun m => tokenW c p (n, .upTree m)).sum = (up.map (·.child)).count c := by
  rw [← sum_child_eq_count]
  congr 1
  refine map_congr_left ?_
  intro m hm
  have hin : m.isInGroup = true := (mem_filter.mp (h.perm.subset (by simp [hm]))).2
  simp [tokenW, hin]

theorem tokenF_open (hl : l.reported = false) (c : N) :
    G.tokenF c n l = (inGroup l.msgs).count c + l.spanChildren.count c := by
  simp [tokenF, hl]

theorem memberF_open (hl : l.reported = false) (c : N) : G.memberF c n l = 0 := by
  simp [memberF, hl]

/-- A message from below finds the node before its report. -/
theorem Expects.token (he : G.Expects n l (.upTree m)) (src c : N) :
    tokenW c n (src, .upTree m) + G.tokenF c n l =
      (inGroup (l.msgs ++ [m])).count c + l.spanChildren.count c := by
  rw [tokenF_open (he.reported m rfl), count_inGroup_append]
  simp only [tokenW]
  omega

/-- The report of a node below the root sends on what it does not keep. -/
theorem Report.token (h : G.Report n (l.msgs ++ [m]) own up span down target)
    (hn : n ≠ G.tree.root) (subtree : ℕ) (c : N) :
    outWeight (tokenW c) n (reportOut (G.tree.parent n) own up down target) +
        G.tokenF c n (reportInfo (G.arrive n l m) subtree span down) =
      G.memberF c n (reportInfo (G.arrive n l m) subtree span down) +
        ((inGroup (l.msgs ++ [m])).count c + l.spanChildren.count c) := by
  have hown : tokenW c (G.tree.parent n) (n, .upTree own) =
      G.memberF c n (reportInfo (G.arrive n l m) subtree span down) := by
    simp only [tokenW, memberF, h.isInGroup, h.child, reportInfo]
    by_cases hc : n = c
    · subst hc
      simp
    · simp [hc]
  have hdown : (down.map fun m => tokenW c target (n, .downTree m)).sum =
      (down.map (·.child)).count c := sum_child_eq_count down c
  have hcount := h.count c
  rw [outWeight_reportOut, h.sum_up, hdown, hown]
  simp only [tokenF, reportInfo, CollGroup.arrive, if_true, count_append, hn, false_and, if_false]
  omega

/-- A root outside the group sends all to the first of them. -/
theorem token_rest {first : GroupCollectiveMsg N} {rest : List (GroupCollectiveMsg N)}
    (hperm : (first :: rest).Perm (ms.filter (·.isInGroup))) (own : GroupCollectiveMsg N)
    (n c : N) :
    outWeight (tokenW c) n ((first.child, .newRoot own) ::
        rest.map fun m => (first.child, .downTree m)) + (if first.child = c then 1 else 0) =
      (inGroup ms).count c := by
  have hrest : (rest.map fun m => tokenW c first.child (n, .downTree m)).sum =
      (rest.map (·.child)).count c := sum_child_eq_count rest c
  rw [inGroup, ← (hperm.map (·.child)).count_eq c, map_cons, count_cons, outWeight_cons,
    outWeight_map, hrest]
  simp [tokenW]

end

/-- The handler moves a node of the group from one place to another. -/
theorem Does.token (h : G.Does n l src msg l' out fin) (he : G.Expects n l msg)
    (ha : G.AvoidsRoot n msg) (hu : n = G.tree.root → l.reported = false → Unknown l) (c : N) :
    outWeight (tokenW c) n out + G.tokenF c n l' + G.memberF c n l =
      G.memberF c n l' + (tokenW c n (src, msg) + G.tokenF c n l) := by
  cases h with
  | singular hcard =>
    have hroot : n = G.tree.root := Fintype.card_le_one_iff.mp hcard.le _ _
    rw [he.fresh rfl]
    by_cases hc : n = c
    · subst hc
      by_cases hg : G.isInGroup n <;> simp [tokenW, tokenF, memberF, inGroup, hg, ← hroot]
    · by_cases hg : G.isInGroup n <;> simp [tokenW, tokenF, memberF, inGroup, hg, hc]
  | leaf =>
    rw [he.fresh rfl]
    by_cases hc : n = c
    · subst hc
      simp [tokenW, tokenF, memberF, inGroup]
    · simp [tokenW, tokenF, memberF, inGroup, hc]
  | inner =>
    rw [he.fresh rfl]
    simp [tokenW, tokenF, memberF, inGroup]
  | arrive m =>
    have hrep := he.reported m rfl
    rw [he.token, memberF_open hrep, memberF_open (l := G.arrive n l m) hrep,
      tokenF_open (l := G.arrive n l m) hrep]
    simp [CollGroup.arrive]
  | report m own up span down target subtree hready hn hr =>
    rw [he.token, memberF_open (he.reported m rfl), add_zero]
    exact hr.token hn subtree c
  | rootIn m subtree hready hn hg hs =>
    rw [he.token, memberF_open (he.reported m rfl)]
    by_cases hc : n = c
    · subst hc
      simp [tokenF, memberF, reportInfo, CollGroup.arrive, hg, ← hn, inGroup]
      omega
    · simp [tokenF, memberF, reportInfo, CollGroup.arrive, hc, inGroup]
      omega
  | rootEmpty m hready hn hg hnil =>
    have hnone := (hu hn (he.reported m rfl)).1
    have hcount : (inGroup (l.msgs ++ [m])).count c = 0 := by
      simp [inGroup, hnil]
    rw [he.token, memberF_open (he.reported m rfl), hcount]
    by_cases hc : n = c
    · subst hc
      simp [tokenF, memberF, reportInfo, CollGroup.arrive, hnone, hg]
    · simp [tokenF, memberF, reportInfo, CollGroup.arrive, hnone, hc]
  | rootOut m first own rest subtree hready hn hg hperm =>
    have hout := token_rest hperm own n c
    have hmem : ∀ l, G.memberF c n l = 0 := by
      intro l
      simp only [memberF]
      rw [if_neg]
      rintro ⟨rfl, hin, -⟩
      rw [hg] at hin
      exact Bool.noConfusion hin
    rw [he.token, hmem, hmem, ← hout]
    simp [tokenF, reportInfo, CollGroup.arrive, ← hn]
    omega
  | newRoot | told =>
    have hne : n ≠ G.tree.root := ha
    simp only [outWeight_nil, tokenW, tokenF, memberF, hne, false_and, if_false]
    omega
  | keep m =>
    simp only [outWeight_cons, outWeight_nil, tokenW, tokenF, memberF, count_append,
      count_singleton, beq_iff_eq]
    omega
  | pass m =>
    simp only [outWeight_cons, outWeight_nil, tokenW, tokenF, memberF]
    omega
  | answered =>
    simp only [outWeight_nil, tokenW, tokenF, memberF]
    omega

/-- A node of the group that has reported itself is at one place, any other node nowhere. -/
theorem Reaches.token (h : G.Reaches x) (c : N) : x.total (tokenW c) (G.tokenF c) =
    if G.isInGroup c ∧ (x.node c).reported then 1 else 0 := by
  have key : x.total (tokenW c) (G.tokenF c) = x.total (fun _ _ => 0) (G.memberF c) := by
    refine Reaches.account ⟨fun _ _ _ _ => rfl, fun _ _ _ => rfl⟩
      ⟨fun _ _ _ _ => rfl, fun _ _ _ => rfl⟩ ?_ ?_ h
    · simp [start_total, tokenW, tokenF, memberF, inGroup]
    · intro x x' n src msg l out fin hx _ hh
      have hloc := hh.does.token (hx.expects hx.counts hh) (hx.avoidsRoot n _ hh.delivers.mem)
        (fun hn => hn ▸ hx.unknown) c
      rw [outWeight_zero]
      omega
  have hmember : G.memberF c = fun n l =>
      if n = c then (if G.isInGroup c ∧ l.reported then 1 else 0) else 0 := by
    funext n l
    rw [memberF, ite_and]
  rw [key, hmember, total_at, flight_zero, Nat.zero_add]

/-! ## The tree as far as it is built -/

/-- Node `c` is a child of `p`, or on its way down to `p`. -/
def Under (x : CollSys N) (c p : N) : Prop :=
  c ∈ (x.node p).spanChildren ∨ ∃ src m, (src, .downTree m) ∈ x.inbox p ∧ m.child = c

theorem Reaches.token_le (h : G.Reaches x) (c : N) : x.total (tokenW c) (G.tokenF c) ≤ 1 := by
  rw [h.token c]
  split <;> omega

omit [Fintype N] in
theorem count_le_tokenF (c n : N) (l : InfoColl N) : l.spanChildren.count c ≤ G.tokenF c n l := by
  unfold tokenF
  omega

omit [Fintype N] in
theorem Under.place_pos (h : Under x c p) : 0 < x.place (tokenW c) (G.tokenF c) p := by
  rcases h with h | ⟨src, m, hm, rfl⟩
  · have hcount := count_pos_iff.mpr h
    have hle := count_le_tokenF (G := G) c p (x.node p)
    have hle' := le_place_of_node (x := x) (w := tokenW c) (f := G.tokenF c) p
    omega
  · have hle := le_place_of_mem (w := tokenW m.child) (f := G.tokenF m.child) hm
    simp only [tokenW, if_true] at hle
    omega

theorem Reaches.under_unique (h : G.Reaches x) {q : N} (hp : Under x c p) (hq : Under x c q) :
    p = q :=
  place_unique (h.token_le c) hp.place_pos hq.place_pos

theorem Reaches.member_of_place (h : G.Reaches x) (hp : 0 < x.place (tokenW c) (G.tokenF c) p) :
    G.isInGroup c = true ∧ (x.node c).reported = true := by
  have hle := place_le_total (x := x) (w := tokenW c) (f := G.tokenF c) p
  rw [h.token c] at hle
  by_contra hne
  rw [if_neg hne] at hle
  omega

/-- A node that is under another has not kept another place for it. -/
theorem Reaches.place_eq_one (h : G.Reaches x) (hp : 0 < x.place (tokenW c) (G.tokenF c) p) :
    x.place (tokenW c) (G.tokenF c) p = 1 := by
  have hle := place_le_total (x := x) (w := tokenW c) (f := G.tokenF c) p
  have htotal := h.token_le c
  omega

/-- The nodes that a node is about to divide have no other place. -/
theorem Reaches.count_pending (h : G.Reaches x) (hm : (src, .upTree m) ∈ x.inbox n) (c : N) :
    (inGroup ((x.node n).msgs ++ [m])).count c ≤ x.place (tokenW c) (G.tokenF c) n := by
  have hle := le_place_of_mem (w := tokenW c) (f := G.tokenF c) hm
  rw [tokenF_open (h.counts.not_reported hm)] at hle
  rw [count_inGroup_append]
  simp only [tokenW] at hle
  omega

theorem Reaches.not_under_of_pending (h : G.Reaches x) (hm : (src, .upTree m) ∈ x.inbox n)
    (hc : c ∈ inGroup ((x.node n).msgs ++ [m])) : ¬ Under x c p := by
  intro hp
  have hcount := count_pos_iff.mpr hc
  have hpend := h.count_pending hm c
  obtain rfl : n = p := place_unique (h.token_le c) (by omega) hp.place_pos
  have hone := h.place_eq_one (c := c) (p := n) (by omega)
  rw [count_inGroup_append] at hcount
  rcases hp with hp | ⟨s, m', hm', rfl⟩
  · have hspan := count_pos_iff.mpr hp
    have hle := le_place_of_mem (w := tokenW c) (f := G.tokenF c) hm
    rw [tokenF_open (h.counts.not_reported hm)] at hle
    simp only [tokenW] at hle
    omega
  · have hne : (src, CollMsg.upTree m) ≠ (s, .downTree m') := fun h => by cases h
    have hle := le_place_of_mem_of_mem (w := tokenW m'.child) (f := G.tokenF m'.child) hm hm' hne
    rw [tokenF_open (h.counts.not_reported hm)] at hle
    simp only [tokenW, if_true] at hle
    omega

theorem Handles.under (hh : G.Handles x x' n src msg l out fin) {a b : N} (h : Under x' a b) :
    Under x a b ∨ b = n ∧ a ∈ l.spanChildren ∨ ∃ m, (b, .downTree m) ∈ out ∧ m.child = a := by
  rcases h with h | ⟨s, m, hm, rfl⟩
  · by_cases hb : b = n
    · subst hb
      rw [hh.field (·.spanChildren) fun _ _ => rfl] at h
      exact .inr (.inl ⟨rfl, h⟩)
    · rw [hh.node_of_ne hb] at h
      exact .inl (.inl h)
  · rcases hh.inflight hm with hm | ⟨-, hm⟩ | ⟨-, -, -, -, hm⟩
    · exact .inl (.inr ⟨s, m, hm, rfl⟩)
    · exact .inr (.inr ⟨m, hm, rfl⟩)
    · cases hm

omit [Fintype N] [DecidableEq N] in
/-- A node that is under nobody leads to itself only. -/
theorem not_reaches_of_top {y a : N} (htop : ∀ p, ¬ Under x y p) (hne : y ≠ a) :
    ¬ Relation.ReflTransGen (Under x) y a := by
  intro hreach
  rcases Relation.ReflTransGen.cases_head hreach with heq | ⟨p, hp, -⟩
  · exact hne heq
  · exact htop p hp

theorem Reaches.isInGroup_of_pending (h : G.Reaches x) (hm : (src, .upTree m) ∈ x.inbox n)
    (hc : c ∈ inGroup ((x.node n).msgs ++ [m])) : G.isInGroup c = true := by
  have hcount := count_pos_iff.mpr hc
  have hpend := h.count_pending hm c
  exact (h.member_of_place (p := n) (by omega)).1

/-- The nodes that a handler puts under another one, which is in the group and does not lead to
them. -/
structure Attaches (G : CollGroup N) (x x' : CollSys N) (S : N → Prop) (y : N) : Prop where
  isInGroup : ∀ a, S a → G.isInGroup y = true
  not_reaches : ∀ a, S a → ¬ Relation.ReflTransGen (Under x) y a
  under : ∀ a b, Under x' a b → Under x a b ∨ S a ∧ b = y

theorem Reaches.attaches_self (hx : G.Reaches x) (hh : G.Handles x x' n src (.upTree m) l out fin)
    (span : List (GroupCollectiveMsg N)) (hspan : ∀ m' ∈ span, m' ∈ (x.node n).msgs ++ [m])
    (hg : G.isInGroup n = false → span = [])
    (hl : l.spanChildren = (x.node n).spanChildren ++ span.map (·.child))
    (hout : ∀ b m', (b, .downTree m') ∉ out) : G.Attaches x x' (· ∈ span.map (·.child)) n := by
  have he := hx.expects hx.counts hh
  refine ⟨?_, ?_, ?_⟩
  · intro a ha
    by_contra hn
    rw [hg (Bool.not_eq_true _ ▸ hn)] at ha
    exact not_mem_nil ha
  · intro a ha
    obtain ⟨m', hm', rfl⟩ := mem_map.mp ha
    refine not_reaches_of_top ?_ (he.below_of_mem (hspan m' hm')).ne.symm
    intro p hp
    have hrep := (hx.member_of_place hp.place_pos).2
    rw [he.reported m rfl] at hrep
    exact Bool.noConfusion hrep
  · intro a b hab
    rcases hh.under hab with hab | ⟨rfl, ha⟩ | ⟨m', hm', -⟩
    · exact .inl hab
    · rw [hl] at ha
      exact (mem_append.mp ha).imp .inl fun ha => ⟨ha, rfl⟩
    · exact absurd hm' (hout b m')

/-- A node sends others down to one that it reports. -/
theorem Reaches.attaches_down (hx : G.Reaches x) (hh : G.Handles x x' n src (.upTree m) l out fin)
    (t : GroupCollectiveMsg N) (down : List (GroupCollectiveMsg N))
    (hperm : List.Subperm (t.child :: down.map (·.child)) (inGroup ((x.node n).msgs ++ [m])))
    (hl : l.spanChildren = (x.node n).spanChildren)
    (hout : ∀ b m', (b, .downTree m') ∈ out → m' ∈ down ∧ b = t.child) :
    G.Attaches x x' (· ∈ down.map (·.child)) t.child := by
  have ht : t.child ∈ inGroup ((x.node n).msgs ++ [m]) := hperm.subset mem_cons_self
  refine ⟨fun _ _ => hx.isInGroup_of_pending hh.delivers.mem ht, ?_, ?_⟩
  · intro a ha
    refine not_reaches_of_top (fun p => hx.not_under_of_pending hh.delivers.mem ht) ?_
    rintro rfl
    have hcount := hperm.count_le t.child
    have hpos := count_pos_iff.mpr ha
    have hpend := hx.count_pending hh.delivers.mem t.child
    have hle := place_le_total (x := x) (w := tokenW t.child) (f := G.tokenF t.child) n
    have htotal := hx.token_le t.child
    rw [count_cons_self] at hcount
    omega
  · intro a b hab
    rcases hh.under hab with hab | ⟨rfl, ha⟩ | ⟨m', hm', rfl⟩
    · exact .inl hab
    · exact .inl (.inl (hl ▸ ha))
    · obtain ⟨hmem, rfl⟩ := hout b m' hm'
      exact .inr ⟨mem_map_of_mem hmem, rfl⟩

theorem Handles.attaches_none (hh : G.Handles x x' n src msg l out fin)
    (hl : l.spanChildren = (x.node n).spanChildren) (hout : ∀ b m', (b, .downTree m') ∉ out) :
    G.Attaches x x' (fun _ => False) n := by
  refine ⟨fun _ h => h.elim, fun _ h => h.elim, ?_⟩
  intro a b hab
  rcases hh.under hab with hab | ⟨rfl, ha⟩ | ⟨m', hm', -⟩
  · exact .inl hab
  · exact .inl (.inl (hl ▸ ha))
  · exact absurd hm' (hout b m')

/-- A node passes another one on to one of its children. -/
theorem Reaches.attaches_pass (hx : G.Reaches x) (hac : Acyclic (Under x))
    (hc : c ∈ (x.node n).spanChildren)
    (hh : G.Handles x x' n src (.downTree m) l [(c, .downTree m), (src, .downTreeFinished)] fin)
    (hl : l.spanChildren = (x.node n).spanChildren) : G.Attaches x x' (· = m.child) c := by
  have hm : Under x m.child n := .inr ⟨src, m, hh.delivers.mem, rfl⟩
  have hcn : Under x c n := .inl hc
  refine ⟨fun _ _ => (hx.member_of_place hcn.place_pos).1, ?_, ?_⟩
  · rintro a rfl hreach
    rcases Relation.ReflTransGen.cases_head hreach with rfl | ⟨p, hp, hreach⟩
    · -- the node would be at two places
      have hcount := count_pos_iff.mpr hc
      have hle := le_place_of_mem (w := tokenW m.child) (f := G.tokenF m.child) hh.delivers.mem
      have hspan := count_le_tokenF (G := G) m.child n (x.node n)
      have hone := hx.place_eq_one hm.place_pos
      simp only [tokenW, if_true] at hle
      omega
    · obtain rfl := hx.under_unique hp hcn
      exact hac.not_reaches hm hreach
  · intro a b hab
    rcases hh.under hab with hab | ⟨rfl, ha⟩ | ⟨m', hm', rfl⟩
    · exact .inl hab
    · exact .inl (.inl (hl ▸ ha))
    · simp only [mem_cons, Prod.mk.injEq, CollMsg.downTree.injEq, reduceCtorEq, and_false,
        not_mem_nil, or_false] at hm'
      obtain ⟨rfl, rfl⟩ := hm'
      exact .inr ⟨rfl, rfl⟩

omit [Fintype N] [DecidableEq N] in
theorem Report.span_subset (h : G.Report n ms own up span down target) (hm : m ∈ span) : m ∈ ms :=
  mem_of_mem_filter (h.perm.subset (by simp [hm]))

theorem Reaches.attaches (hx : G.Reaches x) (hac : Acyclic (Under x))
    (hh : G.Handles x x' n src msg l out fin) : ∃ S y, G.Attaches x x' S y := by
  have hdoes := hh.does
  generalize hfrom : x.node n = l₀ at hdoes
  cases hdoes with
  | report m own up span down target subtree hready hn hr =>
    by_cases hdown : down = []
    · subst hdown
      refine ⟨_, _, hx.attaches_self hh span ?_ hr.span_nil ?_ ?_⟩
      · rw [hfrom]
        exact fun m' hm' => hr.span_subset hm'
      · rw [hfrom]
        rfl
      · simp [reportOut]
    · obtain ⟨t, ht, rfl⟩ := hr.target_mem hdown
      obtain rfl := hr.one.resolve_right hdown
      refine ⟨_, _, hx.attaches_down hh t down ?_ ?_ ?_⟩
      · rw [hfrom]
        have hsub : List.Sublist (t :: down) (up ++ [] ++ down) := by
          rw [append_nil]
          exact (singleton_sublist.mpr ht).append_right down
        exact (hsub.map (·.child)).subperm.trans (hr.perm.map (·.child)).subperm
      · rw [hfrom]
        simp [reportInfo, arrive]
      · intro b m' hm'
        simp only [reportOut, mem_append, mem_cons, mem_map, Prod.mk.injEq,
          reduceCtorEq, and_false, exists_false, or_false, false_or, CollMsg.downTree.injEq] at hm'
        obtain ⟨m'', hm'', rfl, rfl⟩ := hm'
        exact ⟨hm'', rfl⟩
  | rootIn m subtree hready hn hg hs =>
    refine ⟨_, _, hx.attaches_self hh ((l₀.msgs ++ [m]).filter (·.isInGroup)) ?_ ?_ ?_ ?_⟩
    · rw [hfrom]
      exact fun m' hm' => mem_of_mem_filter hm'
    · simp [hg]
    · rw [hfrom]
      rfl
    · simp
  | rootOut m first _ rest subtree hready hn hg hperm =>
    refine ⟨_, _, hx.attaches_down hh first rest ?_ ?_ ?_⟩
    · rw [hfrom]
      exact (hperm.map (·.child)).subperm
    · rw [hfrom]
      simp [reportInfo, arrive]
    · intro b m' hm'
      simp only [mem_cons, mem_map, Prod.mk.injEq, reduceCtorEq, and_false, false_or,
        CollMsg.downTree.injEq] at hm'
      obtain ⟨m'', hm'', rfl, rfl⟩ := hm'
      exact ⟨hm'', rfl⟩
  | keep m =>
    refine ⟨fun _ => False, n, fun _ h => h.elim, fun _ h => h.elim, ?_⟩
    intro a b hab
    left
    rcases hh.under hab with hab | ⟨rfl, ha⟩ | ⟨m', hm', -⟩
    · exact hab
    · rcases mem_append.mp ha with ha | ha
      · exact .inl (hfrom ▸ ha)
      · exact .inr ⟨src, m, hh.delivers.mem, (mem_singleton.mp ha).symm⟩
    · simp at hm'
  | pass m c hlen hc =>
    subst hfrom
    exact ⟨_, _, hx.attaches_pass hac hc hh rfl⟩
  | _ =>
    subst hfrom
    exact ⟨_, _, hh.attaches_none (by simp [arrive, reportInfo]) (by simp)⟩

/-- The tree has no cycle at any time. -/
theorem Reaches.acyclic (h : G.Reaches x) : Acyclic (Under x) := by
  refine Reaches.invariant ?_ ?_ h
  · refine ⟨fun _ => 0, ?_⟩
    rintro c p (hc | ⟨src, m, hm, -⟩)
    · exact absurd hc not_mem_nil
    · simp [start] at hm
  · intro x x' n src msg l out fin hx hac hh
    obtain ⟨S, y, hatt⟩ := hx.attaches hac hh
    exact hac.attach hatt.not_reaches hatt.under

theorem Reaches.parent_isInGroup (h : G.Reaches x) (hp : Under x c p) : G.isInGroup p = true := by
  have key : ∀ c p, Under x c p → G.isInGroup p = true := by
    refine Reaches.invariant ?_ ?_ h
    · rintro c p (hc | ⟨src, m, hm, -⟩)
      · exact absurd hc not_mem_nil
      · simp [start] at hm
    · intro x x' n src msg l out fin hx hi hh c p hp
      obtain ⟨S, y, hatt⟩ := hx.attaches hx.acyclic hh
      rcases hatt.under c p hp with hp | ⟨hc, rfl⟩
      · exact hi c p hp
      · exact hatt.isInGroup c hc
  exact key c p hp

end CollGroup

end VtRuntime.Group
