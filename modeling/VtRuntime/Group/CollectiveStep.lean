import VtRuntime.Group.Collective

/-!
# What one message of the construction does

The handlers of a collective group in one list of cases.  `finalize` is called at the end of several
handlers.  An account that does not look at what it does is balanced without it.
-/

namespace VtRuntime.Group

open Lib Network List

universe u

namespace CollGroup

variable {N : Type u} (G : CollGroup N)

/-- Node `n` has the messages `ms` and reports itself with `own`.  Of the messages of nodes in the
group it passes on `up`, it takes the children of `span`, and it sends `down` to `target`. -/
structure Report (n : N) (ms : List (GroupCollectiveMsg N)) (own : GroupCollectiveMsg N)
    (up span down : List (GroupCollectiveMsg N)) (target : N) : Prop where
  perm : (up ++ span ++ down).Perm (ms.filter (·.isInGroup))
  child : own.child = n
  isInGroup : own.isInGroup = G.isInGroup n
  extraNodes : own.extraNodes = up.length
  subtreeSize : G.isInGroup n → own.subtreeSize + (up.map (·.subtreeSize)).sum =
    ((ms.filter (·.isInGroup)).map (·.subtreeSize)).sum + 1
  span_nil : G.isInGroup n = false → span = []
  /-- It does one of the two. -/
  one : span = [] ∨ down = []
  target_mem : down ≠ [] → ∃ t ∈ up, t.child = target

/-- The state of a node after its report. -/
def reportInfo (l : InfoColl N) (subtree : ℕ) (span down : List (GroupCollectiveMsg N)) :
    InfoColl N :=
  { l with
    subtree := subtree, spanChildren := l.spanChildren ++ span.map (·.child)
    sendDown := l.sendDown + down.length, reported := true }

/-- The messages of a report. -/
def reportOut (p : N) (own : GroupCollectiveMsg N) (up down : List (GroupCollectiveMsg N))
    (target : N) : List (N × CollMsg N) :=
  (p, .upTree own) :: up.map (fun m => (p, .upTree m)) ++ down.map fun m => (target, .downTree m)

/-- `finalize` may be called at the end of a handler. -/
def closing (n : N) (fin : Bool) (e : Effect N) : Effect N :=
  if fin then ((G.finalize n e.1).1, e.2 ++ (G.finalize n e.1).2) else e

variable [Fintype N] [DecidableEq N]

/-- What `dispatch` does, up to a last call of `finalize`, and whether there is one. -/
inductive Does (n : N) (l : InfoColl N) (src : N) :
    CollMsg N → InfoColl N → List (N × CollMsg N) → Bool → Prop
  | singular : Fintype.card N = 1 → Does n l src .setupCollective
      { l with
        isSetup := true, knownRootNode := if G.isInGroup n then some n else none
        isNewRoot := G.isInGroup n, inPhaseTwo := true, hasRoot := true
        isDefaultGroup := G.isInGroup n, reported := true } [] false
  | leaf : Fintype.card N ≠ 1 → G.getChildren n = [] → Does n l src .setupCollective
      { l with isSetup := true, collWaitCount := 1, reported := true }
      [(G.tree.parent n,
        .upTree ⟨G.isInGroup n, if G.isInGroup n then 1 else 0, n, 0, 0⟩)] false
  | inner : Fintype.card N ≠ 1 → G.getChildren n ≠ [] → Does n l src .setupCollective
      { l with isSetup := true, collWaitCount := (G.getChildren n).length + 1 } [] false
  | arrive (m : GroupCollectiveMsg N) : ¬ Ready (G.arrive n l m) → Does n l src (.upTree m)
      (G.arrive n l m) [] false
  | report (m own : GroupCollectiveMsg N) (up span down : List (GroupCollectiveMsg N))
      (target : N) (subtree : ℕ) : Ready (G.arrive n l m) → n ≠ G.tree.root →
      G.Report n (l.msgs ++ [m]) own up span down target → Does n l src (.upTree m)
      (reportInfo (G.arrive n l m) subtree span down)
      (reportOut (G.tree.parent n) own up down target) false
  /-- The root is in the group. -/
  | rootIn (m : GroupCollectiveMsg N) (subtree : ℕ) : Ready (G.arrive n l m) → n = G.tree.root →
      G.isInGroup n → subtree = (((l.msgs ++ [m]).filter (·.isInGroup)).map (·.subtreeSize)).sum →
      Does n l src (.upTree m)
      { reportInfo (G.arrive n l m) subtree ((l.msgs ++ [m]).filter (·.isInGroup)) [] with
        isDefaultGroup := if subtree + 1 = Fintype.card N then true else l.isDefaultGroup
        knownRootNode := some n, isNewRoot := true, inPhaseTwo := true, hasRoot := true } [] true
  /-- The group is empty. -/
  | rootEmpty (m : GroupCollectiveMsg N) : Ready (G.arrive n l m) → n = G.tree.root →
      G.isInGroup n = false → (l.msgs ++ [m]).filter (·.isInGroup) = [] →
      Does n l src (.upTree m)
      { reportInfo (G.arrive n l m) 0 [] [] with isEmptyGroup := true, inPhaseTwo := true } [] true
  /-- The root is not in the group, and chooses another one. -/
  | rootOut (m first msg : GroupCollectiveMsg N) (rest : List (GroupCollectiveMsg N))
      (subtree : ℕ) : Ready (G.arrive n l m) → n = G.tree.root → G.isInGroup n = false →
      (first :: rest).Perm ((l.msgs ++ [m]).filter (·.isInGroup)) → Does n l src (.upTree m)
      { reportInfo (G.arrive n l m) subtree [] rest with
        knownRootNode := some first.child, isNewRoot := false, hasRoot := true
        inPhaseTwo := true }
      ((first.child, .newRoot msg) :: rest.map fun m => (first.child, .downTree m)) true
  | newRoot (m : GroupCollectiveMsg N) : Does n l src (.newRoot m)
      { l with knownRootNode := some n, hasRoot := true, isNewRoot := true } [] false
  | keep (m : GroupCollectiveMsg N) : l.spanChildren.length < 4 → Does n l src (.downTree m)
      { l with spanChildren := l.spanChildren ++ [m.child] } [(src, .downTreeFinished)] false
  | pass (m : GroupCollectiveMsg N) (c : N) : 4 ≤ l.spanChildren.length → c ∈ l.spanChildren →
      Does n l src (.downTree m) { l with sendDown := l.sendDown + 1 }
      [(c, .downTree m), (src, .downTreeFinished)] false
  | answered : Does n l src .downTreeFinished
      { l with sendDownFinished := l.sendDownFinished + 1 } [] true
  | told (root : Option N) (isDefault : Bool) : Does n l src (.finalizeTree root isDefault)
      { l with
        inPhaseTwo := true, knownRootNode := root, hasRoot := true, isDefaultGroup := isDefault
        told := l.told + 1 } [] true

section Cases

variable {G} {n : N} {l : InfoColl N}

omit [Fintype N] [DecidableEq N] in
/-- What is left in a total when the first messages are passed on, with what these have. -/
theorem sum_sub_take {g s : List (GroupCollectiveMsg N)} (hs : s.Perm g) (k : ℕ) :
    (g.map (·.subtreeSize)).sum - ((s.take k).map (·.subtreeSize)).sum +
      ((s.take k).map (·.subtreeSize)).sum = (g.map (·.subtreeSize)).sum := by
  have hsum : (g.map (·.subtreeSize)).sum = ((s.take k).map (·.subtreeSize)).sum +
      ((s.drop k).map (·.subtreeSize)).sum := by
    rw [← sum_append, ← map_append, take_append_drop]
    exact ((hs.map _).sum_eq).symm
  omega

omit [Fintype N] [DecidableEq N] in
/-- The four cases of `upTree` below the root. -/
theorem upTreeInner_report (ms : List (GroupCollectiveMsg N)) (hl : l.reported = true)
    (hs : l.subtree = ((ms.filter (·.isInGroup)).map (·.subtreeSize)).sum) :
    ∃ own up span down target subtree, G.Report n ms own up span down target ∧
      G.upTreeInner n l (ms.filter (·.isInGroup)) =
        (reportInfo l subtree span down, reportOut (G.tree.parent n) own up down target) := by
  generalize hg : ms.filter (·.isInGroup) = g at hs
  simp only [upTreeInner]
  by_cases h₁ : G.isInGroup n ∧ (g.length = 2 ∨ g.length = 0)
  · -- the messages become children
    rw [if_pos h₁]
    refine ⟨⟨G.isInGroup n, l.subtree + if G.isInGroup n then 1 else 0, n, nextLevel g, 0⟩, [], g,
      [], n, l.subtree, ⟨?_, rfl, rfl, rfl, ?_, ?_, .inr rfl, ?_⟩, ?_⟩
    · simp [hg]
    · simp [h₁, hs, hg]
    · simp [h₁]
    · simp
    · simp [reportInfo, reportOut, ← hl]
  rw [if_neg h₁]
  by_cases h₂ : ¬ G.isInGroup n ∧ g.length < 3
  · -- all messages are passed on
    rw [if_pos h₂]
    refine ⟨⟨G.isInGroup n, l.subtree - (g.map (·.subtreeSize)).sum, n, 0, g.length⟩, g, [], [], n,
      l.subtree - (g.map (·.subtreeSize)).sum, ⟨?_, rfl, rfl, rfl, ?_, ?_, .inl rfl, ?_⟩, ?_⟩
    · simp [hg]
    · simp [h₂.1]
    · simp
    · simp
    · simp [reportInfo, reportOut, ← hl]
  rw [if_neg h₂]
  by_cases h₃ : G.isInGroup n ∧ g.length = 1
  · rw [if_pos h₃]
    refine ⟨⟨G.isInGroup n, l.subtree - (g.map (·.subtreeSize)).sum +
      if G.isInGroup n then 1 else 0, n, 0, 1⟩, g, [], [], n,
      l.subtree - (g.map (·.subtreeSize)).sum, ⟨?_, rfl, rfl, ?_, ?_, ?_, .inl rfl, ?_⟩, ?_⟩
    · simp [hg]
    · simp [h₃]
    · simp [h₃, hs, hg, Nat.add_comm]
    · simp
    · simp
    · simp [reportInfo, reportOut, ← hl]
  rw [if_neg h₃]
  -- there are at least three messages, and the larger half is passed on
  have hlen : 1 ≤ g.length / 2 := by
    by_cases hn : G.isInGroup n
    · have hbal : ¬ (g.length = 2 ∨ g.length = 0) := fun h => h₁ ⟨hn, h⟩
      have hone : g.length ≠ 1 := fun h => h₃ ⟨hn, h⟩
      omega
    · have hfew : ¬ g.length < 3 := fun h => h₂ ⟨hn, h⟩
      omega
  have hperm : (G.sort g).reverse.Perm g := (reverse_perm _).trans (G.sort_perm g)
  generalize (G.sort g).reverse = s at hperm
  cases htop : s.take (g.length / 2) with
  | nil =>
    have hcard := congrArg List.length htop
    rw [length_take, hperm.length_eq, length_nil] at hcard
    omega
  | cons first top =>
    have hsum := sum_sub_take hperm (g.length / 2)
    have hlength := congrArg List.length htop
    rw [length_take, hperm.length_eq] at hlength
    rw [htop] at hsum
    refine ⟨⟨G.isInGroup n, (if G.isInGroup n then 1 else 0) +
      (l.subtree - ((first :: top).map (·.subtreeSize)).sum), n, 0, g.length / 2⟩, first :: top, [],
      s.drop (g.length / 2), first.child, l.subtree - ((first :: top).map (·.subtreeSize)).sum,
      ⟨?_, rfl, rfl, ?_, ?_, ?_, .inl rfl, ?_⟩, ?_⟩
    · rw [append_nil, ← htop, take_append_drop, hg]
      exact hperm
    · simp only
      omega
    · intro hn
      simp only [hn, if_true, hs, hg]
      omega
    · simp
    · exact fun _ => ⟨first, mem_cons_self, rfl⟩
    · simp [reportInfo, reportOut, ← hl]

variable (G)

theorem upTree_does (src : N) (m : GroupCollectiveMsg N) (h : Ready (G.arrive n l m)) :
    ∃ l' out fin, G.Does n l src (.upTree m) l' out fin ∧
      G.upTree n (G.arrive n l m) = G.closing n fin (l', out) := by
  by_cases hn : n = G.tree.root
  · simp only [upTree, if_pos hn, upTreeRoot]
    by_cases hg : G.isInGroup n
    · rw [if_pos hg]
      exact ⟨_, _, _, .rootIn m _ h hn hg rfl, by simp [closing, reportInfo, arrive]⟩
    rw [if_neg hg, Bool.not_eq_true] at *
    have hperm := G.sort_perm ((l.msgs ++ [m]).filter (·.isInGroup))
    cases hsort : G.sort ((l.msgs ++ [m]).filter (·.isInGroup)) with
    | nil =>
      rw [hsort] at hperm
      have hnil := hperm.symm.eq_nil
      rw [hnil] at hsort
      refine ⟨_, _, _, .rootEmpty m h hn hg hnil, ?_⟩
      simp [closing, reportInfo, arrive, hnil, hsort]
    | cons first rest =>
      rw [hsort] at hperm
      refine ⟨_, _, _, .rootOut m first ⟨true, 0, first.child, 0,
        ((l.msgs ++ [m]).filter (·.isInGroup)).length - 1⟩ rest
        (((l.msgs ++ [m]).filter (·.isInGroup)).map (·.subtreeSize)).sum h hn hg hperm, ?_⟩
      simp only [arrive, hsort]
      simp [closing, reportInfo]
  · obtain ⟨own, up, span, down, target, subtree, hr, heq⟩ := upTreeInner_report (G := G) (n := n)
      (l := { G.arrive n l m with
        subtree := (((l.msgs ++ [m]).filter (·.isInGroup)).map (·.subtreeSize)).sum
        reported := true }) (l.msgs ++ [m]) rfl rfl
    refine ⟨_, _, _, .report m own up span down target subtree h hn hr, ?_⟩
    simp only [upTree, if_neg hn, closing, Bool.false_eq_true, if_false]
    exact heq

theorem dispatch_does (n : N) (l : InfoColl N) (src : N) (msg : CollMsg N) :
    ∃ l' out fin, G.Does n l src msg l' out fin ∧
      G.dispatch n l src msg = G.closing n fin (l', out) := by
  cases msg with
  | setupCollective =>
    by_cases hcard : Fintype.card N = 1
    · refine ⟨_, _, _, .singular hcard, ?_⟩
      simp only [dispatch, setupCollective, closing, hcard, setupCollectiveSingular]
      cases G.isInGroup n <;> rfl
    · by_cases hc : G.getChildren n = []
      · refine ⟨_, _, _, .leaf hcard hc, ?_⟩
        simp [dispatch, setupCollective, closing, hcard, hc]
      · refine ⟨_, _, _, .inner hcard hc, ?_⟩
        simp [dispatch, setupCollective, closing, hcard, hc]
  | upTree m =>
    by_cases h : Ready (G.arrive n l m)
    · obtain ⟨l', out, fin, hdoes, heq⟩ := G.upTree_does src m h
      exact ⟨l', out, fin, hdoes, by simpa [dispatch, collectiveFn, h] using heq⟩
    · exact ⟨_, _, _, .arrive m h, by simp [dispatch, collectiveFn, closing, h]⟩
  | newRoot m => exact ⟨_, _, _, .newRoot m, by simp [dispatch, closing, newRoot]⟩
  | downTree m =>
    by_cases h : l.spanChildren.length < 4
    · exact ⟨_, _, _, .keep m h, by simp [dispatch, downTree, closing, h]⟩
    · have hlt : G.number m.child % l.spanChildren.length < l.spanChildren.length :=
        Nat.mod_lt _ (by omega)
      have hget := List.getElem?_eq_getElem hlt
      refine ⟨_, _, _, .pass m _ (by omega) (mem_of_getElem? hget), ?_⟩
      simp [dispatch, downTree, closing, h, hget]
  | downTreeFinished =>
    exact ⟨_, _, _, .answered, by simp [dispatch, downTreeFinished, closing]⟩
  | finalizeTree root isDefault =>
    exact ⟨_, _, _, .told root isDefault, by simp [dispatch, finalizeTree, closing]⟩

end Cases

/-! ## Runs -/

/-- The states of the construction. -/
def Reaches : CollSys N → Prop := Reach (· = start) G.step anyStep

/-- Node `n` handled `msg` from `src`. -/
structure Handles (x x' : CollSys N) (n src : N) (msg : CollMsg N) (l : InfoColl N)
    (out : List (N × CollMsg N)) (fin : Bool) : Prop where
  delivers : Delivers G.handle x x' n (src, msg) (G.closing n fin (l, out)).1
    (G.closing n fin (l, out)).2
  isSetup : (x.node n).isSetup ∨ msg = .setupCollective
  does : G.Does n (x.node n) src msg l out fin

variable {G}

theorem step_handles {x x' : CollSys N} {a : N × ℕ} (h : G.step x a = some x') :
    ∃ src msg l out fin, (x.inbox a.1)[a.2]? = some (src, msg) ∧
      G.Handles x x' a.1 src msg l out fin := by
  obtain ⟨⟨src, msg⟩, l', out', hget, hd⟩ := delivers h
  obtain ⟨hset, heq⟩ := Option.ite_none_right_eq_some.mp hd.handled
  obtain ⟨l, out, fin, hdoes, hdisp⟩ := G.dispatch_does a.1 (x.node a.1) src msg
  rw [Option.some.injEq, hdisp] at heq
  refine ⟨src, msg, l, out, fin, hget, ?_, hset, hdoes⟩
  rw [heq]
  exact hd

/-- What holds at the start and is preserved by every message holds in every state. -/
@[elab_as_elim]
theorem Reaches.invariant {P : CollSys N → Prop} (h0 : P start)
    (hstep : ∀ {x x' n src msg l out fin}, G.Reaches x → P x → G.Handles x x' n src msg l out fin →
      P x') {x : CollSys N} (h : G.Reaches x) : P x := by
  refine Reach.invariant_of (Q := G.Reaches) (fun _ hs => hs) ?_ ?_ h
  · rintro s rfl
    exact h0
  · intro s a s' hs hP _ hsa
    obtain ⟨src, msg, l, out, fin, -, hh⟩ := step_handles hsa
    exact hstep hs hP hh

section Effects

variable {x x' : CollSys N} {n src : N} {msg : CollMsg N} {l : InfoColl N}
  {out : List (N × CollMsg N)} {fin : Bool}

omit [Fintype N] [DecidableEq N] in
theorem closing_eq : G.closing n fin (l, out) =
    if fin ∧ l.inPhaseTwo ∧ l.sendDownFinished = l.sendDown then
      ({ l with finalized := l.finalized + 1 },
        out ++ (G.getChildren n).map fun c =>
          (c, .finalizeTree l.knownRootNode l.isDefaultGroup))
    else (l, out) := by
  cases fin with
  | false => simp [closing]
  | true =>
    simp only [closing, finalize, if_true, true_and]
    split <;> simp

variable (h : G.Handles x x' n src msg l out fin)
include h

/-- A field of a node that is not the book of `finalize`. -/
theorem Handles.field {α : Type*} (g : InfoColl N → α)
    (hg : ∀ l k, g { l with finalized := k } = g l) : g (x'.node n) = g l := by
  rw [h.delivers.node_self, closing_eq]
  split
  · exact hg l _
  · rfl

theorem Handles.node_of_ne {m : N} (hm : m ≠ n) : x'.node m = x.node m :=
  h.delivers.node_of_ne hm

/-- A property of all nodes that does not depend on this book. -/
theorem Handles.forall_node {P : N → InfoColl N → Prop}
    (hP : ∀ n l k, P n { l with finalized := k } = P n l) (hx : ∀ m, P m (x.node m)) (hl : P n l)
    (m : N) : P m (x'.node m) := by
  by_cases hm : m = n
  · subst hm
    rw [h.field (P m) (hP m)]
    exact hl
  · rw [h.node_of_ne hm]
    exact hx m

theorem Handles.inflight {y : N} {e : N × CollMsg N} (he : e ∈ x'.inbox y) :
    e ∈ x.inbox y ∨ e.1 = n ∧ (y, e.2) ∈ out ∨
      e.1 = n ∧ fin = true ∧ l.inPhaseTwo = true ∧ y ∈ G.getChildren n ∧
        e.2 = .finalizeTree l.knownRootNode l.isDefaultGroup := by
  rcases h.delivers.inflight y e he with he | ⟨hsrc, he⟩
  · exact .inl he
  · rw [closing_eq] at he
    split at he
    · rename_i hfin
      rcases mem_append.mp he with he | he
      · exact .inr (.inl ⟨hsrc, he⟩)
      · obtain ⟨c, hc, heq⟩ := mem_map.mp he
        rw [Prod.mk.injEq] at heq
        obtain ⟨rfl, hmsg⟩ := heq
        exact .inr (.inr ⟨hsrc, hfin.1, hfin.2.1, hc, hmsg.symm⟩)
    · exact .inr (.inl ⟨hsrc, he⟩)

end Effects

/-- An account that does not see what `finalize` does. -/
structure Ignores (w : N → N × CollMsg N → ℕ) (f : N → InfoColl N → ℕ) : Prop where
  message : ∀ n src r d, w n (src, .finalizeTree r d) = 0
  book : ∀ n l k, f n { l with finalized := k } = f n l

omit [Fintype N] [DecidableEq N] in
theorem Ignores.closing {w : N → N × CollMsg N → ℕ} {f : N → InfoColl N → ℕ} (h : Ignores w f)
    (n : N) (fin : Bool) (l : InfoColl N) (out : List (N × CollMsg N)) :
    outWeight w n (G.closing n fin (l, out)).2 + f n (G.closing n fin (l, out)).1 =
      outWeight w n out + f n l := by
  rw [closing_eq]
  split
  · have hzero : ∀ c, w c (n, .finalizeTree l.knownRootNode l.isDefaultGroup) = 0 :=
      fun c => h.message c n _ _
    simp [outWeight_map, hzero, h.book]
  · rfl

omit [Fintype N] [DecidableEq N] in
theorem outWeight_reportOut {w : N → N × CollMsg N → ℕ} {n p target : N}
    {own : GroupCollectiveMsg N} {up down : List (GroupCollectiveMsg N)} :
    outWeight w n (reportOut p own up down target) = w p (n, .upTree own) +
      (up.map fun m => w p (n, .upTree m)).sum +
      (down.map fun m => w target (n, .downTree m)).sum := by
  simp only [reportOut, outWeight_append, outWeight_cons, outWeight_map]

omit [DecidableEq N] in
theorem start_total (w : N → N × CollMsg N → ℕ) (f : N → InfoColl N → ℕ) :
    (start : CollSys N).total w f = ∑ n, (w n (n, .setupCollective) + f n {}) := by
  simp [total, place, start]

variable {w w' : N → N × CollMsg N → ℕ} {f f' : N → InfoColl N → ℕ} {x x' : CollSys N} {n src : N}
  {msg : CollMsg N} {l : InfoColl N} {out : List (N × CollMsg N)} {fin : Bool}

/-- Two such accounts that agree still agree after a message if the handler changes both by the
same. -/
theorem Handles.balance (h : G.Handles x x' n src msg l out fin) (hi : Ignores w f)
    (hi' : Ignores w' f') (hx : x.total w f = x.total w' f')
    (hstep : outWeight w n out + f n l + (w' n (src, msg) + f' n (x.node n)) =
      outWeight w' n out + f' n l + (w n (src, msg) + f n (x.node n))) :
    x'.total w f = x'.total w' f' := by
  refine h.delivers.balance hx ?_
  rw [hi.closing, hi'.closing]
  exact hstep

/-- Two accounts that agree at the start agree in every state. -/
theorem Reaches.account (hi : Ignores w f) (hi' : Ignores w' f')
    (h0 : (start : CollSys N).total w f = (start : CollSys N).total w' f')
    (hstep : ∀ {x x' n src msg l out fin}, G.Reaches x → x.total w f = x.total w' f' →
      G.Handles x x' n src msg l out fin →
      outWeight w n out + f n l + (w' n (src, msg) + f' n (x.node n)) =
        outWeight w' n out + f' n l + (w n (src, msg) + f n (x.node n)))
    (h : G.Reaches x) : x.total w f = x.total w' f' :=
  Reaches.invariant h0
    (fun hx htotal hh => hh.balance hi hi' htotal (hstep hx htotal hh)) h

/-- What every message to the root of the tree preserves holds of it in every state. -/
theorem Reaches.root {P : InfoColl N → Prop} (hP : ∀ l k, P { l with finalized := k } = P l)
    (h0 : P {})
    (hstep : ∀ {x x' n src msg l out fin}, G.Reaches x → G.Handles x x' n src msg l out fin →
      n = G.tree.root → P (x.node n) → P l) (h : G.Reaches x) : P (x.node G.tree.root) := by
  have key : ∀ n, n = G.tree.root → P (x.node n) := by
    refine Reaches.invariant ?_ ?_ h
    · exact fun _ _ => h0
    · intro x x' n src msg l out fin hx hold hh
      exact hh.forall_node (P := fun n l => n = G.tree.root → P l)
        (fun n l k => congrArg (n = G.tree.root → ·) (hP l k)) hold
        fun hn => hstep hx hh hn (hold n hn)
  exact key _ rfl

end CollGroup

end VtRuntime.Group
