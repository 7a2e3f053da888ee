import VtRuntime.Group.CollectiveSpan

/-!
# The end of the construction on a node

After its report the root of the initial tree knows the root of the new tree.  It tells the other
nodes along the initial tree.  A node passes this on when all its messages down are answered.
-/

namespace VtRuntime.Group

open Lib Network List Nat

universe u

namespace CollGroup

variable {N : Type u} [Fintype N] [DecidableEq N] {G : CollGroup N} {x x' : CollSys N} {n src : N}
  {msg : CollMsg N} {l l' : InfoColl N} {out : List (N × CollMsg N)} {fin : Bool}

/-! ## Messages down and their answers -/

/-- The messages down that `p` has sent, and the answers to it. -/
def pendingW (p : N) : N → N × CollMsg N → ℕ
  | _, (src, .downTree _) => if src = p then 1 else 0
  | q, (_, .downTreeFinished) => if q = p then 1 else 0
  | _, _ => 0

/-- The handler counts the messages down and the answers. -/
theorem Does.pending (h : G.Does n l src msg l' out fin) (he : G.Expects n l msg) (p : N) :
    outWeight (pendingW p) n out + (if n = p then l'.sendDownFinished else 0) +
        (if n = p then l.sendDown else 0) =
      (if n = p then l'.sendDown else 0) +
        (pendingW p n (src, msg) + if n = p then l.sendDownFinished else 0) := by
  cases h with
  | report m own up span down target subtree =>
    have hdown : (down.map fun m => pendingW p target (n, .downTree m)).sum =
        if n = p then down.length else 0 := by
      by_cases hn : n = p <;> simp [pendingW, hn]
    rw [outWeight_reportOut, hdown]
    by_cases hn : n = p <;> simp [pendingW, reportInfo, CollGroup.arrive, hn]
    omega
  | rootOut m first _ rest =>
    have hdown : (rest.map fun m => pendingW p first.child (n, .downTree m)).sum =
        if n = p then rest.length else 0 := by
      by_cases hn : n = p <;> simp [pendingW, hn]
    rw [outWeight_cons, outWeight_map, hdown]
    by_cases hn : n = p <;> simp [pendingW, reportInfo, CollGroup.arrive, hn]
    omega
  | keep m | pass m | answered =>
    by_cases hn : n = p <;> simp [pendingW, hn, add_comm, add_left_comm]
  | singular | leaf | inner =>
    rw [he.fresh rfl]
    simp [pendingW]
  | _ => by_cases hn : n = p <;> simp [pendingW, reportInfo, CollGroup.arrive, hn, add_comm]

/-- The messages down that are not counted as answered are on their way, or their answers are. -/
theorem Reaches.answered (h : G.Reaches x) (p : N) :
    x.flight (pendingW p) + (x.node p).sendDownFinished = (x.node p).sendDown := by
  have key : x.total (pendingW p) (fun n l => if n = p then l.sendDownFinished else 0) =
      x.total (fun _ _ => 0) fun n l => if n = p then l.sendDown else 0 := by
    refine Reaches.account ⟨fun _ _ _ _ => rfl, fun _ _ _ => rfl⟩
      ⟨fun _ _ _ _ => rfl, fun _ _ _ => rfl⟩ ?_ ?_ h
    · simp [start_total, pendingW]
    · intro x x' n src msg l out fin hx _ hh
      have hloc := hh.does.pending (hx.expects hx.counts hh) p
      rw [outWeight_zero]
      omega
  rwa [total_at, total_at, flight_zero, zero_add] at key

/-! ## Finalize messages -/

/-- The finalize messages in flight to `c`. -/
def toldW (c : N) : N → N × CollMsg N → ℕ
  | q, (_, .finalizeTree _ _) => if q = c then 1 else 0
  | _, _ => 0

section

variable (h : G.Does n l src msg l' out fin)
include h

theorem Does.finalized_eq : l'.finalized = l.finalized := by
  cases h <;> rfl

theorem Does.told_eq (c : N) :
    (if n = c then l'.told else 0) = toldW c n (src, msg) + if n = c then l.told else 0 := by
  cases h <;> by_cases hn : n = c <;>
    simp [toldW, reportInfo, CollGroup.arrive, hn, add_comm]

/-- The finalize messages that `finalize` sends. -/
theorem outWeight_closing (c : N) :
    outWeight (toldW c) n (G.closing n fin (l', out)).2 +
        (if c ∈ G.getChildren n then l.finalized else 0) =
      if c ∈ G.getChildren n then (G.closing n fin (l', out)).1.finalized else 0 := by
  have hout : outWeight (toldW c) n out = 0 := by
    refine outWeight_eq_zero ?_
    rintro ⟨y, m⟩ hm
    cases m with
    | finalizeTree r b => exact absurd hm (h.finalizeTree_notMem y r b)
    | _ => rfl
  have hfin := h.finalized_eq
  rw [closing_eq]
  split
  · have hsum : ((G.getChildren n).map fun y => if y = c then 1 else 0).sum =
        if c ∈ G.getChildren n then 1 else 0 := by
      rw [sum_map_eq_count, (G.nodup_getChildren n).count]
    simp only [outWeight_append, hout, outWeight_map, toldW, hsum, hfin]
    by_cases hc : c ∈ G.getChildren n <;> simp [hc, add_comm]
  · simp [hout, hfin]

end

/-- A node hears as often as its parent finalizes. -/
theorem Reaches.told_parent (h : G.Reaches x) {c : N} (hc : c ≠ G.tree.root) :
    x.flight (toldW c) + (x.node c).told = (x.node (G.tree.parent c)).finalized := by
  have hmem : ∀ n, c ∈ G.getChildren n ↔ n = G.tree.parent c := by
    intro n
    rw [G.mem_getChildren, and_iff_right hc, eq_comm]
  have key : x.total (toldW c) (fun n l => if n = c then l.told else 0) =
      x.total (fun _ _ => 0) fun n l => if n = G.tree.parent c then l.finalized else 0 := by
    refine Reaches.invariant ?_ ?_ h
    · simp [start_total, toldW]
    · intro x x' n src msg l out fin hx hi hh
      refine hh.delivers.balance hi ?_
      have hout := outWeight_closing hh.does c
      have htold : (G.closing n fin (l, out)).1.told = l.told := by
        rw [closing_eq]
        split <;> rfl
      have hloc := hh.does.told_eq c
      simp only [hmem] at hout
      rw [outWeight_zero, htold]
      omega
  rwa [total_at, total_at, flight_zero, zero_add] at key

/-! ## Agreement with the root of the initial tree -/

/-- What a message says is what the root knows. -/
def Tells (ρ : InfoColl N) (y : N) : CollMsg N → Prop
  | .finalizeTree r b => ρ.reported = true ∧ r = ρ.knownRootNode ∧ b = ρ.isDefaultGroup
  | .newRoot _ => ρ.reported = true ∧ ρ.knownRootNode = some y
  | _ => True

/-- What a node in phase two knows is what the root knows. -/
def Knows (ρ l : InfoColl N) : Prop :=
  l.inPhaseTwo = true → ρ.reported = true ∧ l.knownRootNode = ρ.knownRootNode ∧
    l.isDefaultGroup = ρ.isDefaultGroup

/-- The messages and the nodes agree with the root. -/
structure Agrees (G : CollGroup N) (x : CollSys N) : Prop where
  tells : ∀ y, ∀ d ∈ x.inbox y, Tells (x.node G.tree.root) y d.2
  knows : ∀ n, Knows (x.node G.tree.root) (x.node n)

/-- Another node than the root follows what it hears. -/
theorem Does.knows (h : G.Does n l src msg l' out fin) (he : G.Expects n l msg)
    (hn : n ≠ G.tree.root) {ρ : InfoColl N} (hs : Tells ρ n msg) (hk : Knows ρ l) : Knows ρ l' := by
  cases h with
  | singular hcard => exact absurd (Fintype.card_le_one_iff.mp hcard.le _ _) hn
  | rootIn _ _ _ hroot | rootEmpty _ _ hroot | rootOut _ _ _ _ _ _ hroot => exact absurd hroot hn
  | leaf | inner =>
    rw [he.fresh rfl]
    exact fun h => Bool.noConfusion h
  | newRoot =>
    intro hp
    obtain ⟨hrep, -, hdef⟩ := hk hp
    exact ⟨hrep, hs.2.symm, hdef⟩
  | told => exact fun _ => hs
  | _ => exact hk

/-- What is said and known stays so if the root does not change its mind. -/
def Keeps (ρ ρ' : InfoColl N) : Prop :=
  ρ.reported = true → ρ'.reported = true ∧ ρ'.knownRootNode = ρ.knownRootNode ∧
    ρ'.isDefaultGroup = ρ.isDefaultGroup

omit [Fintype N] [DecidableEq N] in
theorem Tells.mono {ρ ρ' : InfoColl N} {y : N} (h : Tells ρ y msg) (hk : Keeps ρ ρ') :
    Tells ρ' y msg := by
  cases msg with
  | finalizeTree r b =>
    obtain ⟨hrep, rfl, rfl⟩ := h
    obtain ⟨hrep', hroot, hdef⟩ := hk hrep
    exact ⟨hrep', hroot.symm, hdef.symm⟩
  | newRoot =>
    obtain ⟨hrep', hroot, -⟩ := hk h.1
    exact ⟨hrep', hroot.trans h.2⟩
  | _ => trivial

omit [Fintype N] [DecidableEq N] in
theorem Knows.mono {ρ ρ' : InfoColl N} (h : Knows ρ l) (hk : Keeps ρ ρ') : Knows ρ' l := by
  intro hp
  obtain ⟨hrep, hroot, hdef⟩ := h hp
  obtain ⟨hrep', hroot', hdef'⟩ := hk hrep
  exact ⟨hrep', hroot.trans hroot'.symm, hdef.trans hdef'.symm⟩

/-- The root does not change its mind after its report. -/
theorem Does.keeps (h : G.Does n l src msg l' out fin) (he : G.Expects n l msg)
    (hn : n = G.tree.root) (ha : G.AvoidsRoot n msg) : Keeps l l' := by
  intro hrep
  cases h with
  | singular | leaf =>
    rw [he.fresh rfl] at hrep
    exact Bool.noConfusion hrep
  | report m | rootIn m | rootEmpty m | rootOut m =>
    rw [he.reported m rfl] at hrep
    exact Bool.noConfusion hrep
  | newRoot | told => exact absurd hn ha
  | _ => exact ⟨hrep, rfl, rfl⟩

/-- The new root hears of it from the root. -/
theorem Does.tells_of_mem (h : G.Does n l src msg l' out fin) (he : G.Expects n l msg) {y : N}
    {m : CollMsg N} (hm : (y, m) ∈ out) {ρ : InfoColl N} (hρ : n = G.tree.root →
      ρ.reported = l'.reported ∧ ρ.knownRootNode = l'.knownRootNode) : Tells ρ y m := by
  cases m with
  | newRoot =>
    obtain ⟨hroot, -, hrep, hknown⟩ := h.newRoot_of_mem he hm
    exact ⟨(hρ hroot).1.trans hrep, (hρ hroot).2.trans hknown⟩
  | finalizeTree => exact absurd hm (h.finalizeTree_notMem _ _ _)
  | _ => trivial

theorem Agrees.root (hx : G.Reaches x) (hi : G.Agrees x)
    (hh : G.Handles x x' G.tree.root src msg l out fin) : G.Agrees x' := by
  have he := hx.expects hx.counts hh
  have ha := hx.avoidsRoot _ _ hh.delivers.mem
  have hrep : (x'.node G.tree.root).reported = l.reported := hh.field (·.reported) fun _ _ => rfl
  have hknown : (x'.node G.tree.root).knownRootNode = l.knownRootNode :=
    hh.field (·.knownRootNode) fun _ _ => rfl
  have hdef : (x'.node G.tree.root).isDefaultGroup = l.isDefaultGroup :=
    hh.field (·.isDefaultGroup) fun _ _ => rfl
  have hkeeps : Keeps (x.node G.tree.root) (x'.node G.tree.root) := by
    intro h
    rw [hrep, hknown, hdef]
    exact hh.does.keeps he rfl ha h
  -- the root is in phase two only after its report
  have hself : l.inPhaseTwo = true → l.reported = true := by
    intro hp
    by_contra hn
    have hu := hh.does.unknown he rfl ha hx.unknown (Bool.not_eq_true _ ▸ hn)
    rw [hu.2.2] at hp
    exact Bool.noConfusion hp
  refine ⟨?_, ?_⟩
  · rintro y ⟨s, m⟩ hd
    rcases hh.inflight hd with hd | ⟨-, hd⟩ | ⟨-, -, hp, -, hm⟩
    · exact (hi.tells y _ hd).mono hkeeps
    · exact hh.does.tells_of_mem he hd fun _ => ⟨hrep, hknown⟩
    · rw [hm]
      exact ⟨hrep.trans (hself hp), hknown.symm, hdef.symm⟩
  · intro n
    by_cases hn : n = G.tree.root
    · subst hn
      intro hp
      rw [hh.field (·.inPhaseTwo) fun _ _ => rfl] at hp
      exact ⟨hrep.trans (hself hp), rfl, rfl⟩
    · rw [hh.node_of_ne hn]
      exact (hi.knows n).mono hkeeps

theorem Reaches.agrees (h : G.Reaches x) : G.Agrees x := by
  refine Reaches.invariant ?_ ?_ h
  · refine ⟨?_, fun _ h => Bool.noConfusion h⟩
    intro y d hd
    rw [mem_singleton.mp hd]
    trivial
  · intro x x' n src msg l out fin hx hi hh
    by_cases hn : n = G.tree.root
    · subst hn
      exact hi.root hx hh
    · have hroot : x'.node G.tree.root = x.node G.tree.root := hh.node_of_ne (Ne.symm hn)
      have he := hx.expects hx.counts hh
      have hk := hh.does.knows he hn (hi.tells n _ hh.delivers.mem) (hi.knows n)
      refine ⟨?_, ?_⟩
      · rintro y ⟨s, m⟩ hd
        rw [hroot]
        rcases hh.inflight hd with hd | ⟨-, hd⟩ | ⟨-, -, hp, -, hm⟩
        · exact hi.tells y _ hd
        · exact hh.does.tells_of_mem he hd fun h => absurd h hn
        · rw [hm]
          exact hk hp
      · rw [hroot]
        exact hh.forall_node (P := fun _ l => Knows (x.node G.tree.root) l) (fun _ _ _ => rfl)
          hi.knows hk

theorem Reaches.reported_of_phase (h : G.Reaches x) (hp : (x.node n).inPhaseTwo = true) :
    (x.node n).reported = true :=
  h.counts.all_reported (h.agrees.knows n hp).1 n

/-! ## The body of `finalize` -/

/-- A node in phase two without open messages has finalized, and one that was told is in phase
two. -/
structure Finalizes (l : InfoColl N) : Prop where
  finalized : Fintype.card N ≠ 1 → l.inPhaseTwo = true → l.sendDownFinished = l.sendDown →
    1 ≤ l.finalized
  told : 1 ≤ l.told → l.inPhaseTwo = true

theorem Does.told_phase (h : G.Does n l src msg l' out fin) (he : G.Expects n l msg)
    (hl : 1 ≤ l.told → l.inPhaseTwo = true) : 1 ≤ l'.told → l'.inPhaseTwo = true := by
  cases h with
  | singular | rootIn | rootEmpty | rootOut | told => exact fun _ => rfl
  | leaf | inner =>
    rw [he.fresh rfl]
    exact fun h => absurd h (not_succ_le_zero 0)
  | _ => exact hl

/-- A handler that does not call `finalize` leaves nothing for it to do. -/
theorem Does.finalized (h : G.Does n l src msg l' out false) (he : G.Expects n l msg)
    (hphase : l.inPhaseTwo = true → l.reported = true) (hans : l.sendDownFinished ≤ l.sendDown)
    (hl : Finalizes l) : Fintype.card N ≠ 1 → l'.inPhaseTwo = true →
      l'.sendDownFinished = l'.sendDown → 1 ≤ l'.finalized := by
  cases h with
  | singular hcard => exact fun h => absurd hcard h
  | leaf | inner =>
    rw [he.fresh rfl]
    exact fun _ h => Bool.noConfusion h
  | arrive m | report m =>
    intro _ hp
    have hrep := hphase hp
    rw [he.reported m rfl] at hrep
    exact Bool.noConfusion hrep
  | newRoot | keep => exact hl.finalized
  | pass =>
    intro _ _ heq
    exact absurd heq (by simp only; omega)

theorem Reaches.finalizes (h : G.Reaches x) : ∀ n, Finalizes (x.node n) := by
  refine Reaches.invariant ?_ ?_ h
  · exact fun n => ⟨fun _ h => Bool.noConfusion h, fun h => absurd h (not_succ_le_zero 0)⟩
  · intro x x' n src msg l out fin hx hi hh m
    by_cases hm : m = n
    · subst hm
      have he := hx.expects hx.counts hh
      have htold := hh.does.told_phase he (hi m).told
      rw [hh.delivers.node_self, closing_eq]
      split
      · exact ⟨fun _ _ _ => le_add_left 1 _, htold⟩
      · rename_i hnot
        refine ⟨?_, htold⟩
        cases fin with
        | true => exact fun _ hp heq => absurd ⟨rfl, hp, heq⟩ hnot
        | false =>
          have hans := hx.answered m
          exact hh.does.finalized he hx.reported_of_phase (by omega) (hi m)
    · rw [hh.node_of_ne hm]
      exact hi m

/-! ## The end -/

/-- When no message can be handled, every node is set up and no message is in flight. -/
theorem Reaches.quiet_of_stuck (h : G.Reaches x) (hstuck : ∀ a, G.step x a = none) (n : N) :
    (x.node n).isSetup = true ∧ x.inbox n = [] := by
  have hhandled : ∀ d ∈ x.inbox n, ¬ ((x.node n).isSetup = true ∨ d.2 = .setupCollective) := by
    intro d hd hset
    obtain ⟨i, x', hx'⟩ : ∃ i x', deliver G.handle x (n, i) = some x' :=
      exists_deliver hd (if_pos hset)
    have hnone := hstuck (n, i)
    rw [step, hx'] at hnone
    exact Option.some_ne_none _ hnone
  have honce := h.setup_once n
  have hset : (x.node n).isSetup = true := by
    by_contra hnot
    have hzero : x.flight (setupW n) = 0 := by
      refine flight_eq_zero ?_
      rintro q ⟨s, m⟩ hd
      by_cases hm : m = .setupCollective
      · subst hm
        by_cases hq : q = n
        · subst hq
          exact absurd (.inr rfl) (hhandled _ hd)
        · simp [setupW, hq]
      · exact setupW_of_ne n hm
    rw [Bool.not_eq_true] at hnot
    rw [hzero, hnot, Bool.toNat_false] at honce
    omega
  refine ⟨hset, eq_nil_iff_forall_not_mem.mpr ?_⟩
  exact fun d hd => hhandled d hd (.inl hset)

theorem Does.root_phase (h : G.Does n l src msg l' out fin) (he : G.Expects n l msg)
    (hn : n = G.tree.root) (hl : l.reported = true → l.inPhaseTwo = true) :
    l'.reported = true → l'.inPhaseTwo = true := by
  cases h with
  | leaf hcard hnil => exact absurd hn (ne_root_of_leaf hcard hnil)
  | report _ _ _ _ _ _ _ _ hne => exact absurd hn hne
  | inner =>
    rw [he.fresh rfl]
    exact fun h => Bool.noConfusion h
  | singular | rootIn | rootEmpty | rootOut | told => exact fun _ => rfl
  | _ => exact hl

theorem Reaches.root_phase (h : G.Reaches x) :
    (x.node G.tree.root).reported = true → (x.node G.tree.root).inPhaseTwo = true := by
  refine Reaches.root (P := fun l => l.reported = true → l.inPhaseTwo = true) (fun _ _ => rfl)
    (fun h => Bool.noConfusion h) ?_ h
  intro x x' n src msg l out fin hx hh hn hold
  exact hh.does.root_phase (hx.expects hx.counts hh) hn hold

variable (h : G.Reaches x) (hquiet : ∀ n, x.inbox n = [])
include h hquiet

theorem answered_of_quiet (n : N) : (x.node n).sendDownFinished = (x.node n).sendDown := by
  have hans := h.answered n
  rwa [flight_of_quiet hquiet, zero_add] at hans

theorem phase_of_quiet (hset : ∀ n, (x.node n).isSetup = true) (n : N) :
    (x.node n).inPhaseTwo = true := by
  have hroot := h.root_phase (h.counts.reported_of_quiet hset hquiet G.tree.root)
  refine G.tree.induction_down hroot ?_ n
  intro n hn hp
  have hcard : Fintype.card N ≠ 1 := fun hc => hn (Fintype.card_le_one_iff.mp hc.le _ _)
  have hfin := (h.finalizes (G.tree.parent n)).finalized hcard hp (answered_of_quiet h hquiet _)
  have htold := h.told_parent hn
  rw [flight_of_quiet hquiet, zero_add] at htold
  exact (h.finalizes n).told (htold ▸ hfin)

end CollGroup

end VtRuntime.Group
