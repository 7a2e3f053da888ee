import VtRuntime.Collective.Scope

/-!
# Planned MPI collectives

If the collectives have stamps of their own, a reduction is complete when all nodes have planned the
same collective, and `runCollective` is broadcast once for each of them.  The scopes of a node hold
what it has planned and not executed.
-/

namespace VtRuntime.Collective

open Lib Function List ScopeSys

variable {N E : Type} [Fintype N] [DecidableEq N] {T : SpanningTree N} {s s' : ScopeSys N E}
  {r r' : ReduceSys N N (ℕ × ℕ) Unit CollId} {n m : N} {c : CollId}

/-! ## The reducer -/

/-- A node passes a message of the reduction on, or completes the reduction. -/
structure Fires (T : SpanningTree N) (r r' : ReduceSys N N (ℕ × ℕ) Unit CollId) (n : N)
    (msg : ReduceMsg N (ℕ × ℕ) Unit CollId) : Prop where
  contributed : r'.contributed = r.contributed
  kept : ∀ m τ, r'.kept m τ ⊆ r.kept m τ
  origin : ∃ τ, ∃ m ∈ r.kept n τ, m.stamp = msg.stamp ∧ m.val = msg.val
  up : r'.up = r.up ++ if n = T.root then [] else [(T.parent n, msg)]
  rootRuns : r'.rootRuns = r.rootRuns ++ if n = T.root then [(T.root, msg)] else []
  toRoot : r'.toRoot = r.toRoot

omit [Fintype N] in
theorem kept_eraseState_subset (n : N) (σ : ℕ × ℕ) :
    ∀ m τ, (eraseState r n σ).kept m τ ⊆ r.kept m τ := by
  refine forall_pair n σ ?_ fun m τ h => ?_
  · rw [kept_eraseState]
    exact nil_subset _
  · rw [kept_eraseState_of_ne h]
    exact List.Subset.refl _

omit [Fintype N] [DecidableEq N] in
theorem msgHandler_left (fst : ReduceMsg N (ℕ × ℕ) Unit CollId)
    (rest : List (ReduceMsg N (ℕ × ℕ) Unit CollId)) :
    msgHandler (fun a _ => a) (fst :: rest) = some fst := by
  have hleft : ∀ l : List CollId, l.foldl (fun a _ => a) fst.val = fst.val := by
    intro l
    induction l with
    | nil => rfl
    | cons x l ih => exact ih
  rw [msgHandler, hleft]

omit [Fintype N] in
theorem fires_sendOn {σ : ℕ × ℕ} {msg : ReduceMsg N (ℕ × ℕ) Unit CollId} (h : msg ∈ r.kept n σ) :
    Fires T r (sendOn (reducer T) (eraseState r n σ) n T.root msg) n msg := by
  refine ⟨(sendOn_frame ..).2.1, ?_, ⟨σ, msg, h, rfl, rfl⟩, ?_, ?_, ?_⟩
  · intro m τ
    rw [ReduceSys.kept, (sendOn_frame ..).1]
    exact kept_eraseState_subset n σ m τ
  all_goals
    rw [sendOn]
    by_cases hn : n = T.root <;> simp [reducer, hn, eraseState]

theorem startReduce_fires {σ : ℕ × ℕ}
    (hroot : ∀ st, r.state (n, σ) = some st → st.reduceRoot = T.root) :
    startReduce (reducer T) r n σ = r ∨ ∃ msg, Fires T r (startReduce (reducer T) r n σ) n msg := by
  rw [startReduce]
  cases hst : r.state (n, σ) with
  | none => exact .inl rfl
  | some st =>
    dsimp only
    split
    · cases hmsgs : st.msgs with
      | nil => exact .inl rfl
      | cons fst rest =>
        have hfst : fst ∈ r.kept n σ := by
          rw [kept_eq hst, hmsgs]
          exact mem_cons_self
        have hfires := fires_sendOn (T := T) hfst
        rw [← hroot st hst] at hfires
        have hmsg : msgHandler ((reducer T).op st.combineHandler) (fst :: rest) = some fst :=
          msgHandler_left fst rest
        rw [hmsg]
        exact .inr ⟨fst, hfires⟩
    · exact .inl rfl

/-- A property of all messages of the reducer. -/
structure AllMsgs (Q : ReduceMsg N (ℕ × ℕ) Unit CollId → Prop)
    (r : ReduceSys N N (ℕ × ℕ) Unit CollId) : Prop where
  kept : ∀ n τ, ∀ m ∈ r.kept n τ, Q m
  up : ∀ e ∈ r.up, Q e.2
  rootRuns : ∀ e ∈ r.rootRuns, Q e.2

section Msgs

variable {Q Q' : ReduceMsg N (ℕ × ℕ) Unit CollId → Prop}

omit [Fintype N] [DecidableEq N] in
theorem AllMsgs.mono (h : AllMsgs Q r) (hQ : ∀ m, Q m → Q' m) : AllMsgs Q' r :=
  ⟨fun n τ m hm => hQ m (h.kept n τ m hm), fun e he => hQ _ (h.up e he),
    fun e he => hQ _ (h.rootRuns e he)⟩

omit [Fintype N] in
/-- A property of the stamp and the value is kept when messages are combined. -/
theorem AllMsgs.fires {msg : ReduceMsg N (ℕ × ℕ) Unit CollId} (h : AllMsgs Q r)
    (hf : Fires T r r' n msg)
    (hQ : ∀ m m' : ReduceMsg N (ℕ × ℕ) Unit CollId,
      m.stamp = m'.stamp → m.val = m'.val → Q m → Q m') :
    AllMsgs Q r' := by
  obtain ⟨τ, m, hm, hstamp, hval⟩ := hf.origin
  have hmsg : Q msg := hQ m msg hstamp hval (h.kept n τ m hm)
  refine ⟨fun n τ m hm => h.kept n τ m (hf.kept n τ hm), ?_, ?_⟩
  · rw [hf.up]
    refine forall_mem_append.mpr ⟨h.up, fun e he => ?_⟩
    obtain ⟨-, he⟩ := mem_ite_nil_left.mp he
    exact mem_singleton.mp he ▸ hmsg
  · rw [hf.rootRuns]
    refine forall_mem_append.mpr ⟨h.rootRuns, fun e he => ?_⟩
    obtain ⟨-, he⟩ := mem_ite_nil_right.mp he
    exact mem_singleton.mp he ▸ hmsg

omit [Fintype N] in
theorem AllMsgs.add {msg : ReduceMsg N (ℕ × ℕ) Unit CollId} (h : AllMsgs Q r) (hmsg : Q msg)
    (n : N) (isLocal : Bool) (num : Option ℕ) : AllMsgs Q (reduceAddMsg r n msg isLocal num) := by
  refine ⟨forall_pair n msg.stamp ?_ fun m τ hk => ?_, h.up, h.rootRuns⟩
  · rw [kept_reduceAddMsg]
    exact forall_mem_concat (h.kept n _) hmsg
  · rw [kept_reduceAddMsg_of_ne hk]
    exact h.kept m τ

end Msgs

theorem startReduce_of_inv (hi : Inv (reducer T) (reducePlan T) r) (n : N) (σ : ℕ × ℕ) :
    startReduce (reducer T) r n σ = r ∨ ∃ msg, Fires T r (startReduce (reducer T) r n σ) n msg :=
  startReduce_fires fun st hst => (hi.keeps n σ st hst).root

theorem startReduce_frame (hi : Inv (reducer T) (reducePlan T) r) (n : N) (σ : ℕ × ℕ) :
    (startReduce (reducer T) r n σ).contributed = r.contributed ∧
      (startReduce (reducer T) r n σ).toRoot = r.toRoot ∧
      r.rootRuns <+: (startReduce (reducer T) r n σ).rootRuns := by
  rcases startReduce_of_inv hi n σ with heq | ⟨msg, hf⟩
  · rw [heq]
    exact ⟨rfl, rfl, prefix_rfl⟩
  · exact ⟨hf.contributed, hf.toRoot, hf.rootRuns ▸ prefix_append _ _⟩

/-! ## Planning -/

/-- A message of the reducer carries a collective that was planned, under its stamp. -/
def ScopeSys.Stamped (s : ScopeSys N E) (m : ReduceMsg N (ℕ × ℕ) Unit CollId) : Prop :=
  m.val.stamp = m.stamp ∧ ∃ k, m.val ∈ (s.node k).planned

theorem stamped_startReduce (hi : Inv (reducer T) (reducePlan T) r)
    (h : AllMsgs s.Stamped r) (n : N)
    (σ : ℕ × ℕ) : AllMsgs s.Stamped (startReduce (reducer T) r n σ) := by
  rcases startReduce_of_inv hi n σ with heq | ⟨msg, hf⟩
  · rw [heq]
    exact h
  · refine h.fires hf ?_
    intro m m' hstamp hval hm
    rw [ScopeSys.Stamped, ← hstamp, ← hval]
    exact hm

/-- The collectives planned have stamps of their own, and each node has contributed to the
reductions of those it planned. -/
structure Planning (T : SpanningTree N) (s : ScopeSys N E) : Prop where
  reaches : s.reduce.Reaches (reducer T) (reducePlan T)
  nodup : ∀ n, (s.node n).planned.Nodup
  unique : ∀ n m, ∀ c ∈ (s.node n).planned, ∀ c' ∈ (s.node m).planned, c.stamp = c'.stamp → c = c'
  contributed : ∀ n σ, s.reduce.contributed (n, σ) = (s.node n).planned.filter (·.stamp = σ)
  msgs : AllMsgs s.Stamped s.reduce
  toRoot : s.reduce.toRoot = []
  seq : ∀ n key impl, (s.node n).scopes key = some impl →
    ∀ c ∈ (s.node n).planned, c.key = key → c.seq < impl.nextSeq

namespace Planning

/-- A step that plans nothing. -/
theorem congr (h : Planning T s) (hr : s'.reduce = s.reduce)
    (hproduced : ∀ n, (s'.node n).produced = (s.node n).produced)
    (hscopes : ∀ n key impl', (s'.node n).scopes key = some impl' →
      ∃ impl, (s.node n).scopes key = some impl ∧ impl.nextSeq = impl'.nextSeq) :
    Planning T s' := by
  have hplanned : ∀ n, (s'.node n).planned = (s.node n).planned :=
    fun n => congrArg (List.map _) (hproduced n)
  have hstamped : s'.Stamped = s.Stamped := by
    funext m
    simp only [ScopeSys.Stamped, hplanned]
  refine ⟨hr ▸ h.reaches, ?_, ?_, ?_, ?_, hr ▸ h.toRoot, ?_⟩
  · exact fun n => hplanned n ▸ h.nodup n
  · intro n m
    rw [hplanned, hplanned]
    exact h.unique n m
  · intro n σ
    rw [hr, hplanned]
    exact h.contributed n σ
  · rw [hr, hstamped]
    exact h.msgs
  · intro n key impl' himpl'
    obtain ⟨impl, himpl, hnext⟩ := hscopes n key impl' himpl'
    rw [hplanned, ← hnext]
    exact h.seq n key impl himpl

theorem reduceUp (h : Planning T s) {i : ℕ}
    (hstep : s.reduce.step (reducer T) (reducePlan T) (.up i) = some r) :
    Planning T (s.announce r) ∧ s.reduce.rootRuns <+: r.rootRuns := by
  have hreaches : r.Reaches (reducer T) (reducePlan T) := h.reaches.next trivial hstep
  obtain ⟨e, he, rfl⟩ := Option.map_eq_some_iff.mp hstep
  have hadd := (reaches_inv h.reaches).1.receive he
  obtain ⟨hcontributed, htoRoot, hruns⟩ := startReduce_frame hadd e.1 e.2.stamp
  refine ⟨⟨hreaches, h.nodup, h.unique, ?_, ?_, ?_, h.seq⟩, hruns⟩
  · intro n σ
    exact (congrFun hcontributed (n, σ)).trans (h.contributed n σ)
  · have hmsg : s.Stamped e.2 := h.msgs.up e (mem_of_getElem? he)
    have htaken : AllMsgs s.Stamped
        { s.reduce with up := s.reduce.up.eraseIdx i, handled := e.2.stamp :: s.reduce.handled } :=
      ⟨h.msgs.kept, fun e he => h.msgs.up e (mem_of_mem_eraseIdx he), h.msgs.rootRuns⟩
    exact stamped_startReduce hadd (htaken.add hmsg e.1 false none) e.1 e.2.stamp
  · exact htoRoot.trans h.toRoot

variable {key : Bool × ℕ} {impl : ScopeImpl E}

/-- The stamp of a collective that is planned now is not in use. -/
theorem stamp_ne (h : Planning T s) (himpl : (s.node n).scopes key = some impl)
    (hsep : ∀ m, (⟨!key.1, key.2, impl.nextSeq⟩ : CollId) ∉ (s.node m).planned)
    (hc : c ∈ (s.node m).planned) (hstamp : c.stamp = (key.2, impl.nextSeq)) :
    c = ⟨key.1, key.2, impl.nextSeq⟩ ∧ m ≠ n := by
  obtain ⟨u, k, q⟩ := c
  obtain ⟨u', k'⟩ := key
  simp only [CollId.stamp, Prod.mk.injEq] at hstamp
  obtain ⟨rfl, rfl⟩ := hstamp
  have hu : u = u' := by
    by_contra hne
    obtain rfl : u = !u' := Bool.eq_not_of_ne hne
    exact hsep m hc
  subst hu
  refine ⟨rfl, ?_⟩
  rintro rfl
  exact absurd (h.seq m _ impl himpl _ hc rfl) (Nat.lt_irrefl _)

theorem planned_mpiCollectiveAsync (epoch : E) (m : N) :
    ((s.mpiCollectiveAsync T n key impl epoch).node m).planned =
      (s.node m).planned ++ if m = n then [⟨key.1, key.2, impl.nextSeq⟩] else [] := by
  by_cases hm : m = n
  · subst hm
    simp [mpiCollectiveAsync, announce, setNode, ScopeNode.planned]
  · simp [mpiCollectiveAsync, announce, setNode, ScopeNode.planned, hm]

theorem mem_planned_mpiCollectiveAsync (epoch : E) :
    c ∈ ((s.mpiCollectiveAsync T n key impl epoch).node m).planned ↔
      c ∈ (s.node m).planned ∨ m = n ∧ c = ⟨key.1, key.2, impl.nextSeq⟩ := by
  rw [planned_mpiCollectiveAsync]
  by_cases hm : m = n <;> simp [hm]

/-- The sequence numbers of a scope are less than its next one. -/
theorem seq_mpiCollectiveAsync (h : Planning T s) (himpl : (s.node n).scopes key = some impl)
    (epoch : E) {key' : Bool × ℕ} {impl' : ScopeImpl E}
    (himpl' : ((s.mpiCollectiveAsync T n key impl epoch).node m).scopes key' = some impl')
    (hc : c ∈ ((s.mpiCollectiveAsync T n key impl epoch).node m).planned) (hkey : c.key = key') :
    c.seq < impl'.nextSeq := by
  by_cases hm : m = n
  · subst hm
    have hscopes : update (s.node m).scopes key (some
        { impl with
          nextSeq := impl.nextSeq + 1
          plannedCollective := impl.plannedCollective ++ [(impl.nextSeq, epoch)] }) key' =
        some impl' := by
      simpa [mpiCollectiveAsync, announce, setNode] using himpl'
    by_cases hkk : key' = key
    · subst hkk
      rw [update_self, Option.some.injEq] at hscopes
      rw [← hscopes]
      rcases (mem_planned_mpiCollectiveAsync epoch).mp hc with hc | ⟨-, rfl⟩
      · exact Nat.lt_succ_of_lt (h.seq m key' impl himpl c hc hkey)
      · exact Nat.lt_succ_self _
    · rw [update_of_ne hkk] at hscopes
      rcases (mem_planned_mpiCollectiveAsync epoch).mp hc with hc | ⟨-, rfl⟩
      · exact h.seq m key' impl' hscopes c hc hkey
      · exact absurd hkey.symm hkk
  · rcases (mem_planned_mpiCollectiveAsync epoch).mp hc with hc | ⟨hmn, -⟩
    · refine h.seq m key' impl' ?_ c hc hkey
      simpa [mpiCollectiveAsync, announce, setNode, hm] using himpl'
    · exact absurd hmn hm

/-- The books of the reducer record the contribution. -/
theorem contributed_record_planned (h : Planning T s) (σ : ℕ × ℕ) :
    (s.reduce.record n c.stamp c).contributed (m, σ) =
      ((s.node m).planned ++ if m = n then [c] else []).filter (·.stamp = σ) := by
  rw [filter_append, ← h.contributed m σ]
  by_cases hk : (m, σ) = (n, c.stamp)
  · obtain ⟨rfl, rfl⟩ := Prod.mk.inj hk
    exact (contributed_record c).trans (by simp)
  · refine (contributed_record_of_ne hk).trans ?_
    split
    · next hm =>
      have hσ : c.stamp ≠ σ := fun hσ => hk (by rw [hm, hσ])
      simp [hσ]
    · simp

/-- A node plans a collective with a stamp of its own. -/
theorem mpiCollectiveAsync (h : Planning T s) (himpl : (s.node n).scopes key = some impl)
    (hsep : ∀ m, (⟨!key.1, key.2, impl.nextSeq⟩ : CollId) ∉ (s.node m).planned) (epoch : E) :
    Planning T (s.mpiCollectiveAsync T n key impl epoch) ∧
      s.reduce.rootRuns <+: (s.mpiCollectiveAsync T n key impl epoch).reduce.rootRuns := by
  set c : CollId := ⟨key.1, key.2, impl.nextSeq⟩ with hcdef
  have hfresh : ∀ m, ∀ c' ∈ (s.node m).planned, c'.stamp = c.stamp → c' = c ∧ m ≠ n :=
    fun m c' hc' hstamp => h.stamp_ne himpl hsep hc' hstamp
  have hzero : s.reduce.contributed (n, c.stamp) = [] := by
    rw [h.contributed, filter_eq_nil_iff]
    intro c' hc' hstamp
    exact (hfresh n c' hc' (of_decide_eq_true hstamp)).2 rfl
  have hlt : (s.reduce.contributed (n, c.stamp)).length < (reducePlan T).numContrib n c.stamp := by
    rw [hzero]
    exact Nat.one_pos
  have hreaches : (reduceImmediate T s.reduce n c).Reaches (reducer T) (reducePlan T) :=
    h.reaches.next (a := .contribute n c.stamp c) trivial (if_pos hlt)
  have hadd := (reaches_inv h.reaches).1.contribute ⟨c.stamp, (), T.root, c⟩ c hlt ⟨rfl, rfl⟩
  obtain ⟨hcontributed, htoRoot, hruns⟩ := startReduce_frame hadd n c.stamp
  have hmem : ∀ m c', c' ∈ ((s.mpiCollectiveAsync T n key impl epoch).node m).planned ↔
      c' ∈ (s.node m).planned ∨ m = n ∧ c' = c := fun m c' => mem_planned_mpiCollectiveAsync epoch
  refine ⟨⟨hreaches, ?_, ?_, ?_, ?_, htoRoot.trans h.toRoot, ?_⟩, hruns⟩
  · intro m
    rw [planned_mpiCollectiveAsync]
    split
    · next hm =>
      refine nodup_append.mpr ⟨h.nodup m, nodup_singleton c, ?_⟩
      rintro c' hc' d hd rfl
      exact (hfresh m c' hc' (congrArg _ (mem_singleton.mp hd))).2 hm
    · rw [append_nil]
      exact h.nodup m
  · intro m m' c₁ h₁ c₂ h₂ hstamp
    rcases (hmem m c₁).mp h₁ with h₁ | ⟨-, rfl⟩
    · rcases (hmem m' c₂).mp h₂ with h₂ | ⟨-, rfl⟩
      · exact h.unique m m' c₁ h₁ c₂ h₂ hstamp
      · exact (hfresh m c₁ h₁ hstamp).1
    · rcases (hmem m' c₂).mp h₂ with h₂ | ⟨-, rfl⟩
      · exact (hfresh m' c₂ h₂ hstamp.symm).1.symm
      · rfl
  · intro m σ
    rw [planned_mpiCollectiveAsync]
    exact (congrFun hcontributed (m, σ)).trans (h.contributed_record_planned σ)
  · have hold : AllMsgs (s.mpiCollectiveAsync T n key impl epoch).Stamped s.reduce :=
      h.msgs.mono fun m hm => ⟨hm.1, hm.2.imp fun k hk => (hmem k _).mpr (.inl hk)⟩
    have hrec : AllMsgs (s.mpiCollectiveAsync T n key impl epoch).Stamped
        (s.reduce.record n c.stamp c) := ⟨hold.kept, hold.up, hold.rootRuns⟩
    exact stamped_startReduce hadd (hrec.add ⟨rfl, n, (hmem n c).mpr (.inr ⟨rfl, rfl⟩)⟩
      n true _) n _
  · exact fun _ _ _ himpl' _ => h.seq_mpiCollectiveAsync himpl epoch himpl'

end Planning

/-- The collectives for which `runCollective` was broadcast. -/
def ScopeSys.announced (s : ScopeSys N E) : List CollId := s.reduce.rootRuns.map (·.2.val)

namespace Planning

variable (h : Planning T s)
include h

/-- A collective that is announced was planned by all nodes. -/
theorem planned_of_announced (hc : c ∈ s.announced) (n : N) : c ∈ (s.node n).planned := by
  obtain ⟨e, he, rfl⟩ := mem_map.mp hc
  obtain ⟨hstamp, k, hk⟩ := h.msgs.rootRuns e he
  have hi := (reaches_inv h.reaches).1
  have hroot : s.reduce.fired (reducePlan T) e.2.stamp (reducer T).tree.root = 1 := by
    have hpos : 0 < s.reduce.rootRuns.countP (·.2.stamp = e.2.stamp) :=
      countP_pos_iff.mpr ⟨e, he, decide_eq_true rfl⟩
    have hfrom := hi.root e.2.stamp
    have hle := fired_le (s := s.reduce) (P := reducePlan T) (σ := e.2.stamp)
      (n := (reducer T).tree.root)
    rw [ReduceSys.fromRoot] at hfrom
    omega
  have hlen := (fired_eq_one.mp (fired_all hi hroot n)).2
  rw [h.contributed] at hlen
  have hpos : 0 < ((s.node n).planned.filter (·.stamp = e.2.stamp)).length := by
    rw [hlen]
    exact Nat.one_pos
  obtain ⟨c', hc'⟩ := exists_mem_of_length_pos hpos
  obtain ⟨hplanned, hσ⟩ := mem_filter.mp hc'
  have hσ : c'.stamp = e.2.stamp := of_decide_eq_true hσ
  have heq := h.unique n k c' hplanned e.2.val hk (hσ.trans hstamp.symm)
  exact heq ▸ hplanned

theorem nodup_announced : s.announced.Nodup := by
  refine nodup_iff_count_le_one.mpr ?_
  intro c
  have hi := (reaches_inv h.reaches).1
  have hfrom := hi.root c.stamp
  have hle := fired_le (s := s.reduce) (P := reducePlan T) (σ := c.stamp)
    (n := (reducer T).tree.root)
  have hcount : s.announced.count c ≤ s.reduce.rootRuns.countP (·.2.stamp = c.stamp) := by
    rw [announced, List.count, countP_map]
    refine countP_mono_left ?_
    intro e he heq
    have hval : e.2.val = c := by simpa using heq
    rw [decide_eq_true_iff, ← hval]
    exact (h.msgs.rootRuns e he).1.symm
  rw [ReduceSys.fromRoot] at hfrom
  omega

/-- A collective that all nodes have planned is announced when no message of the reducer is in
flight. -/
theorem announced_of_quiet (hup : s.reduce.up = []) (hc : ∀ n, c ∈ (s.node n).planned) :
    c ∈ s.announced := by
  obtain ⟨hi, hw⟩ := reaches_inv h.reaches
  have hcomplete : s.reduce.Complete (reducePlan T) c.stamp := by
    intro n
    have hall : ∀ c' ∈ (s.node n).planned.filter (·.stamp = c.stamp), c' = c := by
      intro c' hc'
      obtain ⟨hmem, hstamp⟩ := mem_filter.mp hc'
      exact h.unique n n c' hmem c (hc n) (of_decide_eq_true hstamp)
    have hmem : c ∈ (s.node n).planned.filter (·.stamp = c.stamp) :=
      mem_filter.mpr ⟨hc n, decide_eq_true rfl⟩
    have hone := count_eq_one_of_mem ((h.nodup n).filter _) hmem
    rw [count_eq_length.mpr fun c' hc' => (hall c' hc').symm] at hone
    rw [h.contributed]
    exact hone
  have hquiet : s.reduce.Quiet c.stamp := by
    constructor
    · simp [hup]
    · simp [h.toRoot]
  have hfired := fired_of_quiet hi hw hcomplete hquiet (reducer T).tree.root
  have hfrom := hi.root c.stamp
  rw [hfired, ReduceSys.fromRoot, h.toRoot, countP_nil, Nat.zero_add] at hfrom
  obtain ⟨e, he, hstamp⟩ := countP_pos_iff.mp (hfrom ▸ Nat.one_pos)
  obtain ⟨hval, k, hk⟩ := h.msgs.rootRuns e he
  have heq := h.unique k k e.2.val hk c (hc k) (hval.trans (of_decide_eq_true hstamp))
  exact mem_map.mpr ⟨e, he, heq⟩

end Planning

/-! ## The scopes of a node -/

/-- The scopes of a node hold what it has planned and not executed. -/
structure Entries (x : ScopeNode E) : Prop where
  some : ∀ key impl, x.scopes key = some impl → ∀ q e, (q, e) ∈ impl.plannedCollective ↔
    (⟨key.1, key.2, q⟩, e) ∈ x.produced ∧ ⟨key.1, key.2, q⟩ ∉ x.executed
  none : ∀ c ∈ x.planned, x.scopes c.key = none → c ∈ x.executed
  consumed : x.consumed.map (·.1) = x.executed
  produced : ∀ p ∈ x.consumed, p ∈ x.produced

namespace Entries

variable {x : ScopeNode E} {key : Bool × ℕ} {impl : ScopeImpl E}

theorem planned (h : Entries x) (hc : c ∈ x.executed) : c ∈ x.planned := by
  rw [← h.consumed] at hc
  obtain ⟨p, hp, rfl⟩ := mem_map.mp hc
  exact mem_map_of_mem (h.produced p hp)

/-- A scope without entries: all collectives planned in it are executed. -/
theorem executed_of_nil (h : Entries x) (himpl : x.scopes c.key = .some impl)
    (hnil : impl.plannedCollective = []) (hc : c ∈ x.planned) : c ∈ x.executed := by
  obtain ⟨⟨c', e⟩, hp, rfl⟩ := mem_map.mp hc
  by_contra hnot
  have hmem := (h.some _ impl himpl c'.seq e).mpr ⟨hp, hnot⟩
  rw [hnil] at hmem
  exact absurd hmem not_mem_nil

/-- The collective that is planned now. -/
theorem mpiCollectiveAsync (h : Entries x) (himpl : x.scopes key = .some impl)
    (hc : (⟨key.1, key.2, impl.nextSeq⟩ : CollId) ∉ x.planned) (epoch : E) :
    Entries
      { x with
        scopes := update x.scopes key (.some
          { impl with
            nextSeq := impl.nextSeq + 1
            plannedCollective := impl.plannedCollective ++ [(impl.nextSeq, epoch)] })
        produced := x.produced ++ [(⟨key.1, key.2, impl.nextSeq⟩, epoch)] } := by
  have hnew : (⟨key.1, key.2, impl.nextSeq⟩ : CollId) ∉ x.executed :=
    fun hmem => hc (h.planned hmem)
  refine ⟨?_, ?_, h.consumed, fun p hp => mem_append_left _ (h.produced p hp)⟩
  · intro key' impl' himpl' q e
    by_cases hk : key' = key
    · subst hk
      simp only [update_self, Option.some.injEq] at himpl'
      subst himpl'
      simp only [mem_append, mem_singleton, h.some key' impl himpl, Prod.mk.injEq,
        CollId.mk.injEq, true_and]
      constructor
      · rintro (⟨hp, hnot⟩ | ⟨rfl, rfl⟩)
        · exact ⟨.inl hp, hnot⟩
        · exact ⟨.inr ⟨rfl, rfl⟩, hnew⟩
      · rintro ⟨hp | ⟨rfl, rfl⟩, hnot⟩
        · exact .inl ⟨hp, hnot⟩
        · exact .inr ⟨rfl, rfl⟩
    · simp only [update_of_ne hk] at himpl'
      rw [h.some key' impl' himpl' q e, mem_append, mem_singleton]
      refine and_congr_left fun _ => ⟨.inl, ?_⟩
      rintro (hp | heq)
      · exact hp
      · simp only [Prod.mk.injEq, CollId.mk.injEq] at heq
        exact absurd (Prod.ext heq.1.1 heq.1.2.1) hk
  · intro c' hc' hnone
    by_cases hk : c'.key = key
    · simp [hk] at hnone
    · simp only [update_of_ne hk] at hnone
      rw [ScopeNode.planned, map_append, mem_append] at hc'
      rcases hc' with hc' | hc'
      · exact h.none c' hc' hnone
      · rw [mem_singleton.mp hc'] at hk
        exact absurd rfl hk

/-- A scope is replaced by one with the same entries, or erased if there are none. -/
theorem replace (h : Entries x) (himpl : x.scopes key = .some impl) {impl' : Option (ScopeImpl E)}
    (hsome : ∀ i, impl' = .some i → i.plannedCollective = impl.plannedCollective)
    (hnone : impl' = .none → impl.plannedCollective = []) :
    Entries { x with scopes := update x.scopes key impl' } := by
  refine ⟨?_, ?_, h.consumed, h.produced⟩
  · intro key' i hi q e
    by_cases hk : key' = key
    · subst hk
      simp only [update_self] at hi
      rw [hsome i hi]
      exact h.some key' impl himpl q e
    · simp only [update_of_ne hk] at hi
      exact h.some key' i hi q e
  · intro c hc hscope
    by_cases hk : c.key = key
    · subst hk
      simp only [update_self] at hscope
      exact h.executed_of_nil himpl (hnone hscope) hc
    · simp only [update_of_ne hk] at hscope
      exact h.none c hc hscope

theorem exists_entry (h : Entries x) (hc : c ∈ x.planned) (hnot : c ∉ x.executed) :
    ∃ impl e, x.scopes c.key = .some impl ∧
      impl.plannedCollective.find? (·.1 = c.seq) = .some e ∧ (c, e.2) ∈ x.produced := by
  cases hscope : x.scopes c.key with
  | none => exact absurd (h.none c hc hscope) hnot
  | some impl =>
    obtain ⟨⟨c', e⟩, hp, rfl⟩ := mem_map.mp hc
    have hmem := (h.some _ impl hscope c'.seq e).mpr ⟨hp, hnot⟩
    have hfind : (impl.plannedCollective.find? (·.1 = c'.seq)).isSome = true :=
      List.find?_isSome.mpr ⟨_, hmem, decide_eq_true rfl⟩
    obtain ⟨e', he'⟩ := Option.isSome_iff_exists.mp hfind
    refine ⟨impl, e', rfl, he', ?_⟩
    have hseq : e'.1 = c'.seq := by simpa using List.find?_some he'
    have hmem' := ((h.some _ impl hscope e'.1 e'.2).mp (mem_of_find?_eq_some he')).1
    rw [hseq] at hmem'
    exact hmem'

theorem execute (h : Entries x) (himpl : x.scopes c.key = .some impl) {epoch : E}
    (hp : (c, epoch) ∈ x.produced) (impl' : Option (ScopeImpl E))
    (hsome : ∀ i, impl' = .some i →
      i.plannedCollective = impl.plannedCollective.filter (·.1 ≠ c.seq))
    (hnone : impl' = .none → impl.plannedCollective.filter (·.1 ≠ c.seq) = []) :
    Entries
      { x with
        scopes := update x.scopes c.key impl'
        running := .none
        executed := x.executed ++ [c]
        consumed := x.consumed ++ [(c, epoch)] } := by
  have hentry : ∀ q e, (q, e) ∈ impl.plannedCollective.filter (·.1 ≠ c.seq) ↔
      (⟨c.key.1, c.key.2, q⟩, e) ∈ x.produced ∧
        (⟨c.key.1, c.key.2, q⟩ : CollId) ∉ x.executed ++ [c] := by
    intro q e
    have hne : q ≠ c.seq ↔ (⟨c.key.1, c.key.2, q⟩ : CollId) ≠ c := by
      rw [not_iff_not]
      exact ⟨fun hq => by rw [hq]; rfl, fun heq => congrArg CollId.seq heq⟩
    rw [mem_filter, h.some _ impl himpl, decide_eq_true_iff, mem_append,
      mem_singleton, not_or, and_assoc, hne]
  refine ⟨?_, ?_, ?_, ?_⟩
  · intro key' i hi q e
    by_cases hk : key' = c.key
    · subst hk
      simp only [update_self] at hi
      rw [hsome i hi]
      exact hentry q e
    · simp only [update_of_ne hk] at hi
      have hne : (⟨key'.1, key'.2, q⟩ : CollId) ≠ c := fun heq => hk (congrArg CollId.key heq)
      simp [h.some key' i hi q e, hne]
  · intro c' hc' hscope
    by_cases hk : c'.key = c.key
    · obtain ⟨⟨d, e⟩, hp', rfl⟩ := mem_map.mp hc'
      rw [hk] at hscope
      simp only [update_self] at hscope
      by_contra hnot
      have hd : (⟨c.key.1, c.key.2, d.seq⟩ : CollId) = d := by rw [← hk]; rfl
      have hmem := (hentry d.seq e).mpr (by rw [hd]; exact ⟨hp', hnot⟩)
      rw [hnone hscope] at hmem
      exact absurd hmem not_mem_nil
    · simp only [update_of_ne hk] at hscope
      exact mem_append_left _ (h.none c' hc' hscope)
  · rw [map_append, h.consumed]
    rfl
  · exact forall_mem_concat h.produced hp

end Entries

end VtRuntime.Collective
