import VtRuntime.Collective.ScopePlan

/-!
# The order of MPI collectives

The root decides about a collective when it begins its call of `runCollective`, so it decides about
each of them once.  The other nodes follow the root, round by round.

A user scope and a system scope may have the same number.  Then two collectives share a stamp, and
the reduction mixes their contributions.
-/

namespace VtRuntime.Collective

open Lib Function List Option ScopeSys ScopeNode List.Perm

variable {N E : Type} [Fintype N] [DecidableEq N] {T : SpanningTree N} {s s' : ScopeSys N E}
  {r r' : ReduceSys N N (ℕ × ℕ) Unit CollId} {n m : N} {c : CollId}

/-! ## The rounds -/

/-- The messages of the nodes and the rounds of the consensus; `held` are messages that a node is
about to run. -/
structure Consensus (T : SpanningTree N) (held : N → List CollId) (s : ScopeSys N E) : Prop where
  /-- Each message was broadcast to every node. -/
  messages : ∀ n, s.announced.Perm
    (held n ++ s.inbox n ++ (s.node n).postponedCollectives ++ (s.node n).begun)
  decided : s.decided = (s.node T.root).begun
  idle : ∀ n, (s.node n).running = none → held n = [] → (s.node n).postponedCollectives = []
  begun : ∀ n, (s.node n).running ≠ none → 0 < (s.node n).begun.length
  completed : ∀ n, (s.node n).completed ≤ s.decided.length
  barrier : ∀ n, (s.node n).running = some .barrier → (s.node n).begun.length ≤ s.decided.length
  executed : ∀ n, (s.node n).executed = s.decided.take (s.node n).completed

omit [Fintype N] in
theorem Consensus.setNode {held : N → List CollId} (h : Consensus T held s) {x : ScopeNode E}
    (hrunning : x.running = (s.node n).running)
    (hpostponed : x.postponedCollectives = (s.node n).postponedCollectives)
    (hbegun : x.begun = (s.node n).begun) (hexecuted : x.executed = (s.node n).executed) :
    Consensus T held (s.setNode n x) := by
  have hfield : ∀ {α : Type} (f : ScopeNode E → α), f x = f (s.node n) →
      ∀ m, f ((s.setNode n x).node m) = f (s.node m) := fun f hf =>
    (forall_update_iff s.node fun m y => f y = f (s.node m)).mpr ⟨hf, fun _ _ => rfl⟩
  have hcompleted := hfield ScopeNode.completed
    (by simp only [ScopeNode.completed, hrunning, hbegun])
  have hrunning := hfield ScopeNode.running hrunning
  have hpostponed := hfield ScopeNode.postponedCollectives hpostponed
  have hbegun := hfield ScopeNode.begun hbegun
  have hexecuted := hfield ScopeNode.executed hexecuted
  constructor
  · simp only [hpostponed, hbegun]
    exact h.messages
  · simp only [hbegun]
    exact h.decided
  · simp only [hrunning, hpostponed]
    exact h.idle
  · simp only [hrunning, hbegun]
    exact h.begun
  · simp only [hcompleted]
    exact h.completed
  · simp only [hrunning, hbegun]
    exact h.barrier
  · simp only [hcompleted, hexecuted]
    exact h.executed

/-- What holds between any two steps. -/
structure ScopeInv (T : SpanningTree N) (held : N → List CollId) (s : ScopeSys N E) : Prop where
  planning : Planning T s
  entries : ∀ n, Entries (s.node n)
  consensus : Consensus T held s
  aborted : s.aborted = false

/-- What a step of a node keeps: `x` is the new state of the node, and `log` what is decided
then. -/
structure NodeStep (T : SpanningTree N) (s : ScopeSys N E) (n : N) (x : ScopeNode E)
    (held inbox log : List CollId) : Prop where
  produced : x.produced = (s.node n).produced
  nextSeq : ∀ key impl', x.scopes key = some impl' →
    ∃ impl, (s.node n).scopes key = some impl ∧ impl.nextSeq = impl'.nextSeq
  entries : Entries x
  messages : s.announced.Perm (held ++ inbox ++ x.postponedCollectives ++ x.begun)
  grows : s.decided <+: log
  decided : log = if n = T.root then x.begun else s.decided
  idle : x.running = none → held = [] → x.postponedCollectives = []
  begun : x.running ≠ none → 0 < x.begun.length
  completed : x.completed ≤ log.length
  barrier : x.running = some .barrier → x.begun.length ≤ log.length
  executed : x.executed = log.take x.completed

namespace ScopeInv

variable {held : N → List CollId}

theorem nodup_messages (h : ScopeInv T held s) (n : N) :
    (held n ++ s.inbox n ++ (s.node n).postponedCollectives ++ (s.node n).begun).Nodup :=
  (h.consensus.messages n).nodup_iff.mp h.planning.nodup_announced

theorem nodup_decided (h : ScopeInv T held s) : s.decided.Nodup := by
  rw [h.consensus.decided]
  exact (nodup_append.mp (h.nodup_messages T.root)).2.1

theorem planned_of_decided (h : ScopeInv T held s) (hc : c ∈ s.decided) (n : N) :
    c ∈ (s.node n).planned := by
  refine h.planning.planned_of_announced ?_ n
  rw [h.consensus.decided] at hc
  exact (h.consensus.messages T.root).mem_iff.mpr (mem_append_right _ hc)

theorem setNode (h : ScopeInv T held s) {x : ScopeNode E} {held' inbox log : List CollId}
    (hx : NodeStep T s n x held' inbox log) :
    ScopeInv T (update held n held')
      { s.setNode n x with inbox := update s.inbox n inbox, decided := log } := by
  have hgrows := hx.grows.length_le
  refine ⟨h.planning.congr rfl ?_ ?_, ?_, ⟨?_, ?_, ?_, ?_, ?_, ?_, ?_⟩, h.aborted⟩
  · exact (forall_update_iff s.node fun m x => x.produced = (s.node m).produced).mpr
      ⟨hx.produced, fun _ _ => rfl⟩
  · exact (forall_update_iff s.node fun m x => ∀ key impl', x.scopes key = some impl' →
      ∃ impl, (s.node m).scopes key = some impl ∧ impl.nextSeq = impl'.nextSeq).mpr
      ⟨hx.nextSeq, fun _ _ _ impl' himpl' => ⟨impl', himpl', rfl⟩⟩
  · exact (forall_update_iff s.node fun _ x => Entries x).mpr ⟨hx.entries, fun m _ => h.entries m⟩
  · intro m
    change s.announced.Perm _
    by_cases hm : m = n
    · subst hm
      simpa [setNode] using hx.messages
    · simpa [ScopeSys.setNode, hm] using h.consensus.messages m
  · have hdecided := hx.decided
    by_cases hn : n = T.root
    · subst hn
      simpa [setNode] using hdecided
    · rw [if_neg hn, h.consensus.decided] at hdecided
      simpa [ScopeSys.setNode, update_of_ne (Ne.symm hn)] using hdecided
  · intro m
    by_cases hm : m = n
    · subst hm
      simpa [setNode] using hx.idle
    · simpa [ScopeSys.setNode, hm] using h.consensus.idle m
  · exact (forall_update_iff s.node fun _ x => x.running ≠ none → 0 < x.begun.length).mpr
      ⟨hx.begun, fun m _ => h.consensus.begun m⟩
  · exact (forall_update_iff s.node fun _ x => x.completed ≤ log.length).mpr
      ⟨hx.completed, fun m _ => (h.consensus.completed m).trans hgrows⟩
  · exact (forall_update_iff s.node fun _ x => x.running = some .barrier →
      x.begun.length ≤ log.length).mpr
      ⟨hx.barrier, fun m _ hrun => (h.consensus.barrier m hrun).trans hgrows⟩
  · refine (forall_update_iff s.node fun _ x => x.executed = log.take x.completed).mpr
      ⟨hx.executed, fun m _ => ?_⟩
    -- what the root decides now is not for the rounds that are over
    obtain ⟨more, rfl⟩ := hx.grows
    rw [h.consensus.executed m, take_append_of_le_length (h.consensus.completed m)]

/-- The node is not left with a message that it is about to run. -/
theorem setNode_idle (h : ScopeInv T held s) (hheld : update held n [] = fun _ => [])
    {x : ScopeNode E} {log : List CollId} (hx : NodeStep T s n x [] (s.inbox n) log) :
    ScopeInv T (fun _ => []) { s.setNode n x with decided := log } := by
  have hnext := h.setNode hx
  rwa [hheld, update_eq_self] at hnext

omit [Fintype N] in
theorem enter_eq (hscope : n = T.root → ((s.node n).scopes c.key).isSome = true) :
    s.enter T n c =
      { s.setNode n { s.node n with begun := (s.node n).begun ++ [c], running := some .bcast } with
        decided := s.decided ++ if n = T.root then [c] else [] } := by
  rw [enter]
  by_cases hn : n = T.root
  · rw [if_pos hn, if_pos (hscope hn), if_pos hn]
  · rw [if_neg hn, if_neg hn, append_nil]
    rfl

theorem isSome_scope (h : ScopeInv T held s) (hc : c ∈ held T.root) :
    ((s.node T.root).scopes c.key).isSome = true := by
  have hmem : c ∈ held T.root ++ s.inbox T.root ++ (s.node T.root).postponedCollectives :=
    mem_append_left _ (mem_append_left _ hc)
  have hannounced := (h.consensus.messages T.root).mem_iff.mpr (mem_append_left _ hmem)
  have hnot : c ∉ (s.node T.root).executed := by
    intro hex
    rw [h.consensus.executed] at hex
    have hbegun : c ∈ (s.node T.root).begun := h.consensus.decided ▸ mem_of_mem_take hex
    exact (nodup_append.mp (h.nodup_messages T.root)).2.2 c hmem c hbegun rfl
  obtain ⟨impl, -, himpl, -⟩ :=
    (h.entries T.root).exists_entry (h.planning.planned_of_announced hannounced T.root) hnot
  rw [himpl]
  rfl

/-- A node that is about to run a message begins a round. -/
theorem enter (h : ScopeInv T held s) (hheld : held = update (fun _ => []) n [c])
    (hrun : (s.node n).running = none) : ScopeInv T (fun _ => []) (s.enter T n c) := by
  have hscope : n = T.root → ((s.node n).scopes c.key).isSome = true := by
    rintro rfl
    exact h.isSome_scope (by simp [hheld])
  have hstep : NodeStep T s n
      { s.node n with begun := (s.node n).begun ++ [c], running := some .bcast } [] (s.inbox n)
      (s.decided ++ if n = T.root then [c] else []) := by
    have hle := h.consensus.completed n
    have hcompleted : (s.node n).completed = (s.node n).begun.length := by
      simp [completed, hrun]
    refine ⟨rfl, fun _ impl himpl => ⟨impl, himpl, rfl⟩, { h.entries n with }, ?_,
      prefix_append _ _, ?_, ?_, ?_, ?_, ?_, ?_⟩
    · have hmsgs := h.consensus.messages n
      rw [hheld, update_self] at hmsgs
      refine hmsgs.trans ?_
      rw [nil_append, ← append_assoc]
      exact (perm_append_singleton c _).symm
    · by_cases hn : n = T.root
      · subst hn
        rw [if_pos rfl, if_pos rfl, h.consensus.decided]
      · rw [if_neg hn, if_neg hn, append_nil]
    · exact fun hnone => absurd hnone (some_ne_none _)
    · intro _
      simp
    · simp only [completed, length_append, length_singleton, isSome_some,
        if_true]
      omega
    · exact fun hb => absurd hb (by simp)
    · have hsame : ({ s.node n with begun := (s.node n).begun ++ [c], running := some .bcast } :
          ScopeNode E).completed = (s.node n).completed := by
        simp [completed, hrun]
      rw [hsame, take_append_of_le_length hle]
      exact h.consensus.executed n
  rw [enter_eq hscope]
  refine h.setNode_idle ?_ hstep
  rw [hheld, update_idem, Function.update_eq_self_iff.mpr rfl]

omit [Fintype N] in
theorem setNode_self (s : ScopeSys N E) (n : N) : s.setNode n (s.node n) = s := by
  rw [ScopeSys.setNode, update_eq_self]

theorem decided_eq (h : ScopeInv T held s) (n : N) :
    s.decided = if n = T.root then (s.node n).begun else s.decided := by
  split
  · rename_i hn
    rw [hn]
    exact h.consensus.decided
  · rfl

theorem nodeStep_same (h : ScopeInv T held s) (n : N) :
    NodeStep T s n (s.node n) (held n) (s.inbox n) s.decided :=
  ⟨rfl, fun _ impl himpl => ⟨impl, himpl, rfl⟩, h.entries n, h.consensus.messages n, prefix_rfl,
    h.decided_eq n, h.consensus.idle n, h.consensus.begun n, h.consensus.completed n,
    h.consensus.barrier n, h.consensus.executed n⟩

theorem take (h : ScopeInv T (fun _ => []) s) {i : ℕ} (hc : (s.inbox n)[i]? = some c) :
    ScopeInv T (update (fun _ => []) n [c])
      { s with inbox := update s.inbox n ((s.inbox n).eraseIdx i) } := by
  have hstep : NodeStep T s n (s.node n) [c] ((s.inbox n).eraseIdx i) s.decided :=
    { h.nodeStep_same n with
      messages := (h.consensus.messages n).trans
        (((perm_eraseIdx hc).append_right _).append_right _)
      idle := fun _ hnil => absurd hnil (cons_ne_nil _ _) }
  have hnext := h.setNode hstep
  rwa [setNode_self] at hnext

/-- A message is postponed or begins a round. -/
theorem runCollective (h : ScopeInv T (update (fun _ => []) n [c]) s) :
    ScopeInv T (fun _ => []) (s.runCollective T n c) := by
  rw [ScopeSys.runCollective]
  split
  · rename_i hrun
    have hstep : NodeStep T s n
        { s.node n with postponedCollectives := (s.node n).postponedCollectives ++ [c] } []
        (s.inbox n) s.decided := by
      refine { h.nodeStep_same n with entries := { h.entries n with }, messages := ?_, idle := ?_ }
      · have hmsgs := h.consensus.messages n
        rw [update_self] at hmsgs
        refine hmsgs.trans (append_right _ ?_)
        rw [nil_append, ← append_assoc]
        exact (perm_append_singleton c _).symm
      · intro (hnone : (s.node n).running = none)
        simp [hnone] at hrun
    refine h.setNode_idle ?_ hstep
    rw [update_idem, Function.update_eq_self_iff.mpr rfl]
  · rename_i hrun
    exact h.enter rfl (by simpa using hrun)

section

variable (h : ScopeInv T (fun _ => []) s)
include h

theorem bcastDone (hrun : (s.node n).running = some .bcast)
    (hle : (s.node n).begun.length ≤ s.decided.length) :
    ScopeInv T (fun _ => []) (s.setNode n { s.node n with running := some .barrier }) := by
  have hcompleted : ({ s.node n with running := some .barrier } : ScopeNode E).completed =
      (s.node n).completed := by
    simp [completed, hrun]
  have hstep :
      NodeStep T s n { s.node n with running := some .barrier } [] (s.inbox n) s.decided := by
    exact { h.nodeStep_same n with
      entries := { h.entries n with }
      idle := fun hnone => absurd hnone (some_ne_none _)
      begun := fun _ => h.consensus.begun n (hrun ▸ some_ne_none _)
      completed := hcompleted ▸ h.consensus.completed n
      barrier := fun _ => hle
      executed := hcompleted ▸ h.consensus.executed n }
  exact h.setNode_idle (Function.update_eq_self_iff.mpr rfl) hstep

theorem destroy {key : Bool × ℕ} {impl : ScopeImpl E} (himpl : (s.node n).scopes key = some impl) :
    ScopeInv T (fun _ => []) (s.destroy n key impl) := by
  have hstep : NodeStep T s n
      { s.node n with
        scopes := update (s.node n).scopes key
          (if impl.plannedCollective.isEmpty then none else some { impl with live := false }) } []
      (s.inbox n) s.decided := by
    refine { h.nodeStep_same n with nextSeq := ?_, entries := (h.entries n).replace himpl ?_ ?_ }
    · refine (forall_update_iff (s.node n).scopes fun key' i => ∀ impl', i = some impl' → ∃ impl,
        (s.node n).scopes key' = some impl ∧ impl.nextSeq = impl'.nextSeq).mpr
        ⟨fun impl' himpl' => ?_, fun _ _ impl' himpl' => ⟨impl', himpl', rfl⟩⟩
      obtain ⟨-, himpl'⟩ := ite_none_left_eq_some.mp himpl'
      exact ⟨impl, himpl, by rw [← Option.some.inj himpl']⟩
    · intro i hi
      simp only [ite_none_left_eq_some, Option.some.injEq] at hi
      rw [← hi.2]
    · intro hnone
      simpa using hnone
  exact h.setNode_idle (Function.update_eq_self_iff.mpr rfl) hstep

variable (hrun : (s.node n).running = some .barrier)
include hrun

variable (hc : s.decided[(s.node n).begun.length - 1]? = some c)
include hc

/-- The state of a node after it has run a collective, with the message it takes next. -/
theorem nodeStep_execute {impl : ScopeImpl E} {epoch : E}
    (himpl : (s.node n).scopes c.key = some impl) (hp : (c, epoch) ∈ (s.node n).produced)
    {impl' : Option (ScopeImpl E)}
    (hsome : ∀ i, impl' = some i → i.nextSeq = impl.nextSeq ∧
      i.plannedCollective = impl.plannedCollective.filter (·.1 ≠ c.seq))
    (hnone : impl' = none → impl.plannedCollective.filter (·.1 ≠ c.seq) = [])
    (held postponed : List CollId) (hheld : held = [] → postponed = [])
    (hperm : (held ++ postponed).Perm (s.node n).postponedCollectives) :
    NodeStep T s n
      { s.node n with
        scopes := update (s.node n).scopes c.key impl'
        running := none
        postponedCollectives := postponed
        executed := (s.node n).executed ++ [c]
        consumed := (s.node n).consumed ++ [(c, epoch)] } held (s.inbox n) s.decided := by
  have hpos := h.consensus.begun n (hrun ▸ some_ne_none _)
  have hle := h.consensus.barrier n hrun
  have he := (h.entries n).execute himpl hp impl' (fun i hi => (hsome i hi).2) hnone
  refine ⟨rfl, ?_, { he with }, ?_, prefix_rfl, h.decided_eq n, fun _ => hheld,
    fun hne => absurd rfl hne, ?_, ?_, ?_⟩
  · intro key i hi
    by_cases hk : key = c.key
    · subst hk
      simp only [update_self] at hi
      exact ⟨impl, himpl, (hsome i hi).1.symm⟩
    · simp only [update_of_ne hk] at hi
      exact ⟨i, hi, rfl⟩
  · refine (h.consensus.messages n).trans (append_right _ ?_)
    have hswap : (held ++ s.inbox n ++ postponed).Perm (s.inbox n ++ (held ++ postponed)) := by
      rw [← append_assoc (s.inbox n)]
      exact perm_append_comm.append_right _
    exact (hswap.trans (hperm.append_left _)).symm
  · simp only [completed, isSome_none, Bool.false_eq_true, if_false]
    omega
  · exact fun hb => absurd hb (by simp)
  · have hbefore : (s.node n).completed = (s.node n).begun.length - 1 := by
      simp [completed, hrun]
    have hsucc : (s.node n).begun.length = (s.node n).begun.length - 1 + 1 := by omega
    simp only [completed, isSome_none, Bool.false_eq_true, if_false, Nat.sub_zero]
    rw [hsucc, take_add_one, hc, h.consensus.executed n, hbefore]
    rfl

/-- The collective of a round is planned on the node and not executed yet. -/
theorem finish_eq :
    ∃ impl epoch, (s.node n).scopes c.key = some impl ∧ (c, epoch) ∈ (s.node n).produced ∧
      s.finish T n c = (s.execute n c impl epoch).next T n := by
  have hnot : c ∉ (s.node n).executed := by
    have hcompleted : (s.node n).completed = (s.node n).begun.length - 1 := by
      simp [completed, hrun]
    have hnodup := h.nodup_decided.sublist
      (take_sublist ((s.node n).begun.length - 1 + 1) s.decided)
    rw [take_add_one, hc] at hnodup
    rw [h.consensus.executed, hcompleted]
    exact fun hmem => (nodup_append.mp hnodup).2.2 c hmem c (mem_singleton.mpr rfl) rfl
  obtain ⟨impl, e, himpl, hfind, hp⟩ :=
    (h.entries n).exists_entry (h.planned_of_decided (mem_of_getElem? hc) n) hnot
  refine ⟨impl, e.2, himpl, hp, ?_⟩
  rw [finish, himpl]
  dsimp only
  rw [hfind]

/-- A round is over: the collective is executed, and a postponed message begins the next round. -/
theorem finish : ScopeInv T (fun _ => []) (s.finish T n c) := by
  obtain ⟨impl, epoch, himpl, hp, heq⟩ := h.finish_eq hrun hc
  have hsome : ∀ i,
      (if !impl.live && (impl.plannedCollective.filter (·.1 ≠ c.seq)).isEmpty then none
      else some { impl with plannedCollective := impl.plannedCollective.filter (·.1 ≠ c.seq) }) =
        some i → i.nextSeq = impl.nextSeq ∧
          i.plannedCollective = impl.plannedCollective.filter (·.1 ≠ c.seq) := by
    intro i hi
    obtain ⟨-, hi⟩ := ite_none_left_eq_some.mp hi
    rw [← Option.some.inj hi]
    exact ⟨rfl, rfl⟩
  have hnone : (if !impl.live && (impl.plannedCollective.filter (·.1 ≠ c.seq)).isEmpty then none
      else some { impl with plannedCollective := impl.plannedCollective.filter (·.1 ≠ c.seq) }) =
        none → impl.plannedCollective.filter (·.1 ≠ c.seq) = [] := by
    intro hi
    split at hi
    · rename_i hempty
      exact isEmpty_iff.mp (Bool.and_eq_true_iff.mp hempty).2
    · exact absurd hi (some_ne_none _)
  rw [heq, ScopeSys.next, execute]
  simp only [ScopeSys.setNode, update_self]
  cases hlast : (s.node n).postponedCollectives.getLast? with
  | none =>
    have hnil := List.getLast?_eq_none_iff.mp hlast
    exact h.setNode_idle (Function.update_eq_self_iff.mpr rfl) (h.nodeStep_execute hrun hc himpl hp
      hsome hnone [] (s.node n).postponedCollectives (fun _ => hnil) (List.Perm.refl _))
  | some c' =>
    have hsplit : (c' :: (s.node n).postponedCollectives.dropLast).Perm
        (s.node n).postponedCollectives := by
      have heq := dropLast_append_getLast? c' hlast
      exact (perm_append_singleton c' _).symm.trans (of_eq heq)
    have hnext := h.setNode (h.nodeStep_execute hrun hc himpl hp hsome hnone [c']
      (s.node n).postponedCollectives.dropLast
      (fun hnil => absurd hnil (cons_ne_nil _ _)) hsplit)
    rw [update_eq_self] at hnext
    rw [update_idem]
    exact hnext.enter rfl (by simp [ScopeSys.setNode])

end

omit [Fintype N] [DecidableEq N] in
/-- A reduction may be complete, and `runCollective` is broadcast. -/
theorem announce (h : Consensus T (fun _ => []) s) (hr : s.reduce.rootRuns <+: r.rootRuns) :
    Consensus T (fun _ => []) (s.announce r) := by
  refine ⟨?_, h.decided, h.idle, h.begun, h.completed, h.barrier, h.executed⟩
  intro n
  obtain ⟨more, hmore⟩ := hr
  have hmsgs := (h.messages n).append_right (more.map (·.2.val))
  simp only [announced, ScopeSys.announce, ← hmore, drop_left, map_append,
    nil_append] at hmsgs ⊢
  refine hmsgs.trans ?_
  simp only [append_assoc]
  refine append_left _ ?_
  rw [← append_assoc]
  exact perm_append_comm

theorem reduceUp (h : ScopeInv T (fun _ => []) s) {i : ℕ}
    (hstep : s.reduce.step (reducer T) (reducePlan T) (.up i) = some r) :
    ScopeInv T (fun _ => []) (s.announce r) := by
  obtain ⟨hplanning, hruns⟩ := h.planning.reduceUp hstep
  exact ⟨hplanning, h.entries, announce h.consensus hruns, h.aborted⟩

theorem mpiCollectiveAsync (h : ScopeInv T (fun _ => []) s) {key : Bool × ℕ} {impl : ScopeImpl E}
    (himpl : (s.node n).scopes key = some impl)
    (hsep : ∀ m, (⟨!key.1, key.2, impl.nextSeq⟩ : CollId) ∉ (s.node m).planned) (epoch : E) :
    ScopeInv T (fun _ => []) (s.mpiCollectiveAsync T n key impl epoch) := by
  obtain ⟨hplanning, hruns⟩ := h.planning.mpiCollectiveAsync himpl hsep epoch
  have hnew : (⟨key.1, key.2, impl.nextSeq⟩ : CollId) ∉ (s.node n).planned :=
    fun hc => absurd (h.planning.seq n key impl himpl _ hc rfl) (Nat.lt_irrefl _)
  refine ⟨hplanning, ?_, announce (h.consensus.setNode rfl rfl rfl rfl) hruns, h.aborted⟩
  exact (forall_update_iff s.node fun _ x => Entries x).mpr
    ⟨(h.entries n).mpiCollectiveAsync himpl hnew epoch, fun m _ => h.entries m⟩

theorem start (live : Bool × ℕ → Bool) : ScopeInv T (fun _ => []) (start live : ScopeSys N E) := by
  refine ⟨⟨.start rfl, ?_, ?_, ?_, ?_, rfl, ?_⟩, ?_, ⟨?_, rfl, ?_, ?_, ?_, ?_, ?_⟩, rfl⟩
  · exact fun _ => nodup_nil
  · exact fun _ _ _ hc => absurd hc not_mem_nil
  · exact fun _ _ => rfl
  · exact ⟨fun _ _ _ hm => absurd hm not_mem_nil, fun _ he => absurd he not_mem_nil,
      fun _ he => absurd he not_mem_nil⟩
  · exact fun _ _ _ _ _ hc => absurd hc not_mem_nil
  · intro n
    refine ⟨?_, fun _ hc => absurd hc not_mem_nil, rfl, fun _ hp => absurd hp not_mem_nil⟩
    intro key impl himpl q e
    obtain ⟨-, himpl⟩ := ite_none_right_eq_some.mp himpl
    rw [← Option.some.inj himpl]
    exact ⟨fun hq => absurd hq not_mem_nil, fun hp => absurd hp.1 not_mem_nil⟩
  · exact fun _ => List.Perm.refl _
  · exact fun _ _ _ => rfl
  · exact fun _ hrun => absurd rfl hrun
  · exact fun _ => Nat.zero_le _
  · exact fun _ _ => Nat.zero_le _
  · exact fun _ => rfl

theorem run (h : ScopeInv T (fun _ => []) s) {a : ScopeRun N} (hstep : s.run T a = some s') :
    ScopeInv T (fun _ => []) s' := by
  cases a with
  | reduceUp i =>
    obtain ⟨r, hr, rfl⟩ := map_eq_some_iff.mp hstep
    exact h.reduceUp hr
  | runCollective n i =>
    obtain ⟨c, hc, rfl⟩ := map_eq_some_iff.mp hstep
    exact (h.take hc).runCollective
  | bcastDone n =>
    obtain ⟨⟨hrun, hle⟩, rfl⟩ := of_guard hstep
    exact h.bcastDone hrun hle
  | barrierDone n =>
    obtain ⟨⟨hrun, -⟩, hstep⟩ := ite_none_right_eq_some.mp hstep
    obtain ⟨c, hc, rfl⟩ := map_eq_some_iff.mp hstep
    exact h.finish hrun hc

theorem call (h : ScopeInv T (fun _ => []) s) {a : ScopeCall N E} (hsep : s.Separate (.inl a))
    (hstep : s.call T a = some s') : ScopeInv T (fun _ => []) s' := by
  cases a with
  | mpiCollectiveAsync n key epoch =>
    obtain ⟨impl, himpl, hstep⟩ := bind_eq_some_iff.mp hstep
    obtain ⟨-, rfl⟩ := of_guard hstep
    exact h.mpiCollectiveAsync himpl (hsep impl himpl) epoch
  | destroy n key =>
    obtain ⟨impl, himpl, hstep⟩ := bind_eq_some_iff.mp hstep
    obtain ⟨-, rfl⟩ := of_guard hstep
    exact h.destroy himpl

end ScopeInv

/-! ## Every collective is run -/

/-- What a node has still to do for a round. -/
def phaseWeight : Option Phase → ℕ
  | none => 0
  | some .barrier => 1
  | some .bcast => 2

/-- What a node has still to do. -/
def ScopeSys.load (s : ScopeSys N E) (n : N) : ℕ :=
  4 * (s.inbox n).length + 3 * (s.node n).postponedCollectives.length +
    phaseWeight (s.node n).running

/-- A message of the reducer is passed on up to the root, and may lead to a broadcast. -/
def upWeight (T : SpanningTree N) (up : List (N × ReduceMsg N (ℕ × ℕ) Unit CollId)) : ℕ :=
  (up.map fun e => T.depth e.1 + 4 * Fintype.card N + 1).sum

/-- What is still to be done. -/
def ScopeSys.remaining (T : SpanningTree N) (s : ScopeSys N E) : ℕ :=
  upWeight T s.reduce.up + ∑ n, s.load n

/-- A step of node `n`. -/
structure StepsAt (s s' : ScopeSys N E) (n : N) : Prop where
  reduce : s'.reduce = s.reduce
  node : ∀ m, m ≠ n → s'.node m = s.node m
  inbox : ∀ m, m ≠ n → s'.inbox m = s.inbox m
  produced : (s'.node n).produced = (s.node n).produced

namespace StepsAt

omit [Fintype N] in
theorem setNode {x : ScopeNode E} (hx : x.produced = (s.node n).produced) :
    StepsAt s (s.setNode n x) n := by
  refine ⟨rfl, fun m hm => ?_, fun _ _ => rfl, ?_⟩
  · simp [ScopeSys.setNode, hm]
  · simpa [ScopeSys.setNode] using hx

omit [Fintype N] [DecidableEq N] in
theorem trans {s'' : ScopeSys N E} (h : StepsAt s s' n) (h' : StepsAt s' s'' n) : StepsAt s s'' n :=
  ⟨h'.reduce.trans h.reduce, fun m hm => (h'.node m hm).trans (h.node m hm),
    fun m hm => (h'.inbox m hm).trans (h.inbox m hm), h'.produced.trans h.produced⟩

omit [Fintype N] [DecidableEq N] in
theorem planned (h : StepsAt s s' n) (m : N) : (s'.node m).planned = (s.node m).planned := by
  by_cases hm : m = n
  · subst hm
    exact congrArg (List.map _) h.produced
  · rw [h.node m hm]

omit [DecidableEq N] in
theorem remaining_lt (h : StepsAt s s' n) (hlt : s'.load n < s.load n) :
    s'.remaining T < s.remaining T := by
  have hsum : ∑ m, s'.load m < ∑ m, s.load m := by
    refine Finset.sum_lt_sum ?_ ⟨n, Finset.mem_univ n, hlt⟩
    intro m _
    by_cases hm : m = n
    · exact hm ▸ hlt.le
    · rw [load, h.node m hm, h.inbox m hm]
      exact Nat.le_refl _
  rw [remaining, remaining, h.reduce]
  omega

end StepsAt

omit [Fintype N] in
theorem enter_stepsAt (hrun : (s.node n).running = none) :
    StepsAt s (s.enter T n c) n ∧ (s.enter T n c).load n ≤ s.load n + 2 := by
  have hnext : StepsAt s (s.setNode n
      { s.node n with begun := (s.node n).begun ++ [c], running := some .bcast }) n := .setNode rfl
  rw [enter]
  split
  · split
    · refine ⟨⟨hnext.reduce, hnext.node, hnext.inbox, hnext.produced⟩, ?_⟩
      simp [load, setNode, hrun, phaseWeight]
    · exact ⟨⟨rfl, fun _ _ => rfl, fun _ _ => rfl, rfl⟩, Nat.le_add_right _ _⟩
  · refine ⟨hnext, ?_⟩
    simp [load, setNode, hrun, phaseWeight]

omit [Fintype N] in
theorem runCollective_stepsAt {i : ℕ} (hc : (s.inbox n)[i]? = some c) :
    let s' := { s with
      inbox := update s.inbox n ((s.inbox n).eraseIdx i) }.runCollective T n c
    StepsAt s s' n ∧ s'.load n < s.load n := by
  intro s'
  have hlen : ((s.inbox n).eraseIdx i).length + 1 = (s.inbox n).length := by
    obtain ⟨hi, -⟩ := List.getElem?_eq_some_iff.mp hc
    rw [length_eraseIdx_of_lt hi]
    omega
  have htake : StepsAt s
      { s with inbox := update s.inbox n ((s.inbox n).eraseIdx i) } n :=
    ⟨rfl, fun _ _ => rfl, fun m hm => update_of_ne hm _ _, rfl⟩
  simp only [s', runCollective]
  split
  · refine ⟨htake.trans (.setNode rfl), ?_⟩
    simp [load, setNode]
    omega
  · rename_i hrun
    obtain ⟨hstep, hload⟩ := enter_stepsAt (T := T) (c := c)
      (s := { s with inbox := update s.inbox n ((s.inbox n).eraseIdx i) }) (n := n)
      (by simpa using hrun)
    refine ⟨htake.trans hstep, hload.trans_lt ?_⟩
    simp only [load, update_self]
    omega

omit [Fintype N] in
theorem next_stepsAt (hrun : (s.node n).running = none) :
    StepsAt s (s.next T n) n ∧ (s.next T n).load n ≤ s.load n := by
  rw [ScopeSys.next]
  cases hlast : (s.node n).postponedCollectives.getLast? with
  | none => exact ⟨⟨rfl, fun _ _ => rfl, fun _ _ => rfl, rfl⟩, Nat.le_refl _⟩
  | some c =>
    have hlen : (s.node n).postponedCollectives.dropLast.length + 1 =
        (s.node n).postponedCollectives.length := by
      have heq := congrArg List.length (dropLast_append_getLast? c hlast)
      rwa [length_append] at heq
    have hpop : StepsAt s (s.setNode n { s.node n with
        postponedCollectives := (s.node n).postponedCollectives.dropLast }) n := .setNode rfl
    obtain ⟨hstep, hload⟩ := enter_stepsAt (T := T) (c := c) (n := n)
      (s := s.setNode n { s.node n with
        postponedCollectives := (s.node n).postponedCollectives.dropLast })
      (by simpa [setNode] using hrun)
    refine ⟨hpop.trans hstep, hload.trans ?_⟩
    simp only [load, setNode, update_self]
    omega

theorem finish_stepsAt (h : ScopeInv T (fun _ => []) s) (hrun : (s.node n).running = some .barrier)
    (hc : s.decided[(s.node n).begun.length - 1]? = some c) :
    StepsAt s (s.finish T n c) n ∧ (s.finish T n c).load n < s.load n := by
  obtain ⟨impl, epoch, -, -, heq⟩ := h.finish_eq hrun hc
  have hexecute : StepsAt s (s.execute n c impl epoch) n := .setNode rfl
  obtain ⟨hstep, hload⟩ := next_stepsAt (T := T) (s := s.execute n c impl epoch) (n := n)
    (by simp [execute, setNode])
  rw [heq]
  refine ⟨hexecute.trans hstep, hload.trans_lt ?_⟩
  simp [load, execute, setNode, hrun, phaseWeight]

omit [DecidableEq N] in
theorem sum_load_announce (k : ℕ) (hk : (r.rootRuns.drop s.reduce.rootRuns.length).length = k) :
    ∑ n, (s.announce r).load n = ∑ n, s.load n + Fintype.card N * (4 * k) := by
  have hload : ∀ n, (s.announce r).load n = s.load n + 4 * k := by
    intro n
    simp only [load, announce, length_append, length_map, hk]
    omega
  have hconst : ∑ _n : N, 4 * k = Fintype.card N * (4 * k) := by
    rw [Finset.sum_const, Finset.card_univ]
    rfl
  rw [Finset.sum_congr rfl fun n _ => hload n, Finset.sum_add_distrib, hconst]

omit [DecidableEq N] in
theorem upWeight_eraseIdx {up : List (N × ReduceMsg N (ℕ × ℕ) Unit CollId)} {i : ℕ}
    {e : N × ReduceMsg N (ℕ × ℕ) Unit CollId} (he : up[i]? = some e) :
    upWeight T up = upWeight T (up.eraseIdx i) + (T.depth e.1 + 4 * Fintype.card N + 1) := by
  rw [upWeight, ((perm_eraseIdx he).map _).sum_eq, map_cons, sum_cons]
  exact Nat.add_comm ..

/-- A node that fires passes a message on, or runs the reduction as the root. -/
theorem Fires.weight {msg : ReduceMsg N (ℕ × ℕ) Unit CollId} (hf : Fires T r r' n msg) :
    upWeight T r'.up + Fintype.card N * (4 * (r'.rootRuns.drop r.rootRuns.length).length) <
      upWeight T r.up + (T.depth n + 4 * Fintype.card N + 1) := by
  rw [hf.up, hf.rootRuns]
  by_cases hroot : n = T.root
  · simp [hroot]
    omega
  · have hdepth := T.depth_parent n hroot
    simp [hroot, upWeight]
    omega

theorem reduceUp_remaining (h : Planning T s) {i : ℕ}
    (hstep : s.reduce.step (reducer T) (reducePlan T) (.up i) = some r) :
    (s.announce r).remaining T < s.remaining T := by
  obtain ⟨e, he, rfl⟩ := map_eq_some_iff.mp hstep
  have hadd := (reaches_inv h.reaches).1.receive he
  have hweight := upWeight_eraseIdx (T := T) he
  rw [remaining, remaining, sum_load_announce _ rfl, hweight]
  rcases startReduce_of_inv hadd e.1 e.2.stamp with heq | ⟨msg, hf⟩
  · simp only [announce]
    rw [heq]
    simp only [reduceAddMsg, drop_length, length_nil, Nat.mul_zero]
    omega
  · have hfire := hf.weight
    simp only [announce, reduceAddMsg] at hfire ⊢
    omega

namespace ScopeInv

theorem run_remaining (h : ScopeInv T (fun _ => []) s) {a : ScopeRun N}
    (hstep : s.run T a = some s') :
    (∀ m, (s'.node m).planned = (s.node m).planned) ∧ s'.remaining T < s.remaining T := by
  cases a with
  | reduceUp i =>
    obtain ⟨r, hr, rfl⟩ := map_eq_some_iff.mp hstep
    exact ⟨fun _ => rfl, reduceUp_remaining h.planning hr⟩
  | runCollective n i =>
    obtain ⟨c, hc, rfl⟩ := map_eq_some_iff.mp hstep
    obtain ⟨hs, hlt⟩ := runCollective_stepsAt (T := T) hc
    exact ⟨hs.planned, hs.remaining_lt hlt⟩
  | bcastDone n =>
    obtain ⟨⟨hrun, -⟩, rfl⟩ := of_guard hstep
    have hs : StepsAt s (s.setNode n { s.node n with running := some .barrier }) n := .setNode rfl
    refine ⟨hs.planned, hs.remaining_lt ?_⟩
    simp [load, ScopeSys.setNode, hrun, phaseWeight]
  | barrierDone n =>
    obtain ⟨⟨hrun, -⟩, hsome⟩ := ite_none_right_eq_some.mp hstep
    obtain ⟨c, hc, rfl⟩ := map_eq_some_iff.mp hsome
    obtain ⟨hs, hlt⟩ := finish_stepsAt h hrun hc
    exact ⟨hs.planned, hs.remaining_lt hlt⟩

theorem inbox_of_stuck (hstuck : ∀ a, s.run T a = none) (n : N) : s.inbox n = [] := by
  have hnone := hstuck (.runCollective n 0)
  cases hinbox : s.inbox n with
  | nil => rfl
  | cons c rest => simp [ScopeSys.run, hinbox] at hnone

theorem up_of_stuck (hstuck : ∀ a, s.run T a = none) : s.reduce.up = [] := by
  have hnone := hstuck (.reduceUp 0)
  cases hup : s.reduce.up with
  | nil => rfl
  | cons e rest => simp [ScopeSys.run, ReduceSys.step, hup] at hnone

/-- The node that is behind the others can go on. -/
theorem running_of_stuck (h : ScopeInv T (fun _ => []) s) (hstuck : ∀ a, s.run T a = none) (n : N) :
    (s.node n).running = none := by
  by_contra hrun
  obtain ⟨b, hb, hmin⟩ := Finset.exists_min_image
    (Finset.univ.filter fun n => (s.node n).running ≠ none)
    (fun n => (s.node n).begun.length) ⟨n, by simpa using hrun⟩
  have hb : (s.node b).running ≠ none := by simpa using hb
  have hmessages : ∀ m, s.announced.length =
      (s.node m).postponedCollectives.length + (s.node m).begun.length := by
    intro m
    simpa [inbox_of_stuck hstuck m] using (h.consensus.messages m).length_eq
  have hbehind : ∀ m, (s.node b).begun.length ≤ (s.node m).begun.length := by
    intro m
    by_cases hm : (s.node m).running = none
    · have hidle := h.consensus.idle m hm rfl
      have hlm := hmessages m
      have hlb := hmessages b
      rw [hidle, length_nil] at hlm
      omega
    · exact hmin m (by simpa using hm)
  have hdecided : (s.node b).begun.length ≤ s.decided.length := by
    rw [h.consensus.decided]
    exact hbehind T.root
  have hbcast : ∀ m, (s.node m).running = some .bcast →
      s.decided.length < (s.node m).begun.length := by
    intro m hm
    have hnone := hstuck (.bcastDone m)
    simpa [ScopeSys.run, hm] using hnone
  have hbarrier : (s.node b).running = some .barrier := by
    cases hphase : (s.node b).running with
    | none => exact absurd hphase hb
    | some phase =>
      cases phase with
      | bcast => exact absurd (hbcast b hphase) (Nat.not_lt.mpr hdecided)
      | barrier => rfl
  have hentered : ∀ m, (s.node b).begun.length ≤ (s.node m).entered := by
    intro m
    rw [entered]
    split
    · next hm =>
      have hlt := hbcast m hm
      omega
    · exact hbehind m
  have hpos := h.consensus.begun b hb
  have hnone := hstuck (.barrierDone b)
  rw [ScopeSys.run, if_pos ⟨hbarrier, hentered⟩,
    List.getElem?_eq_getElem (by omega : (s.node b).begun.length - 1 < s.decided.length)] at hnone
  exact absurd hnone (some_ne_none _)

theorem executed_of_stuck (h : ScopeInv T (fun _ => []) s)
    (hstuck : ∀ a, s.run T a = none) (n : N) :
    (s.node n).executed.Perm s.announced := by
  have hbegun : ∀ m, s.announced.Perm (s.node m).begun := by
    intro m
    simpa [inbox_of_stuck hstuck m, h.consensus.idle m (h.running_of_stuck hstuck m) rfl]
      using h.consensus.messages m
  have hcompleted : (s.node n).completed = s.decided.length := by
    have hlen := (hbegun n).length_eq.symm.trans (hbegun T.root).length_eq
    simp [completed, h.running_of_stuck hstuck n, hlen, h.consensus.decided]
  rw [h.consensus.executed, hcompleted, take_length, h.consensus.decided]
  exact (hbegun T.root).symm

/-- All that all nodes have planned is executed. -/
theorem ends (h : ScopeInv T (fun _ => []) s)
    (hall : ∀ n m, ∀ c ∈ (s.node n).planned, c ∈ (s.node m).planned) :
    Ends (ScopeSys.run T) (fun s' => ∀ n, (s'.node n).executed.Perm (s.node n).planned) s := by
  let Q : ScopeSys N E → Prop := fun s' =>
    ScopeInv T (fun _ => []) s' ∧ ∀ n, (s'.node n).planned = (s.node n).planned
  refine Ends.of_measure (Q := Q) (remaining T) ?_ ?_ ⟨h, fun _ => rfl⟩
  · rintro s₁ a s₂ ⟨hinv, hplanned⟩ hstep
    obtain ⟨hsame, hlt⟩ := hinv.run_remaining hstep
    exact ⟨⟨hinv.run hstep, fun n => (hsame n).trans (hplanned n)⟩, hlt⟩
  · rintro s₁ ⟨hinv, hplanned⟩ hstuck n
    refine (hinv.executed_of_stuck hstuck n).trans ?_
    rw [← hplanned n]
    refine (perm_ext_iff_of_nodup hinv.planning.nodup_announced
      (hinv.planning.nodup n)).mpr fun c => ⟨fun hc => hinv.planning.planned_of_announced hc n, ?_⟩
    intro hc
    refine hinv.planning.announced_of_quiet (up_of_stuck hstuck) fun m => ?_
    rw [hplanned] at hc ⊢
    exact hall n m c hc

end ScopeInv

/-! ## The result -/

/-- If the collectives of user scopes and of system scopes have different numbers, then all nodes
execute the collectives in one order, each once. -/
theorem agreed_order (live : Bool × ℕ → Bool)
    (h : Reach (· = start live) (step T) Separate s) : AgreedOrder T s := by
  have hinv : ScopeInv T (fun _ => []) s := by
    refine h.invariant ?_ ?_
    · rintro _ rfl
      exact ScopeInv.start live
    · rintro s₁ (a | a) s₂ hinv hok hstep
      · exact hinv.call hok hstep
      · exact hinv.run hstep
  have hsublist : ∀ n, (s.node n).executed.Sublist s.decided := fun n =>
    hinv.consensus.executed n ▸ take_sublist _ _
  refine ⟨?_, ?_, ?_, hinv.aborted, hinv.planning.nodup, ?_, hinv.ends⟩
  · intro n m
    rw [hinv.consensus.executed n, hinv.consensus.executed m]
    exact prefix_or_prefix_of_prefix ( take_prefix _ _) ( take_prefix _ _)
  · exact fun n => hinv.nodup_decided.sublist (hsublist n)
  · exact fun n c hc => (hinv.entries n).planned hc
  · exact fun n => ⟨(hinv.entries n).consumed, (hinv.entries n).produced⟩

/-- Two nodes plan a collective in two user scopes each; they are run on both nodes. -/
theorem agreed_order_two : ∃ s : ScopeSys (Fin 2) Unit,
    AgreedOrder (SpanningTree.star (0 : Fin 2)) s ∧
      decide (∀ n, (s.node n).executed = [⟨true, 2, 1⟩, ⟨true, 1, 1⟩]) = true := by
  obtain ⟨s, hs, htest⟩ := @Reach.of_guarded_run _ _ (· = start fun _ => true) Separate _
    (step (SpanningTree.star (0 : Fin 2)))
    [.inl (.mpiCollectiveAsync 0 (true, 1) ()), .inl (.mpiCollectiveAsync 0 (true, 2) ()),
      .inl (.mpiCollectiveAsync 1 (true, 2) ()), .inl (.mpiCollectiveAsync 1 (true, 1) ()),
      .inr (.reduceUp 0), .inr (.reduceUp 0), .inr (.runCollective 0 0), .inr (.runCollective 0 0),
      .inr (.runCollective 1 1), .inr (.runCollective 1 0),
      .inr (.bcastDone 0), .inr (.bcastDone 1), .inr (.barrierDone 0), .inr (.barrierDone 1),
      .inr (.bcastDone 0), .inr (.bcastDone 1), .inr (.barrierDone 0), .inr (.barrierDone 1)]
    (fun s => ∀ n, (s.node n).executed = [⟨true, 2, 1⟩, ⟨true, 1, 1⟩]) _ _ rfl (by decide +kernel)
  exact ⟨s, agreed_order (fun _ => true) hs, decide_eq_true htest⟩

/-- Both nodes plan a collective in the user scope 1 and in the system scope 1.  The two
contributions of a node have the same stamp, and the reducer counts them as those of two nodes.  So
the collective of the user scope is announced twice. -/
theorem kinds_share_a_stamp : ∃ s : ScopeSys (Fin 2) Unit,
    Reach (· = start fun key => key.2 = 1)
      (step (SpanningTree.star (0 : Fin 2))) anyStep s ∧
    decide (s.aborted = true ∧
      ∀ n, (s.node n).planned = [⟨true, 1, 1⟩, ⟨false, 1, 1⟩]) = true := by
  refine Reach.of_run _
    [.inl (.mpiCollectiveAsync 0 (true, 1) ()), .inl (.mpiCollectiveAsync 0 (false, 1) ()),
      .inl (.mpiCollectiveAsync 1 (true, 1) ()), .inl (.mpiCollectiveAsync 1 (false, 1) ()),
      .inr (.reduceUp 0), .inr (.reduceUp 0),
      .inr (.runCollective 0 0), .inr (.runCollective 1 0), .inr (.bcastDone 0),
        .inr (.bcastDone 1),
      .inr (.barrierDone 0), .inr (.barrierDone 1),
      .inr (.runCollective 0 0), .inr (.runCollective 1 0), .inr (.bcastDone 0),
        .inr (.bcastDone 1),
      .inr (.barrierDone 0)] _ rfl ?_
  decide +kernel

end VtRuntime.Collective
