import VtRuntime.Termination.EpochGraph
import VtRuntime.Termination.NodeDetector

/-!
# The graph of the live epochs

`makeGraph` builds the graph of the epochs that are live on a node from the successor sets.  The
vertex of an epoch points to the epochs that have it as a successor, and the root points to the
epochs that have no successor.  The epochs of a cycle, and those that lead into one only, are then
not below the root.
-/

namespace VtRuntime.Termination

open Epoch Lib NodeDetector EpochGraph Relation

variable {I : Place}

/-- The orders in which the maps `epoch_state_` and `term_` are traversed. -/
structure Traversal (d : NodeDetector I) where
  epochState : List EpochType
  term : List EpochType
  nodup_epochState : epochState.Nodup
  nodup_term : term.Nodup
  mem_epochState : ∀ ep, ep ∈ epochState ↔ (d.epochState ep).isSome
  mem_term : ∀ ep, ep ∈ term ↔ (d.term ep).isSome

/-- A pointer to a vertex: to that of an epoch, or to the root. -/
abbrev VertexRef := Option EpochType

/-- Push a pointer to the successors of a vertex. -/
def EpochGraph.addSuccessor (edges : VertexRef → List VertexRef) (r s : VertexRef) :
    VertexRef → List VertexRef :=
  Function.update edges r (edges r ++ [s])

namespace NodeDetector

variable (d : NodeDetector I) (o : Traversal d)

/-- The epochs that are live: the collective epochs, and the rooted epochs of this node. -/
def liveEpochs : List EpochType :=
  let states := o.epochState.filter fun ep =>
    (!isRooted ep || node ep == I.thisNode) && !d.isTerminated ep
  let ds := o.term.filter fun ep => node ep == I.thisNode && !d.isTerminated ep
  states ++ ds.filter fun ep => ep ∉ states

/-- Attach the vertex of a live epoch.  A successor that is not live fails an assertion. -/
def attach (edges : VertexRef → List VertexRef) (ep : EpochType) :
    Option (VertexRef → List VertexRef) :=
  if (d.successors ep).1 = [] then some (EpochGraph.addSuccessor edges none (some ep))
  else (d.successors ep).1.foldlM
    (fun edges p =>
      if p ∈ d.liveEpochs o then some (EpochGraph.addSuccessor edges (some p) (some ep)) else none)
    edges

/-- The graph with the pointers, where `labels` are the labels of the epochs. -/
def graphOf (labels : EpochType → String) (edges : VertexRef → List VertexRef) :
    EpochGraph EpochType where
  Ref := VertexRef
  vertex
    | none => ⟨anyEpochSentinel, "Global", edges none⟩
    | some ep => ⟨ep, labels ep, edges (some ep)⟩
  root := none

/-- `TerminationDetector::makeGraph`; there is no graph when the program has terminated. -/
def makeGraph (labels : EpochType → String) : Option (EpochGraph EpochType) :=
  if d.anyEpochState.termDetected then none
  else ((d.liveEpochs o).foldlM (d.attach o) fun _ => []).map (graphOf labels)

end NodeDetector

variable (d : NodeDetector I) (o : Traversal d)

/-- The successor relation on the live epochs. -/
def LiveSuccessor (ep p : EpochType) : Prop :=
  ep ∈ d.liveEpochs o ∧ p ∈ d.liveEpochs o ∧ p ∈ (d.successors ep).1

/-- A live epoch is its own successor, along the successors of successors. -/
def Cyclic : Prop := ∃ ep, TransGen (LiveSuccessor d o) ep ep

/-- An epoch of a cycle leads to an epoch that has no successor. -/
def Exits : Prop := ∃ ep top, TransGen (LiveSuccessor d o) ep ep ∧
  ReflTransGen (LiveSuccessor d o) ep top ∧ (d.successors top).1 = []

/-! ## The pointers -/

/-- The vertex of the epoch is attached to this one. -/
def Points (ep : EpochType) (r : VertexRef) : Prop :=
  (d.successors ep).1 = [] ∧ r = none ∨ ∃ p ∈ (d.successors ep).1, r = some p

variable {d o}

theorem mem_addSuccessor {edges : VertexRef → List VertexRef} {r s t u : VertexRef} :
    u ∈ EpochGraph.addSuccessor edges r s t ↔ u ∈ edges t ∨ u = s ∧ t = r := by
  by_cases h : t = r
  · subst h
    simp [EpochGraph.addSuccessor]
  · simp [EpochGraph.addSuccessor, h]

theorem exists_attachAll (edges : VertexRef → List VertexRef) (ep : EpochType)
    {ps : List EpochType} (h : ∀ p ∈ ps, p ∈ d.liveEpochs o) :
    ∃ edges', ps.foldlM (fun edges p => if p ∈ d.liveEpochs o then
        some (addSuccessor edges (some p) (some ep)) else none) edges = some edges' ∧
      ∀ r s, s ∈ edges' r ↔ s ∈ edges r ∨ s = some ep ∧ ∃ p ∈ ps, r = some p := by
  induction ps generalizing edges with
  | nil => exact ⟨edges, rfl, by simp⟩
  | cons p ps ih =>
    obtain ⟨edges', heq, hmem⟩ := ih (addSuccessor edges (some p) (some ep))
      fun q hq => h q (List.mem_cons_of_mem p hq)
    refine ⟨edges', ?_, ?_⟩
    · simpa [List.foldlM, h p List.mem_cons_self] using heq
    · intro r s
      rw [hmem, mem_addSuccessor]
      simp only [List.mem_cons, exists_eq_or_imp, and_or_left, or_assoc]

theorem exists_attach (edges : VertexRef → List VertexRef) {ep : EpochType}
    (h : ∀ p ∈ (d.successors ep).1, p ∈ d.liveEpochs o) :
    ∃ edges', d.attach o edges ep = some edges' ∧
      ∀ r s, s ∈ edges' r ↔ s ∈ edges r ∨ s = some ep ∧ Points d ep r := by
  rw [attach]
  split
  case isTrue hnil =>
    refine ⟨_, rfl, ?_⟩
    intro r s
    simp [mem_addSuccessor, Points, hnil]
  case isFalse hne =>
    obtain ⟨edges', heq, hmem⟩ := exists_attachAll edges ep h
    refine ⟨edges', heq, ?_⟩
    intro r s
    simp [hmem, Points, hne]

/-- When all successors are live, each live epoch is attached to its successors or to the root. -/
theorem exists_edges (h : ∀ ep ∈ d.liveEpochs o, ∀ p ∈ (d.successors ep).1, p ∈ d.liveEpochs o) :
    ∃ edges, (d.liveEpochs o).foldlM (d.attach o) (fun _ => []) = some edges ∧
      ∀ r s, s ∈ edges r ↔ ∃ ep ∈ d.liveEpochs o, s = some ep ∧ Points d ep r := by
  have hfold : ∀ (eps : List EpochType) (edges : VertexRef → List VertexRef),
      (∀ ep ∈ eps, ∀ p ∈ (d.successors ep).1, p ∈ d.liveEpochs o) →
      ∃ edges', eps.foldlM (d.attach o) edges = some edges' ∧
        ∀ r s, s ∈ edges' r ↔ s ∈ edges r ∨ ∃ ep ∈ eps, s = some ep ∧ Points d ep r := by
    intro eps
    induction eps with
    | nil =>
      intro edges _
      exact ⟨edges, rfl, by simp⟩
    | cons ep eps ih =>
      intro edges heps
      obtain ⟨edges₁, heq₁, hmem₁⟩ := exists_attach edges (heps ep List.mem_cons_self)
      obtain ⟨edges', heq, hmem⟩ := ih edges₁ fun q hq => heps q (List.mem_cons_of_mem ep hq)
      refine ⟨edges', ?_, ?_⟩
      · simpa [List.foldlM, heq₁] using heq
      · intro r s
        rw [hmem, hmem₁]
        simp only [List.mem_cons, exists_eq_or_imp, or_assoc]
  obtain ⟨edges, heq, hmem⟩ := hfold (d.liveEpochs o) (fun _ => []) h
  exact ⟨edges, heq, by simpa using hmem⟩

/-! ## Cycles -/

section Cycles

variable {labels : EpochType → String} {edges : VertexRef → List VertexRef}
  (hmem : ∀ r s, s ∈ edges r ↔ ∃ ep ∈ d.liveEpochs o, s = some ep ∧ Points d ep r)
  (hlive : ∀ ep ∈ d.liveEpochs o, ∀ p ∈ (d.successors ep).1, p ∈ d.liveEpochs o)

theorem successors_graphOf (labels : EpochType → String) (edges : VertexRef → List VertexRef) :
    (graphOf labels edges).successors = edges := by
  funext r
  cases r <;> rfl

include hmem hlive

/-- Between epochs the pointers are those from the successors. -/
theorem edge_iff {p ep : EpochType} : Edge edges (some p) (some ep) ↔ LiveSuccessor d o ep p := by
  rw [Edge, hmem]
  constructor
  · rintro ⟨ep', hep, heq, hpoints⟩
    obtain rfl := Option.some.inj heq
    rcases hpoints with ⟨-, hnone⟩ | ⟨q, hq, heq⟩
    · simp at hnone
    · obtain rfl := Option.some.inj heq
      exact ⟨hep, hlive ep hep p hq, hq⟩
  · rintro ⟨hep, -, hp⟩
    exact ⟨ep, hep, rfl, .inr ⟨p, hp, rfl⟩⟩

theorem transGen_edge_iff {ep ep' : EpochType} :
    TransGen (Edge edges) (some ep) (some ep') ↔
      TransGen (LiveSuccessor d o) ep' ep := by
  constructor
  · have hpath : ∀ s, TransGen (Edge edges) (some ep) s →
        ∃ e, s = some e ∧ TransGen (LiveSuccessor d o) e ep := by
      intro s h
      induction h with
      | single hedge =>
        obtain ⟨e, -, rfl, -⟩ := (hmem _ _).mp hedge
        exact ⟨e, rfl, .single ((edge_iff hmem hlive).mp hedge)⟩
      | tail _ hedge ih =>
        obtain ⟨e, rfl, hpath⟩ := ih
        obtain ⟨e', -, rfl, -⟩ := (hmem _ _).mp hedge
        exact ⟨e', rfl, .head ((edge_iff hmem hlive).mp hedge) hpath⟩
    intro h
    obtain ⟨e, heq, hpath⟩ := hpath _ h
    obtain rfl := Option.some.inj heq
    exact hpath
  · intro h
    induction h with
    | single hsucc => exact .single ((edge_iff hmem hlive).mpr hsucc)
    | tail _ hsucc ih => exact .head ((edge_iff hmem hlive).mpr hsucc) ih

/-- The root reaches the epochs that lead to one without a successor. -/
theorem reaches_root_iff {ep : EpochType} :
    ReflTransGen (Edge edges) none (some ep) ↔ ∃ top ∈ d.liveEpochs o,
      (d.successors top).1 = [] ∧ ReflTransGen (LiveSuccessor d o) ep top := by
  constructor
  · have hpath : ∀ s, ReflTransGen (Edge edges) none s → ∀ e, s = some e →
        ∃ top ∈ d.liveEpochs o, (d.successors top).1 = [] ∧
          ReflTransGen (LiveSuccessor d o) e top := by
      intro s h
      induction h with
      | refl => simp
      | @tail r s _ hedge ih =>
        rintro e rfl
        cases r with
        | none =>
          obtain ⟨e', he', heq, ⟨hnil, -⟩ | ⟨p, -, hp⟩⟩ := (hmem _ _).mp hedge
          · obtain rfl := Option.some.inj heq
            exact ⟨e, he', hnil, .refl⟩
          · simp at hp
        | some p =>
          obtain ⟨top, htop, hnil, hpath⟩ := ih p rfl
          exact ⟨top, htop, hnil, .head ((edge_iff hmem hlive).mp hedge) hpath⟩
    intro h
    exact hpath _ h ep rfl
  · rintro ⟨top, htop, hnil, hpath⟩
    have htop : Edge edges none (some top) := (hmem _ _).mpr ⟨top, htop, rfl, .inl ⟨hnil, rfl⟩⟩
    induction hpath using ReflTransGen.head_induction_on with
    | refl => exact .single htop
    | head hsucc _ ih => exact .tail ih ((edge_iff hmem hlive).mpr hsucc)

omit hlive in
theorem of_reaches_root {s : VertexRef} (h : ReflTransGen (Edge edges) none s) :
    s = none ∨ ∃ ep ∈ d.liveEpochs o, s = some ep := by
  cases h with
  | refl => exact .inl rfl
  | tail _ hedge =>
    obtain ⟨ep, hep, rfl, -⟩ := (hmem _ _).mp hedge
    exact .inr ⟨ep, hep, rfl⟩

omit hlive in
theorem epoch_mem (labels : EpochType → String) {s : VertexRef}
    (h : ReflTransGen (Edge edges) none s) :
    ((graphOf labels edges).vertex s).epoch ∈
      insert anyEpochSentinel (d.liveEpochs o).toFinset := by
  rcases of_reaches_root hmem h with rfl | ⟨ep, hep, rfl⟩
  · exact Finset.mem_insert_self ..
  · exact Finset.mem_insert_of_mem (List.mem_toFinset.mpr hep)

omit hlive in
/-- The vertices below the root have different epochs. -/
theorem nodup_epochs_iff (hglobal : anyEpochSentinel ∉ d.liveEpochs o) {l : List VertexRef}
    (hwalk : Walk edges none l) : ((graphOf labels edges).epochs l).Nodup ↔ l.Nodup := by
  constructor
  · exact List.Nodup.of_map _
  · refine List.Nodup.map_on ?_
    intro r hr s hs heq
    rcases of_reaches_root hmem (hwalk.reaches hr) with rfl | ⟨ep, hep, rfl⟩ <;>
      rcases of_reaches_root hmem (hwalk.reaches hs) with rfl | ⟨ep', hep', rfl⟩
    · rfl
    · exact absurd (show anyEpochSentinel = ep' from heq) fun h => hglobal (h ▸ hep')
    · exact absurd (show ep = anyEpochSentinel from heq) fun h => hglobal (h ▸ hep)
    · exact congrArg some heq

/-- The search reports a cycle if and only if the root reaches one. -/
theorem reports_graphOf_iff (hglobal : anyEpochSentinel ∉ d.liveEpochs o) :
    (graphOf labels edges).Reports ↔ Exits d o := by
  have hall : ∀ s, ReflTransGen (Edge (graphOf labels edges).successors)
      none s → ((graphOf labels edges).vertex s).epoch ∈
        insert anyEpochSentinel (d.liveEpochs o).toFinset := by
    rw [successors_graphOf]
    exact fun s hs => epoch_mem hmem labels hs
  have hwalks : (∃ l, Walk edges none l ∧ ¬ ((graphOf labels edges).epochs l).Nodup) ↔
      ∃ l, Walk edges none l ∧ ¬ l.Nodup :=
    exists_congr fun l => and_congr_right fun hwalk =>
      not_congr (nodup_epochs_iff hmem hglobal hwalk)
  have hreports := reports_iff hall
  rw [successors_graphOf] at hreports
  rw [hreports]
  refine hwalks.trans (exists_walk_not_nodup_iff.trans ?_)
  constructor
  · rintro ⟨s, hs, hcycle⟩
    cases s with
    | none =>
      obtain ⟨r, -, hedge⟩ := TransGen.tail'_iff.mp hcycle
      obtain ⟨ep, -, heq, -⟩ := (hmem _ _).mp hedge
      simp at heq
    | some ep =>
      obtain ⟨top, -, hnil, hpath⟩ := (reaches_root_iff hmem hlive).mp hs
      exact ⟨ep, top, (transGen_edge_iff hmem hlive).mp hcycle, hpath, hnil⟩
  · rintro ⟨ep, top, hcycle, hpath, hnil⟩
    have htop : top ∈ d.liveEpochs o := by
      cases hpath with
      | refl =>
        obtain ⟨e, hsucc, -⟩ := TransGen.head'_iff.mp hcycle
        exact hsucc.1
      | tail _ hsucc => exact hsucc.2.1
    exact ⟨some ep, (reaches_root_iff hmem hlive).mpr ⟨top, htop, hnil, hpath⟩,
      (transGen_edge_iff hmem hlive).mpr hcycle⟩

end Cycles

/-- The search ends on every graph.  It reports a cycle exactly when there is one, if and only if
some epoch of a cycle leads to an epoch that has no successor, when there is a cycle. -/
theorem detectCycles_complete_iff (d : NodeDetector I) (o : Traversal d)
    (labels : EpochType → String) (hany : d.anyEpochState.termDetected = false)
    (hglobal : anyEpochSentinel ∉ d.liveEpochs o)
    (hlive : ∀ ep ∈ d.liveEpochs o, ∀ p ∈ (d.successors ep).1, p ∈ d.liveEpochs o) :
    ∃ g, d.makeGraph o labels = some g ∧
      (∀ fuel, (d.liveEpochs o).length + 1 < fuel → (g.detectCycles fuel).isSome) ∧
      ((g.Reports ↔ Cyclic d o) ↔ (Cyclic d o → Exits d o)) := by
  obtain ⟨edges, hedges, hmem⟩ := exists_edges hlive
  refine ⟨graphOf labels edges, ?_, ?_, ?_⟩
  · simp [makeGraph, hany, hedges]
  · intro fuel hfuel
    have hcard := (d.liveEpochs o).toFinset_card_le
    have hinsert := Finset.card_insert_le anyEpochSentinel (d.liveEpochs o).toFinset
    have hlt : (insert anyEpochSentinel (d.liveEpochs o).toFinset).card < fuel := by omega
    refine isSome_detectCycles ?_ hlt
    rw [successors_graphOf]
    exact fun s hs => epoch_mem hmem labels hs
  · rw [reports_graphOf_iff hmem hlive hglobal]
    have hsound : Exits d o → Cyclic d o := by
      rintro ⟨ep, -, hcycle, -⟩
      exact ⟨ep, hcycle⟩
    exact ⟨fun h hc => h.mpr hc, fun h => ⟨hsound, h⟩⟩

/-! ## Two epochs -/

variable (first second : SuccessorBag)

/-- A node on which the epochs 1 and 2 are live, with these successors. -/
def twoEpochs : NodeDetector ⟨0, true, 0⟩ where
  isTerminated _ := false
  anyEpochState := { numChildren := 0 }
  epochState ep := if ep = 1 ∨ ep = 2 then some { numChildren := 0 } else none
  term _ := none
  successors ep := if ep = 1 then first else if ep = 2 then second else .empty
  epochReady := ∅

def twoEpochsOrder : Traversal (twoEpochs first second) where
  epochState := [1, 2]
  term := []
  nodup_epochState := by decide
  nodup_term := List.nodup_nil
  mem_epochState ep := by simp [twoEpochs]
  mem_term ep := by simp [twoEpochs]

theorem liveEpochs_twoEpochs :
    (twoEpochs first second).liveEpochs (twoEpochsOrder first second) = [1, 2] := by
  have hfirst : isRooted 1#64 = false := by decide
  have hsecond : isRooted 2#64 = false := by decide
  simp [liveEpochs, twoEpochsOrder, twoEpochs, hfirst, hsecond]

theorem live_of_successors {first second : SuccessorBag}
    (h : ∀ p ∈ first.1 ++ second.1, p ∈ [(1 : EpochType), 2]) :
    ∀ ep ∈ (twoEpochs first second).liveEpochs (twoEpochsOrder first second),
      ∀ p ∈ ((twoEpochs first second).successors ep).1,
        p ∈ (twoEpochs first second).liveEpochs (twoEpochsOrder first second) := by
  rw [liveEpochs_twoEpochs]
  intro ep hep p hp
  apply h
  rcases List.mem_pair.mp hep with rfl | rfl
  · exact List.mem_append_left _ hp
  · exact List.mem_append_right _ hp

theorem liveSuccessor_twoEpochs {first second : SuccessorBag} {p : EpochType}
    (hp : p ∈ [(1 : EpochType), 2]) :
    (p ∈ first.1 → LiveSuccessor _ (twoEpochsOrder first second) 1 p) ∧
      (p ∈ second.1 → LiveSuccessor _ (twoEpochsOrder first second) 2 p) := by
  simp only [LiveSuccessor, liveEpochs_twoEpochs]
  exact ⟨fun h => ⟨by decide, hp, h⟩, fun h => ⟨by decide, hp, h⟩⟩

/-- Epoch 1 is its own successor, and epoch 2 is its other successor. -/
theorem detectCycles_complete_iff_loop :
    ∃ g, (twoEpochs (.insert (.insert .empty 2) 1) .empty).makeGraph (twoEpochsOrder _ _)
      (fun _ => "") = some g ∧ g.Reports := by
  have hbag : (SuccessorBag.insert (.insert .empty 2) 1).1 ++ SuccessorBag.empty.1 =
      [(1 : EpochType), 2] := rfl
  have hclosed := live_of_successors fun p hp => hbag ▸ hp
  have hglobal : anyEpochSentinel ∉ (twoEpochs (.insert (.insert .empty 2) 1) .empty).liveEpochs
      (twoEpochsOrder _ _) := by
    rw [liveEpochs_twoEpochs]
    decide
  obtain ⟨g, hg, -, hiff⟩ := detectCycles_complete_iff _ (twoEpochsOrder _ _) (fun _ => "") rfl
    hglobal hclosed
  have hloop : LiveSuccessor _ (twoEpochsOrder (.insert (.insert .empty 2) 1) .empty) 1 1 :=
    (liveSuccessor_twoEpochs (by decide)).1 (by decide)
  have hexit : LiveSuccessor _ (twoEpochsOrder (.insert (.insert .empty 2) 1) .empty) 1 2 :=
    (liveSuccessor_twoEpochs (by decide)).1 (by decide)
  refine ⟨g, hg, (hiff.mpr fun _ => ?_).mpr ⟨1, .single hloop⟩⟩
  exact ⟨1, 2, .single hloop, .single hexit, rfl⟩

/-- Each of the two epochs is the successor of the other: the root has no pointer, and no cycle is
reported. -/
theorem detectCycles_misses_pair :
    ((twoEpochs (.insert .empty 2) (.insert .empty 1)).makeGraph (twoEpochsOrder _ _)
        (fun _ => "")).map (·.detectCycles 4) = some (some none) ∧
      Cyclic (twoEpochs (.insert .empty 2) (.insert .empty 1)) (twoEpochsOrder _ _) := by
  refine ⟨by decide +kernel, 1, ?_⟩
  have hfirst : LiveSuccessor _ (twoEpochsOrder (.insert .empty 2) (.insert .empty 1)) 1 2 :=
    (liveSuccessor_twoEpochs (by decide)).1 (by decide)
  have hsecond : LiveSuccessor _ (twoEpochsOrder (.insert .empty 2) (.insert .empty 1)) 2 1 :=
    (liveSuccessor_twoEpochs (by decide)).2 (by decide)
  exact .tail (.single hfirst) hsecond

end VtRuntime.Termination
