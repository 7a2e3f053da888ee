import VtRuntime.Termination.Dependency

/-!
# Finishing an epoch twice

`finishedEpoch` consumes the unit of the epoch's creation once, behind `epoch_ready_`, but calls
`activateEpoch` each time, and that counts a rooted wave epoch on the global epoch when it is called
on the epoch's root.  The call may also submit the last wave of an epoch, and then handles its
termination, which counts on the global epoch as well.
-/

namespace VtRuntime.Termination

open Epoch NodeDetector

namespace NodeDetector

variable {I : Place} (d : NodeDetector I) (e : EpochType)

/-- The epoch has not terminated on the node. -/
def Live : Prop :=
  d.isTerminated e = false ∧ (d.epochState e).any (·.termDetected) = false ∧
    (d.term e).any (·.1.isTerminated) = false

instance : Decidable (d.Live e) :=
  inferInstanceAs (Decidable (_ = false ∧ _ = false ∧ _ = false))

/-- The local counters of an epoch and of the global epoch. -/
def counters : (ℤ × ℤ) × (ℤ × ℤ) := (d.units e, d.anyEpochState.loc)

/-- The state that a call of `activateEpoch` submits. -/
def activated : TermState := ((d.findOrCreateState e true).activateEpoch).notifyLocalTerminated true

/-- A call of `activateEpoch` detects the termination of the epoch. -/
def completes : Bool := detects I (d.activated e)

/-- The units counted on the global epoch, produced or consumed. -/
def globalUnits : ℤ := d.anyEpochState.loc.1 + d.anyEpochState.loc.2

/-! ## The units on the global epoch only grow -/

theorem globalUnits_produceConsume (x : EpochType) (n : ℕ) (b : Bool) :
    (d.produceConsume x n b).globalUnits = d.globalUnits + n := by
  rw [globalUnits, globalUnits, loc_any_produceConsume]
  cases b <;> simp [change] <;> omega

theorem globalUnits_removeEpochStateDependency (x : EpochType) :
    (d.removeEpochStateDependency x).globalUnits = d.globalUnits := by
  unfold removeEpochStateDependency
  dsimp only
  split
  · rfl
  · split
    · rw [globalUnits, loc_any_maybePropagate]
      rfl
    · rfl

theorem globalUnits_foldl_release_le (l : List EpochType) :
    d.globalUnits ≤ (l.foldl release d).globalUnits := by
  induction l generalizing d with
  | nil => exact le_rfl
  | cons x l ih =>
    have hrelease : (d.release x).globalUnits = d.globalUnits + (1 : ℕ) := by
      rw [release, globalUnits_removeEpochStateDependency, consume, globalUnits_produceConsume]
    have hrest := ih (d.release x)
    rw [List.foldl_cons]
    omega

/-- What `epochTerminated` does before it counts on the global epoch. -/
theorem cleanupEpoch_frame (d : NodeDetector I) (fromRoot : Bool) :
    (d.cleanupEpoch e fromRoot).globalUnits = d.globalUnits ∧
      (d.cleanupEpoch e fromRoot).isTerminated = d.isTerminated := by
  unfold cleanupEpoch eraseEpoch
  dsimp only
  repeat' split
  all_goals exact ⟨rfl, rfl⟩

theorem globalUnits_ended_le (fromRoot : Bool) : d.globalUnits ≤
    ((((d.getEpochDep e).clearSuccessors e).updateResolvedEpochs e).cleanupEpoch e
      fromRoot).globalUnits := by
  have hdep : (d.getEpochDep e).globalUnits = d.globalUnits := by
    unfold getEpochDep
    split <;> rfl
  rw [(cleanupEpoch_frame e _ fromRoot).1, ← hdep]
  exact globalUnits_foldl_release_le (d.getEpochDep e) _

theorem globalUnits_epochTerminated_le (fromRoot : Bool) :
    d.globalUnits ≤ (d.epochTerminated e fromRoot).globalUnits := by
  refine (globalUnits_ended_le d e fromRoot).trans ?_
  unfold epochTerminated
  dsimp only
  split
  · rw [consumeOnGlobal, consume, globalUnits_produceConsume]
    omega
  · exact le_rfl

/-- An epoch of this node that terminates is consumed on the global epoch. -/
theorem globalUnits_epochTerminated_lt {e : EpochType}
    (he : isRooted e = false ∨ isDS e = true ∨ node e = I.thisNode) (fromRoot : Bool) :
    d.globalUnits < (d.epochTerminated e fromRoot).globalUnits := by
  have hcond : (!isRooted e || isDS e || node e == I.thisNode) = true := by
    rcases he with he | he | he <;> simp [he]
  refine (globalUnits_ended_le d e fromRoot).trans_lt ?_
  unfold epochTerminated
  dsimp only
  rw [if_pos hcond, consumeOnGlobal, consume, globalUnits_produceConsume]
  omega

theorem globalUnits_nested_le (nested : List EpochType) :
    d.globalUnits ≤ (nested.foldl (fun d e => d.epochTerminated e true) d).globalUnits := by
  induction nested generalizing d with
  | nil => exact le_rfl
  | cons x l ih => exact (globalUnits_epochTerminated_le d x true).trans (ih _)

/-! ## The second call -/

theorem activateEpoch_eq (he : isDS e = false) (nested : List EpochType) :
    d.activateEpoch e nested =
      let d := if isRooted e && node e == I.thisNode then d.produceOnGlobal else d
      let d' := d.setState e ((d.activated e).propagateEpoch I.isRoot).1
      if detects I (d.activated e) then
        nested.foldl (fun d e => d.epochTerminated e true) (d'.epochTerminated e true)
      else d' := by
  unfold activateEpoch
  rw [he]
  rfl

variable {d e}

/-- The part of `activateEpoch` after the unit on the global epoch. -/
theorem counters_activated (he : isDS e = false) :
    (d.setState e ((d.activated e).propagateEpoch I.isRoot).1).counters e = d.counters e := by
  have hloc : (d.activated e).loc = d.units e := loc_findOrCreateState d he true
  unfold counters
  rw [units_setState d he, if_pos rfl, (propagateEpoch_frame _ _).1, hloc]
  rfl

theorem globalUnits_eq_of_counters {d' : NodeDetector I} (h : d'.counters e = d.counters e) :
    d'.globalUnits = d.globalUnits := by
  have hany : d'.anyEpochState.loc = d.anyEpochState.loc := congrArg Prod.snd h
  rw [globalUnits, hany, globalUnits]

theorem counters_finishedEpoch_iff (hready : e ∈ d.epochReady)
    (he : isRooted e = false ∨ isDS e = true ∨ node e = I.thisNode) (nested : List EpochType) :
    (d.finishedEpoch e nested).counters e = d.counters e ↔
      isDS e = true ∨ isRooted e = false ∧ d.completes e = false := by
  have hnoActivate : d.finishNoActivateEpoch e = d := if_pos hready
  rw [finishedEpoch, hnoActivate]
  cases hds : isDS e with
  | true => simp [activateEpoch, hds]
  | false =>
    have hset : ∀ d : NodeDetector I,
        (d.setState e ((d.activated e).propagateEpoch I.isRoot).1).globalUnits = d.globalUnits :=
      fun d => globalUnits_eq_of_counters (counters_activated hds)
    have hle : ∀ d : NodeDetector I, d.globalUnits ≤
        (if detects I (d.activated e) then nested.foldl (fun d e => d.epochTerminated e true)
            ((d.setState e ((d.activated e).propagateEpoch I.isRoot).1).epochTerminated e true)
          else d.setState e ((d.activated e).propagateEpoch I.isRoot).1).globalUnits := by
      intro d
      split
      · refine le_trans ?_ (globalUnits_nested_le _ nested)
        exact (hset d).symm.le.trans (globalUnits_epochTerminated_le _ e true)
      · exact (hset d).symm.le
    rw [activateEpoch_eq d e hds]
    cases hrooted : isRooted e with
    | true =>
      -- the epoch is rooted here, and is counted on the global epoch again
      have hnode : node e = I.thisNode := by simpa [hrooted, hds] using he
      have hmore : d.produceOnGlobal.globalUnits = d.globalUnits + (1 : ℕ) :=
        globalUnits_produceConsume d _ 1 true
      simp only [hnode, beq_self_eq_true, Bool.and_self, if_true, Bool.true_eq_false,
        false_and, or_self, Bool.false_eq_true, iff_false]
      intro hsame
      have hlt := hle d.produceOnGlobal
      have := globalUnits_eq_of_counters hsame
      omega
    | false =>
      simp only [Bool.false_and, Bool.false_eq_true, if_false, false_or, true_and]
      cases hcomp : d.completes e with
      | true =>
        have hdet : detects I (d.activated e) = true := hcomp
        simp only [hdet, if_true, Bool.true_eq_false, iff_false]
        intro hsame
        have hlt := globalUnits_epochTerminated_lt
          (d.setState e ((d.activated e).propagateEpoch I.isRoot).1) he true
        have hnested := globalUnits_nested_le
          ((d.setState e ((d.activated e).propagateEpoch I.isRoot).1).epochTerminated e true) nested
        have := globalUnits_eq_of_counters hsame
        rw [hset] at hlt
        omega
      | false =>
        have hdet : detects I (d.activated e) = false := hcomp
        simp only [hdet, Bool.false_eq_true, if_false, iff_true]
        exact counters_activated hds

/-! ## The first call -/

variable (d : NodeDetector I)

theorem epochReady_produceConsume (x : EpochType) (n : ℕ) (b : Bool) :
    (d.produceConsume x n b).epochReady = d.epochReady := by
  unfold produceConsume
  dsimp only
  repeat' split
  all_goals rfl

theorem mem_epochReady_finishNoActivateEpoch (e : EpochType) :
    e ∈ (d.finishNoActivateEpoch e).epochReady := by
  unfold finishNoActivateEpoch
  split
  · assumption
  · rw [consume, epochReady_produceConsume]
    exact Finset.mem_insert_self e _

theorem isTerminated_epochTerminated (x : EpochType) (fromRoot : Bool) :
    (d.epochTerminated x fromRoot).isTerminated = Function.update d.isTerminated x true := by
  have hclear := (DepBooks.clearSuccessors_frame (d.getEpochDep x) x).1
  rw [(getEpochDep_frame _ _).2] at hclear
  unfold epochTerminated
  dsimp only
  split
  · rw [consumeOnGlobal, consume, (produceConsume_frame _ _ _ _).2, (cleanupEpoch_frame x _ _).2,
      updateResolvedEpochs, hclear]
  · rw [(cleanupEpoch_frame x _ _).2, updateResolvedEpochs, hclear]

theorem isTerminated_nested {d : NodeDetector I} {e : EpochType} (h : d.isTerminated e = true)
    (nested : List EpochType) :
    (nested.foldl (fun d e => d.epochTerminated e true) d).isTerminated e = true := by
  induction nested generalizing d with
  | nil => exact h
  | cons x l ih =>
    refine ih ?_
    rw [isTerminated_epochTerminated, Function.update_apply, h, ite_self]

theorem mem_epochReady_finishedEpoch {d : NodeDetector I} {e : EpochType} {nested : List EpochType}
    (hlive : (d.finishedEpoch e nested).Live e) : e ∈ (d.finishedEpoch e nested).epochReady := by
  have hready := mem_epochReady_finishNoActivateEpoch d e
  unfold finishedEpoch at hlive ⊢
  generalize d.finishNoActivateEpoch e = d₁ at hlive hready ⊢
  cases hds : isDS e with
  | true => simpa [activateEpoch, hds] using hready
  | false =>
    have hglobal : e ∈
        (if isRooted e && node e == I.thisNode then d₁.produceOnGlobal else d₁).epochReady := by
      split
      · rw [produceOnGlobal, produce, epochReady_produceConsume]
        exact hready
      · exact hready
    rw [activateEpoch_eq d₁ e hds] at hlive ⊢
    dsimp only at hlive ⊢
    generalize (if isRooted e && node e == I.thisNode then d₁.produceOnGlobal else d₁) =
      d₂ at hlive hglobal ⊢
    split at hlive
    · -- the call has handled the termination of the epoch
      have hterm := isTerminated_nested (d := (d₂.setState e
        ((d₂.activated e).propagateEpoch I.isRoot).1).epochTerminated e true) (e := e)
        (by rw [isTerminated_epochTerminated, Function.update_self]) nested
      simp [Live, hterm] at hlive
    · next hno =>
      rw [if_neg hno]
      exact hglobal

end NodeDetector

/-- Two calls of `finishedEpoch` for a collective epoch, a rooted wave epoch of this node or a
Dijkstra–Scholten epoch, which the first one leaves live: what the second changes. -/
theorem finishedEpoch_twice_iff {I : Place} (d : NodeDetector I) (e : EpochType)
    (first second : List EpochType) (he : isRooted e = false ∨ isDS e = true ∨ node e = I.thisNode)
    (hlive : (d.finishedEpoch e first).Live e) :
    ((d.finishedEpoch e first).finishedEpoch e second).counters e =
        (d.finishedEpoch e first).counters e ↔
      isDS e = true ∨ isRooted e = false ∧ (d.finishedEpoch e first).completes e = false :=
  counters_finishedEpoch_iff (mem_epochReady_finishedEpoch hlive) he second

/-- A node on which an epoch was created. -/
def NodeDetector.created (I : Place) (e : EpochType) : NodeDetector I :=
  { (DepBooks.fresh I).node with isTerminated := fun _ => false }.produce e 1

/-- A collective epoch on a node that is not the root of the tree. -/
theorem finishedEpoch_twice_iff_collective :
    (((created ⟨1, false, 0⟩ 5).finishedEpoch 5 []).finishedEpoch 5 []).counters 5 =
      ((created ⟨1, false, 0⟩ 5).finishedEpoch 5 []).counters 5 :=
  (finishedEpoch_twice_iff (created ⟨1, false, 0⟩ 5) 5 [] [] (by decide) (by decide)).mpr
    (by decide)

/-- A rooted wave epoch of node 0, finished there twice: the global epoch has one produced unit
more. -/
theorem finishedEpoch_twice_rooted : ∃ e : EpochType,
    isRooted e = true ∧ isDS e = false ∧ node e = 0 ∧
      ((created ⟨0, true, 1⟩ e).finishedEpoch e []).Live e ∧
      ((created ⟨0, true, 1⟩ e).finishedEpoch e []).counters e = ((1, 1), (2, 1)) ∧
      (((created ⟨0, true, 1⟩ e).finishedEpoch e []).finishedEpoch e []).counters e =
        ((1, 1), (3, 1)) :=
  ⟨0x8000000000000001, by decide⟩

end VtRuntime.Termination
