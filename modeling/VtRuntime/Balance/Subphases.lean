import VtRuntime.Balance.LoadModel

/-!
# The sub-phases that a model asks for

`RawData` gives the number of sub-phases of a phase as the largest number that an object of the
phase has.  `Norm` asks for all of them, and `SelectSubphases` for some of them, of every object.
An object with fewer sub-phases has no load for the last ones, and `LoadSummary::get` is out of
range.
-/

namespace VtRuntime.Balance

open List LoadModel

variable {C O K : Type}

/-- `RawData::getNumSubphases`.  The objects are those of the last phase. -/
def LoadContext.getNumSubphases (ctx : LoadContext C O K) (objects : List O) :
    Except LoadError ℕ := do
  let lastPhase ← ctx.phaseData ctx.lastCompletedPhase
  return (objects.filterMap lastPhase).foldl (fun subphases summary =>
    if summary.subphaseLoads.length > subphases then summary.subphaseLoads.length else subphases) 0

variable [Field K] [LinearOrder K]

/-- `Norm::getModeledLoad` over the queries of the base model.  The power `none` is infinite. -/
def Norm.getModeledLoad (pow : K → K → K) (power : Option K) (getNumSubphases : Except LoadError ℕ)
    (base : PhaseOffset → Except LoadError K) (offset : PhaseOffset) : Except LoadError K :=
  if offset.subphase ≠ wholePhase then base offset
  else do
    let subphases ← getNumSubphases
    let loads ← (List.range subphases).mapM fun i => base ⟨offset.phases, i⟩
    match power with
    | some power => return pow (loads.map (pow · power)).sum (1 / power)
    | none => return loads.foldl max 0

omit [Field K] [LinearOrder K] in
theorem foldl_subphases_le_iff {l : List (LoadSummary K)} {k n : ℕ} :
    l.foldl (fun subphases summary =>
      if summary.subphaseLoads.length > subphases then summary.subphaseLoads.length
      else subphases) k ≤ n ↔ k ≤ n ∧ ∀ s ∈ l, s.subphaseLoads.length ≤ n := by
  induction l generalizing k with
  | nil => simp
  | cons s l ih =>
    rw [foldl_cons, ih, forall_mem_cons, ← and_assoc]
    refine and_congr_left' ?_
    split <;> omega

omit [Field K] [LinearOrder K] in
/-- The loads of some sub-phases of an object are asked for. -/
theorem mapM_get_ne_error {s : LoadSummary K} {k : ℤ} {l : List ℕ}
    (hl : ∀ i ∈ l, i < wholePhase) (f : List K → K) :
    f <$> l.mapM (fun i => s.get ⟨k, i⟩) ≠ .error .noSubphase ↔
      ∀ i ∈ l, i < s.subphaseLoads.length := by
  induction l generalizing f with
  | nil => simp [pure, Except.pure, Functor.map, Except.map]
  | cons i l ih =>
    rw [forall_mem_cons] at hl ⊢
    rw [mapM_cons, LoadSummary.get, if_neg hl.1.ne]
    by_cases hi : i < s.subphaseLoads.length
    · rw [getElem?_eq_getElem hi, ← ih hl.2 fun loads => f (s.subphaseLoads[i] :: loads)]
      cases l.mapM fun i => s.get ⟨k, i⟩ <;> simp [hi, bind, Except.bind, pure, Except.pure,
        Functor.map, Except.map]
    · simp [hi, bind, Except.bind, Functor.map, Except.map]

section

variable [DecidableEq C] {ctx : LoadContext C O K} {object : O} {data : LoadMap O K}
  (hdata : ctx.procLoad ctx.lastCompletedPhase = some data)
include hdata

omit [Field K] [LinearOrder K] [DecidableEq C] in
theorem phaseData_last : ctx.phaseData ctx.lastCompletedPhase = .ok data := by
  rw [LoadContext.phaseData, if_neg (by omega), Int.toNat_natCast, hdata]

/-- A query for the next phase reads the last one. -/
theorem getModeledLoad_last {s : LoadSummary K} (hs : data object = some s) {k : ℤ} (hk : -1 ≤ k)
    (i : ℕ) :
    (naivePersistence .rawData).getModeledLoad ctx object ⟨k, i⟩ = s.get ⟨-1, i⟩ := by
  have hlast : (if k ≥ 0 then -1 else k) = -1 := by
    split <;> omega
  have hphase : (ctx.getNumCompletedPhases : ℤ) + -1 = ctx.lastCompletedPhase := by
    simp [LoadContext.getNumCompletedPhases]
  simp [getModeledLoad, hlast, LoadContext.rawLoad, hphase, phaseData_last hdata, hs, bind,
    Except.bind]

/-- The queries for the whole phase are in range if and only if no object of the phase has more
sub-phases, and all selected sub-phases are those of the object. -/
theorem subphases_in_range_iff {objects : List O} (hobjects : ∀ o, o ∈ objects ↔ (data o).isSome)
    (hint : ∀ o s, data o = some s → s.subphaseLoads.length < 2 ^ 31) {s : LoadSummary K}
    (hs : data object = some s) {k : ℤ} (hk : -1 ≤ k) (pow : K → K → K) (power : Option K)
    {subphases : List ℕ}
    (hsub : ∀ n, ctx.getNumSubphases objects = .ok n → ∀ i ∈ subphases, i < n) :
    (Norm.getModeledLoad pow power (ctx.getNumSubphases objects)
        ((naivePersistence .rawData).getModeledLoad ctx object) ⟨k, wholePhase⟩ ≠
      .error .noSubphase ↔
      ∀ o t, data o = some t → t.subphaseLoads.length ≤ s.subphaseLoads.length) ∧
    ((selectSubphases (.naivePersistence .rawData) subphases).getModeledLoad ctx object
        ⟨k, wholePhase⟩ ≠ .error .noSubphase ↔ ∀ i ∈ subphases, i < s.subphaseLoads.length) := by
  obtain ⟨n, hn, hle⟩ : ∃ n, ctx.getNumSubphases objects = .ok n ∧
      ∀ m, n ≤ m ↔ ∀ o t, data o = some t → t.subphaseLoads.length ≤ m := by
    refine ⟨_, by rw [LoadContext.getNumSubphases, phaseData_last hdata]; rfl, fun m => ?_⟩
    rw [foldl_subphases_le_iff]
    simp only [Nat.zero_le, true_and, mem_filterMap, hobjects]
    exact ⟨fun h o t ht => h t ⟨o, Option.isSome_of_eq_some ht, ht⟩,
      fun h t ⟨o, _, ht⟩ => h o t ht⟩
  have hwhole : n ≤ wholePhase := (hle _).mpr fun o t ht => (hint o t ht).le.trans (by decide)
  have hbase : ∀ i, (naivePersistence .rawData).getModeledLoad ctx object ⟨k, i⟩ =
    s.get ⟨-1, i⟩ := getModeledLoad_last hdata hs hk
  constructor
  · have hloads : ∀ f : List K → K, f <$> (List.range n).mapM (fun i => s.get ⟨-1, i⟩) ≠
        .error .noSubphase ↔ n ≤ s.subphaseLoads.length := by
      intro f
      rw [mapM_get_ne_error fun i hi => (mem_range.mp hi).trans_le hwhole, ← forall_lt_iff_le]
      simp only [mem_range]
    rw [← hle, Norm.getModeledLoad, if_neg (by simp), hn]
    simp only [hbase]
    cases power with
    | none => exact hloads _
    | some power => exact hloads _
  · rw [getModeledLoad, if_pos rfl]
    simp only [hbase]
    exact mapM_get_ne_error (fun i hi => (hsub n hn i hi).trans_le hwhole) _

end

/-- The loads of two objects in phase 0.  The first has two sub-phases, and the other has none. -/
private def uneven : LoadContext ℕ ℕ ℚ where
  procLoad := fun _ => some fun o => [⟨2, [1, 1]⟩, ⟨1, []⟩][o]?
  lastCompletedPhase := 0
  collectionOf := id

theorem subphases_in_range_first :
    Norm.getModeledLoad (fun load _ => load) none (uneven.getNumSubphases [0, 1])
        ((naivePersistence .rawData).getModeledLoad uneven 0) ⟨0, wholePhase⟩ ≠
      .error .noSubphase ∧
    (selectSubphases (.naivePersistence .rawData) [1, 0]).getModeledLoad uneven 0
        ⟨0, wholePhase⟩ ≠ .error .noSubphase := by
  have hmost : ∀ (o : ℕ) (s : LoadSummary ℚ), [⟨2, [1, 1]⟩, ⟨1, []⟩][o]? = some s →
      s.subphaseLoads.length ≤ 2 := by
    intro o s hs
    have hmem := mem_of_getElem? hs
    simp only [mem_cons, not_mem_nil, or_false] at hmem
    rcases hmem with rfl | rfl <;> decide
  obtain ⟨hnorm, hselect⟩ := subphases_in_range_iff
    (show uneven.procLoad uneven.lastCompletedPhase = some _ from rfl)
    (show ∀ o, o ∈ [0, 1] ↔ _ from fun o => by simp; omega)
    (fun o s hs => (hmost o s hs).trans_lt (by decide))
    (show [_, _][0]? = some _ from rfl) (show -1 ≤ 0 by decide)
    (fun load _ => load) none
    (show ∀ n, uneven.getNumSubphases [0, 1] = .ok n → ∀ i ∈ [1, 0], i < n from
      fun n hn => by obtain rfl : 2 = n := Except.ok.inj hn; decide)
  exact ⟨hnorm.mpr hmost, hselect.mpr (by decide)⟩

/-- The other object has no load for the sub-phases of the first. -/
theorem subphases_out_of_range :
    Norm.getModeledLoad (fun load _ => load) none (uneven.getNumSubphases [0, 1])
        ((naivePersistence .rawData).getModeledLoad uneven 1) ⟨0, wholePhase⟩ =
      .error .noSubphase ∧
    (selectSubphases (.naivePersistence .rawData) [1, 0]).getModeledLoad uneven 1
        ⟨0, wholePhase⟩ = .error .noSubphase := by
  decide +kernel

end VtRuntime.Balance
