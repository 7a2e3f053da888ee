import VtRuntime.Lib.Lists
import VtRuntime.Lib.Run
import Mathlib.Algebra.Order.Field.Basic
import Mathlib.Data.Rat.Cast.Order

/-!
# Load models and the history they read

A load model is a stack of layers over the recorded loads.  A layer that predicts translates a query
for a future phase to queries for past phases, and the layers below pass these on.  How far back a
model looks is composed from its layers as well, and at the end of each phase the data of one phase
are erased: the one that is just out of reach of the current model.

The data that a model needs are there as long as the model is not changed.  A new model may look
further back than the old one did, to phases that have been erased.  It may do so by one phase only,
unless everything is still there.

Integers are unbounded here.
-/

namespace VtRuntime.Balance

open Lib List Nat

/-- `PhaseOffset::WHOLE_PHASE`. -/
def wholePhase : ℕ := 2 ^ 32 - 1

/-- Past phases have negative numbers, and 0 is the next phase. -/
structure PhaseOffset where
  phases : ℤ
  subphase : ℕ

/-- `PhaseOffset::NEXT_PHASE`. -/
def nextPhase (subphase : ℕ) : PhaseOffset := ⟨0, subphase⟩

structure LoadSummary (K : Type) where
  wholePhaseLoad : K
  subphaseLoads : List K

/-- Why a query fails: `proc_load_->at` finds no phase, `RawData` is asked for a prediction, a
subphase is out of range, or the points of a regression determine no line. -/
inductive LoadError
  | noPhase
  | noPrediction
  | noSubphase
  | noLine
  deriving DecidableEq

/-- A load model.  The map of `PerCollection` has the keys `proxies`. -/
inductive LoadModel (C : Type)
  | rawData
  | naivePersistence (base : LoadModel C)
  | persistenceMedianLastN (base : LoadModel C) (n : ℕ)
  | linearModel (base : LoadModel C) (pastLen : ℕ)
  | selectSubphases (base : LoadModel C) (subphases : List ℕ)
  | multiplePhases (base : LoadModel C) (futurePhaseBlockSize : ℤ)
  | perCollection (base : LoadModel C) (proxies : List C) (models : C → LoadModel C)

variable {C O K : Type}

/-- The loads of the objects in a phase. -/
abbrev LoadMap (O K : Type) := O → Option (LoadSummary K)

/-- What the queries of a model read: the recorded phases, the last phase completed, and the
collection of each object. -/
structure LoadContext (C O K : Type) where
  procLoad : ℕ → Option (LoadMap O K)
  lastCompletedPhase : ℕ
  collectionOf : O → C

section Query

variable [Field K] [LinearOrder K]

def LoadSummary.get (s : LoadSummary K) (w : PhaseOffset) : Except LoadError K :=
  if w.subphase = wholePhase then .ok s.wholePhaseLoad
  else
    match s.subphaseLoads[w.subphase]? with
    | some load => .ok load
    | none => .error .noSubphase

namespace LoadContext

variable (ctx : LoadContext C O K)

def getNumCompletedPhases : ℕ := ctx.lastCompletedPhase + 1

/-- `proc_load_->at`.  There is no phase before phase 0. -/
def phaseData (phase : ℤ) : Except LoadError (LoadMap O K) :=
  if phase < 0 then .error .noPhase
  else
    match ctx.procLoad phase.toNat with
    | none => .error .noPhase
    | some data => .ok data

/-- `RawData::getModeledLoad`. -/
def rawLoad (object : O) (offset : PhaseOffset) : Except LoadError K :=
  if offset.phases < 0 then do
    let data ← ctx.phaseData (ctx.getNumCompletedPhases + offset.phases)
    match data object with
    | some s => s.get offset
    | none => return 0
  else .error .noPrediction

end LoadContext

/-- The element in the middle of the sorted list, or the average of two. -/
def median (times : List K) : K :=
  let sorted := times.mergeSort
  let phases := times.length
  if phases % 2 = 1 then sorted.getD (phases / 2) 0
  else (sorted.getD (phases / 2 - 1) 0 + sorted.getD (phases / 2) 0) / 2

/-- `LinearRegression`, with the prediction at `pos`. -/
def predict (x y : List K) (pos : K) : Except LoadError K :=
  let n : K := x.length
  let sumX := x.sum
  let sumY := y.sum
  let pXX := (List.zipWith (· * ·) x x).sum
  let pXY := (List.zipWith (· * ·) x y).sum
  let numerator := pXY * n - sumX * sumY
  let denominator := pXX * n - sumX * sumX
  if denominator = 0 then .error .noLine
  else
    let slope := numerator / denominator
    let intercept := (sumY - slope * sumX) / n
    .ok (intercept + slope * pos)

namespace LoadModel

variable [DecidableEq C] (ctx : LoadContext C O K) (object : O)

def getModeledLoad : LoadModel C → PhaseOffset → Except LoadError K
  | .rawData, w => ctx.rawLoad object w
  | .naivePersistence base, w =>
      base.getModeledLoad ⟨if w.phases ≥ 0 then -1 else w.phases, w.subphase⟩
  | .persistenceMedianLastN base n, w =>
      if w.phases < 0 then base.getModeledLoad w
      else do
        let phases := min n ctx.getNumCompletedPhases
        let times ← (List.range phases).mapM fun i : ℕ => base.getModeledLoad ⟨-(i + 1), w.subphase⟩
        return median times
  | .linearModel base pastLen, w =>
      if w.phases < 0 then base.getModeledLoad w
      else do
        let phases := min pastLen ctx.getNumCompletedPhases
        let x := (List.range phases).map fun i : ℕ => (i : ℤ) - phases
        let y ← x.mapM fun i => base.getModeledLoad ⟨i, w.subphase⟩
        predict (x.map fun i => (i : K)) y w.phases
  | .selectSubphases base subphases, w =>
      if w.subphase = wholePhase then do
        let loads ← subphases.mapM fun s => base.getModeledLoad ⟨w.phases, s⟩
        return loads.sum
      else
        match subphases[w.subphase]? with
        | some s => base.getModeledLoad ⟨w.phases, s⟩
        | none => .error .noSubphase
  | .multiplePhases base size, w =>
      if w.phases < 0 then base.getModeledLoad w
      else do
        let loads ← (List.range size.toNat).mapM fun i : ℕ =>
          base.getModeledLoad ⟨size * w.phases + i, w.subphase⟩
        return loads.sum
  | .perCollection base proxies models, w =>
      if ctx.collectionOf object ∈ proxies then
        (models (ctx.collectionOf object)).getModeledLoad w
      else base.getModeledLoad w

end LoadModel

end Query

namespace LoadModel

def getNumPastPhasesNeeded : LoadModel C → ℕ → ℕ
  | .rawData, lookBack => lookBack
  | .naivePersistence base, lookBack => base.getNumPastPhasesNeeded (max 1 lookBack)
  | .persistenceMedianLastN base n, lookBack => base.getNumPastPhasesNeeded (max n lookBack)
  | .linearModel base pastLen, lookBack => base.getNumPastPhasesNeeded (max pastLen lookBack)
  | .selectSubphases base _, lookBack => base.getNumPastPhasesNeeded lookBack
  | .multiplePhases base _, lookBack => base.getNumPastPhasesNeeded lookBack
  | .perCollection base proxies models, lookBack =>
      proxies.foldl (fun needed c => max needed ((models c).getNumPastPhasesNeeded lookBack))
        (base.getNumPastPhasesNeeded lookBack)

/-- A query for the next phase meets a layer that predicts before it meets `RawData`. -/
def Predicts : LoadModel C → Prop
  | .rawData => False
  | .naivePersistence _ | .persistenceMedianLastN _ _ | .linearModel _ _ => True
  | .selectSubphases base _ | .multiplePhases base _ => base.Predicts
  | .perCollection base proxies models => base.Predicts ∧ ∀ c ∈ proxies, (models c).Predicts

end LoadModel

/-- The recorded phases of a node, and its load model.  `phase` is the current phase, `balancing`
says that it has ended and that its load balancing has not.  `updated` is the phase of the last
`updateLoads` of the current model.  The look-back of the last cleanup is a book. -/
structure History (C O K : Type) where
  model : LoadModel C
  nodeData : ℕ → Option (LoadMap O K) := fun _ => none
  phase : ℕ := 0
  balancing : Bool := false
  updated : Option ℕ := none
  lastLookBack : Option ℕ := none

inductive HistoryAct (C O K : Type)
  | updateLoads (data : LoadMap O K)
  | finishedLB
  | setLoadModel (model : LoadModel C)

open HistoryAct

namespace History

variable (h : History C O K)

/-- At most one phase is erased. -/
def startIterCleanup (phase lookBack : ℕ) : History C O K :=
  { h with
    nodeData := if phase ≥ lookBack then Function.update h.nodeData (phase - lookBack) none
      else h.nodeData
    lastLookBack := some lookBack }

/-- At the end of a phase its data are recorded. -/
def step : HistoryAct C O K → Option (History C O K)
  | .updateLoads data =>
      if h.balancing = false then
        some { h with
          nodeData := Function.update h.nodeData h.phase (some data)
          updated := some h.phase
          balancing := true }
      else none
  | .finishedLB =>
      if h.balancing = true then
        some { h.startIterCleanup h.phase (h.model.getNumPastPhasesNeeded 0) with
          phase := h.phase + 1
          balancing := false }
      else none
  | .setLoadModel model =>
      if h.balancing = false then some { h with model := model, updated := none } else none

/-- What a query reads after `updateLoads phase`. -/
def context (collectionOf : O → C) (phase : ℕ) : LoadContext C O K where
  procLoad := h.nodeData
  lastCompletedPhase := phase
  collectionOf := collectionOf

end History

/-! ## Queries -/

/-- A query that asks for no phase that is not there, and for no prediction of recorded loads. -/
def Answered {α : Type} (r : Except LoadError α) : Prop :=
  r ≠ .error .noPhase ∧ r ≠ .error .noPrediction

namespace Answered

variable {α β : Type}

theorem ok (a : α) : Answered (.ok a) := by simp [Answered]

theorem bind {r : Except LoadError α} {f : α → Except LoadError β} (hr : Answered r)
    (hf : ∀ a, Answered (f a)) : Answered (r >>= f) := by
  cases r with
  | ok a => exact hf a
  | error e =>
    refine ⟨fun h => hr.1 ?_, fun h => hr.2 ?_⟩ <;> simpa [Bind.bind, Except.bind] using h

theorem mapM {l : List α} {f : α → Except LoadError β} (h : ∀ a ∈ l, Answered (f a)) :
    Answered (l.mapM f) := by
  induction l with
  | nil => exact ok []
  | cons a l ih =>
    rw [mapM_cons]
    refine (h a mem_cons_self).bind fun b => ?_
    refine (ih fun a ha => h a (mem_cons_of_mem _ ha)).bind fun bs => ?_
    exact ok (b :: bs)

end Answered

section Query

variable [Field K] [LinearOrder K] [DecidableEq C] {ctx : LoadContext C O K} {object : O}
  {w : PhaseOffset}

omit [Field K] [LinearOrder K] in
theorem answered_get (s : LoadSummary K) : Answered (s.get w) := by
  rw [LoadSummary.get]
  split_ifs
  · exact .ok _
  · cases s.subphaseLoads[w.subphase]? with
    | none => simp [Answered]
    | some load => exact .ok load

omit [LinearOrder K] [DecidableEq C] in
/-- A query for a past phase whose data are there. -/
theorem answered_rawLoad (hw : w.phases < 0) (h0 : 0 ≤ ctx.getNumCompletedPhases + w.phases)
    (hdata : ctx.procLoad (ctx.getNumCompletedPhases + w.phases).toNat ≠ none) :
    Answered (ctx.rawLoad object w) := by
  rw [LoadContext.rawLoad, if_pos hw, LoadContext.phaseData, if_neg (not_lt.mpr h0)]
  cases hd : ctx.procLoad (ctx.getNumCompletedPhases + w.phases).toNat with
  | none => exact absurd hd hdata
  | some data =>
    refine (Answered.ok data).bind fun data => ?_
    cases data object with
    | none => exact .ok _
    | some s => exact answered_get s

namespace LoadModel

theorem answered_selectSubphases {base : LoadModel C} {subphases : List ℕ}
    (h : ∀ s, Answered (base.getModeledLoad ctx object ⟨w.phases, s⟩)) :
    Answered ((selectSubphases base subphases).getModeledLoad ctx object w) := by
  rw [getModeledLoad]
  split_ifs
  · exact (Answered.mapM fun s _ => h s).bind fun loads => .ok _
  · cases subphases[w.subphase]? with
    | none => simp [Answered]
    | some s => exact h s

/-- Every layer passes a query for a past phase on. -/
theorem answered_of_neg (m : LoadModel C) (hw : w.phases < 0)
    (h0 : 0 ≤ ctx.getNumCompletedPhases + w.phases)
    (hdata : ctx.procLoad (ctx.getNumCompletedPhases + w.phases).toNat ≠ none) :
    Answered (m.getModeledLoad ctx object w) := by
  induction m generalizing w with
  | rawData => exact answered_rawLoad hw h0 hdata
  | naivePersistence base ih =>
    rw [getModeledLoad, if_neg (not_le.mpr hw)]
    exact ih hw h0 hdata
  | persistenceMedianLastN base n ih | linearModel base n ih | multiplePhases base n ih =>
    rw [getModeledLoad, if_pos hw]
    exact ih hw h0 hdata
  | selectSubphases base subphases ih => exact answered_selectSubphases fun s => ih hw h0 hdata
  | perCollection base proxies models ih ihm =>
    rw [getModeledLoad]
    split_ifs
    · exact ihm _ hw h0 hdata
    · exact ih hw h0 hdata

omit [DecidableEq C] in
theorem le_getNumPastPhasesNeeded (m : LoadModel C) (lookBack : ℕ) :
    lookBack ≤ m.getNumPastPhasesNeeded lookBack := by
  induction m generalizing lookBack with
  | rawData => exact le_rfl
  | naivePersistence base ih => exact (le_max_right _ _).trans (ih _)
  | persistenceMedianLastN base n ih | linearModel base n ih =>
    exact (le_max_right _ _).trans (ih _)
  | selectSubphases base _ ih | multiplePhases base _ ih => exact ih _
  | perCollection base proxies models ih _ =>
    rw [getNumPastPhasesNeeded]
    exact (ih _).trans (le_foldl_max proxies _ _)

/-- A query of a layer that predicts, no further back than it asks. -/
theorem answered_past (base : LoadModel C) {n lookBack k subphase : ℕ} (hn : k < n)
    (hk : k < ctx.getNumCompletedPhases)
    (hdata : ∀ k : ℕ, 1 ≤ k → k ≤ base.getNumPastPhasesNeeded (max n lookBack) →
      k ≤ ctx.getNumCompletedPhases → ctx.procLoad (ctx.getNumCompletedPhases - k) ≠ none) :
    Answered (base.getModeledLoad ctx object ⟨-(k + 1 : ℕ), subphase⟩) := by
  have hneeded : k + 1 ≤ base.getNumPastPhasesNeeded (max n lookBack) :=
    (succ_le_of_lt hn).trans ((le_max_left _ _).trans (le_getNumPastPhasesNeeded base _))
  have heq : ((ctx.getNumCompletedPhases : ℤ) + -(k + 1 : ℕ)).toNat =
      ctx.getNumCompletedPhases - (k + 1) := by omega
  refine answered_of_neg base (by simp; omega) (by simp; omega) ?_
  rw [heq]
  exact hdata (k + 1) (le_add_left _ _) hneeded hk

/-- A query for a future phase is answered if the data that the model needs are there. -/
theorem answered_of_predicts (m : LoadModel C) (hm : m.Predicts) (lookBack : ℕ) (hw : 0 ≤ w.phases)
    (hdata : ∀ k : ℕ, 1 ≤ k → k ≤ m.getNumPastPhasesNeeded lookBack →
      k ≤ ctx.getNumCompletedPhases →
      ctx.procLoad (ctx.getNumCompletedPhases - k) ≠ none) :
    Answered (m.getModeledLoad ctx object w) := by
  induction m generalizing w lookBack with
  | rawData => exact absurd hm not_false
  | naivePersistence base _ =>
    rw [getModeledLoad, if_pos hw]
    exact answered_past base one_pos (succ_pos _) hdata
  | persistenceMedianLastN base n _ =>
    rw [getModeledLoad, if_neg (not_lt.mpr hw)]
    refine Answered.bind (.mapM fun i hi => ?_) fun times => .ok _
    rw [mem_range, lt_min_iff] at hi
    exact answered_past base hi.1 hi.2 hdata
  | linearModel base n _ =>
    rw [getModeledLoad, if_neg (not_lt.mpr hw)]
    refine Answered.bind (.mapM fun x hx => ?_) fun y => ?_
    · obtain ⟨i, hi, rfl⟩ := mem_map.mp hx
      rw [mem_range] at hi
      obtain ⟨k, hk⟩ : ∃ k, min n ctx.getNumCompletedPhases = i + (k + 1) :=
        ⟨min n ctx.getNumCompletedPhases - i - 1, by omega⟩
      have hoff : (i : ℤ) - (min n ctx.getNumCompletedPhases : ℕ) = -((k + 1 : ℕ) : ℤ) := by
        rw [hk]
        omega
      rw [hoff]
      exact answered_past base (by omega) (by omega) hdata
    · rw [predict]
      split_ifs
      · simp [Answered]
      · exact .ok _
  | selectSubphases base subphases ih =>
    exact answered_selectSubphases fun s => ih hm lookBack hw hdata
  | multiplePhases base size ih =>
    rw [getModeledLoad, if_neg (not_lt.mpr hw)]
    refine Answered.bind (.mapM fun i hi => ?_) fun loads => .ok _
    have hsize : 0 ≤ size := by
      rw [mem_range] at hi
      omega
    exact ih hm lookBack (add_nonneg (mul_nonneg hsize hw) i.cast_nonneg) hdata
  | perCollection base proxies models ih ihm =>
    rw [getModeledLoad]
    split_ifs with hc
    · refine ihm _ (hm.2 _ hc) lookBack hw fun k h1 hk => hdata k h1 (hk.trans ?_)
      exact le_foldl_max_of_mem proxies
        (fun c => (models c).getNumPastPhasesNeeded lookBack) _ hc
    · exact ih hm.1 lookBack hw fun k h1 hk => hdata k h1 (hk.trans (le_foldl_max proxies _ _))

end LoadModel

end Query

/-! ## Runs -/

variable (h : History C O K)

/-- No phase has ended. -/
def History.Fresh : Prop :=
  ∃ model : LoadModel C, model.Predicts ∧ h = { model := model }

/-- A new model predicts, and it needs at most one phase more than the last cleanup kept, or the
last cleanup kept every phase. -/
def LooksNoFurther : HistoryAct C O K → Prop
  | .setLoadModel model => model.Predicts ∧ ∀ lookBack ∈ h.lastLookBack,
      h.phase ≤ lookBack ∨ model.getNumPastPhasesNeeded 0 ≤ lookBack + 1
  | _ => True

/-- What the last cleanup kept is there, and so are the data of a phase that is being balanced. -/
structure History.Retains : Prop where
  predicts : h.model.Predicts
  fresh : h.lastLookBack = none → h.phase = 0
  kept : ∀ lookBack ∈ h.lastLookBack, ∀ q < h.phase, h.phase ≤ q + lookBack → h.nodeData q ≠ none
  recorded : h.balancing = true → h.nodeData h.phase ≠ none
  needed : ∀ lookBack ∈ h.lastLookBack,
    h.phase ≤ lookBack ∨ h.model.getNumPastPhasesNeeded 0 ≤ lookBack + 1
  updated_eq : ∀ q ∈ h.updated, h.balancing = true ∧ q = h.phase ∨
    h.balancing = false ∧ q + 1 = h.phase ∧ h.lastLookBack = some (h.model.getNumPastPhasesNeeded 0)

namespace History.Retains

variable {h h' : History C O K}

theorem updateLoads (hr : h.Retains) {data : LoadMap O K}
    (hs : h.step (.updateLoads data) = some h') : h'.Retains := by
  obtain ⟨-, rfl⟩ := of_guard hs
  refine ⟨hr.predicts, hr.fresh, ?_, ?_, hr.needed, ?_⟩
  · intro lookBack hl q hq hle
    have hne : q ≠ h.phase := hq.ne
    simp only [Function.update_of_ne hne]
    exact hr.kept lookBack hl q hq hle
  · intro _
    simp
  · intro q hq
    exact .inl ⟨rfl, (Option.some.inj hq).symm⟩

theorem setLoadModel (hr : h.Retains) {model : LoadModel C}
    (hok : LooksNoFurther h (.setLoadModel model)) (hs : h.step (.setLoadModel model) = some h') :
    h'.Retains := by
  obtain ⟨-, rfl⟩ := of_guard hs
  exact ⟨hok.1, hr.fresh, hr.kept, hr.recorded, hok.2, nofun⟩

theorem finishedLB (hr : h.Retains) (hs : h.step .finishedLB = some h') : h'.Retains := by
  obtain ⟨hb, rfl⟩ := of_guard hs
  refine ⟨hr.predicts, nofun, ?_, nofun, ?_, ?_⟩
  · rintro lookBack hl q hq hle
    obtain rfl : h.model.getNumPastPhasesNeeded 0 = lookBack := Option.some.inj hl
    change q < h.phase + 1 at hq
    change h.phase + 1 ≤ q + h.model.getNumPastPhasesNeeded 0 at hle
    have hthere : h.nodeData q ≠ none := by
      rcases Nat.lt_succ_iff_lt_or_eq.mp hq with hlt | rfl
      · cases hl : h.lastLookBack with
        | none => exact absurd (hr.fresh hl) (ne_of_gt (zero_lt_of_lt hlt))
        | some last =>
          refine hr.kept last hl q hlt ?_
          have := hr.needed last hl
          omega
      · exact hr.recorded hb
    simp only [startIterCleanup]
    split_ifs with hph
    · rw [Function.update_of_ne (by omega)]
      exact hthere
    · exact hthere
  · rintro lookBack hl
    obtain rfl : h.model.getNumPastPhasesNeeded 0 = lookBack := Option.some.inj hl
    exact .inr (le_succ _)
  · intro q hq
    rcases hr.updated_eq q hq with ⟨_, rfl⟩ | ⟨hnb, _⟩
    · exact .inr ⟨rfl, rfl, rfl⟩
    · exact absurd (hb.symm.trans hnb) (by decide)

theorem of_reach (hh : Reach History.Fresh History.step LooksNoFurther h) : h.Retains := by
  refine hh.invariant ?_ ?_
  · rintro _ ⟨model, hm, rfl⟩
    exact ⟨hm, fun _ => rfl, nofun, nofun, nofun, nofun⟩
  · intro h a h' hr hok hs
    cases a with
    | updateLoads data => exact hr.updateLoads hs
    | finishedLB => exact hr.finishedLB hs
    | setLoadModel model => exact hr.setLoadModel hok hs

/-- The phases that a query of the current model reads. -/
theorem there (hr : h.Retains) {q k : ℕ} (hq : h.updated = some q) (h1 : 1 ≤ k)
    (hk : k ≤ h.model.getNumPastPhasesNeeded 0) (hle : k ≤ q + 1) :
    h.nodeData (q + 1 - k) ≠ none := by
  rcases hr.updated_eq q hq with ⟨hb, rfl⟩ | ⟨-, hp, hl⟩
  · -- the phase is being balanced: it is there, and the others were kept by the last cleanup
    rcases eq_or_lt_of_le h1 with rfl | h1
    · exact hr.recorded hb
    · cases hl : h.lastLookBack with
      | none =>
        have := hr.fresh hl
        omega
      | some last =>
        have := hr.needed last hl
        exact hr.kept last hl _ (by omega) (by omega)
  · exact hr.kept _ hl _ (by omega) (by omega)

end History.Retains

/-- In a run in which no new model looks too far back, no query for the next phase asks for the data
of a phase that were erased, or asks `RawData` for a prediction. -/
theorem loads_retained [Field K] [LinearOrder K] [DecidableEq C] {h : History C O K}
    (hh : Reach History.Fresh History.step LooksNoFurther h) (collectionOf : O → C) {phase : ℕ}
    (hu : h.updated = some phase) (object : O) (subphase : ℕ) :
    Answered (h.model.getModeledLoad (h.context collectionOf phase) object
      (nextPhase subphase)) := by
  have hr := History.Retains.of_reach hh
  refine h.model.answered_of_predicts hr.predicts 0 le_rfl fun k h1 hk hle => ?_
  exact hr.there hu h1 hk hle

/-- Every object has load 1. -/
private def unitLoads : LoadMap ℕ ℚ := fun _ => some ⟨1, []⟩

/-- The median of two phases replaces the load of the last one after phase 0. -/
theorem loads_retained_median_two :
    ∃ h : History ℕ ℕ ℚ, h.updated = some 1 ∧ h.model = .persistenceMedianLastN .rawData 2 ∧
      Answered (h.model.getModeledLoad (h.context id 1) 5 (nextPhase wholePhase)) := by
  have h0 : Reach History.Fresh History.step LooksNoFurther
      ({ model := .naivePersistence .rawData } : History ℕ ℕ ℚ) :=
    .start ⟨.naivePersistence .rawData, trivial, rfl⟩
  have h1 := h0.next (a := updateLoads unitLoads) trivial rfl
  have h2 := h1.next (a := finishedLB) trivial rfl
  have h3 := h2.next (a := setLoadModel (.persistenceMedianLastN .rawData 2))
    ⟨trivial, fun _ hl => by cases hl; exact .inr le_rfl⟩ rfl
  have h4 := h3.next (a := updateLoads unitLoads) trivial rfl
  exact ⟨_, rfl, rfl, loads_retained h4 id rfl 5 wholePhase⟩

/-- The median of three phases replaces the load of the last one after phase 1.  Phase 0 has been
erased by then. -/
theorem median_of_erased_phase :
    ∃ h : History ℕ ℕ ℚ,
      Reach History.Fresh History.step (fun _ a => ∀ m, a = .setLoadModel m → m.Predicts) h ∧
      h.updated = some 2 ∧
      h.model.getModeledLoad (h.context id 2) 5 (nextPhase wholePhase) = .error .noPhase := by
  have h0 : Reach History.Fresh History.step (fun _ a => ∀ m, a = .setLoadModel m → m.Predicts)
      ({ model := .naivePersistence .rawData } : History ℕ ℕ ℚ) :=
    .start ⟨.naivePersistence .rawData, trivial, rfl⟩
  have h1 := h0.next (a := updateLoads unitLoads) nofun rfl
  have h2 := h1.next (a := finishedLB) nofun rfl
  have h3 := h2.next (a := updateLoads unitLoads) nofun rfl
  have h4 := h3.next (a := finishedLB) nofun rfl
  have h5 := h4.next (a := setLoadModel (.persistenceMedianLastN .rawData 3))
    (fun _ hm => by cases hm; trivial) rfl
  have h6 := h5.next (a := updateLoads unitLoads) nofun rfl
  exact ⟨_, h6, rfl, rfl⟩

end VtRuntime.Balance
