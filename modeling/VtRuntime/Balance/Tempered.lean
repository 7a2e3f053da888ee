import VtRuntime.Balance.Reassignment
import VtRuntime.Balance.Statistics
import Mathlib.Algebra.Order.Field.Basic
import Mathlib.Data.Nat.ModEq
import Mathlib.Tactic.LinearCombination

/-!
# The tempered load balancer

Every rank has a copy of its assignment, `curObjs`, which it changes in trials and iterations.  In
an iteration the ranks first exchange load information.  A rank that is overloaded then moves
objects to ranks that it knows to be underloaded: it takes them out of its copy and sends them in
messages, one to each rank.  The iteration ends when all these messages have been handled.  The
imbalance of the assignment is then computed in a reduction, and each rank remembers its part of
the best assignment.  In the end the ranks ask for the objects of the best assignment.

The iterations of all trials are numbered one after the other here.
-/

namespace VtRuntime.Balance.Tempered

open Lib List Option

inductive CriterionEnum
  | grapevine
  | modifiedGrapevine

inductive CMFTypeEnum
  | original
  | normByMax
  | normByMaxExcludeIneligible
  deriving DecidableEq

structure TemperedConfig (K : Type) where
  numTrials : ℕ
  numIters : ℕ
  rollback : Bool
  criterion : CriterionEnum
  cmfType : CMFTypeEnum
  targetMaxLoad : K
  loadThreshold : K
  startImb : K

variable {N : ℕ} {Id K : Type}

/-- An object with its load. -/
abbrev Entry (N : ℕ) (Id K : Type) := ObjID (Fin N) Id × K

/-- `load_info_`: the ranks that a rank knows, with their loads as far as it knows them. -/
abbrev LoadInfo (N : ℕ) (K : Type) := List (Fin N × K)

variable [Field K] [LinearOrder K]

namespace TemperedConfig

variable (cfg : TemperedConfig K)

def isUnderloaded (load : K) : Bool := load < cfg.targetMaxLoad * cfg.loadThreshold

def isOverloaded (load : K) : Bool := load > cfg.targetMaxLoad * cfg.loadThreshold

/-- `Criterion`. -/
def evaluate (overLoad underLoad obj : K) : Bool :=
  match cfg.criterion with
  | .grapevine => ¬(underLoad + obj > cfg.targetMaxLoad)
  | .modifiedGrapevine => obj ≤ overLoad - underLoad

def makeUnderloaded (info : LoadInfo N K) : LoadInfo N K :=
  info.filter fun elm => cfg.isUnderloaded elm.2

def makeSufficientlyUnderloaded (info : LoadInfo N K) (newLoad load : K) : LoadInfo N K :=
  info.filter fun elm => cfg.evaluate newLoad elm.2 load

/-- The reciprocal of `factor`. -/
def scale (loads : List K) : K :=
  match cfg.cmfType with
  | .original => cfg.targetMaxLoad
  | _ => max (loads.foldl max 0) cfg.targetMaxLoad

/-- `TemperedLB::createCMF` for the loads of the candidates.  If the sum or the divisor is zero then
the quotients are not numbers. -/
def createCMF (loads : List K) : Option (List K) :=
  if loads.length = 1 then some [1]
  else
    let p := loads.map fun load => 1 - load / cfg.scale loads
    if cfg.scale loads = 0 ∨ p.sum = 0 then none
    else some ((List.range p.length).map fun i => (p.take (i + 1)).sum / p.sum)

end TemperedConfig

/-- `TemperedLB::sampleFromCMF` with the random number `u`. -/
def sampleFromCMF {α : Type} (under : List α) (cmf : List K) (u : K) : Option α :=
  ((under.zip cmf).find? fun p => decide (p.2 ≥ u)).map (·.1)

/-- What the loop over the objects leaves here and what it moves, and the load of this rank then. -/
structure TransferResult (N : ℕ) (Id K : Type) where
  kept : List (Entry N Id K)
  moved : List (Fin N × Entry N Id K)
  newLoad : K

def TransferResult.keep (obj : Entry N Id K) (r : TransferResult N Id K) : TransferResult N Id K :=
  { r with kept := obj :: r.kept }

def TransferResult.move (node : Fin N) (obj : Entry N Id K) (r : TransferResult N Id K) :
    TransferResult N Id K :=
  { r with moved := (node, obj) :: r.moved }

/-- The load of a rank as it is known here changes. -/
def addLoad (info : LoadInfo N K) (node : Fin N) (load : K) : LoadInfo N K :=
  info.map fun elm => if elm.1 = node then (elm.1, elm.2 + load) else elm

/-- The ranks that are candidates for an object.  Unless the CMF type asks for it, they are not
selected anew. -/
def candidates (cfg : TemperedConfig K) (under : List (Fin N)) (info : LoadInfo N K)
    (newLoad load : K) : LoadInfo N K :=
  match cfg.cmfType with
  | .original => cfg.makeUnderloaded info
  | .normByMax => under.filterMap fun node => (info.lookup node).map fun load => (node, load)
  | .normByMaxExcludeIneligible => cfg.makeSufficientlyUnderloaded info newLoad load

section Transfer

variable (cfg : TemperedConfig K) (u : ObjID (Fin N) Id → K) (under : List (Fin N))

/-- The loop over the objects.  It fails if no node is selected. -/
def transferLoop : List (Entry N Id K) → K → LoadInfo N K → Option (TransferResult N Id K)
  | [], newLoad, _ => some ⟨[], [], newLoad⟩
  | obj :: rest, newLoad, info =>
    let known := candidates cfg under info newLoad obj.2
    if known = [] then
      if cfg.cmfType = .normByMaxExcludeIneligible then
        (transferLoop rest newLoad info).map (·.keep obj)
      else some ⟨obj :: rest, [], newLoad⟩
    else do
      let cmf ← cfg.createCMF (known.map (·.2))
      let (node, selectedLoad) ← sampleFromCMF known cmf (u obj.1)
      if cfg.evaluate newLoad selectedLoad obj.2 then
        let newLoad := newLoad - obj.2
        if ¬(newLoad > cfg.targetMaxLoad) then some ⟨rest, [(node, obj)], newLoad⟩
        else (transferLoop rest newLoad (addLoad info node obj.2)).map (·.move node obj)
      else if ¬(newLoad > cfg.targetMaxLoad) then some ⟨obj :: rest, [], newLoad⟩
      else (transferLoop rest newLoad info).map (·.keep obj)

end Transfer

/-- The decisions of `TemperedLB::originalTransfer`, for the objects in the order of
`orderObjects`. -/
def originalTransfer (cfg : TemperedConfig K) (u : ObjID (Fin N) Id → K) (isOverloaded : Bool)
    (objs : List (Entry N Id K)) (newLoad : K) (info : LoadInfo N K) :
    Option (TransferResult N Id K) :=
  let under := (cfg.makeUnderloaded info).map (·.1)
  if isOverloaded = true ∧ under ≠ [] then transferLoop cfg u under objs newLoad info
  else some ⟨objs, [], newLoad⟩

/-! ## The ranks -/

/-- The objects of each rank that can be migrated, and the load of those that cannot. -/
structure Input (N : ℕ) (Id K : Type) where
  objs : Fin N → List (Entry N Id K)
  fixed : Fin N → K

/-- The load of a rank with some objects. -/
def Input.loadWith (inp : Input N Id K) (r : Fin N) (objs : List (Entry N Id K)) : K :=
  inp.fixed r + (objs.map (·.2)).sum

/-- `this_load`. -/
def Input.thisLoad (inp : Input N Id K) (r : Fin N) : K := inp.loadWith r (inp.objs r)

/-- Where a rank is in an iteration: before it, in the exchange of load information, in the epoch of
the migrations, or in the reduction.  A rank has finished when it has asked for its objects. -/
inductive Phase
  | start
  | inform
  | transfer
  | stats
  | finished
  deriving DecidableEq

def Phase.idx : Phase → ℕ
  | .start => 0
  | .inform => 1
  | .transfer => 2
  | .stats => 3
  | .finished => 1

/-- A rank.  What it has recorded, the imbalances with its objects, is a book. -/
structure Rank (N : ℕ) (Id K : Type) where
  newLoad : K
  bestImb : K
  newImbalance : K
  iter : ℕ := 0
  phase : Phase := .start
  aborted : Bool := false
  curObjs : List (Entry N Id K) := []
  overloaded : Bool := false
  bestObjs : List (Entry N Id K) := []
  transfers : List (Transfer (Fin N) Id) := []
  recorded : List (K × List (Entry N Id K)) := []

/-- How far a rank is. -/
def Rank.pos (l : Rank N Id K) : ℕ := 4 * l.iter + l.phase.idx

inductive Msg (N : ℕ) (Id K : Type)
  | lazyMigration (objs : List (Entry N Id K))
  | loadStats (imbalance : K)

def Msg.isLazy : Msg N Id K → Bool
  | .lazyMigration _ => true
  | .loadStats _ => false

abbrev Ranks (N : ℕ) (Id K : Type) := Network (Fin N) (Rank N Id K) (Msg N Id K)

/-- `LoadData::I` of the loads of all ranks. -/
def imbalance (loads : Fin N → K) : K :=
  let in_ := reduceVec .rankLoadModeled ((List.finRange N).map fun r =>
    .of .rankLoadModeled (loads r))
  if in_.avg > 0 then in_.max / in_.avg - 1 else 0

variable [DecidableEq Id]

/-- `TemperedLB::inLazyMigrations` and `TemperedLB::loadStatsHandler`.  An object that is there
already must not come in. -/
def handle : Network.Handler (Fin N) (Rank N Id K) (Msg N Id K) := fun _ l d =>
  match d.2 with
  | .lazyMigration objs =>
      if ∀ obj ∈ objs, obj.1.id ∉ l.curObjs.map (·.1.id) then
        some ({ l with
          curObjs := l.curObjs ++ objs
          newLoad := l.newLoad + (objs.map (·.2)).sum }, [])
      else none
  | .loadStats imb => some ({ l with newImbalance := imb }, [])

namespace TemperedConfig

variable (cfg : TemperedConfig K)

/-- The iterations of all trials. -/
def total : ℕ := cfg.numTrials * cfg.numIters

variable (iter : ℕ)

def isFirst : Bool := iter % cfg.numIters = 0

def isLast : Bool := iter % cfg.numIters + 1 = cfg.numIters

/-- `best_imb` before the first trial, so that any assignment is better. -/
def firstBest : K := cfg.startImb + 10

/-- The imbalance is computed at the end of an iteration. -/
def records : Bool := cfg.rollback || cfg.isLast iter

end TemperedConfig

/-- `lazyMigrateObjsTo`, one message to each rank. -/
def lazyMessages (moved : List (Fin N × Entry N Id K)) : List (Fin N × Msg N Id K) :=
  (groupBy (·.1) moved).map fun g => (g.1, .lazyMigration (g.2.map (·.2)))

/-- `thunkMigrations`. -/
def thunkMigrations (thisNode : Fin N) (objs : List (Entry N Id K)) : List (Transfer (Fin N) Id) :=
  (objs.map fun elm => ⟨elm.1, thisNode⟩).foldl (migrateObjectTo false) []

inductive Act (N : ℕ) (Id K : Type)
  | begin (r : Fin N)
  | transfer (r : Fin N) (ordered : List (Entry N Id K)) (info : LoadInfo N K)
      (u : ObjID (Fin N) Id → K)
  | endTransfer (r : Fin N)
  | record (r : Fin N)
  | finish (r : Fin N)
  | deliver (r : Fin N) (i : ℕ)

section Step

variable (cfg : TemperedConfig K) (inp : Input N Id K)

variable (x : Ranks N Id K) (r : Fin N) (l : Rank N Id K)

/-- The iteration starts.  In the first one of a trial the rank copies its assignment. -/
def Rank.begin : Rank N Id K :=
  let l :=
    if cfg.isFirst l.iter then { l with curObjs := inp.objs r, newLoad := inp.thisLoad r } else l
  { l with phase := .inform, overloaded := cfg.isOverloaded l.newLoad }

/-- The best assignment is saved.  After the last iteration of a trial the copy is cleared. -/
def Rank.record : Rank N Id K :=
  let l := if l.newImbalance < l.bestImb ∧ l.newImbalance ≤ cfg.startImb then
      { l with bestObjs := l.curObjs, bestImb := l.newImbalance } else l
  let l := { l with recorded := l.recorded ++ [(l.newImbalance, l.curObjs)] }
  let l := if cfg.isLast l.iter then { l with curObjs := [], newLoad := inp.thisLoad r } else l
  { l with phase := .start, iter := l.iter + 1 }

/-- The best assignment is loaded if it is not worse than the first one. -/
def Rank.finish : Rank N Id K :=
  let l := if l.bestImb ≤ cfg.startImb then { l with curObjs := l.bestObjs } else l
  { l with phase := .finished, transfers := thunkMigrations r l.curObjs }

/-- All ranks have come to a point, and no message of a kind is left. -/
def Synced (pos : ℕ) (isLazy : Bool) : Prop :=
  ∀ m, pos ≤ (x.node m).pos ∧ ∀ d ∈ x.inbox m, d.2.isLazy ≠ isLazy

instance (x : Ranks N Id K) (pos : ℕ) (isLazy : Bool) : Decidable (Synced x pos isLazy) :=
  inferInstanceAs (Decidable (∀ m, _ ∧ ∀ d ∈ x.inbox m, _ ≠ isLazy))

/-- A rank changes its state and sends messages. -/
def update (out : List (Fin N × Msg N Id K)) : Ranks N Id K :=
  Network.post r out { x with node := Function.update x.node r l }

/-- The result of the reduction is sent when the last rank has contributed. -/
def statsMessages : List (Fin N × Msg N Id K) :=
  if ∀ m, m ≠ r → 4 * (x.node r).iter + 3 ≤ (x.node m).pos then
    (List.finRange N).map fun m => (m, .loadStats (imbalance fun m => (x.node m).newLoad))
  else []

def step : Act N Id K → Option (Ranks N Id K)
  | .begin r =>
      let l := x.node r
      if l.phase = .start ∧ l.iter < cfg.total then
        some (update x r (l.begin cfg inp r) [])
      else none
  | .transfer r ordered info u =>
      let l := x.node r
      if l.phase = .inform ∧ l.aborted = false ∧ (∀ m, 4 * l.iter + 1 ≤ (x.node m).pos) ∧
          ordered.Perm l.curObjs ∧ ∀ obj ∈ ordered, 0 ≤ u obj.1 ∧ u obj.1 < 1 then
        match originalTransfer cfg u l.overloaded ordered l.newLoad info with
        | none => some (update x r { l with aborted := true } [])
        | some res =>
            some (update x r
              { l with phase := .transfer, curObjs := res.kept, newLoad := res.newLoad }
              (lazyMessages res.moved))
      else none
  | .endTransfer r =>
      let l := x.node r
      if l.phase = .transfer ∧ Synced x (4 * l.iter + 2) true then
        if cfg.records l.iter then some (update x r { l with phase := .stats } (statsMessages x r))
        else some (update x r { l with phase := .start, iter := l.iter + 1 } [])
      else none
  | .record r =>
      let l := x.node r
      if l.phase = .stats ∧ Synced x (4 * l.iter + 3) false then
        some (update x r (l.record cfg inp r) [])
      else none
  | .finish r =>
      let l := x.node r
      if l.phase = .start ∧ l.iter = cfg.total then some (update x r (l.finish cfg r) []) else none
  | .deliver r i => Network.deliver handle x (r, i)

/-- Before the first trial. -/
def initial : Ranks N Id K where
  node r := { newLoad := inp.thisLoad r, bestImb := cfg.firstBest, newImbalance := 0 }
  inbox _ := []

end Step

/-! ## The transfers of a rank -/

section Transfer

variable {cfg : TemperedConfig K} {u : ObjID (Fin N) Id → K} {under : List (Fin N)}

/-- The loads of the candidates for which the loop calls `createCMF`. -/
def cmfCalls (cfg : TemperedConfig K) (u : ObjID (Fin N) Id → K) (under : List (Fin N)) :
    List (Entry N Id K) → K → LoadInfo N K → List (List K)
  | [], _, _ => []
  | obj :: rest, newLoad, info =>
    let known := candidates cfg under info newLoad obj.2
    if known = [] then
      if cfg.cmfType = .normByMaxExcludeIneligible then
        cmfCalls cfg u under rest newLoad info
      else []
    else
      known.map (·.2) ::
        match (cfg.createCMF (known.map (·.2))).bind fun cmf =>
          sampleFromCMF known cmf (u obj.1) with
        | none => []
        | some (node, selectedLoad) =>
          if cfg.evaluate newLoad selectedLoad obj.2 then
            if ¬(newLoad - obj.2 > cfg.targetMaxLoad) then []
            else cmfCalls cfg u under rest (newLoad - obj.2) (addLoad info node obj.2)
          else if ¬(newLoad > cfg.targetMaxLoad) then []
          else cmfCalls cfg u under rest newLoad info

/-- A CMF is a list of numbers: there is one candidate only, or the sum is not zero. -/
def TemperedConfig.CMFDefined (cfg : TemperedConfig K) (loads : List K) : Prop :=
  loads.length = 1 ∨
    cfg.scale loads ≠ 0 ∧ (loads.map fun load => 1 - load / cfg.scale loads).sum ≠ 0

omit [DecidableEq Id] in
theorem createCMF_of_defined {loads : List K} (h : cfg.CMFDefined loads) (hne : loads ≠ []) :
    ∃ cmf, cfg.createCMF loads = some cmf ∧ cmf.length = loads.length ∧ cmf.getLast? = some 1 := by
  rw [TemperedConfig.createCMF]
  by_cases h1 : loads.length = 1
  · exact ⟨[1], by rw [if_pos h1], h1.symm, rfl⟩
  · obtain ⟨hscale, hsum⟩ := h.resolve_left h1
    rw [if_neg h1, if_neg (not_or.mpr ⟨hscale, hsum⟩)]
    refine ⟨_, rfl, by simp, ?_⟩
    obtain ⟨k, hk⟩ : ∃ k, loads.length = k + 1 :=
      Nat.exists_eq_succ_of_ne_zero fun h0 => hne (length_eq_zero_iff.mp h0)
    rw [length_map, hk, range_succ, map_append, map_singleton,
      List.getLast?_concat, take_of_length_le (by simp [hk]), div_self hsum]

omit [Field K] in
/-- The last value of a CMF is one, so some node is selected. -/
theorem exists_sampleFromCMF {α : Type} {known : List α} {cmf : List K} {one v : K}
    (hlen : cmf.length = known.length) (hlast : cmf.getLast? = some one) (hv : v < one) :
    ∃ a ∈ known, sampleFromCMF known cmf v = some a := by
  obtain ⟨cmf, rfl⟩ := List.getLast?_eq_some_iff.mp hlast
  have hne : known ≠ [] := by
    rintro rfl
    simp at hlen
  obtain ⟨known, a, rfl⟩ := known.eq_nil_or_concat'.resolve_left hne
  have hzip : (a, one) ∈ (known ++ [a]).zip (cmf ++ [one]) := by
    rw [zip_append (by simpa using hlen.symm)]
    simp
  have hfind :
      (((known ++ [a]).zip (cmf ++ [one])).find? fun p => decide (p.2 ≥ v)).isSome = true :=
    List.find?_isSome.mpr ⟨(a, one), hzip, decide_eq_true hv.le⟩
  obtain ⟨⟨b, c⟩, hb⟩ := isSome_iff_exists.mp hfind
  refine ⟨b, (of_mem_zip (mem_of_find?_eq_some hb)).1, ?_⟩
  rw [sampleFromCMF, hb]
  rfl

omit [DecidableEq Id] in
/-- The loop ends if every CMF that it needs is defined. -/
theorem exists_transferLoop (objs : List (Entry N Id K)) (hu : ∀ obj ∈ objs, u obj.1 < 1)
    (newLoad : K) (info : LoadInfo N K)
    (h : ∀ loads ∈ cmfCalls cfg u under objs newLoad info, cfg.CMFDefined loads) :
    ∃ res, transferLoop cfg u under objs newLoad info = some res := by
  induction objs generalizing newLoad info with
  | nil => exact ⟨_, rfl⟩
  | cons obj rest ih =>
    have ih := ih fun o ho => hu o (mem_cons_of_mem _ ho)
    rw [cmfCalls] at h
    rw [transferLoop]
    by_cases hknown : candidates cfg under info newLoad obj.2 = []
    · simp only [hknown, if_true] at h ⊢
      split_ifs at h ⊢
      · obtain ⟨res, hres⟩ := ih _ _ h
        exact ⟨_, by rw [hres]; rfl⟩
      · exact ⟨_, rfl⟩
    · simp only [hknown, if_false] at h ⊢
      obtain ⟨hhead, htail⟩ := forall_mem_cons.mp h
      obtain ⟨cmf, hcmf, hlen, hlast⟩ := createCMF_of_defined hhead (by simpa using hknown)
      obtain ⟨⟨node, sel⟩, -, hsel⟩ :=
        exists_sampleFromCMF (by simpa using hlen) hlast (hu obj mem_cons_self)
      simp only [hcmf, hsel, bind_some] at htail
      simp only [hcmf, hsel, bind_eq_bind, bind_some]
      split_ifs at htail ⊢
      · obtain ⟨res, hres⟩ := ih _ _ htail
        exact ⟨_, by rw [hres]; rfl⟩
      · exact ⟨_, rfl⟩
      · obtain ⟨res, hres⟩ := ih _ _ htail
        exact ⟨_, by rw [hres]; rfl⟩
      · exact ⟨_, rfl⟩

/-- What is kept and what is moved are the objects, and the load is what is kept. -/
structure Splits (objs : List (Entry N Id K)) (newLoad : K)
    (res : TransferResult N Id K) : Prop where
  perm : (res.kept ++ res.moved.map (·.2)).Perm objs
  load : res.newLoad + ((res.moved.map (·.2)).map (·.2)).sum = newLoad

variable {newLoad : K} {res : TransferResult N Id K}

section

omit [LinearOrder K] [DecidableEq Id]

theorem Splits.keep {obj : Entry N Id K} {rest : List (Entry N Id K)}
    (h : Splits rest newLoad res) : Splits (obj :: rest) newLoad (res.keep obj) :=
  ⟨h.perm.cons obj, h.load⟩

theorem Splits.move {obj : Entry N Id K} {rest : List (Entry N Id K)} {node : Fin N}
    (h : Splits rest (newLoad - obj.2) res) : Splits (obj :: rest) newLoad (res.move node obj) := by
  constructor
  · exact perm_middle.trans (h.perm.cons obj)
  · have := h.load
    simp only [TransferResult.move, map_cons, sum_cons]
    linear_combination this

theorem Splits.none (objs : List (Entry N Id K)) (newLoad : K) :
    Splits objs newLoad ⟨objs, [], newLoad⟩ :=
  ⟨by simp, by simp⟩

end

omit [DecidableEq Id] in
theorem splits_transferLoop (objs : List (Entry N Id K)) (newLoad : K) (info : LoadInfo N K)
    (h : transferLoop cfg u under objs newLoad info = some res) : Splits objs newLoad res := by
  induction objs generalizing newLoad info res with
  | nil =>
    obtain rfl := Option.some.inj h
    exact .none [] newLoad
  | cons obj rest ih =>
    rw [transferLoop] at h
    by_cases hknown : candidates cfg under info newLoad obj.2 = []
    · simp only [hknown, if_true] at h
      split_ifs at h
      · obtain ⟨r, hr, rfl⟩ := map_eq_some_iff.mp h
        exact (ih _ _ hr).keep
      · obtain rfl := Option.some.inj h
        exact .none _ _
    · simp only [hknown, if_false] at h
      obtain ⟨cmf, -, h⟩ := bind_eq_some_iff.mp h
      obtain ⟨⟨node, sel⟩, -, h⟩ := bind_eq_some_iff.mp h
      simp only at h
      split_ifs at h
      · obtain ⟨r, hr, rfl⟩ := map_eq_some_iff.mp h
        exact (ih _ _ hr).move
      · obtain rfl := Option.some.inj h
        exact (Splits.none rest (newLoad - obj.2)).move
      · obtain ⟨r, hr, rfl⟩ := map_eq_some_iff.mp h
        exact (ih _ _ hr).keep
      · obtain rfl := Option.some.inj h
        exact .none _ _

omit [DecidableEq Id] in
theorem splits_originalTransfer {overloaded : Bool} {objs : List (Entry N Id K)}
    {info : LoadInfo N K} (h : originalTransfer cfg u overloaded objs newLoad info = some res) :
    Splits objs newLoad res := by
  rw [originalTransfer] at h
  split_ifs at h
  · exact splits_transferLoop objs newLoad info h
  · obtain rfl := Option.some.inj h
    exact .none _ _

end Transfer

/-! ## The distribution over the candidates -/

variable {cfg : TemperedConfig K} {loads : List K}

/-- The values are a CMF of the candidates, made of weights none of which is negative. -/
structure Distributes (cfg : TemperedConfig K) (known : LoadInfo N K) (cmf : List K) : Prop where
  created : cfg.createCMF (known.map (·.2)) = some cmf
  length : cmf.length = known.length
  sorted : cmf.Pairwise (· ≤ ·)
  last : cmf.getLast? = some 1
  weight : known.length = 1 ∨ ∀ elm ∈ known, 0 ≤ 1 - elm.2 / cfg.scale (known.map (·.2))
  selects : ∀ u, 0 ≤ u → u < 1 → ∃ elm ∈ known, sampleFromCMF known cmf u = some elm

theorem scale_pos (h : 0 < cfg.targetMaxLoad) (loads : List K) : 0 < cfg.scale loads := by
  rw [TemperedConfig.scale]
  split
  · exact h
  · exact lt_max_of_lt_right h

variable [IsStrictOrderedRing K]

theorem pairwise_createCMF {cmf : List K} (h : cfg.createCMF loads = some cmf)
    (hweight : loads.length = 1 ∨ ∀ load ∈ loads, 0 ≤ 1 - load / cfg.scale loads) :
    cmf.Pairwise (· ≤ ·) := by
  rw [TemperedConfig.createCMF] at h
  split at h
  · obtain rfl := Option.some.inj h
    exact pairwise_singleton _ _
  · next h1 =>
    obtain ⟨-, h⟩ := ite_none_left_eq_some.mp h
    obtain rfl := Option.some.inj h
    have hp : ∀ p ∈ loads.map fun load => 1 - load / cfg.scale loads, 0 ≤ p :=
      forall_mem_map.mpr (hweight.resolve_left h1)
    refine pairwise_map.mpr (pairwise_le_range.imp fun hij => ?_)
    refine div_le_div_of_nonneg_right ?_ (sum_nonneg hp)
    exact (take_sublist_take_left (Nat.succ_le_succ hij)).sum_le_sum fun p h =>
      hp p (mem_of_mem_take h)

theorem sum_weight_eq_zero {s : K} (hs : 0 < s) (hle : ∀ load ∈ loads, load ≤ s) :
    (loads.map fun load => 1 - load / s).sum = 0 ↔ ∀ load ∈ loads, s ≤ load := by
  constructor
  · intro hsum load hload
    have hp : ∀ p ∈ loads.map fun load => 1 - load / s, 0 ≤ p :=
      forall_mem_map.mpr fun load h => sub_nonneg.mpr ((div_le_one hs).mpr (hle load h))
    have h0 := all_zero_of_le_zero_le_of_sum_eq_zero hp hsum (mem_map_of_mem hload)
    exact (one_le_div hs).mp (sub_eq_zero.mp h0).le
  · intro hge
    refine sum_eq_zero (forall_mem_map.mpr fun load h => ?_)
    rw [(hle load h).antisymm (hge load h), div_self hs.ne', sub_self]

/-- The distribution over the candidates is well defined if and only if there is one candidate only,
or none has more than the load that the loads are divided by and one has less. -/
theorem cmf_wellDefined_iff (cfg : TemperedConfig K) (h : 0 < cfg.targetMaxLoad)
    (known : LoadInfo N K) :
    (∃ cmf, Distributes cfg known cmf) ↔ known.length = 1 ∨
      (∀ elm ∈ known, elm.2 ≤ cfg.scale (known.map (·.2))) ∧
        ∃ elm ∈ known, elm.2 < cfg.scale (known.map (·.2)) := by
  have hs := scale_pos h (known.map (·.2))
  have hlen : (known.map (·.2)).length = known.length := length_map _
  constructor
  · rintro ⟨cmf, hd⟩
    refine or_iff_not_imp_left.mpr fun h1 => ?_
    have hle : ∀ elm ∈ known, elm.2 ≤ cfg.scale (known.map (·.2)) := fun elm helm =>
      (div_le_one hs).mp (sub_nonneg.mp (hd.weight.resolve_left h1 elm helm))
    refine ⟨hle, ?_⟩
    by_contra hno
    push Not at hno
    have hsum := (sum_weight_eq_zero hs (forall_mem_map.mpr hle)).mpr (forall_mem_map.mpr hno)
    have hc := hd.created
    rw [TemperedConfig.createCMF, if_neg (hlen ▸ h1), if_pos (.inr hsum)] at hc
    exact absurd hc nofun
  · intro hcond
    have hdef : cfg.CMFDefined (known.map (·.2)) := by
      refine hcond.imp hlen.trans ?_
      rintro ⟨hle, elm, helm, hlt⟩
      refine ⟨hs.ne', fun hsum => ?_⟩
      have := (sum_weight_eq_zero hs (forall_mem_map.mpr hle)).mp hsum _ (mem_map_of_mem helm)
      exact absurd hlt this.not_gt
    have hweight : known.length = 1 ∨ ∀ elm ∈ known, 0 ≤ 1 - elm.2 / cfg.scale (known.map (·.2)) :=
      hcond.imp_right fun hle elm helm => sub_nonneg.mpr ((div_le_one hs).mpr (hle.1 elm helm))
    have hne : known ≠ [] := by
      rintro rfl
      simp at hcond
    obtain ⟨cmf, hc, hl, hlast⟩ := createCMF_of_defined hdef (by simpa using hne)
    refine ⟨cmf, hc, hl.trans hlen, ?_, hlast, hweight, ?_⟩
    · exact pairwise_createCMF hc (hweight.imp hlen.trans forall_mem_map.mpr)
    · intro u _ hu
      exact exists_sampleFromCMF (hl.trans hlen) hlast hu

private def evenConfig : TemperedConfig ℚ := ⟨1, 1, false, .grapevine, .normByMax, 10, 1, 3⟩

theorem cmf_wellDefined_two : ∃ cmf, Distributes (N := 3) evenConfig [(1, 10), (2, 0)] cmf :=
  (cmf_wellDefined_iff evenConfig (by decide +kernel) _).mpr
    (.inr ⟨by decide +kernel, by decide +kernel⟩)

/-- The target is the average load of four ranks.  The two that are known have this load when they
have been sent an object each, and the next CMF is not defined. -/
theorem cmf_undefined : (originalTransfer (N := 4) evenConfig
    (fun o => [0, 1 / 2, 0].getD o.id 0) true
    ([0, 1, 2, 3].map fun i => (⟨i, 0⟩, 10)) 40 [(1, 0), (2, 0)]).isNone = true ∧
    evenConfig.createCMF [10, 10] = none := by
  decide +kernel

end VtRuntime.Balance.Tempered
