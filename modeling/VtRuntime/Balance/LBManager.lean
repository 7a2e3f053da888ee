import VtRuntime.Lib.Run
import Mathlib.Tactic.SplitIfs

/-!
# Which load balancer runs in a phase

`decideLBToRun` caches the last phase it was asked for and the balancer it chose.  Two of its
returns cache the phase and not the balancer.  This does not matter where the answer is `NoLB`, as
the cached balancer is `NoLB` then, but it does where the user asks for `OfflineLB` by name: the
same phase asked for again has no balancer.
-/

namespace VtRuntime.Balance

open Lib Option

abbrev PhaseType := UInt64

/-- `no_lb_phase`. -/
def noLbPhase : PhaseType := 0xFFFFFFFFFFFFFFFF

inductive LBType
  | noLB | greedyLB | hierarchicalLB | rotateLB | temperedLB | offlineLB | zoltanLB | randomLB
  | testSerializationLB | temperedWMin
  deriving DecidableEq

/-- `get_lb_names`, in a build with or without Zoltan. -/
def getLbNames (zoltan : Bool) : List (LBType × String) :=
  [(.noLB, "NoLB")] ++ (if zoltan then [(.zoltanLB, "ZoltanLB")] else []) ++
    [(.greedyLB, "GreedyLB"), (.hierarchicalLB, "HierarchicalLB"), (.rotateLB, "RotateLB"),
      (.temperedLB, "TemperedLB"), (.offlineLB, "OfflineLB"), (.randomLB, "RandomLB"),
      (.testSerializationLB, "TestSerializationLB"), (.temperedWMin, "TemperedWMin")]

/-- What `ReadLBConfig` has read: the names for single phases, and for the multiples of a number
in the order of their precedence. -/
structure ReadLBConfig where
  configExact : ℤ → Option String
  configMod : ℤ → Option String
  configPrec : List ℤ

/-- The second part of `entry`; the remainder of a division by zero is not defined. -/
def ReadLBConfig.modEntry (r : ReadLBConfig) (idx : ℤ) : List ℤ → Option (Option String)
  | [] => some none
  | m :: ms =>
    match r.configMod m with
    | none => r.modEntry idx ms
    | some e =>
      if m = 0 then none else if idx.tmod m = 0 then some (some e) else r.modEntry idx ms

def ReadLBConfig.entry (r : ReadLBConfig) (idx : ℤ) : Option (Option String) :=
  match r.configExact idx with
  | some e => some (some e)
  | none => r.modEntry idx r.configPrec

/-- The configuration and the restart reader's table of changes.  A file name that is not empty is
given with what the file contains, if it can be opened. -/
structure AppConfig where
  zoltan : Bool := false
  vtLb : Bool := true
  vtLbName : String
  vtLbFileName : Option (Option ReadLBConfig) := none
  vtLbInterval : Int32 := 1
  vtLbRunLbFirstPhase : Bool := false
  changedDistro : List Bool := []

namespace AppConfig

variable (cfg : AppConfig)

variable (phase : PhaseType)

def needsLB : Bool := cfg.changedDistro[phase.toNat]?.getD false

def lbNamed (name : String) : Option LBType :=
  ((getLbNames cfg.zoltan).find? fun elm => elm.2 = name).map Prod.fst

/-- `ReadLBConfig::getLB`.  The phase becomes a signed number. -/
def getLB (r : ReadLBConfig) (phase : PhaseType) : Option LBType :=
  (r.entry phase.toInt64.toInt).map fun e => (e.bind cfg.lbNamed).getD .noLB

/-- The balancer that the file or the interval gives. -/
def requested (tryFile : Bool) : Option LBType :=
  match cfg.vtLbFileName, tryFile with
  | some file, true => file.bind fun r => cfg.getLB r phase
  | _, _ =>
    let offset : PhaseType := if cfg.vtLbRunLbFirstPhase then 0 else 1
    if cfg.vtLbInterval = 0 then none
    else if phase % cfg.vtLbInterval.toInt64.toUInt64 = offset ∨
        cfg.vtLbInterval = 1 ∧ phase ≠ 0 then
      cfg.lbNamed cfg.vtLbName
    else some .noLB

/-- `OfflineLB` is not run in a phase that does not need it. -/
def theLb (tryFile : Bool) : Option LBType :=
  (cfg.requested phase tryFile).map fun lb =>
    if lb = .offlineLB ∧ cfg.needsLB phase = false then .noLB else lb

end AppConfig

structure LBManager where
  cachedPhase : PhaseType := noLbPhase
  cachedLb : LBType := .noLB

/-- `none` where the program is aborted. -/
def LBManager.decideLBToRun (cfg : AppConfig) (m : LBManager) (phase : PhaseType) (tryFile : Bool) :
    Option (LBType × LBManager) :=
  if phase = m.cachedPhase then some (m.cachedLb, m)
  else if cfg.vtLb = false then some (.noLB, { m with cachedPhase := phase })
  else if cfg.vtLbName = "OfflineLB" then
    some (if cfg.needsLB phase then .offlineLB else .noLB, { m with cachedPhase := phase })
  else
    (cfg.theLb phase tryFile).map fun lb => (lb, ⟨phase, lb⟩)

namespace LBManager

variable (cfg : AppConfig) (m : LBManager) (phase : PhaseType)

/-- A call, and the managers that a sequence of calls leaves. -/
def call : Option LBManager :=
  (m.decideLBToRun cfg phase true).map Prod.snd

def answer : Option LBType :=
  (m.decideLBToRun cfg phase true).map Prod.fst

/-- The phase is one, and it is not the one before for which `OfflineLB` is asked for by name and
has to run. -/
def Distinct : Prop :=
  phase ≠ noLbPhase ∧ ¬ (phase = m.cachedPhase ∧ cfg.vtLb = true ∧ cfg.vtLbName = "OfflineLB" ∧
    cfg.needsLB phase = true)

variable {cfg : AppConfig} {m m' : LBManager} {phase : PhaseType}

/-- The cached balancer is the answer for the cached phase, unless neither has been set, or is
`NoLB`. -/
structure Cached (cfg : AppConfig) (m : LBManager) : Prop where
  early : cfg.vtLb = false ∨ cfg.vtLbName = "OfflineLB" → m.cachedLb = .noLB
  late : ¬ (cfg.vtLb = false ∨ cfg.vtLbName = "OfflineLB") → m.cachedPhase ≠ noLbPhase →
    answer cfg {} m.cachedPhase = some m.cachedLb

theorem answer_of_ne (hp : phase ≠ noLbPhase) (hm : phase ≠ m.cachedPhase) :
    answer cfg m phase = answer cfg {} phase := by
  simp only [answer, decideLBToRun, if_neg hp, if_neg hm]
  split_ifs
  · rfl
  · rfl
  · rfl
  · rfl

theorem Cached.call (h : Cached cfg m) (hc : m.call cfg phase = some m') : Cached cfg m' := by
  simp only [LBManager.call, decideLBToRun] at hc
  split_ifs at hc with hm hlb hname hneeds
  · exact Option.some.inj hc ▸ h
  · exact Option.some.inj hc ▸ ⟨h.early, fun hn => absurd (Or.inl hlb) hn⟩
  · exact Option.some.inj hc ▸ ⟨h.early, fun hn => absurd (Or.inr hname) hn⟩
  · exact Option.some.inj hc ▸ ⟨h.early, fun hn => absurd (Or.inr hname) hn⟩
  · rw [Option.map_map] at hc
    obtain ⟨lb, hlb', rfl⟩ := Option.map_eq_some_iff.mp hc
    refine ⟨fun hn => absurd hn (by simp [hlb, hname]), fun _ hp => ?_⟩
    have hp : phase ≠ noLbPhase := hp
    simp [answer, decideLBToRun, hp, hlb, hname, hlb']

/-- **The choice of load balancer.**  Where no phase for which `OfflineLB` has to run, asked for by
name, is asked for again right away, every call returns what a new manager would return. -/
theorem answer_eq_fresh {s : LBManager} (h : Reach (· = {}) (call cfg) (Distinct cfg) s)
    (hd : Distinct cfg s phase) : answer cfg s phase = answer cfg {} phase := by
  have hcached : Cached cfg s := by
    refine h.invariant ?_ fun s p s' hs _ hc => hs.call hc
    rintro _ rfl
    exact ⟨fun _ => rfl, fun _ hp => absurd rfl hp⟩
  by_cases hm : phase = s.cachedPhase
  · obtain ⟨hp, hoff⟩ := hd
    by_cases he : cfg.vtLb = false ∨ cfg.vtLbName = "OfflineLB"
    · -- the answer of a new manager is `NoLB`, as the cached one
      have hfresh : answer cfg {} phase = some .noLB := by
        simp only [answer, decideLBToRun, if_neg hp]
        split_ifs with hlb hname hneeds
        · rfl
        · exact absurd ⟨hm, by simpa using hlb, hname, hneeds⟩ hoff
        · rfl
        · exact absurd he (by simp [hlb, hname])
      rw [hfresh, ← hcached.early he]
      simp [answer, decideLBToRun, hm]
    · have hlate := hcached.late he (hm ▸ hp)
      rw [← hm] at hlate
      rw [hlate]
      simp [answer, decideLBToRun, hm]
  · exact answer_of_ne hd.1 hm

/-- The same phase twice, with the default interval. -/
theorem answer_eq_fresh_greedy : answer ⟨false, true, "GreedyLB", none, 1, false, []⟩
    ⟨1, .greedyLB⟩ 1
    = answer ⟨false, true, "GreedyLB", none, 1, false, []⟩ {} 1 := by
  have hd : ∀ m, Distinct ⟨false, true, "GreedyLB", none, 1, false, []⟩ m 1 := by
    simp [Distinct, noLbPhase]
  exact answer_eq_fresh (.next (.start rfl) (hd {}) rfl) (hd _)

/-- The phase 1 needs the balancer, and has none when it is asked for again. -/
theorem offlineLB_then_noLB : ∃ s, Reach (· = {}) (call ⟨false, true, "OfflineLB", none, 1, false,
    [false, true]⟩) anyStep s ∧
    answer ⟨false, true, "OfflineLB", none, 1, false, [false, true]⟩ s 1 = some .noLB ∧
    answer ⟨false, true, "OfflineLB", none, 1, false, [false, true]⟩ {} 1 = some .offlineLB :=
  ⟨⟨1, .noLB⟩, .next (a := 1) (.start rfl) trivial rfl, rfl, rfl⟩

end LBManager

end VtRuntime.Balance
