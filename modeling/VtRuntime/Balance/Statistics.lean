import Mathlib.Algebra.BigOperators.Group.Multiset.Basic
import Mathlib.Algebra.Order.BigOperators.Group.List
import Mathlib.Algebra.Order.Field.Basic
import Mathlib.Data.Rat.Cast.Order
import Mathlib.Tactic.FieldSimp
import Mathlib.Tactic.Ring

/-!
# Statistics of the load balancer

Every rank folds the loads of its objects to one `LoadData` per statistic, and the vectors of these
are combined by a reduction, in whatever tree.  A `LoadData` has the number of values, their sum,
extrema and average, and the number of those that are not zero.  Combining two of them is exact.

A rank that has no object contributes a `LoadData` of the value zero, as if it had one object
without load.  So the statistics of objects are those of all objects exactly if every rank has one.
-/

namespace VtRuntime.Balance

open List

/-- The statistics that `computeStatistics` computes. -/
inductive Statistic
  | rankLoadModeled
  | rankLoadRaw
  | rankComm
  | rankStrategySpecificLoadModeled
  | objectLoadModeled
  | objectLoadRaw
  | objectComm
  | objectStrategySpecificLoadModeled
  deriving DecidableEq

/-- The statistic has an entry per object, or per edge. -/
def Statistic.isObject : Statistic → Bool
  | .objectLoadModeled | .objectLoadRaw | .objectComm | .objectStrategySpecificLoadModeled => true
  | _ => false

structure LoadData (K : Type) where
  max : K
  sum : K
  min : K
  avg : K
  M2 : K
  M3 : K
  M4 : K
  N : ℕ
  P : ℕ
  stat : Statistic

variable {K : Type} [Field K] [LinearOrder K]

namespace LoadData

/-- The data of one value. -/
def of (stat : Statistic) (y : K) : LoadData K where
  max := y
  sum := y
  min := y
  avg := y
  M2 := 0
  M3 := 0
  M4 := 0
  N := 1
  P := if y ≠ 0 then 1 else 0
  stat := stat

/-- `operator+`. -/
def add (a1 a2 : LoadData K) : LoadData K :=
  let N := a1.N + a2.N
  let delta := a2.avg - a1.avg
  let deltaSurN := delta / N
  let delta2SurN2 := deltaSurN * deltaSurN
  let n : K := a1.N
  let nC : K := a2.N
  let n2 := n * n
  let nC2 := nC * nC
  let prodN := n * nC
  { M4 := a1.M4 + (a2.M4 + prodN * (n2 - prodN + nC2) * delta * deltaSurN * delta2SurN2 +
      6 * (n2 * a2.M2 + nC2 * a1.M2) * delta2SurN2 + 4 * (n * a2.M3 - nC * a1.M3) * deltaSurN)
    M3 := a1.M3 + (a2.M3 + prodN * (n - nC) * delta * delta2SurN2 +
      3 * (n * a2.M2 - nC * a1.M2) * deltaSurN)
    M2 := a1.M2 + (a2.M2 + prodN * delta * deltaSurN)
    avg := a1.avg + nC * deltaSurN
    N := N
    min := Min.min a1.min a2.min
    max := Max.max a1.max a2.max
    sum := a1.sum + a2.sum
    P := a1.P + a2.P
    stat := a2.stat }

end LoadData

/-- An empty vector gives the data of the value zero. -/
def reduceVec (stat : Statistic) : List (LoadData K) → LoadData K
  | [] => .of stat 0
  | d :: ds => ds.foldl .add d

inductive CommCategory
  | sendRecv
  | collectionToNode
  | nodeToCollection
  | broadcast
  | collectionToNodeBcast
  | nodeToCollectionBcast
  | collectiveToCollectionBcast
  | localInvoke
  | writeShared
  | readOnlyShared
  deriving DecidableEq

/-- An element is identified by `id`; `currNode` is where it was when the key was made. -/
structure ElementID where
  id : ℕ
  currNode : ℕ

/-- The key of an edge, and the bytes sent along it. -/
structure CommEdge (K : Type) where
  cat : CommCategory
  src : ElementID
  dst : ElementID
  nfrom : ℕ
  nto : ℕ
  bytes : K

namespace CommEdge

variable (e : CommEdge K)

def selfEdge : Bool := e.cat = .sendRecv && e.src.id = e.dst.id

def offNode : Bool :=
  match e.cat with
  | .sendRecv => e.src.currNode ≠ e.dst.currNode
  | .collectionToNode => e.src.currNode ≠ e.nto
  | .nodeToCollection => e.dst.currNode ≠ e.nfrom
  | _ => true

def onNode : Bool := !e.offNode

/-- The edge counts for `Object_comm`. -/
def isObjectEdge : Bool := e.cat = .sendRecv && !e.selfEdge

end CommEdge

def isCollectiveComm : CommCategory → Bool
  | .broadcast | .collectionToNodeBcast | .nodeToCollectionBcast => true
  | _ => false

/-- What the ranks agree on: whether the load model has raw loads, whether there is a model of the
strategy, and whether collective edges count for `Rank_comm`. -/
structure StatConfig where
  hasRawLoad : Bool
  hasStrategySpecificModel : Bool
  commCollectives : Bool

/-- What a rank has: the loads of its objects, and its edges. -/
structure RankData (K : Type) where
  modeled : List K
  raw : List K
  strategySpecific : List K
  comm : List (CommEdge K)

namespace RankData

variable (cfg : StatConfig) (r : RankData K)

/-- The loop for `Rank_comm`. -/
def commLoad : K :=
  r.comm.foldl (fun load e =>
    if !cfg.commCollectives && isCollectiveComm e.cat then load
    else if e.onNode || e.selfEdge then load
    else load + e.bytes) 0

/-- The two entries that come from the loads of the objects. -/
def loadStats (rank object : Statistic) (loads : List K) : List (LoadData K) :=
  [.of rank (loads.foldl (· + ·) 0), reduceVec object (loads.map (.of object))]

def computeStatistics : List (LoadData K) :=
  loadStats .rankLoadModeled .objectLoadModeled r.modeled ++
  (if cfg.hasStrategySpecificModel then
    loadStats .rankStrategySpecificLoadModeled .objectStrategySpecificLoadModeled r.strategySpecific
    else []) ++
  (if cfg.hasRawLoad then loadStats .rankLoadRaw .objectLoadRaw r.raw else []) ++
  [.of .rankComm (r.commLoad cfg),
    reduceVec .objectComm ((r.comm.filter (·.isObjectEdge)).map fun e => .of .objectComm e.bytes)]

/-- The values of a statistic of objects on a rank. -/
def values (r : RankData K) : Statistic → List K
  | .objectLoadModeled => r.modeled
  | .objectLoadRaw => r.raw
  | .objectStrategySpecificLoadModeled => r.strategySpecific
  | .objectComm => (r.comm.filter (·.isObjectEdge)).map (·.bytes)
  | _ => []

end RankData

/-- `PlusOp` for vectors.  Vectors of different sizes fail an assertion. -/
def plusOp (v1 v2 : List (LoadData K)) : Option (List (LoadData K)) :=
  if v1.length = v2.length then some (List.zipWith .add v1 v2) else none

/-- A reduction tree with a rank at each leaf. -/
inductive ReduceTree (K : Type)
  | rank (r : RankData K)
  | combine (a b : ReduceTree K)

namespace ReduceTree

def ranks : ReduceTree K → List (RankData K)
  | .rank r => [r]
  | .combine a b => a.ranks ++ b.ranks

def reduce (cfg : StatConfig) : ReduceTree K → Option (List (LoadData K))
  | .rank r => some (r.computeStatistics cfg)
  | .combine a b => (a.reduce cfg).bind fun v1 => (b.reduce cfg).bind fun v2 => plusOp v1 v2

/-- The values of a statistic of objects on all ranks. -/
def values (t : ReduceTree K) (stat : Statistic) : Multiset K :=
  (t.ranks.map fun r => (r.values stat : Multiset K)).sum

/-- The data of a statistic in the result. -/
def statistic (cfg : StatConfig) (t : ReduceTree K) (stat : Statistic) : Option (LoadData K) :=
  (t.reduce cfg).bind fun v => v.find? (·.stat = stat)

end ReduceTree

/-! ## What the data describe -/

/-- The number, the sum, the extrema, the average and the number of non-zero values of a
multiset. -/
structure LoadData.Describes (d : LoadData K) (m : Multiset K) : Prop where
  card : d.N = m.card
  sum : d.sum = m.sum
  min : IsLeast {x | x ∈ m} d.min
  max : IsGreatest {x | x ∈ m} d.max
  avg : d.avg = m.sum / m.card
  nonzero : d.P = m.countP (· ≠ 0)

namespace LoadData

omit [Field K] in
theorem nonempty_of_isLeast {m : Multiset K} {x : K} (h : IsLeast {y | y ∈ m} x) : 0 < m.card :=
  Multiset.card_pos_iff_exists_mem.mpr ⟨x, h.1⟩

theorem describes_of (stat : Statistic) (y : K) : (of stat y).Describes {y} where
  card := rfl
  sum := (Multiset.sum_singleton y).symm
  min := by simp [of]
  max := by simp [of]
  avg := by simp [of]
  nonzero := by
    by_cases hy : y = 0 <;> simp [of, hy, Multiset.countP_eq_card_filter, Multiset.filter_singleton]

variable [IsStrictOrderedRing K] {a b : LoadData K} {m m' : Multiset K}

theorem Describes.add (ha : a.Describes m) (hb : b.Describes m') :
    (a.add b).Describes (m + m') := by
  have hm : (m.card : K) ≠ 0 := Nat.cast_ne_zero.mpr (nonempty_of_isLeast ha.min).ne'
  have hm' : (m'.card : K) ≠ 0 := Nat.cast_ne_zero.mpr (nonempty_of_isLeast hb.min).ne'
  have hmem : {x | x ∈ m + m'} = {x | x ∈ m} ∪ {x | x ∈ m'} := by
    ext x
    simp
  refine ⟨?_, ?_, ?_, ?_, ?_, ?_⟩
  · rw [Multiset.card_add, ← ha.card, ← hb.card]
    rfl
  · rw [Multiset.sum_add, ← ha.sum, ← hb.sum]
    rfl
  · rw [hmem]
    exact ha.min.union hb.min
  · rw [hmem]
    exact ha.max.union hb.max
  · have hsum : (m.card : K) + m'.card ≠ 0 := by
      have : 0 < m.card + m'.card := Nat.add_pos_left (nonempty_of_isLeast ha.min) _
      exact_mod_cast this.ne'
    simp only [LoadData.add, ha.avg, hb.avg, ha.card, hb.card, Multiset.sum_add, Multiset.card_add,
      Nat.cast_add]
    field_simp
    ring
  · rw [Multiset.countP_add, ← ha.nonzero, ← hb.nonzero]
    rfl

end LoadData

/-! ## One rank -/

section Rank

variable (stat : Statistic)

variable (l : List K)

theorem N_foldl_add (d : LoadData K) : ((l.map (.of stat)).foldl .add d).N = d.N + l.length := by
  induction l generalizing d with
  | nil => rfl
  | cons y l ih =>
    rw [map_cons, foldl_cons, ih, length_cons]
    change d.N + 1 + l.length = _
    omega

/-- An empty rank counts as one value. -/
theorem N_reduceVec : (reduceVec stat (l.map (.of stat))).N = max 1 l.length := by
  cases l with
  | nil => rfl
  | cons y l =>
    rw [map_cons, reduceVec, N_foldl_add, length_cons]
    change 1 + l.length = _
    omega

theorem stat_foldl_add (d : LoadData K) (hd : d.stat = stat) :
    ((l.map (.of stat)).foldl .add d).stat = stat := by
  induction l generalizing d with
  | nil => exact hd
  | cons y l ih =>
    rw [map_cons, foldl_cons]
    exact ih _ rfl

theorem stat_reduceVec : (reduceVec stat (l.map (.of stat))).stat = stat := by
  cases l with
  | nil => rfl
  | cons y l =>
    rw [map_cons, reduceVec]
    exact stat_foldl_add stat l _ rfl

variable [IsStrictOrderedRing K]

theorem describes_foldl_add (l : List K) {d : LoadData K} {m : Multiset K} (hd : d.Describes m) :
    ((l.map (.of stat)).foldl .add d).Describes (m + l) := by
  induction l generalizing d m with
  | nil => simpa using hd
  | cons y l ih =>
    rw [map_cons, foldl_cons, ← Multiset.cons_coe, ← Multiset.singleton_add, ← add_assoc]
    exact ih (hd.add (LoadData.describes_of stat y))

theorem describes_reduceVec {l : List K} (hl : l ≠ []) :
    (reduceVec stat (l.map (.of stat))).Describes l := by
  cases l with
  | nil => exact absurd rfl hl
  | cons y l =>
    rw [map_cons, reduceVec, ← Multiset.cons_coe, ← Multiset.singleton_add]
    exact describes_foldl_add stat l (LoadData.describes_of stat y)

end Rank

/-! ## The reduction -/

/-- The statistics that are computed, in their order. -/
def StatConfig.statistics (cfg : StatConfig) : List Statistic :=
  [.rankLoadModeled, .objectLoadModeled] ++
  (if cfg.hasStrategySpecificModel then
    [.rankStrategySpecificLoadModeled, .objectStrategySpecificLoadModeled] else []) ++
  (if cfg.hasRawLoad then [.rankLoadRaw, .objectLoadRaw] else []) ++ [.rankComm, .objectComm]

namespace RankData

variable (cfg : StatConfig) (r : RankData K)

/-- The value of a statistic of ranks. -/
def rankValue : Statistic → K
  | .rankLoadModeled => r.modeled.foldl (· + ·) 0
  | .rankStrategySpecificLoadModeled => r.strategySpecific.foldl (· + ·) 0
  | .rankLoadRaw => r.raw.foldl (· + ·) 0
  | .rankComm => r.commLoad cfg
  | _ => 0

/-- What a rank contributes to a statistic. -/
def entry (stat : Statistic) : LoadData K :=
  if stat.isObject then reduceVec stat ((r.values stat).map (.of stat))
  else .of stat (r.rankValue cfg stat)

theorem computeStatistics_eq : r.computeStatistics cfg = cfg.statistics.map (r.entry cfg) := by
  have hcomm : (r.comm.filter (·.isObjectEdge)).map (fun e => LoadData.of .objectComm e.bytes) =
      (r.values .objectComm).map (.of .objectComm) := by
    rw [values, map_map]
    rfl
  rw [computeStatistics, hcomm, StatConfig.statistics]
  cases cfg.hasStrategySpecificModel <;> cases cfg.hasRawLoad <;> rfl

theorem stat_entry (stat : Statistic) : (r.entry cfg stat).stat = stat := by
  rw [entry]
  split_ifs
  · exact stat_reduceVec stat _
  · rfl

end RankData

namespace ReduceTree

variable (cfg : StatConfig) (t : ReduceTree K) (stat : Statistic)

/-- The contributions to a statistic, combined. -/
def entry : ReduceTree K → LoadData K
  | .rank r => r.entry cfg stat
  | .combine a b => a.entry.add b.entry

theorem reduce_eq : t.reduce cfg = some (cfg.statistics.map fun stat => t.entry cfg stat) := by
  induction t with
  | rank r => exact congrArg some (r.computeStatistics_eq cfg)
  | combine a b iha ihb =>
    rw [reduce, iha, ihb, Option.bind_some, Option.bind_some, plusOp, if_pos (by simp),
      zipWith_map, zipWith_self]
    rfl

theorem stat_entry : (t.entry cfg stat).stat = stat := by
  induction t with
  | rank r => exact r.stat_entry cfg stat
  | combine a b _ ihb => exact ihb

theorem statistic_eq (h : stat ∈ cfg.statistics) :
    t.statistic cfg stat = some (t.entry cfg stat) := by
  have hfun : (fun d : LoadData K => decide (d.stat = stat)) ∘ (fun s => t.entry cfg s) =
      fun s => decide (s = stat) := by
    funext s
    simp [t.stat_entry cfg s]
  rw [statistic, t.reduce_eq cfg, Option.bind_some, List.find?_map, hfun]
  have hfind : cfg.statistics.find? (fun s => decide (s = stat)) = some stat := by
    have hsome : (cfg.statistics.find? fun s => decide (s = stat)).isSome :=
      List.find?_isSome.mpr ⟨stat, h, decide_eq_true rfl⟩
    obtain ⟨s, hs⟩ := Option.isSome_iff_exists.mp hsome
    rw [hs]
    have heq : s = stat := by simpa using List.find?_some hs
    exact congrArg some heq
  rw [hfind, Option.map_some]

theorem N_entry_rank (h : stat.isObject = false) : (t.entry cfg stat).N = t.ranks.length := by
  induction t with
  | rank r =>
    rw [entry, RankData.entry, h]
    rfl
  | combine a b iha ihb =>
    rw [ranks, length_append, ← iha, ← ihb]
    rfl

theorem N_entry_object (h : stat.isObject = true) :
    (t.entry cfg stat).N = (t.ranks.map fun r => max 1 (r.values stat).length).sum := by
  induction t with
  | rank r =>
    rw [entry, RankData.entry, if_pos h, N_reduceVec]
    simp [ranks]
  | combine a b iha ihb =>
    rw [ranks, map_append, sum_append, ← iha, ← ihb]
    rfl

omit [Field K] [LinearOrder K] in
theorem card_values : (t.values stat).card = (t.ranks.map fun r => (r.values stat).length).sum := by
  rw [values]
  induction t.ranks with
  | nil => rfl
  | cons r l ih => rw [map_cons, sum_cons, Multiset.card_add, ih]; rfl

omit [Field K] [LinearOrder K] in
theorem values_combine (a b : ReduceTree K) :
    (combine a b).values stat = a.values stat + b.values stat := by
  rw [values, ranks, map_append, sum_append]
  rfl

theorem describes_entry [IsStrictOrderedRing K] (h : stat.isObject = true)
    (hr : ∀ r ∈ t.ranks, r.values stat ≠ []) : (t.entry cfg stat).Describes (t.values stat) := by
  induction t with
  | rank r =>
    have hval : (rank r).values stat = (r.values stat : Multiset K) := by simp [values, ranks]
    rw [entry, RankData.entry, if_pos h, hval]
    exact describes_reduceVec stat (hr r (by simp [ranks]))
  | combine a b iha ihb =>
    rw [values_combine]
    exact (iha fun r hmem => hr r (mem_append_left _ hmem)).add
      (ihb fun r hmem => hr r (mem_append_right _ hmem))

/-- The count is too large as soon as one rank has no value. -/
theorem forall_ne_nil_of_N_eq (h : stat.isObject = true)
    (hN : (t.entry cfg stat).N = (t.values stat).card) : ∀ r ∈ t.ranks, r.values stat ≠ [] := by
  rw [N_entry_object cfg t stat h, card_values] at hN
  intro r hr hnil
  refine hN.not_gt (sum_lt_sum _ _ (fun r _ => le_max_right _ _) ⟨r, hr, ?_⟩)
  simp [hnil]

end ReduceTree

/-- A statistic of ranks counts the ranks.  A statistic of objects describes the objects of all
ranks, wherever they are and in whatever order the contributions are combined, if and only if every
rank has one. -/
theorem statistics_describe_iff [IsStrictOrderedRing K] (cfg : StatConfig) (t : ReduceTree K)
    (stat : Statistic) (h : stat ∈ cfg.statistics) :
    ∃ d, t.statistic cfg stat = some d ∧
      (stat.isObject = false → d.N = t.ranks.length) ∧
      (stat.isObject = true →
        (d.Describes (t.values stat) ↔ ∀ r ∈ t.ranks, r.values stat ≠ [])) := by
  refine ⟨_, t.statistic_eq cfg stat h, t.N_entry_rank cfg stat, fun hobj => ⟨fun hd => ?_, ?_⟩⟩
  · exact t.forall_ne_nil_of_N_eq cfg stat hobj hd.card
  · exact t.describes_entry cfg stat hobj

/-- Two ranks: the loads 1 and 3 on one, the load 2 on the other. -/
theorem statistics_describe_two_ranks :
    ∃ d, ((ReduceTree.combine (.rank ⟨[1, 3], [], [], []⟩) (.rank ⟨[2], [], [], []⟩) :
        ReduceTree ℚ).statistic ⟨false, false, false⟩ .objectLoadModeled) = some d ∧
      d.Describes {1, 3, 2} := by
  obtain ⟨d, hd, -, hiff⟩ := statistics_describe_iff ⟨false, false, false⟩
    (ReduceTree.combine (.rank ⟨[1, 3], [], [], []⟩) (.rank ⟨[2], [], [], []⟩) : ReduceTree ℚ)
    .objectLoadModeled (by decide)
  exact ⟨d, hd, (hiff rfl).mpr (by simp [ReduceTree.ranks, RankData.values])⟩

/-- One object of load 4 on the first of two ranks: the statistic counts two objects, the smallest
of load 0, and the average is 2. -/
theorem statistics_of_empty_rank :
    ((ReduceTree.combine (.rank ⟨[4], [], [], []⟩) (.rank ⟨[], [], [], []⟩) :
        ReduceTree ℚ).statistic ⟨false, false, false⟩ .objectLoadModeled).map
      (fun d => (d.N, d.min, d.avg)) = some (2, 0, 2) := by
  decide +kernel

end VtRuntime.Balance
