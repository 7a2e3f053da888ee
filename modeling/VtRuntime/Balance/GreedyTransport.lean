import VtRuntime.Balance.Greedy
import VtRuntime.Collective.Scatter
import VtRuntime.Lib.ByteCopy
import Mathlib.Data.Rat.Cast.Order

/-!
# How the greedy load balancer tells the nodes

The balancer knows on which node each object was and on which node it is placed.  For every node it
makes a list of the objects that are to leave it, each with its new node in the place of the
current one.  The lists go to the nodes in one of three ways: by a scatter, as arrays in memory
whose first element holds their length; as one message to each node; or all of them in a broadcast.
A node calls `migrateObjectTo` for each object of its list.
-/

namespace VtRuntime.Balance

open Lib VtRuntime.Group VtRuntime.Collective
open List hiding Vector

/-- `ElementIDType`. -/
abbrev ElementIDType := UInt64

def noElementId : ElementIDType := 0

inductive DataDistStrategy
  | scatter
  | bcast
  | pt2pt

abbrev GreedyObj (N : ℕ) := ObjID (Fin N) ElementIDType

variable {N : ℕ} {K : Type}

def objSetNode (node : Fin N) (id : GreedyObj N) : GreedyObj N := { id with currNode := node }

/-- The objects that are to leave a node, with their new nodes. -/
def nodeTransfer (load : List (GreedyProc N ElementIDType K)) (curNode : Fin N) :
    List (GreedyObj N) :=
  load.flatMap fun elm =>
    (elm.recs.filter fun rec => rec.currNode ≠ elm.node ∧ rec.currNode = curNode).map
      (objSetNode elm.node)

/-- The number of records that fits every list and a record for its length. -/
def maxRecs (load : List (GreedyProc N ElementIDType K)) : ℕ :=
  (finRange N).foldl (fun m n => max m ((nodeTransfer load n).length + 1)) 1

variable (thisNode : Fin N)

/-- The calls of `migrateObjectTo` in `GreedyLB::recvObjsDirect`. -/
def recvObjsDirect (objs : List (GreedyObj N)) : List (Transfer (Fin N) ElementIDType) :=
  objs.map fun obj => ⟨objSetNode thisNode obj, obj.currNode⟩

/-- `GreedyLB::recvObjsHan`: the first record holds the number of those that follow. -/
def recvObjsHan (copy : ByteCopy (GreedyObj N)) (thisNode : Fin N) (objs : List UInt8) :
    List (Transfer (Fin N) ElementIDType) :=
  recvObjsDirect thisNode
    ((range (copy.read objs 0).id.toNat).map fun i => copy.read objs (i + 1))

/-- `GreedyLB::recvObjs`. -/
def recvObjs (transfer : List (GreedyObj N)) : List (Transfer (Fin N) ElementIDType) :=
  recvObjsDirect thisNode transfer

/-- `GreedyLB::recvObjsBcast`. -/
def recvObjsBcast (transfer : Fin N → List (GreedyObj N)) : List (Transfer (Fin N) ElementIDType) :=
  recvObjsDirect thisNode (transfer thisNode)

section Scatter

variable (copy : ByteCopy (GreedyObj N)) (load : List (GreedyProc N ElementIDType K))

/-- The records that are written to the memory `old` of a node: of the first one the id only. -/
def scatterRecs (old : List UInt8) (node : Fin N) : List (GreedyObj N) :=
  let proc := nodeTransfer load node
  { copy.read old 0 with id := UInt64.ofNat proc.length } :: proc

theorem length_scatterRecs_le (old : List UInt8) (node : Fin N) :
    (scatterRecs copy load old node).length ≤ maxRecs load := by
  rw [scatterRecs, length_cons]
  exact le_foldl_max_of_mem (finRange N) (fun n => (nodeTransfer load n).length + 1) 1
    (mem_finRange node)

theorem length_store_scatterRecs (old : Vector UInt8 (maxRecs load * copy.size)) (node : Fin N) :
    (store old.toList 0 (copy.array (scatterRecs copy load old.toList node))).length =
      maxRecs load * copy.size := by
  rw [length_store, Vector.length_toList]
  rw [copy.length_array, Vector.length_toList, Nat.zero_add]
  exact Nat.mul_le_mul_right _ (length_scatterRecs_le copy load _ node)

/-- The lambda that fills the element of a node, in memory with the contents `old`. -/
def scatterData (old : ℕ → Vector UInt8 (maxRecs load * copy.size)) (node : ℕ) :
    Vector UInt8 (maxRecs load * copy.size) :=
  if h : node < N then
    ⟨(store (old node).toList 0
      (copy.array (scatterRecs copy load (old node).toList ⟨node, h⟩))).toArray,
      length_store_scatterRecs copy load (old node) ⟨node, h⟩⟩
  else old node

end Scatter

/-- `GreedyLB::transferObjs`: every run of the transport ends, and the calls of the nodes are then
those given. -/
def Transports (copy : ByteCopy (GreedyObj N)) (load : List (GreedyProc N ElementIDType K))
    (old : ℕ → Vector UInt8 (maxRecs load * copy.size))
    (mem : Vector UInt8 (N * (maxRecs load * copy.size)))
    (calls : Fin N → List (Transfer (Fin N) ElementIDType)) : DataDistStrategy → Prop
  | .scatter =>
      let sent := [scatter N (scatterData copy load old) mem]
      Flood.Ends (scatterIn N) sent ∧ ∀ s, Flood.Reaches (scatterIn N) sent s → s.inflight = [] →
        ∀ n : Fin N, ((s.handled.filter (·.node = n.1)).flatMap fun m =>
          recvObjsHan copy n m.dispatched) = calls n
  | .pt2pt =>
      let sent := (finRange N).map fun n => (n, nodeTransfer load n)
      Flood.Ends (fun _ => []) sent ∧ ∀ s, Flood.Reaches (fun _ => []) sent s → s.inflight = [] →
        ∀ n, ((s.handled.filter (·.1 = n)).flatMap fun m => recvObjs n m.2) = calls n
  | .bcast =>
      let handler := DefaultGroup.handler N ⟨0, true⟩
      CastEnds handler 0 ∧ ∀ s, CastReaches handler 0 s → s.inflight = [] →
        ∀ n : Fin N, (((delivered handler 0 s).filter (· = n.1)).flatMap fun _ =>
          recvObjsBcast n (nodeTransfer load)) = calls n

/-! ## The three ways -/

section Ways

variable {load : List (GreedyProc N ElementIDType K)} {n : Fin N}

variable (copy : ByteCopy (GreedyObj N)) (old : ℕ → Vector UInt8 (maxRecs load * copy.size))
  (mem : Vector UInt8 (N * (maxRecs load * copy.size)))

theorem transports_pt2pt :
    Transports copy load old mem (fun n => recvObjsDirect n (nodeTransfer load n)) .pt2pt := by
  have hnodes : ((finRange N).map fun n => (n, nodeTransfer load n)).map (·.1) = finRange N := by
    rw [map_map]
    exact map_id _
  refine ⟨Flood.ends_of_count (·.1) (finRange N) ?_, ?_⟩
  · intro s hs n
    rw [if_pos (mem_finRange n)]
    have hperm := (Flood.perm_of_silent hs).map (·.1)
    rw [hnodes, map_append] at hperm
    have hcount := hperm.count_eq n
    rw [count_append, count_eq_one_of_mem (nodup_finRange N) (mem_finRange n)]
      at hcount
    omega
  · intro s hs hquiet n
    have hperm := Flood.perm_of_silent hs
    rw [hquiet, append_nil] at hperm
    refine flatMap_filter_of_count Prod.fst ?_ ?_
    · rw [(hperm.map (·.1)).count_eq, hnodes]
      exact count_eq_one_of_mem (nodup_finRange N) (mem_finRange n)
    · rintro m hm rfl
      obtain ⟨k, -, rfl⟩ := mem_map.mp (hperm.mem_iff.mp hm)
      rfl

theorem transports_bcast (hN : 0 < N) :
    Transports copy load old mem (fun n => recvObjsDirect n (nodeTransfer load n)) .bcast := by
  have hends : CastEnds (DefaultGroup.handler N ⟨0, true⟩) 0 := cast_ends hN
  refine ⟨hends, ?_⟩
  intro s hs hquiet n
  refine flatMap_filter_of_count id ?_ fun _ _ _ => rfl
  have hdelivered : delivered (DefaultGroup.handler N ⟨0, true⟩) 0 s = 0 :: received s :=
    delivered_default hN hs
  rw [map_id, hdelivered, count_cons]
  by_cases hn : n.1 = 0
  · -- the message does not come back to its origin
    have hle : (received s).count n.1 ≤ if n.1 < N ∧ n.1 ≠ 0 then 1 else 0 :=
      count_received_le hN hs n.1
    simp only [hn, ne_eq, not_true_eq_false, and_false, if_false] at hle ⊢
    simp only [beq_self_eq_true, if_true]
    omega
  · have hone : (received s).count n.1 = 1 := count_received_quiet hN hs hquiet n.2 hn
    rw [hone, if_neg]
    simpa using Ne.symm hn

/-- A node reads its list from the element of the scatter. -/
theorem recvObjsHan_scatterData (n : Fin N) (hlen : (nodeTransfer load n).length < 2 ^ 64) :
    recvObjsHan copy n (scatterData copy load old n).toList =
      recvObjsDirect n (nodeTransfer load n) := by
  have hdata : (scatterData copy load old n).toList =
      copy.array (scatterRecs copy load (old n).toList n) ++
        (old n).toList.drop (copy.array (scatterRecs copy load (old n).toList n)).length := by
    rw [scatterData, dif_pos n.2, Vector.toList, toList_toArray, store, take_zero,
      nil_append, Nat.zero_add]
  have hcount : (copy.read (scatterData copy load old n).toList 0).id.toNat =
      (nodeTransfer load n).length := by
    rw [hdata, copy.read_array _ _ rfl, UInt64.toNat_ofNat_of_lt' hlen]
  have hrecs : ((range (nodeTransfer load n).length).map fun i =>
      copy.read (scatterData copy load old n).toList (i + 1)) = nodeTransfer load n := by
    refine ext_getElem (by simp) ?_
    intro i h1 h2
    rw [getElem_map, getElem_range, hdata]
    exact copy.read_array _ _ (getElem?_eq_getElem h2)
  rw [recvObjsHan, hcount, hrecs]

theorem transports_scatter (hN : 0 < N) (hlen : ∀ n, (nodeTransfer load n).length < 2 ^ 64) :
    Transports copy load old mem (fun n => recvObjsDirect n (nodeTransfer load n)) .scatter := by
  refine ⟨scatter_ends hN, ?_⟩
  intro s hs hquiet n
  refine flatMap_filter_of_count ScatterMsg.node (count_handled hN hs hquiet n.2) ?_
  intro m hm hmn
  rw [(handled_holds hN hs m hm).dispatched, hmn]
  exact recvObjsHan_scatterData copy old n (hlen n)

end Ways

/-! ## The calls -/

/-- Every object that is placed on another node is asked for once, on its current node, and no other
object is. -/
structure Requests (assign : Fin N → List (GreedyRecord N ElementIDType K))
    (calls : Fin N → List (Transfer (Fin N) ElementIDType)) : Prop where
  mem_iff : ∀ n t, t ∈ calls n ↔
    t.obj.currNode = n ∧ t.newNode ≠ n ∧ t.obj ∈ (assign t.newNode).map (·.obj)
  nodup : ∀ n, ((calls n).map (·.obj.id)).Nodup

section Calls

variable {profile : Fin N → K} {assign : Fin N → List (GreedyRecord N ElementIDType K)}
  {objs : ObjSample N ElementIDType} {procs : List (GreedyProc N ElementIDType K)}

theorem sublist_nodeTransfer (procs : List (GreedyProc N ElementIDType K)) (n : Fin N) :
    ((nodeTransfer procs n).map (·.id)).Sublist ((procs.flatMap (·.recs)).map (·.id)) := by
  induction procs with
  | nil => exact .slnil
  | cons elm procs ih =>
    rw [nodeTransfer, flatMap_cons, flatMap_cons, map_append, map_append]
    refine List.Sublist.append ?_ ih
    rw [map_map]
    exact filter_sublist.map _

variable [Field K]

theorem map_obj_records (objs : ObjSample N ElementIDType) :
    (records objs : List (GreedyRecord N ElementIDType K)).map (·.obj) = objs.objects := by
  simp only [records, ObjSample.objects, map_flatMap, map_map, Function.comp_def, map_id']

theorem Assigned.objects_perm (h : Assigned profile assign (records objs) procs) :
    (procs.flatMap (·.recs)).Perm objs.objects := by
  have hrecs : ((finRange N).map (procOf profile assign)).flatMap (·.recs) =
      ((finRange N).flatMap assign).map (·.obj) := by
    rw [flatMap_map, map_flatMap]
    rfl
  rw [← map_obj_records (K := K)]
  refine (h.procs_perm.flatMap_right _).trans ?_
  rw [hrecs]
  exact h.recs_perm.map _

theorem Assigned.requests (h : Assigned profile assign (records objs) procs)
    (hids : (objs.objects.map (·.id)).Nodup) :
    Requests assign fun n => recvObjsDirect n (nodeTransfer procs n) := by
  constructor
  · intro n t
    simp only [recvObjsDirect, nodeTransfer, mem_map, mem_flatMap, mem_filter,
      h.procs_perm.mem_iff, mem_finRange, true_and, decide_eq_true_eq]
    constructor
    · rintro ⟨_, ⟨_, ⟨d, rfl⟩, o, ⟨ho, hne, rfl⟩, rfl⟩, rfl⟩
      obtain ⟨r, hr, rfl⟩ := mem_map.mp ho
      exact ⟨rfl, Ne.symm hne, r, hr, rfl⟩
    · obtain ⟨o, d⟩ := t
      rintro ⟨rfl, hne, r, hr, rfl⟩
      exact ⟨_, ⟨_, ⟨d, rfl⟩, r.obj, ⟨mem_map_of_mem hr, Ne.symm hne, rfl⟩, rfl⟩, rfl⟩
  · intro n
    have hmap : (recvObjsDirect n (nodeTransfer procs n)).map (·.obj.id) =
        (nodeTransfer procs n).map (·.id) := by
      rw [recvObjsDirect, map_map]
      rfl
    rw [hmap]
    exact ((h.objects_perm.map _).nodup_iff.mpr hids).sublist (sublist_nodeTransfer procs n)

/-- Objects have different ids, so a word can count them. -/
theorem length_objects_lt {l : List (GreedyObj N)} (hids : (l.map (·.id)).Nodup)
    (hid : ∀ o ∈ l, o.id ≠ noElementId) : l.length < 2 ^ 64 := by
  have hnodup : ((noElementId :: l.map (·.id)).map UInt64.toNat).Nodup := by
    refine List.Nodup.map (fun a b => UInt64.toNat_inj.mp) (nodup_cons.mpr ⟨?_, hids⟩)
    intro hmem
    obtain ⟨o, ho, h0⟩ := mem_map.mp hmem
    exact hid o ho h0
  have hsub : (noElementId :: l.map (·.id)).map UInt64.toNat ⊆ range (2 ^ 64) := by
    intro k hk
    obtain ⟨a, -, rfl⟩ := mem_map.mp hk
    exact mem_range.mpr a.toNat_lt
  have hle := (subperm_of_subset hnodup hsub).length_le
  rw [length_map, length_cons, length_map, length_range] at hle
  exact hle

end Calls

/-- The balancer ends with an assignment of the sampled objects to the nodes.  Every way to tell the
nodes causes the same calls, which ask for the objects that are to be moved.  If no object has a
negative load then the loads are balanced. -/
theorem greedy_places_once [Field K] [LinearOrder K] [IsStrictOrderedRing K]
    (recHeap : StdHeap (GreedyRecord N ElementIDType K) CompareLoadMax)
    (procHeap : StdHeap (GreedyProc N ElementIDType K) CompareLoadMin) (hN : 0 < N)
    (profile : Fin N → K) (objs : ObjSample N ElementIDType)
    (hids : (objs.objects.map (·.id)).Nodup) (hid : ∀ o ∈ objs.objects, o.id ≠ noElementId) :
    ∃ procs assign calls,
      runBalancer recHeap procHeap objs (fun n => some (profile n)) = some procs ∧
      Assigned profile assign (records objs) procs ∧ Requests assign calls ∧
      (∀ copy old mem strategy, Transports copy procs old mem calls strategy) ∧
      ((∀ elm ∈ objs, elm.2 ≠ [] → 0 ≤ elm.1) → Balanced profile objs assign) := by
  obtain ⟨procs, assign, hrun, ha, hbal⟩ := exists_runBalancer recHeap procHeap profile objs hN
    (P := fun assign => (∀ elm ∈ objs, elm.2 ≠ [] → 0 ≤ elm.1) → Balanced profile objs assign)
    (fun _ h _ hr _ hmin hpos => (h hpos).place hpos hr hmin) (fun _ => balanced_start objs)
  refine ⟨procs, assign, _, hrun, ha, ha.requests hids, ?_, hbal⟩
  intro copy old mem strategy
  cases strategy with
  | pt2pt => exact transports_pt2pt copy old mem
  | bcast => exact transports_bcast copy old mem hN
  | scatter =>
    refine transports_scatter copy old mem hN fun n => ?_
    have hle := (sublist_nodeTransfer procs n).length_le
    rw [length_map, length_map, ha.objects_perm.length_eq] at hle
    exact hle.trans_lt (length_objects_lt hids hid)

/-! ## Examples -/

/-- `ElementIDStruct` in memory: eight bytes for the id, two for the node, and six that are not
used. -/
def objCopy (hN : 0 < N) (hle : N ≤ 2 ^ 16) : ByteCopy (GreedyObj N) where
  size := 16
  bytes o := leBytes 8 o.id.toNat ++ (leBytes 2 o.currNode ++ leBytes 6 0)
  ofBytes l := ⟨UInt64.ofNat (ofLeBytes (l.take 8)),
    ⟨ofLeBytes ((l.drop 8).take 2) % N, Nat.mod_lt _ hN⟩⟩
  length_bytes o := by simp [length_leBytes]
  ofBytes_bytes o := by
    have hid : o.id.toNat < 256 ^ 8 := o.id.toNat_lt
    have hnode : o.currNode.1 < 256 ^ 2 := o.currNode.2.trans_le hle
    rw [take_left' (length_leBytes _ _), drop_left' (length_leBytes _ _),
      take_left' (length_leBytes _ _), ofLeBytes_leBytes hid, UInt64.ofNat_toNat]
    congr 1
    exact Fin.ext (by simp [ofLeBytes_leBytes hnode, Nat.mod_eq_of_lt o.currNode.2])

/-- Heaps that are sorted ranges. -/
def recSorted : StdHeap (GreedyRecord N ElementIDType ℚ) CompareLoadMax :=
  StdHeap.sorted GreedyRecord.load

def procSorted : StdHeap (GreedyProc N ElementIDType ℚ) CompareLoadMin :=
  StdHeap.sorted fun p : GreedyProc N ElementIDType ℚ => OrderDual.toDual p.load

def threeObjects (n : Fin 2) : ObjSample 2 ElementIDType :=
  [(20, [⟨1, n⟩]), (10, [⟨2, n⟩, ⟨3, n⟩])]

/-- Two nodes, and three objects of node 0. -/
theorem greedy_places_once_two :
    ∃ procs assign calls,
      runBalancer recSorted procSorted (threeObjects 0) (fun n => some (30 * (1 - n.1 : ℚ))) =
        some procs ∧
      Requests assign calls ∧
      (∀ old mem strategy, Transports (objCopy (by decide) (by decide)) procs old mem
        calls strategy) ∧
      Balanced (fun n => 30 * (1 - n.1 : ℚ)) (threeObjects 0) assign := by
  obtain ⟨procs, assign, calls, hrun, -, hreq, htransport, hbal⟩ :=
    greedy_places_once recSorted procSorted (by decide) (fun n : Fin 2 => 30 * (1 - n.1 : ℚ))
      (threeObjects 0) (by decide) (by decide)
  exact ⟨procs, assign, calls, hrun, hreq, htransport _, hbal (by decide)⟩

/-- Eight objects in the bin 10 and two in the bin -20. -/
def tenObjects (n : Fin 2) : ObjSample 2 ElementIDType :=
  [(10, [1, 2, 3, 4, 5, 6, 7, 8].map (⟨·, n⟩)), (-20, [⟨9, n⟩, ⟨10, n⟩])]

/-- Two nodes without load get the load 40 each, and then one of them both negative objects.  The
load 40 of the other is above the largest one of the profile, which is 0, and above the average load
20 and the largest load of an object together. -/
theorem greedy_negative_loads :
    ∃ procs ∈ runBalancer recSorted procSorted (tenObjects 0) (fun _ => some 0),
      ¬∀ p ∈ procs, p.load ≤ max 0 ((procs.map (·.load)).sum / 2 + 10) := by
  have h : (runBalancer recSorted procSorted (tenObjects 0) (fun _ => some 0)).any
      (fun procs => !(procs.all fun p => p.load ≤ max 0 ((procs.map (·.load)).sum / 2 + 10))) =
        true := by
    decide +kernel
  obtain ⟨procs, hprocs, hp⟩ := Option.any_eq_true _ _ |>.mp h
  exact ⟨procs, hprocs, by simpa using hp⟩

end VtRuntime.Balance
