import VtRuntime.Balance.Reassignment
import VtRuntime.Lib.ListSchedule
import VtRuntime.Lib.StdHeap

/-!
# The greedy load balancer

`runBalancer` runs on one node.  It is given the loads of all nodes and a sample of their objects,
in bins of equal load.  It pops the objects from one heap, largest load first, and places each on
the node that it pops from the other heap, which has least load then.
-/

namespace VtRuntime.Balance

open Lib List Function

variable {N : ℕ} {Id K : Type}

structure GreedyRecord (N : ℕ) (Id K : Type) where
  obj : ObjID (Fin N) Id
  load : K

structure GreedyProc (N : ℕ) (Id K : Type) where
  node : Fin N
  load : K
  recs : List (ObjID (Fin N) Id) := []

/-- `GreedyCompareLoadMax`. -/
def CompareLoadMax [LT K] (p1 p2 : GreedyRecord N Id K) : Prop := p1.load < p2.load

/-- `GreedyCompareLoadMin`. -/
def CompareLoadMin [LT K] (p1 p2 : GreedyProc N Id K) : Prop := p1.load > p2.load

/-- `ObjSampleType`: the objects of each bin. -/
abbrev ObjSample (N : ℕ) (Id : Type) := List (ℤ × List (ObjID (Fin N) Id))

/-- The objects of a sample. -/
def ObjSample.objects (objs : ObjSample N Id) : List (ObjID (Fin N) Id) := objs.flatMap (·.2)

section Balancer

variable [Field K] [LT K]

/-- The load of an object is its bin. -/
def records (objs : ObjSample N Id) : List (GreedyRecord N Id K) :=
  objs.flatMap fun elm => elm.2.map fun obj => ⟨obj, (elm.1 : K)⟩

variable (recHeap : StdHeap (GreedyRecord N Id K) CompareLoadMax)
  (procHeap : StdHeap (GreedyProc N Id K) CompareLoadMin)

/-- One iteration of the loop: an object is popped, and placed on the node that is popped. -/
def place (s : List (GreedyRecord N Id K) × List (GreedyProc N Id K)) :
    Option (List (GreedyRecord N Id K) × List (GreedyProc N Id K)) := do
  let recs := recHeap.popHeap s.1
  let maxRec ← recs.getLast?
  let nodes := procHeap.popHeap s.2
  let minNode ← nodes.getLast?
  let minNode := { minNode with
    recs := minNode.recs ++ [maxRec.obj]
    load := minNode.load + maxRec.load }
  return (recs.dropLast, procHeap.pushHeap (nodes.dropLast ++ [minNode]))

def placeAll : ℕ → List (GreedyRecord N Id K) × List (GreedyProc N Id K) →
    Option (List (GreedyRecord N Id K) × List (GreedyProc N Id K))
  | 0, s => some s
  | n + 1, s => (place recHeap procHeap s).bind (placeAll n)

/-- `GreedyLB::runBalancer`, up to `transferObjs`.  Every node must have a load profile. -/
def runBalancer (objs : ObjSample N Id) (profile : Fin N → Option K) :
    Option (List (GreedyProc N Id K)) := do
  let recs := recHeap.makeHeap (records objs)
  let nodes ← (List.finRange N).mapM fun n => (profile n).map fun load =>
    { node := n, load := load }
  let s ← placeAll recHeap procHeap recs.length (recs, procHeap.makeHeap nodes)
  return s.2

end Balancer

section Assignment

variable [Field K] (profile : Fin N → K) (assign : Fin N → List (GreedyRecord N Id K))

/-- The load of a node with the objects that are placed on it. -/
def finalLoad (n : Fin N) : K := profile n + ((assign n).map (·.load)).sum

/-- A node with the objects that are placed on it. -/
def procOf (n : Fin N) : GreedyProc N Id K :=
  ⟨n, finalLoad profile assign n, (assign n).map (·.obj)⟩

/-- Every record is placed on one node, and the nodes have the loads that result. -/
structure Assigned (recs : List (GreedyRecord N Id K))
    (procs : List (GreedyProc N Id K)) : Prop where
  recs_perm : ((List.finRange N).flatMap assign).Perm recs
  procs_perm : procs.Perm ((List.finRange N).map (procOf profile assign))

end Assignment

/-! ## One object -/

section Update

variable {α β : Type} [DecidableEq α] {l : List α} {n : α}

/-- A list and the rest of it, on which two functions agree. -/
theorem perm_map_of_agree (hl : l.Nodup) (hn : n ∈ l) {f g : α → β} (hfg : ∀ a, a ≠ n → g a = f a) :
    ∃ rest, (l.map f).Perm (f n :: rest) ∧ (l.map g).Perm (g n :: rest) := by
  have hperm := perm_cons_erase hn
  refine ⟨(l.erase n).map f, hperm.map f, ?_⟩
  have hrest : (l.erase n).map g = (l.erase n).map f :=
    map_congr_left fun a ha => hfg a fun h => hl.not_mem_erase (h ▸ ha)
  rw [← hrest]
  exact hperm.map g

theorem flatMap_update_perm (hl : l.Nodup) (hn : n ∈ l) (f : α → List β) (b : β) :
    (l.flatMap (update f n (f n ++ [b]))).Perm (b :: l.flatMap f) := by
  obtain ⟨rest, hf, hg⟩ := perm_map_of_agree hl hn (f := f) (g := update f n (f n ++ [b]))
    fun a ha => update_of_ne ha _ _
  rw [update_self] at hg
  have hnew : (l.flatMap (update f n (f n ++ [b]))).Perm (f n ++ [b] ++ rest.flatten) :=
    hg.flatten
  have hold : (l.flatMap f).Perm (f n ++ rest.flatten) := hf.flatten
  refine hnew.trans ?_
  rw [append_assoc]
  exact perm_middle.trans (hold.symm.cons b)

end Update

section Place

variable [Field K] [LinearOrder K] {recHeap : StdHeap (GreedyRecord N Id K) CompareLoadMax}
  {procHeap : StdHeap (GreedyProc N Id K) CompareLoadMin} {profile : Fin N → K}
  {assign : Fin N → List (GreedyRecord N Id K)} {R : List (GreedyRecord N Id K)}
  {s : List (GreedyRecord N Id K) × List (GreedyProc N Id K)}

/-- The state of the loop: the records that are placed and those that are left. -/
structure Placing (recHeap : StdHeap (GreedyRecord N Id K) CompareLoadMax)
    (procHeap : StdHeap (GreedyProc N Id K) CompareLoadMin) (profile : Fin N → K)
    (R : List (GreedyRecord N Id K)) (assign : Fin N → List (GreedyRecord N Id K))
    (s : List (GreedyRecord N Id K) × List (GreedyProc N Id K)) : Prop where
  recs_perm : (s.1 ++ (List.finRange N).flatMap assign).Perm R
  procs_perm : s.2.Perm ((List.finRange N).map (procOf profile assign))
  recs_isHeap : recHeap.IsHeap s.1
  procs_isHeap : procHeap.IsHeap s.2

/-- An iteration places a record on a node of least load. -/
theorem Placing.place (h : Placing recHeap procHeap profile R assign s) (hN : 0 < N)
    (hne : s.1 ≠ []) :
    ∃ r ∈ R, ∃ n s', Balance.place recHeap procHeap s = some s' ∧ s.1.length = s'.1.length + 1 ∧
      (∀ m, finalLoad profile assign n ≤ finalLoad profile assign m) ∧
      Placing recHeap procHeap profile R (update assign n (assign n ++ [r])) s' := by
  have hprocs : s.2 ≠ [] := by
    intro hnil
    have hlen := h.procs_perm.length_eq
    rw [hnil, length_map, length_finRange] at hlen
    simp at hlen
    omega
  obtain ⟨r, recs, hr, hrperm, hrheap, -⟩ := recHeap.exists_popHeap h.recs_isHeap hne
  obtain ⟨p, nodes, hp, hpperm, hpheap, hmin⟩ := procHeap.exists_popHeap h.procs_isHeap hprocs
  -- the node that is popped
  obtain ⟨n, -, rfl⟩ : ∃ n ∈ List.finRange N, procOf profile assign n = p :=
    mem_map.mp ((h.procs_perm.symm.trans hpperm).mem_iff.mpr mem_cons_self)
  have hassign : ∀ a, a ≠ n → procOf profile (update assign n (assign n ++ [r])) a =
      procOf profile assign a := by
    intro a ha
    rw [procOf, procOf, finalLoad, finalLoad, update_of_ne ha]
  have hself : procOf profile (update assign n (assign n ++ [r])) n =
      ⟨n, finalLoad profile assign n + r.load, (assign n).map (·.obj) ++ [r.obj]⟩ := by
    simp [procOf, finalLoad, add_assoc]
  refine ⟨r, ?_, n, ⟨recs, procHeap.pushHeap (nodes ++
    [procOf profile (update assign n (assign n ++ [r])) n])⟩, ?_, ?_, ?_, ?_, ?_, hrheap, ?_⟩
  · refine h.recs_perm.mem_iff.mp (mem_append_left _ ?_)
    exact hrperm.mem_iff.mpr mem_cons_self
  · rw [hself]
    simp [Balance.place, hr, hp, procOf]
  · simpa using hrperm.length_eq
  · intro m
    have hmem : procOf profile assign m ∈ s.2 :=
      h.procs_perm.mem_iff.mpr (mem_map_of_mem (mem_finRange m))
    exact not_lt.mp (hmin _ hmem)
  · refine ((flatMap_update_perm (nodup_finRange N) (mem_finRange n) assign r).append_left
      recs).trans (perm_middle.trans ?_)
    exact (hrperm.symm.append_right _).trans h.recs_perm
  · obtain ⟨rest, hold, hnew⟩ := perm_map_of_agree (nodup_finRange N) (mem_finRange n) hassign
    have hrest : nodes.Perm rest :=
      (perm_cons _).mp (hpperm.symm.trans (h.procs_perm.trans hold))
    refine (procHeap.pushHeap_perm _ (by simpa using hpheap)).trans ?_
    exact (perm_append_singleton _ nodes).trans ((hrest.cons _).trans hnew.symm)
  · exact procHeap.isHeap_pushHeap _ (by simpa using hpheap)

/-- What every placement on a node of least load preserves holds in the end. -/
theorem Placing.placeAll {P : (Fin N → List (GreedyRecord N Id K)) → Prop}
    (hstep : ∀ assign, P assign → ∀ r ∈ R, ∀ n,
      (∀ m, finalLoad profile assign n ≤ finalLoad profile assign m) →
      P (update assign n (assign n ++ [r])))
    (hN : 0 < N) (h : Placing recHeap procHeap profile R assign s) (hP : P assign) :
    ∃ s' assign', Balance.placeAll recHeap procHeap s.1.length s = some s' ∧
      Assigned profile assign' R s'.2 ∧ P assign' := by
  induction hk : s.1.length generalizing s assign with
  | zero =>
    refine ⟨s, assign, rfl, ⟨?_, h.procs_perm⟩, hP⟩
    simpa [length_eq_zero_iff.mp hk] using h.recs_perm
  | succ k ih =>
    have hne : s.1 ≠ [] := ne_nil_of_length_pos (by omega)
    obtain ⟨r, hr, n, s₁, hs₁, hlen, hmin, h₁⟩ := h.place hN hne
    obtain ⟨s', assign', hs', ha, hP'⟩ := ih h₁ (hstep assign hP r hr n hmin) (by omega)
    refine ⟨s', assign', ?_, ha, hP'⟩
    rw [Balance.placeAll, hs₁]
    exact hs'

omit [LinearOrder K] in
theorem mapM_profile (profile : Fin N → K) (l : List (Fin N)) :
    (l.mapM fun n => (some (profile n)).map fun load => ({ node := n, load := load } :
      GreedyProc N Id K)) = some (l.map (procOf profile fun _ => [])) := by
  induction l with
  | nil => rfl
  | cons n l ih =>
    rw [mapM_cons, ih]
    simp [procOf, finalLoad]

/-- The balancer ends, and what it preserves holds of its result. -/
theorem exists_runBalancer (recHeap : StdHeap (GreedyRecord N Id K) CompareLoadMax)
    (procHeap : StdHeap (GreedyProc N Id K) CompareLoadMin) (profile : Fin N → K)
    (objs : ObjSample N Id) (hN : 0 < N) {P : (Fin N → List (GreedyRecord N Id K)) → Prop}
    (hstep : ∀ assign, P assign → ∀ r ∈ records objs, ∀ n,
      (∀ m, finalLoad profile assign n ≤ finalLoad profile assign m) →
      P (update assign n (assign n ++ [r])))
    (h0 : P fun _ => []) :
    ∃ procs assign, runBalancer recHeap procHeap objs (fun n => some (profile n)) = some procs ∧
      Assigned profile assign (records objs) procs ∧ P assign := by
  have hstart : Placing recHeap procHeap profile (records objs) (fun _ => [])
      (recHeap.makeHeap (records objs),
        procHeap.makeHeap ((List.finRange N).map (procOf profile fun _ => []))) := by
    refine ⟨?_, procHeap.makeHeap_perm _, recHeap.isHeap_makeHeap _, procHeap.isHeap_makeHeap _⟩
    have hnil : (List.finRange N).flatMap (fun _ => ([] : List (GreedyRecord N Id K))) = [] :=
      flatMap_eq_nil_iff.mpr fun _ _ => rfl
    rw [hnil, append_nil]
    exact recHeap.makeHeap_perm (records objs)
  obtain ⟨s, assign, hs, ha, hP⟩ := hstart.placeAll hstep hN h0
  refine ⟨s.2, assign, ?_, ha, hP⟩
  rw [runBalancer, mapM_profile]
  simp only [Option.bind_eq_bind, Option.bind_some] at hs ⊢
  rw [hs]
  rfl

end Place

/-! ## The bound -/

variable [Field K] [LinearOrder K] [IsStrictOrderedRing K] {profile : Fin N → K}
  {assign : Fin N → List (GreedyRecord N Id K)}

/-- No load is above the largest one of the profile, or above the average load and the largest load
of an object. -/
def Balanced (profile : Fin N → K) (objs : ObjSample N Id)
    (assign : Fin N → List (GreedyRecord N Id K)) : Prop :=
  ∀ B L : K, (∀ n, profile n ≤ B) → (∀ elm ∈ objs, elm.2 ≠ [] → (elm.1 : K) ≤ L) →
    ∀ n, finalLoad profile assign n ≤ max B (average (finalLoad profile assign) + L)

omit [LinearOrder K] [IsStrictOrderedRing K] in
theorem finalLoad_update (n : Fin N) (r : GreedyRecord N Id K) :
    finalLoad profile (update assign n (assign n ++ [r])) =
      update (finalLoad profile assign) n (finalLoad profile assign n + r.load) := by
  funext m
  by_cases hm : m = n
  · subst hm
    simp [finalLoad, add_assoc]
  · simp [finalLoad, hm]

omit [IsStrictOrderedRing K] in
theorem balanced_start (objs : ObjSample N Id) :
    Balanced profile objs fun _ => ([] : List (GreedyRecord N Id K)) := by
  intro B L hB _ n
  refine le_max_of_le_left ?_
  simpa [finalLoad] using hB n

/-- The loads stay balanced if no object has a negative load. -/
theorem Balanced.place {objs : ObjSample N Id} (hpos : ∀ elm ∈ objs, elm.2 ≠ [] → 0 ≤ elm.1)
    (h : Balanced profile objs assign) {r : GreedyRecord N Id K} (hr : r ∈ records objs) {n : Fin N}
    (hmin : ∀ m, finalLoad profile assign n ≤ finalLoad profile assign m) :
    Balanced profile objs (update assign n (assign n ++ [r])) := by
  intro B L hB hL m
  obtain ⟨elm, helm, hr⟩ := mem_flatMap.mp hr
  obtain ⟨obj, hobj, rfl⟩ := mem_map.mp hr
  rw [finalLoad_update]
  have hne : elm.2 ≠ [] := ne_nil_of_mem hobj
  refine place_le (h B L hB hL) hmin ?_ (hL elm helm hne) m
  exact_mod_cast hpos elm helm hne

end VtRuntime.Balance
