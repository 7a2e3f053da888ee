import VtRuntime.Group.Broadcast
import VtRuntime.Lib.Children
import Mathlib.Algebra.BigOperators.Group.Finset.Piecewise
import Mathlib.Data.Vector.Defs

/-!
# Scatter

`scatter` fills one buffer with an element for every node and sends it to node 0.  The elements are
in the order of a traversal of the tree, a node before its children.  A node that receives a message
cuts the parts of its children out of it by the number of nodes below them, sends these on, and
passes the beginning of the message to the user.
-/

namespace VtRuntime.Collective

open Lib VtRuntime.Group
open List hiding Vector

variable {numNodes elmSize : ℕ}

theorem lt_of_mem_treeChildren {node c : ℕ} (h : c ∈ treeChildren numNodes node) :
    numNodes - c < numNodes - node := by
  obtain ⟨hlt, hpos, hp⟩ := mem_treeChildren.mp h
  omega

/-- `Tree::getNumDescendants` of a node. -/
def getNumDescendants (numNodes child : ℕ) : ℕ :=
  let children := treeChildren numNodes child
  (children.attach.map fun elm => getNumDescendants numNodes elm.1).sum + children.length
termination_by numNodes - child
decreasing_by exact lt_of_mem_treeChildren elm.2

/-- Bytes are stored at an offset of a buffer. -/
def store (buf : List UInt8) (ptr : ℕ) (bytes : List UInt8) : List UInt8 :=
  buf.take ptr ++ bytes ++ buf.drop (ptr + bytes.length)

/-- `Scatter::applyScatterRecur`, with the buffer and the offset of the pointer. -/
def applyScatterRecur (numNodes : ℕ) (dataFn : ℕ → Vector UInt8 elmSize) (node : ℕ)
    (mem : List UInt8 × ℕ) : List UInt8 × ℕ :=
  (treeChildren numNodes node).attach.foldl
    (fun mem child => applyScatterRecur numNodes dataFn child.1 mem)
    (store mem.1 mem.2 (dataFn node).toList, mem.2 + elmSize)
termination_by numNodes - node
decreasing_by exact lt_of_mem_treeChildren child.2

/-- `ScatterMsg` on its way to a node, with the bytes that follow it. -/
structure ScatterMsg where
  node : ℕ
  totalBytes : ℕ
  elmBytes : ℕ
  payload : List UInt8
deriving DecidableEq

/-- A copy out of the payload of a message into that of a message to a child. -/
structure Copy where
  child : ℕ
  offset : ℕ
  size : ℕ
deriving DecidableEq

/-- The copies for some children, from the offset `inPtr` on. -/
def copies (numNodes elmSize : ℕ) : ℕ → List ℕ → List Copy
  | _, [] => []
  | inPtr, child :: children =>
    let childBytesSize := (getNumDescendants numNodes child + 1) * elmSize
    ⟨child, inPtr, childBytesSize⟩ :: copies numNodes elmSize (inPtr + childBytesSize) children

/-- The copies that a node makes. -/
def ScatterMsg.copies (numNodes : ℕ) (m : ScatterMsg) : List Copy :=
  Collective.copies numNodes m.elmBytes m.elmBytes (treeChildren numNodes m.node)

/-- `Scatter::scatterIn`: the messages to the children. -/
def scatterIn (numNodes : ℕ) (m : ScatterMsg) : List ScatterMsg :=
  (m.copies numNodes).map fun k =>
    ⟨k.child, k.size, m.elmBytes, (m.payload.drop k.offset).take k.size⟩

/-- The bytes of the user's message that `scatterIn` dispatches. -/
def ScatterMsg.dispatched (m : ScatterMsg) : List UInt8 := m.payload.take m.elmBytes

/-- `Scatter::scatter`: the message to node 0, in memory with the contents `mem`. -/
def scatter (numNodes : ℕ) (dataFn : ℕ → Vector UInt8 elmSize)
    (mem : Vector UInt8 (numNodes * elmSize)) : ScatterMsg :=
  ⟨0, numNodes * elmSize, elmSize, (applyScatterRecur numNodes dataFn 0 (mem.toList, 0)).1⟩

/-- What is expected of a scatter, in every order in which its messages are handled. -/
structure Scatters (numNodes : ℕ) (dataFn : ℕ → Vector UInt8 elmSize)
    (mem : Vector UInt8 (numNodes * elmSize)) : Prop where
  /-- The traversal ends at the end of the buffer. -/
  nptr : (applyScatterRecur numNodes dataFn 0 (mem.toList, 0)).2 = numNodes * elmSize
  /-- It has written to the buffer only. -/
  length : (scatter numNodes dataFn mem).payload.length = numNodes * elmSize
  ends : Flood.Ends (scatterIn numNodes) [scatter numNodes dataFn mem]
  /-- A node is given its element. -/
  element : ∀ s, Flood.Reaches (scatterIn numNodes) [scatter numNodes dataFn mem] s →
    ∀ m ∈ s.handled, m.dispatched = (dataFn m.node).toList
  /-- The copies read the payload of the message and fill that of the message to the child. -/
  inside : ∀ s, Flood.Reaches (scatterIn numNodes) [scatter numNodes dataFn mem] s →
    ∀ m ∈ s.handled, ∀ k ∈ m.copies numNodes, k.offset + k.size ≤ m.payload.length
  once : ∀ s, Flood.Reaches (scatterIn numNodes) [scatter numNodes dataFn mem] s →
    ∀ n, (s.handled.map (·.node)).count n ≤ if n < numNodes then 1 else 0
  all : ∀ s, Flood.Reaches (scatterIn numNodes) [scatter numNodes dataFn mem] s →
    s.inflight = [] → ∀ n < numNodes, (s.handled.map (·.node)).count n = 1

/-! ## The tree -/

theorem getNumDescendants_eq (numNodes child : ℕ) : getNumDescendants numNodes child =
    ((treeChildren numNodes child).map fun c => getNumDescendants numNodes c + 1).sum := by
  rw [getNumDescendants, map_attach_eq_pmap, pmap_eq_map]
  generalize treeChildren numNodes child = l
  induction l with
  | nil => rfl
  | cons c l ih =>
    simp only [map_cons, sum_cons, length_cons] at ih ⊢
    omega

/-- What passes from the children of a node to the node holds of every node. -/
theorem treeChildren_induction (numNodes : ℕ) {P : ℕ → Prop}
    (h : ∀ node, (∀ c ∈ treeChildren numNodes node, P c) → P node) (node : ℕ) : P node := by
  induction hk : numNodes - node using Nat.strong_induction_on generalizing node with
  | _ k ih => exact h node fun c hc => ih _ (hk ▸ lt_of_mem_treeChildren hc) c rfl

theorem kidForest_treeChildren (numNodes : ℕ) : KidForest (treeChildren numNodes) := by
  refine ⟨nodup_treeChildren numNodes, ?_, id, ?_⟩
  · intro m m' c hc hc'
    exact (mem_treeChildren.mp hc).2.2.symm.trans (mem_treeChildren.mp hc').2.2
  · intro c m hc
    obtain ⟨-, hpos, hp⟩ := mem_treeChildren.mp hc
    simp only [id]
    omega

theorem spans_zero {n : ℕ} (hn : n < numNodes) : spans (treeChildren numNodes) 0 n = 1 := by
  induction n using Nat.strong_induction_on with
  | _ n ih =>
    by_cases h0 : n = 0
    · rw [h0, spans_self]
    · have hkid : n ∈ treeChildren numNodes ((n - 1) / 2) := mem_treeChildren.mpr ⟨hn, h0, rfl⟩
      rw [(kidForest_treeChildren numNodes).spans_kid hkid h0]
      exact ih _ (by omega) (by omega)

theorem sum_spans {node : ℕ} (h : node < numNodes) :
    ∑ n ∈ Finset.range numNodes, spans (treeChildren numNodes) node n =
      getNumDescendants numNodes node + 1 := by
  revert h
  induction node using treeChildren_induction numNodes with
  | h node ih =>
    intro hlt
    have hcomm : ∀ l : List ℕ,
        ∑ n ∈ Finset.range numNodes, (l.map (spans (treeChildren numNodes) · n)).sum =
          (l.map fun c => ∑ n ∈ Finset.range numNodes, spans (treeChildren numNodes) c n).sum := by
      intro l
      induction l with
      | nil => simp
      | cons c l ihl => simp [Finset.sum_add_distrib, ihl]
    have hsub : ∀ c ∈ treeChildren numNodes node,
        ∑ n ∈ Finset.range numNodes, spans (treeChildren numNodes) c n =
          getNumDescendants numNodes c + 1 :=
      fun c hc => ih c hc (mem_treeChildren.mp hc).1
    rw [Finset.sum_congr rfl fun n _ => (kidForest_treeChildren numNodes).spans_eq node n,
      Finset.sum_add_distrib, Finset.sum_ite_eq, if_pos (Finset.mem_range.mpr hlt), hcomm,
      map_congr_left hsub, ← getNumDescendants_eq, Nat.add_comm]

theorem getNumDescendants_zero (h : 0 < numNodes) :
    getNumDescendants numNodes 0 + 1 = numNodes := by
  rw [← sum_spans h, Finset.sum_congr rfl fun n hn => spans_zero (Finset.mem_range.mp hn)]
  simp

/-! ## The buffer -/

/-- The elements of a node and of the nodes below it. -/
def layout (numNodes : ℕ) (dataFn : ℕ → Vector UInt8 elmSize) (node : ℕ) : List UInt8 :=
  (dataFn node).toList ++
    ((treeChildren numNodes node).attach.map fun c => layout numNodes dataFn c.1).flatten
termination_by numNodes - node
decreasing_by exact lt_of_mem_treeChildren c.2

variable {dataFn : ℕ → Vector UInt8 elmSize}

theorem layout_eq (node : ℕ) : layout numNodes dataFn node =
    (dataFn node).toList ++ (treeChildren numNodes node).flatMap (layout numNodes dataFn) := by
  rw [layout, map_attach_eq_pmap, pmap_eq_map, flatMap_def]

theorem length_layout (dataFn : ℕ → Vector UInt8 elmSize) (node : ℕ) :
    (layout numNodes dataFn node).length = (getNumDescendants numNodes node + 1) * elmSize := by
  induction node using treeChildren_induction numNodes with
  | h node ih =>
    have hsum : ∀ l : List ℕ, (∀ c ∈ l, (layout numNodes dataFn c).length =
        (getNumDescendants numNodes c + 1) * elmSize) →
          (l.flatMap (layout numNodes dataFn)).length =
          (l.map fun c => getNumDescendants numNodes c + 1).sum * elmSize := by
      intro l hl
      induction l with
      | nil => simp
      | cons c l ihl =>
        rw [flatMap_cons, length_append, hl c mem_cons_self,
          ihl fun c hc => hl c (mem_cons_of_mem _ hc), map_cons, sum_cons,
          ← Nat.add_mul]
    rw [layout_eq, length_append, Vector.length_toList, hsum _ ih, ← getNumDescendants_eq,
      Nat.add_mul, Nat.one_mul, Nat.add_comm]

theorem length_store {buf bytes : List UInt8} {ptr : ℕ} (h : ptr + bytes.length ≤ buf.length) :
    (store buf ptr bytes).length = buf.length := by
  simp only [store, length_append, length_take, length_drop]
  omega

theorem store_store {buf a b : List UInt8} {ptr : ℕ} (h : ptr + (a ++ b).length ≤ buf.length) :
    store (store buf ptr a) (ptr + a.length) b = store buf ptr (a ++ b) := by
  rw [length_append] at h
  have hpre : (buf.take ptr ++ a).length = ptr + a.length := by
    rw [length_append, length_take]
    omega
  rw [store, store, take_left' hpre, ← drop_drop, drop_left' hpre, drop_drop,
    store, length_append, ← Nat.add_assoc, append_assoc (buf.take ptr)]

/-- `applyScatterRecur` stores the elements of a node and of those below it. -/
theorem applyScatterRecur_eq (node : ℕ) {buf : List UInt8} {ptr : ℕ}
    (h : ptr + (layout numNodes dataFn node).length ≤ buf.length) :
    applyScatterRecur numNodes dataFn node (buf, ptr) =
      (store buf ptr (layout numNodes dataFn node),
        ptr + (layout numNodes dataFn node).length) := by
  revert buf ptr
  induction node using treeChildren_induction numNodes with
  | h node ih =>
    intro buf ptr h
    -- the loop stores the elements of the children
    have hloop : ∀ (l : List ℕ) (buf : List UInt8) (ptr : ℕ), l ⊆ treeChildren numNodes node →
        ptr + (l.flatMap (layout numNodes dataFn)).length ≤ buf.length →
        l.foldl (fun mem child => applyScatterRecur numNodes dataFn child mem) (buf, ptr) =
          (store buf ptr (l.flatMap (layout numNodes dataFn)),
            ptr + (l.flatMap (layout numNodes dataFn)).length) := by
      intro l
      induction l with
      | nil =>
        intro buf ptr _ _
        simp [store]
      | cons c l ihl =>
        intro buf ptr hsub hlen
        rw [flatMap_cons] at hlen ⊢
        have hc : ptr + (layout numNodes dataFn c).length ≤ buf.length := by
          rw [length_append] at hlen
          omega
        rw [foldl_cons, ih c (hsub mem_cons_self) hc,
          ihl _ _ (fun x hx => hsub (mem_cons_of_mem _ hx)), store_store hlen,
          length_append, Nat.add_assoc]
        rw [length_store hc, Nat.add_assoc, ← length_append]
        exact hlen
    have helm : (dataFn node).toList.length = elmSize := Vector.length_toList
    rw [layout_eq] at h ⊢
    have hstore := store_store h
    have hlen : ((dataFn node).toList ++
        (treeChildren numNodes node).flatMap (layout numNodes dataFn)).length =
          elmSize + ((treeChildren numNodes node).flatMap (layout numNodes dataFn)).length := by
      rw [length_append, helm]
    rw [helm] at hstore
    have hdata : ptr + (dataFn node).toList.length ≤ buf.length := by omega
    rw [applyScatterRecur, foldl_attach (f := fun mem child =>
      applyScatterRecur numNodes dataFn child mem), hloop _ _ _ (List.Subset.refl _)]
    · rw [hstore, hlen, Nat.add_assoc]
    · rw [length_store hdata]
      omega

/-! ## Cutting -/

/-- The copies for some children, out of a buffer that holds their elements after `pre`. -/
theorem copies_spec (dataFn : ℕ → Vector UInt8 elmSize) {k : Copy} (pre post : List UInt8)
    (cs : List ℕ) (hk : k ∈ copies numNodes elmSize pre.length cs) :
    k.offset + k.size ≤ (pre ++ cs.flatMap (layout numNodes dataFn) ++ post).length ∧
      ((pre ++ cs.flatMap (layout numNodes dataFn) ++ post).drop k.offset).take k.size =
        layout numNodes dataFn k.child := by
  induction cs generalizing pre with
  | nil => simp [copies] at hk
  | cons c cs ih =>
    rw [flatMap_cons, ← append_assoc]
    rcases mem_cons.mp hk with rfl | hk
    · simp only
      rw [← length_layout dataFn]
      constructor
      · simp only [length_append]
        omega
      · rw [append_assoc, append_assoc, drop_left, take_left]
    · refine ih (pre ++ layout numNodes dataFn c) ?_
      rwa [length_append, length_layout]

theorem map_child_copies (inPtr : ℕ) (cs : List ℕ) :
    (copies numNodes elmSize inPtr cs).map (·.child) = cs := by
  induction cs generalizing inPtr with
  | nil => rfl
  | cons c cs ih => rw [copies, map_cons, ih]

/-- A message holds the elements of its node and of the nodes below it. -/
structure Holds (numNodes : ℕ) (dataFn : ℕ → Vector UInt8 elmSize) (m : ScatterMsg) : Prop where
  node : m.node < numNodes
  elmBytes : m.elmBytes = elmSize
  payload : m.payload = layout numNodes dataFn m.node

variable {m : ScatterMsg}

theorem Holds.copy (h : Holds numNodes dataFn m) {k : Copy} (hk : k ∈ m.copies numNodes) :
    k.offset + k.size ≤ m.payload.length ∧
      (m.payload.drop k.offset).take k.size = layout numNodes dataFn k.child := by
  rw [ScatterMsg.copies, h.elmBytes] at hk
  have hspec := copies_spec dataFn (dataFn m.node).toList [] (treeChildren numNodes m.node) (k := k)
    (by rwa [Vector.length_toList])
  rwa [append_nil, ← layout_eq, ← h.payload] at hspec

theorem Holds.scatterIn (h : Holds numNodes dataFn m) :
    ∀ c ∈ scatterIn numNodes m, Holds numNodes dataFn c := by
  intro c hc
  obtain ⟨k, hk, rfl⟩ := mem_map.mp hc
  have hmem : k.child ∈ treeChildren numNodes m.node := by
    have hmap := mem_map_of_mem (f := (·.child)) hk
    rwa [ScatterMsg.copies, map_child_copies] at hmap
  exact ⟨(mem_treeChildren.mp hmem).1, h.elmBytes, (h.copy hk).2⟩

theorem Holds.dispatched (h : Holds numNodes dataFn m) : m.dispatched = (dataFn m.node).toList := by
  rw [ScatterMsg.dispatched, h.payload, layout_eq, h.elmBytes]
  exact take_left' Vector.length_toList

theorem holds_scatter (dataFn : ℕ → Vector UInt8 elmSize) (h : 0 < numNodes)
    (mem : Vector UInt8 (numNodes * elmSize)) :
    applyScatterRecur numNodes dataFn 0 (mem.toList, 0) =
      (layout numNodes dataFn 0, numNodes * elmSize) := by
  have hlen : (layout numNodes dataFn 0).length = numNodes * elmSize := by
    rw [length_layout, getNumDescendants_zero h]
  have hmem : mem.toList.length = numNodes * elmSize := Vector.length_toList
  rw [applyScatterRecur_eq 0 (by omega), hlen, Nat.zero_add, store, take_zero, nil_append,
    drop_of_length_le (by omega), append_nil]

theorem map_node_scatterIn (m : ScatterMsg) :
    (scatterIn numNodes m).map (·.node) = treeChildren numNodes m.node := by
  rw [scatterIn, map_map]
  exact map_child_copies _ _

section Run

variable {dataFn : ℕ → Vector UInt8 elmSize} {mem : Vector UInt8 (numNodes * elmSize)}
  {s : Flood ScatterMsg}

variable (h : 0 < numNodes)
include h

theorem sent_holds : ∀ m ∈ [scatter numNodes dataFn mem], Holds numNodes dataFn m := by
  intro m hm
  rw [mem_singleton.mp hm]
  exact ⟨h, rfl, congrArg Prod.fst (holds_scatter dataFn h mem)⟩

section

variable (hs : Flood.Reaches (scatterIn numNodes) [scatter numNodes dataFn mem] s)
include hs

theorem handled_holds : ∀ m ∈ s.handled, Holds numNodes dataFn m :=
  (Flood.forall_mem (sent_holds h) (fun _ hm => hm.scatterIn) hs).2

/-- A node has got its message, or a message on its way leads to it. -/
theorem handled_account {n : ℕ} (hn : n < numNodes) :
    (s.handled.map (·.node)).count n +
      (s.inflight.map fun m => spans (treeChildren numNodes) m.node n).sum = 1 := by
  have haccount := Flood.account (fun m : ScatterMsg => if m.node = n then 1 else 0)
    (fun m : ScatterMsg => spans (treeChildren numNodes) m.node n) (sent_holds h)
    (fun _ hm => hm.scatterIn) ?_ hs
  · rw [← sum_map_eq_count, map_map]
    exact haccount.trans ((sum_singleton).trans (spans_zero hn))
  · intro m _
    rw [(kidForest_treeChildren numNodes).spans_eq, ← map_node_scatterIn, map_map]
    rfl

theorem count_handled_le (n : ℕ) :
    (s.handled.map (·.node)).count n ≤ if n < numNodes then 1 else 0 := by
  split
  case isTrue hn =>
    have hone := handled_account h hs hn
    omega
  case isFalse hn =>
    refine (count_eq_zero.mpr ?_).le
    intro hmem
    obtain ⟨m, hm, rfl⟩ := mem_map.mp hmem
    exact hn (handled_holds h hs m hm).node

theorem count_handled (hquiet : s.inflight = []) {n : ℕ} (hn : n < numNodes) :
    (s.handled.map (·.node)).count n = 1 := by
  have hone := handled_account h hs hn
  rwa [hquiet, map_nil, sum_nil, Nat.add_zero] at hone

end

theorem scatter_ends : Flood.Ends (scatterIn numNodes) [scatter numNodes dataFn mem] := by
  refine Flood.ends_of_count (·.node) (List.range numNodes) ?_
  simpa only [mem_range] using fun s hs n => count_handled_le h hs n

end Run

/-- For every number of nodes, element size and data function, every node is given its element. -/
theorem scatter_delivers (h : 0 < numNodes) (dataFn : ℕ → Vector UInt8 elmSize)
    (mem : Vector UInt8 (numNodes * elmSize)) : Scatters numNodes dataFn mem := by
  have hfill := holds_scatter dataFn h mem
  constructor
  case nptr => exact congrArg Prod.snd hfill
  case length =>
    rw [scatter, hfill, length_layout, getNumDescendants_zero h]
  case ends => exact scatter_ends h
  case element => exact fun s hs m hm => (handled_holds h hs m hm).dispatched
  case inside => exact fun s hs m hm k hk => ((handled_holds h hs m hm).copy hk).1
  case once => exact fun s hs n => count_handled_le h hs n
  case all => exact fun s hs hquiet n hn => count_handled h hs hquiet hn

/-- Five nodes and elements of two bytes. -/
theorem scatter_delivers_five : Scatters 5 (fun n => Vector.replicate 2 (UInt8.ofNat n))
    (Vector.replicate (5 * 2) 0) :=
  scatter_delivers (by decide) _ _

end VtRuntime.Collective
