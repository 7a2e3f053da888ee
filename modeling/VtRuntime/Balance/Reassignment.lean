import VtRuntime.Lib.Keyed
import VtRuntime.Lib.Network
import Mathlib.Data.Set.Card

/-!
# Normalizing a reassignment

A load balancer asks for transfers of objects with `migrateObjectTo`, on any node.  Before they are
carried out, `normalizeReassignments` tells the host of each object where it goes, and the
destination which objects arrive and how much load they are.  It does so in three collective epochs:
the transfers are counted, the hosts are told, and the hosts tell the destinations.

A node enters an epoch when it is done with the one before.  An epoch has terminated when all nodes
have entered it and none of its messages is left.
-/

namespace VtRuntime.Balance

open Lib List Network Function Prod
open Option hiding mem_map

/-- `ElementIDStruct`.  Objects are compared by `id`, and `currNode` is carried along. -/
structure ObjID (V Id : Type) where
  id : Id
  currNode : V
  deriving DecidableEq

/-- `TransferDestType`. -/
structure Transfer (V Id : Type) where
  obj : ObjID V Id
  newNode : V
  deriving DecidableEq

/-- `BaseLB::migrateObjectTo`, with the option `vt_lb_self_migration`. -/
def migrateObjectTo {V Id : Type} [DecidableEq V] (selfMigration : Bool)
    (transfers : List (Transfer V Id)) (t : Transfer V Id) : List (Transfer V Id) :=
  if t.obj.currNode ≠ t.newNode ∨ selfMigration = true then transfers ++ [t] else transfers

/-- What a node is told about an object that arrives. -/
structure Arrival (S U : Type) where
  loadSummary : S
  rawLoadSummary : S
  userData : U
  deriving DecidableEq

/-- The queries of a node's load model. -/
structure LoadQueries (V Id S U : Type) where
  getObjectLoads : V → Id → S
  getObjectRawLoads : V → Id → S
  getObjectUserData : V → Id → U

/-- What a host says about an object. -/
def LoadQueries.arrival {V Id S U : Type} (q : LoadQueries V Id S U) (host : V) (o : Id) :
    Arrival S U :=
  ⟨q.getObjectLoads host o, q.getObjectRawLoads host o, q.getObjectUserData host o⟩

namespace Reassign

variable {N : ℕ} {Id S U : Type} [DecidableEq Id]

inductive ReassignMsg (N : ℕ) (Id S U : Type)
  | finalize (globalCount : ℕ)
  | objectsDeparting (migrateList : List (Id × Fin N))
  | objectsArriving (arrivalList : List (Id × Arrival S U))

/-- The epoch in which a message is sent. -/
def ReassignMsg.epoch : ReassignMsg N Id S U → ℕ
  | .finalize _ => 1
  | .objectsDeparting _ => 2
  | .objectsArriving _ => 3

/-- The strategy on one node.  `stage` is the number of epochs that the node has entered, and 4 when
`normalizeReassignments` has returned. -/
structure BaseLB (N : ℕ) (Id S U : Type) where
  transfers : List (Transfer (Fin N) Id)
  stage : ℕ := 0
  depart : AList fun _ : Id => Fin N := ∅
  arrive : AList fun _ : Id => Arrival S U := ∅
  globalMigrationCount : ℕ := 0

abbrev Reassigning (N : ℕ) (Id S U : Type) :=
  Network (Fin N) (BaseLB N Id S U) (ReassignMsg N Id S U)

namespace BaseLB

variable (lb : BaseLB N Id S U) (thisNode : Fin N)

/-- The transfers of objects that live here, as they are put into `depart_`. -/
def departing : List (Id × Fin N) :=
  (lb.transfers.filter (·.obj.currNode = thisNode)).map fun t => (t.obj.id, t.newNode)

/-- `migrate_other`: the host of each other object is told. -/
def migrateOther : List (Fin N × ReassignMsg N Id S U) :=
  (groupBy (·.obj.currNode) (lb.transfers.filter (·.obj.currNode ≠ thisNode))).map fun other =>
    (other.1, .objectsDeparting (other.2.map fun t => (t.obj.id, t.newNode)))

/-- `depart_map`: each destination is told what arrives. -/
def departMap (q : LoadQueries (Fin N) Id S U) : List (Fin N × ReassignMsg N Id S U) :=
  (groupBy (fun p : Id × Fin N => p.2) (lb.depart.entries.map fun e => (e.1, e.2))).map fun d =>
    (d.1, .objectsArriving (d.2.map fun p => (p.1, q.arrival thisNode p.1)))

/-- The handlers. -/
def handle : Network.Handler (Fin N) (BaseLB N Id S U) (ReassignMsg N Id S U) := fun _ lb d =>
  match d.2 with
  | .finalize globalCount => some ({ lb with globalMigrationCount := globalCount }, [])
  | .objectsDeparting migrateList =>
      some ({ lb with depart := insertAll lb.depart migrateList }, [])
  | .objectsArriving arrivalList =>
      some ({ lb with arrive := insertAll lb.arrive arrivalList }, [])

end BaseLB

/-- The number of transfers on all nodes. -/
def globalCount (transfers : Fin N → List (Transfer (Fin N) Id)) : ℕ :=
  ((List.finRange N).map fun n => (transfers n).length).sum

/-- All nodes have entered an epoch and none of its messages is left. -/
def Terminated (x : Reassigning N Id S U) (epoch : ℕ) : Prop :=
  ∀ m, epoch ≤ (x.node m).stage ∧ ∀ d ∈ x.inbox m, d.2.epoch ≠ epoch

instance (x : Reassigning N Id S U) (epoch : ℕ) : Decidable (Terminated x epoch) :=
  inferInstanceAs (Decidable (∀ m, _ ∧ ∀ d ∈ x.inbox m, _ ≠ epoch))

section Step

variable (isMigratable : Id → Bool) (q : LoadQueries (Fin N) Id S U)

/-- What `normalizeReassignments` does on a node up to the end of the next epoch's body.  The result
of the reduction is sent when the last node has contributed.  A node aborts if an object cannot be
migrated. -/
def enter (x : Reassigning N Id S U) (n : Fin N) :
    Option (BaseLB N Id S U × List (Fin N × ReassignMsg N Id S U)) :=
  let lb := x.node n
  match lb.stage with
  | 0 => some ({ lb with stage := 1 },
      if ∀ m, m ≠ n → 1 ≤ (x.node m).stage then
        (List.finRange N).map fun m => (m, .finalize (globalCount fun m => (x.node m).transfers))
      else [])
  | 1 =>
      if ∀ t ∈ lb.transfers, isMigratable t.obj.id = true then
        some ({ lb with stage := 2, depart := insertAll lb.depart (lb.departing n) },
          lb.migrateOther n)
      else none
  | 2 => some ({ lb with stage := 3 }, lb.departMap n q)
  | 3 => some ({ lb with stage := 4 }, [])
  | _ => none

inductive ReassignAct (N : ℕ)
  | enter (n : Fin N)
  | deliver (n : Fin N) (i : ℕ)

def step (x : Reassigning N Id S U) : ReassignAct N → Option (Reassigning N Id S U)
  | .enter n =>
      if Terminated x (x.node n).stage then
        (enter isMigratable q x n).map fun r =>
          post n r.2 { x with node := Function.update x.node n r.1 }
      else none
  | .deliver n i => deliver BaseLB.handle x (n, i)

end Step

/-- The calls of `migrateObjectTo` have been made. -/
def requested (requests : Fin N → List (Transfer (Fin N) Id)) : Reassigning N Id S U where
  node n := { transfers := (requests n).foldl (migrateObjectTo false) [] }
  inbox _ := []

/-- The reassignment on all nodes.  An object that is to be moved departs from its host and arrives
at its destination, and nothing else does. -/
structure Normalized (q : LoadQueries (Fin N) Id S U) (host : Id → Fin N)
    (requests : Fin N → List (Transfer (Fin N) Id)) (x : Reassigning N Id S U) : Prop where
  returned : ∀ n, (x.node n).stage = 4
  depart_iff : ∀ n o d, (x.node n).depart.lookup o = some d ↔
    n = host o ∧ d ≠ host o ∧ ∃ r, ⟨⟨o, host o⟩, d⟩ ∈ requests r
  arrive_iff : ∀ n o a, (x.node n).arrive.lookup o = some a ↔
    a = q.arrival (host o) o ∧ n ≠ host o ∧ ∃ r, ⟨⟨o, host o⟩, n⟩ ∈ requests r
  count_eq : ∀ n, (x.node n).globalMigrationCount =
    Set.ncard {o | ∃ d, d ≠ host o ∧ ∃ r, ⟨⟨o, host o⟩, d⟩ ∈ requests r}

/-! ## The messages -/

variable {q : LoadQueries (Fin N) Id S U} {T : Fin N → List (Transfer (Fin N) Id)}
  {x x' : Reassigning N Id S U}

variable (T) in
/-- An object is to be moved from a host to a destination. -/
def Moves (o : Id) (h d : Fin N) : Prop :=
  ∃ r, ⟨⟨o, h⟩, d⟩ ∈ T r

variable (q T) in
/-- What may be said in a message to a node. -/
def Sound (n : Fin N) : ReassignMsg N Id S U → Prop
  | .finalize c => c = globalCount T
  | .objectsDeparting l => ∀ p ∈ l, Moves T p.1 n p.2
  | .objectsArriving l => ∀ p ∈ l, ∃ h, Moves T p.1 h n ∧ p.2 = q.arrival h p.1

variable {lb : BaseLB N Id S U} {n : Fin N}

section

omit [DecidableEq Id]

theorem mem_departing {p : Id × Fin N} : p ∈ lb.departing n ↔ ⟨⟨p.1, n⟩, p.2⟩ ∈ lb.transfers := by
  simp only [BaseLB.departing, mem_map, mem_filter, decide_eq_true_eq]
  constructor
  · rintro ⟨⟨⟨o, c⟩, d⟩, ⟨ht, rfl⟩, rfl⟩
    exact ht
  · intro ht
    exact ⟨_, ⟨ht, rfl⟩, rfl⟩

theorem sound_migrateOther {y : Fin N} {m : ReassignMsg N Id S U} (hlb : lb.transfers = T n)
    (hm : (y, m) ∈ lb.migrateOther n) : Sound q T y m := by
  obtain ⟨⟨h, g⟩, hg, heq⟩ := mem_map.mp hm
  obtain ⟨rfl, rfl⟩ := mk.inj heq
  intro p hp
  obtain ⟨⟨⟨o, c⟩, d⟩, ht, rfl⟩ := mem_map.mp hp
  obtain ⟨hmem, rfl⟩ := node_of_mem_groupBy hg ht
  refine ⟨n, ?_⟩
  rw [← hlb]
  exact (mem_filter.mp hmem).1

theorem exists_migrateOther {t : Transfer (Fin N) Id} (ht : t ∈ lb.transfers)
    (hn : t.obj.currNode ≠ n) :
    ∃ l, (t.obj.currNode, .objectsDeparting l) ∈ lb.migrateOther n ∧ (t.obj.id, t.newNode) ∈ l := by
  have hmem : t ∈ lb.transfers.filter (·.obj.currNode ≠ n) :=
    mem_filter.mpr ⟨ht, decide_eq_true hn⟩
  obtain ⟨g, hg, htg⟩ := exists_mem_groupBy (·.obj.currNode) hmem
  exact ⟨_, mem_map.mpr ⟨_, hg, rfl⟩, mem_map_of_mem htg⟩

end

theorem mem_entries {o : Id} {d : Fin N} :
    (o, d) ∈ (lb.depart.entries.map fun e => (e.1, e.2)) ↔ lb.depart.lookup o = some d := by
  rw [← mem_def, AList.mem_lookup_iff, mem_map]
  constructor
  · rintro ⟨⟨a, b⟩, he, heq⟩
    obtain ⟨rfl, rfl⟩ := mk.inj heq
    exact he
  · intro he
    exact ⟨_, he, rfl⟩

theorem sound_departMap {y : Fin N} {m : ReassignMsg N Id S U}
    (hlb : ∀ o d, lb.depart.lookup o = some d → Moves T o n d) (hm : (y, m) ∈ lb.departMap n q) :
    Sound q T y m := by
  obtain ⟨⟨d, g⟩, hg, heq⟩ := mem_map.mp hm
  obtain ⟨rfl, rfl⟩ := mk.inj heq
  intro p hp
  obtain ⟨⟨o, e⟩, he, rfl⟩ := mem_map.mp hp
  obtain ⟨hmem, rfl⟩ := node_of_mem_groupBy hg he
  exact ⟨n, hlb o e (mem_entries.mp hmem), rfl⟩

theorem exists_departMap {o : Id} {d : Fin N} (h : lb.depart.lookup o = some d) :
    ∃ l, (d, .objectsArriving l) ∈ lb.departMap n q ∧ (o, q.arrival n o) ∈ l := by
  obtain ⟨g, hg, hmem⟩ := exists_mem_groupBy (·.2) (mem_entries.mpr h)
  exact ⟨_, mem_map.mpr ⟨_, hg, rfl⟩, mem_map.mpr ⟨_, hmem, rfl⟩⟩

/-! ## The invariant -/

variable (q T x) in
/-- Nothing is on record that was not asked for, and what a node has been told is on record or on
its way. -/
structure Normalizing : Prop where
  transfers_eq : ∀ n, (x.node n).transfers = T n
  depart : ∀ n o d, (x.node n).depart.lookup o = some d → Moves T o n d
  arrive : ∀ n o a, (x.node n).arrive.lookup o = some a → ∃ h, Moves T o h n ∧ a = q.arrival h o
  sound : ∀ n, ∀ e ∈ x.inbox n, Sound q T n e.2
  counted : (∀ m, 1 ≤ (x.node m).stage) → ∀ n,
    (x.node n).globalMigrationCount = globalCount T ∨
      ∃ e ∈ x.inbox n, e.2 = .finalize (globalCount T)
  hostTold : ∀ r, 2 ≤ (x.node r).stage → ∀ o h d, ⟨⟨o, h⟩, d⟩ ∈ T r →
    (x.node h).depart.lookup o = some d ∨
      ∃ e ∈ x.inbox h, ∃ l, e.2 = .objectsDeparting l ∧ (o, d) ∈ l
  destTold : ∀ h, 3 ≤ (x.node h).stage → ∀ o d, Moves T o h d →
    (x.node d).arrive.lookup o = some (q.arrival h o) ∨
      ∃ e ∈ x.inbox d, ∃ l, e.2 = .objectsArriving l ∧ (o, q.arrival h o) ∈ l

variable (T) in
/-- An object is asked for once. -/
def Once : Prop :=
  ∀ o h d h' d', Moves T o h d → Moves T o h' d' → h = h' ∧ d = d'

namespace Normalizing

variable {n : Fin N} {lb : BaseLB N Id S U} {out : List (Fin N × ReassignMsg N Id S U)}
    {isMigratable : Id → Bool}

/-- The map of a node after a message from the hosts or to them. -/
theorem lookup_depart (hx : Normalizing q T x) (hT : Once T) {l : List (Id × Fin N)}
    (hl : ∀ p ∈ l, Moves T p.1 n p.2) (o : Id) (d : Fin N) :
    (insertAll (x.node n).depart l).lookup o = some d ↔
      (x.node n).depart.lookup o = some d ∨ (o, d) ∈ l :=
  lookup_insertAll (fun o d d' hd hd' => (hT o n d n d' hd hd').2) (hx.depart n) hl o d

theorem lookup_arrive (hx : Normalizing q T x) (hT : Once T) {l : List (Id × Arrival S U)}
    (hl : ∀ p ∈ l, ∃ h, Moves T p.1 h n ∧ p.2 = q.arrival h p.1) (o : Id) (a : Arrival S U) :
    (insertAll (x.node n).arrive l).lookup o = some a ↔
      (x.node n).arrive.lookup o = some a ∨ (o, a) ∈ l := by
  refine lookup_insertAll (R := fun o a => ∃ h, Moves T o h n ∧ a = q.arrival h o) ?_
    (hx.arrive n) hl
    o a
  rintro o _ _ ⟨h, hm, rfl⟩ ⟨h', hm', rfl⟩
  rw [(hT o h n h' n hm hm').1]

variable (T) in
/-- What a node has on record after a message. -/
structure Handled (lb lb' : BaseLB N Id S U) (m : ReassignMsg N Id S U) : Prop where
  transfers_eq : lb'.transfers = lb.transfers
  stage_eq : lb'.stage = lb.stage
  depart_iff : ∀ o d, lb'.depart.lookup o = some d ↔
    lb.depart.lookup o = some d ∨ ∃ l, m = .objectsDeparting l ∧ (o, d) ∈ l
  arrive_iff : ∀ o a, lb'.arrive.lookup o = some a ↔
    lb.arrive.lookup o = some a ∨ ∃ l, m = .objectsArriving l ∧ (o, a) ∈ l
  count : lb'.globalMigrationCount = globalCount T ∨
    lb'.globalMigrationCount = lb.globalMigrationCount ∧ m ≠ .finalize (globalCount T)

theorem handled (hx : Normalizing q T x) (hT : Once T) {src : Fin N} {m : ReassignMsg N Id S U}
    (hm : Sound q T n m) (hh : BaseLB.handle n (x.node n) (src, m) = some (lb, out)) :
    Handled T (x.node n) lb m ∧ out = [] := by
  cases m with
  | finalize c =>
    obtain ⟨rfl, rfl⟩ := mk.inj (some.inj hh)
    exact ⟨⟨rfl, rfl, by simp, by simp, .inl hm⟩, rfl⟩
  | objectsDeparting l =>
    obtain ⟨rfl, rfl⟩ := mk.inj (some.inj hh)
    refine ⟨⟨rfl, rfl, fun o d => ?_, by simp, .inr ⟨rfl, nofun⟩⟩, rfl⟩
    simpa using hx.lookup_depart hT hm o d
  | objectsArriving l =>
    obtain ⟨rfl, rfl⟩ := mk.inj (some.inj hh)
    refine ⟨⟨rfl, rfl, by simp, fun o a => ?_, .inr ⟨rfl, nofun⟩⟩, rfl⟩
    simpa using hx.lookup_arrive hT hm o a

theorem deliver (hx : Normalizing q T x) (hT : Once T) {i : ℕ}
    (hs : deliver BaseLB.handle x (n, i) = some x') : Normalizing q T x' := by
  obtain ⟨⟨src, m⟩, lb, out, -, hd⟩ := delivers hs
  have hsound : Sound q T n m := hx.sound n _ hd.mem
  obtain ⟨hh, rfl⟩ := hx.handled hT hsound hd.handled
  have hstage : ∀ y, (x'.node y).stage = (x.node y).stage := by
    rw [hd.node]
    exact (forall_update_iff _ fun y (lb : BaseLB N Id S U) => lb.stage = (x.node y).stage).mpr
      ⟨hh.stage_eq, fun _ _ => rfl⟩
  have hnode : ∀ (P : BaseLB N Id S U → Prop) {Q : Prop}, (P lb ↔ P (x.node n) ∨ Q) →
      ∀ y, P (x'.node y) ↔ P (x.node y) ∨ y = n ∧ Q := by
    intro P Q h y
    by_cases hy : y = n
    · subst hy
      rw [hd.node_self, h]
      simp
    · rw [hd.node_of_ne hy]
      simp [hy]
  have hdepart := fun y o d => hnode (·.depart.lookup o = some d) (hh.depart_iff o d) y
  have harrive := fun y o a => hnode (·.arrive.lookup o = some a) (hh.arrive_iff o a) y
  constructor
  · rw [hd.node]
    refine (forall_update_iff _ fun y (lb : BaseLB N Id S U) => lb.transfers = T y).mpr
      ⟨hh.transfers_eq.trans (hx.transfers_eq n), fun y _ => hx.transfers_eq y⟩
  · intro y o d hl
    rcases (hdepart y o d).mp hl with hl | ⟨rfl, l, rfl, hmem⟩
    · exact hx.depart y o d hl
    · exact hsound _ hmem
  · intro y o a hl
    rcases (harrive y o a).mp hl with hl | ⟨rfl, l, rfl, hmem⟩
    · exact hx.arrive y o a hl
    · exact hsound _ hmem
  · intro y e he
    rcases hd.inflight y e he with he | ⟨-, he⟩
    · exact hx.sound y e he
    · exact absurd he not_mem_nil
  · intro hall y
    have hold := hx.counted fun k => hstage k ▸ hall k
    by_cases hy : y = n
    · subst hy
      rw [hd.node_self]
      rcases hh.count with hc | ⟨hc, hne⟩
      · exact .inl hc
      · rw [hc]
        refine (hold y).imp_right fun ⟨e, he, heq⟩ => ⟨e, ?_, heq⟩
        refine (hd.kept y e he).resolve_right ?_
        rintro ⟨-, rfl⟩
        exact hne heq
    · rw [hd.node_of_ne hy]
      refine (hold y).imp_right fun ⟨e, he, heq⟩ => ⟨e, ?_, heq⟩
      exact (hd.kept y e he).resolve_right fun h => hy h.1
  · intro r hr o h d ht
    rw [hstage] at hr
    rcases hx.hostTold r hr o h d ht with hl | ⟨e, he, l, heq, hmem⟩
    · exact .inl ((hdepart h o d).mpr (.inl hl))
    · rcases hd.kept h e he with he | ⟨rfl, rfl⟩
      · exact .inr ⟨e, he, l, heq, hmem⟩
      · exact .inl ((hdepart h o d).mpr (.inr ⟨rfl, l, heq, hmem⟩))
  · intro h hh3 o d hmv
    rw [hstage] at hh3
    rcases hx.destTold h hh3 o d hmv with hl | ⟨e, he, l, heq, hmem⟩
    · exact .inl ((harrive d o _).mpr (.inl hl))
    · rcases hd.kept d e he with he | ⟨rfl, rfl⟩
      · exact .inr ⟨e, he, l, heq, hmem⟩
      · exact .inl ((harrive d o _).mpr (.inr ⟨rfl, l, heq, hmem⟩))

variable (q T x n lb out) in
/-- What a node has on record and sends when it enters an epoch. -/
structure Entered : Prop where
  transfers_eq : lb.transfers = (x.node n).transfers
  stage_eq : lb.stage = (x.node n).stage + 1
  stage_le : lb.stage ≤ 4
  length_le : out.length ≤ N
  arrive_eq : lb.arrive = (x.node n).arrive
  count_eq : lb.globalMigrationCount = (x.node n).globalMigrationCount
  depart_le : ∀ o d, (x.node n).depart.lookup o = some d → lb.depart.lookup o = some d
  depart : ∀ o d, lb.depart.lookup o = some d → Moves T o n d
  sound : ∀ y m, (y, m) ∈ out → Sound q T y m
  sum : lb.stage = 1 → (∀ m, m ≠ n → 1 ≤ (x.node m).stage) →
    ∀ y, (y, .finalize (globalCount T)) ∈ out
  hosts : lb.stage = 2 → ∀ o h d, ⟨⟨o, h⟩, d⟩ ∈ T n → h = n ∧ lb.depart.lookup o = some d ∨
    ∃ l, (h, .objectsDeparting l) ∈ out ∧ (o, d) ∈ l
  dests : lb.stage = 3 → ∀ o d, Moves T o n d →
    ∃ l, (d, .objectsArriving l) ∈ out ∧ (o, q.arrival n o) ∈ l

theorem entered (hx : Normalizing q T x) (hT : Once T) (hterm : Terminated x (x.node n).stage)
    (he : Reassign.enter isMigratable q x n = some (lb, out)) : Entered q T x n lb out := by
  rw [Reassign.enter] at he
  split at he
  case h_1 hst =>
    obtain ⟨rfl, rfl⟩ := mk.inj (some.inj he)
    have htotal : (globalCount fun m => (x.node m).transfers) = globalCount T :=
      congrArg globalCount (funext hx.transfers_eq)
    refine ⟨rfl, by simp [hst], by simp, ?_, rfl, rfl, fun _ _ => id, hx.depart n, ?_, ?_,
      nofun, nofun⟩
    · split_ifs <;> simp
    · intro y m hm
      split_ifs at hm
      · obtain ⟨_, -, heq⟩ := mem_map.mp hm
        obtain ⟨-, rfl⟩ := mk.inj heq
        exact htotal
      · exact absurd hm not_mem_nil
    · intro _ hall y
      rw [if_pos hall, htotal]
      exact mem_map.mpr ⟨y, mem_finRange y, rfl⟩
  case h_2 hst =>
    obtain ⟨-, he⟩ := ite_none_right_eq_some.mp he
    obtain ⟨rfl, rfl⟩ := mk.inj (some.inj he)
    have hmoves : ∀ p ∈ (x.node n).departing n, Moves T p.1 n p.2 := by
      intro p hp
      refine ⟨n, ?_⟩
      rw [← hx.transfers_eq n]
      exact mem_departing.mp hp
    have hlookup := hx.lookup_depart hT hmoves
    refine ⟨rfl, by simp [hst], by simp, ?_, rfl, rfl, fun o d h => (hlookup o d).mpr (.inl h), ?_,
      fun y m hm => sound_migrateOther (hx.transfers_eq n) hm, nofun, ?_, nofun⟩
    · rw [BaseLB.migrateOther, length_map]
      exact length_groupBy _ _
    · intro o d h
      rcases (hlookup o d).mp h with h | h
      · exact hx.depart n o d h
      · exact hmoves _ h
    · intro _ o h d ht
      rw [← hx.transfers_eq n] at ht
      by_cases hn : h = n
      · subst hn
        exact .inl ⟨rfl, (hlookup o d).mpr (.inr (mem_departing.mpr ht))⟩
      · exact .inr (exists_migrateOther ht hn)
  case h_3 hst =>
    obtain ⟨rfl, rfl⟩ := mk.inj (some.inj he)
    refine ⟨rfl, by simp [hst], by simp, ?_, rfl, rfl, fun _ _ => id, hx.depart n,
      fun y m hm => sound_departMap (hx.depart n) hm, nofun, nofun, ?_⟩
    · rw [BaseLB.departMap, length_map]
      exact length_groupBy _ _
    rintro _ o d ⟨r, hr⟩
    -- the epoch before has terminated, so no message to this node is left
    rw [hst] at hterm
    rcases hx.hostTold r (hterm r).1 o n d hr with hl | ⟨e, hmem, l, heq, -⟩
    · exact exists_departMap hl
    · exact absurd (congrArg ReassignMsg.epoch heq) ((hterm n).2 e hmem)
  case h_4 hst =>
    obtain ⟨rfl, rfl⟩ := mk.inj (some.inj he)
    exact ⟨rfl, by simp [hst], by simp, by simp, rfl, rfl, fun _ _ => id, hx.depart n, nofun, nofun,
      nofun, nofun⟩
  case h_5 => cases he

/-- A node that is at a stage was there before, or has just come there. -/
theorem Entered.stage_cases (he : Entered q T x n lb out)
    (hnode : x'.node = Function.update x.node n lb) {k : ℕ} {r : Fin N}
    (hr : k ≤ (x'.node r).stage) : k ≤ (x.node r).stage ∨ r = n ∧ lb.stage = k := by
  have := he.stage_eq
  by_cases hrn : r = n
  · subst hrn
    rw [hnode, update_self] at hr
    omega
  · rw [hnode, update_of_ne hrn] at hr
    exact .inl hr

omit [DecidableEq Id] in
/-- The other nodes are as they were. -/
theorem rel_update (hnode : x'.node = Function.update x.node n lb)
    {P : BaseLB N Id S U → BaseLB N Id S U → Prop} (hrefl : ∀ lb, P lb lb) (h : P (x.node n) lb)
    (y : Fin N) : P (x.node y) (x'.node y) := by
  rw [hnode]
  by_cases hy : y = n
  · subst hy
    rwa [update_self]
  · rw [update_of_ne hy]
    exact hrefl _

theorem enter (hx : Normalizing q T x) (he : Entered q T x n lb out)
    (hnode : x'.node = Function.update x.node n lb)
    (hinbox : ∀ y e, e ∈ x'.inbox y ↔ e ∈ x.inbox y ∨ e.1 = n ∧ (y, e.2) ∈ out) :
    Normalizing q T x' := by
  have hkept : ∀ y, ∀ e ∈ x.inbox y, e ∈ x'.inbox y := fun y e hmem => (hinbox y e).mpr (.inl hmem)
  have hsent : ∀ y m, (y, m) ∈ out → (n, m) ∈ x'.inbox y := fun y m hmem =>
    (hinbox y (n, m)).mpr (.inr ⟨rfl, hmem⟩)
  have hdepart := rel_update hnode (P := fun lb lb' => ∀ o d, lb.depart.lookup o = some d →
    lb'.depart.lookup o = some d) (fun _ _ _ => id) he.depart_le
  have harrive := rel_update hnode (P := fun lb lb' => lb'.arrive = lb.arrive) (fun _ => rfl)
    he.arrive_eq
  constructor
  · rw [hnode]
    exact (forall_update_iff _ fun y (lb : BaseLB N Id S U) => lb.transfers = T y).mpr
      ⟨he.transfers_eq.trans (hx.transfers_eq n), fun y _ => hx.transfers_eq y⟩
  · rw [hnode]
    exact (forall_update_iff _ fun y (lb : BaseLB N Id S U) =>
      ∀ o d, lb.depart.lookup o = some d → Moves T o y d).mpr ⟨he.depart, fun y _ => hx.depart y⟩
  · intro y
    rw [harrive]
    exact hx.arrive y
  · intro y e hmem
    rcases (hinbox y e).mp hmem with hmem | ⟨-, hmem⟩
    · exact hx.sound y e hmem
    · exact he.sound y e.2 hmem
  · intro hall y
    -- this node is the last to contribute, or the result has been sent before
    by_cases hst : lb.stage = 1
    · refine .inr ⟨_, hsent y _ (he.sum hst (fun m hm => ?_) y), rfl⟩
      exact (he.stage_cases hnode (hall m)).resolve_right fun h => hm h.1
    · rw [rel_update hnode (P := fun lb lb' => lb'.globalMigrationCount = lb.globalMigrationCount)
        (fun _ => rfl) he.count_eq]
      refine (hx.counted ?_ y).imp_right fun ⟨e, hmem, heq⟩ => ⟨e, hkept y e hmem, heq⟩
      exact fun m => (he.stage_cases hnode (hall m)).resolve_right fun h => hst h.2
  · intro r hr o h d ht
    rcases he.stage_cases hnode hr with hr | ⟨rfl, hst⟩
    · exact (hx.hostTold r hr o h d ht).imp (hdepart h o d)
        fun ⟨e, hmem, hl⟩ => ⟨e, hkept h e hmem, hl⟩
    · rcases he.hosts hst o h d ht with ⟨rfl, hl⟩ | ⟨l, hout, hl⟩
      · rw [hnode, update_self]
        exact .inl hl
      · exact .inr ⟨_, hsent h _ hout, l, rfl, hl⟩
  · intro h hr o d hmv
    rw [harrive]
    rcases he.stage_cases hnode hr with hr | ⟨rfl, hst⟩
    · exact (hx.destTold h hr o d hmv).imp_right fun ⟨e, hmem, hl⟩ => ⟨e, hkept d e hmem, hl⟩
    · obtain ⟨l, hout, hl⟩ := he.dests hst o d hmv
      exact .inr ⟨_, hsent d _ hout, l, rfl, hl⟩

/-- A step keeps the invariant and takes the run nearer to its end. -/
theorem step (hx : Normalizing q T x) (hT : Once T) {a : ReassignAct N}
    (hs : Reassign.step isMigratable q x a = some x') :
    Normalizing q T x' ∧ ((∀ n, (x.node n).stage ≤ 4) → ∀ n, (x'.node n).stage ≤ 4) ∧
      x'.total (fun _ _ => 1) (fun _ lb => (N + 1) * (4 - lb.stage)) <
        x.total (fun _ _ => 1) fun _ lb => (N + 1) * (4 - lb.stage) := by
  cases a with
  | deliver n i =>
    refine ⟨hx.deliver hT hs, ?_⟩
    obtain ⟨d, lb, out, -, hd⟩ := delivers hs
    obtain ⟨hh, rfl⟩ := hx.handled hT (hx.sound n d hd.mem) hd.handled
    constructor
    · intro hle
      rw [hd.node]
      exact (forall_update_iff _ fun _ (lb : BaseLB N Id S U) => lb.stage ≤ 4).mpr
        ⟨hh.stage_eq ▸ hle n, fun y _ => hle y⟩
    · have := hd.total (fun _ _ => 1) fun _ lb => (N + 1) * (4 - lb.stage)
      simp only [hh.stage_eq, outWeight_nil] at this
      omega
  | enter n =>
    obtain ⟨hterm, hs⟩ := ite_none_right_eq_some.mp hs
    obtain ⟨⟨lb, out⟩, henter, rfl⟩ := map_eq_some_iff.mp hs
    have he := hx.entered hT hterm henter
    refine ⟨hx.enter he rfl fun _ _ => mem_inbox_post, ?_, ?_⟩
    · intro hle
      exact (forall_update_iff _ fun _ (lb : BaseLB N Id S U) => lb.stage ≤ 4).mpr
        ⟨he.stage_le, fun y _ => hle y⟩
    · have hnode := total_node (w := fun _ _ => 1)
        (f := fun _ (lb : BaseLB N Id S U) => (N + 1) * (4 - lb.stage)) (x := x) n lb
      have hone : outWeight (fun _ _ => 1) n out = out.length := by
        simp [outWeight]
      have hfour : 4 - (x.node n).stage = 4 - lb.stage + 1 := by
        have := he.stage_eq
        have := he.stage_le
        omega
      simp only [total_post, hone]
      rw [hfour, Nat.mul_add] at hnode
      have := he.length_le
      omega

/-- When no step is left all nodes have returned and no message is left. -/
theorem stopped (hx : Normalizing q T x) (hmig : ∀ n, ∀ t ∈ T n, isMigratable t.obj.id = true)
    (hle : ∀ n, (x.node n).stage ≤ 4) (hstop : ∀ a, Reassign.step isMigratable q x a = none) :
    (∀ n, x.inbox n = []) ∧ ∀ n, (x.node n).stage = 4 := by
  have hquiet : ∀ n, x.inbox n = [] := by
    intro n
    rw [eq_nil_iff_forall_not_mem]
    rintro ⟨src, m⟩ hmem
    obtain ⟨lb, hlb⟩ : ∃ lb, BaseLB.handle n (x.node n) (src, m) = some (lb, []) := by
      cases m <;> exact ⟨_, rfl⟩
    obtain ⟨i, x', hs⟩ := exists_deliver hmem hlb
    exact absurd ((hstop (.deliver n i)).symm.trans hs) nofun
  refine ⟨hquiet, fun n => ?_⟩
  by_contra hne
  -- a node that is behind can enter the next epoch
  obtain ⟨k, -, hk⟩ := Finset.exists_min_image Finset.univ (fun m => (x.node m).stage)
    ⟨n, Finset.mem_univ n⟩
  have hlt : (x.node k).stage < 4 := by
    have := hk n (Finset.mem_univ n)
    have := hle n
    omega
  have hterm : Terminated x (x.node k).stage := fun m =>
    ⟨hk m (Finset.mem_univ m), by simp [hquiet m]⟩
  have hsome : Reassign.enter isMigratable q x k ≠ none := by
    rw [Reassign.enter]
    split
    case h_1 | h_3 | h_4 => nofun
    case h_2 =>
      rw [if_pos]
      · nofun
      · rw [hx.transfers_eq k]
        exact hmig k
    case h_5 h0 h1 h2 h3 =>
      simp only [imp_false] at h0 h1 h2 h3
      omega
  obtain ⟨r, hr⟩ := ne_none_iff_exists'.mp hsome
  have hs := hstop (.enter k)
  rw [Reassign.step, if_pos hterm, hr] at hs
  cases hs

end Normalizing

/-! ## The requests -/

variable {requests : Fin N → List (Transfer (Fin N) Id)}

omit [DecidableEq Id] in
theorem foldl_migrateObjectTo (l acc : List (Transfer (Fin N) Id)) :
    l.foldl (migrateObjectTo false) acc =
      acc ++ l.filter fun t => t.obj.currNode ≠ t.newNode := by
  induction l generalizing acc with
  | nil => simp
  | cons t l ih =>
    rw [foldl_cons, ih, migrateObjectTo]
    by_cases h : t.obj.currNode = t.newNode <;> simp [h]

omit [DecidableEq Id] in
theorem mem_transfers {n : Fin N} {t : Transfer (Fin N) Id} :
    t ∈ (requests n).foldl (migrateObjectTo false) [] ↔
      t ∈ requests n ∧ t.obj.currNode ≠ t.newNode := by
  simp [foldl_migrateObjectTo]

/-- All transfers of the run. -/
def moved (requests : Fin N → List (Transfer (Fin N) Id)) : List (Transfer (Fin N) Id) :=
  ((List.finRange N).flatMap requests).filter fun t => t.obj.currNode ≠ t.newNode

omit [DecidableEq Id] in
theorem mem_moved {t : Transfer (Fin N) Id} :
    t ∈ moved requests ↔ ∃ r, t ∈ (requests r).foldl (migrateObjectTo false) [] := by
  simp [moved, mem_transfers]

omit [DecidableEq Id] in
theorem globalCount_transfers :
    (globalCount fun n => (requests n).foldl (migrateObjectTo false) []) =
      (moved requests).length := by
  rw [moved, filter_flatMap, length_flatMap, globalCount]
  simp only [foldl_migrateObjectTo, nil_append]

section Distinct

variable (honce : (((List.finRange N).flatMap requests).map (·.obj.id)).Nodup)
include honce

omit [DecidableEq Id] in
theorem once_transfers : Once fun n => (requests n).foldl (migrateObjectTo false) [] := by
  rintro o h d h' d' ⟨r, hr⟩ ⟨r', hr'⟩
  have hmem : ∀ r, ∀ t ∈ (requests r).foldl (migrateObjectTo false) [],
      t ∈ (List.finRange N).flatMap requests := fun r t ht =>
    mem_flatMap.mpr ⟨r, mem_finRange r, (mem_transfers.mp ht).1⟩
  have heq := inj_on_of_nodup_map honce (hmem r _ hr) (hmem r' _ hr') rfl
  simpa using heq

omit [DecidableEq Id] in
theorem ncard_moved : Set.ncard {o | ∃ t ∈ moved requests, t.obj.id = o} =
    (moved requests).length := by
  classical
  have hset : {o | ∃ t ∈ moved requests, t.obj.id = o} =
      ((moved requests).map (·.obj.id)).toFinset := by
    ext o
    simp
  have hnodup : ((moved requests).map (·.obj.id)).Nodup :=
    honce.sublist (filter_sublist.map _)
  rw [hset, Set.ncard_coe_finset, toFinset_card_of_nodup hnodup, length_map]

end Distinct

theorem normalizing_requested : Normalizing q
    (fun n => (requests n).foldl (migrateObjectTo false) []) (requested requests) := by
  refine ⟨fun _ => rfl, ?_, ?_, nofun, ?_, nofun, nofun⟩
  · intro n o d h
    simp [requested] at h
  · intro n o a h
    simp [requested] at h
  · intro h n
    exact absurd (h n) (by simp [requested])

/-- In every order of the steps `normalizeReassignments` returns on all nodes, and both views of the
reassignment are complete. -/
theorem reassignment_normalized (isMigratable : Id → Bool) (q : LoadQueries (Fin N) Id S U)
    (host : Id → Fin N) (requests : Fin N → List (Transfer (Fin N) Id))
    (hmig : ∀ r, ∀ t ∈ requests r, isMigratable t.obj.id = true)
    (honce : (((List.finRange N).flatMap requests).map (·.obj.id)).Nodup)
    (hhost : ∀ r, ∀ t ∈ requests r, t.obj.currNode = host t.obj.id) :
    Ends (step isMigratable q) (Normalized q host requests) (requested requests) := by
  have hT := once_transfers honce
  have hmoves : ∀ o h d, Moves (fun n => (requests n).foldl (migrateObjectTo false) []) o h d ↔
      h = host o ∧ d ≠ host o ∧ ∃ r, ⟨⟨o, host o⟩, d⟩ ∈ requests r := by
    intro o h d
    constructor
    · rintro ⟨r, hr⟩
      obtain ⟨hmem, hne⟩ := mem_transfers.mp hr
      obtain rfl : h = host o := hhost r _ hmem
      exact ⟨rfl, Ne.symm hne, r, hmem⟩
    · rintro ⟨rfl, hne, r, hmem⟩
      exact ⟨r, mem_transfers.mpr ⟨hmem, Ne.symm hne⟩⟩
  refine Ends.of_measure (Q := fun x => Normalizing q _ x ∧ ∀ n, (x.node n).stage ≤ 4)
    (fun x => x.total (fun _ _ => 1) fun _ lb => (N + 1) * (4 - lb.stage)) ?_ ?_
    ⟨normalizing_requested, fun _ => Nat.zero_le _⟩
  · rintro x a x' ⟨hx, hle⟩ hs
    obtain ⟨hx', hle', hlt⟩ := hx.step hT hs
    exact ⟨⟨hx', hle' hle⟩, hlt⟩
  · rintro x ⟨hx, hle⟩ hstop
    obtain ⟨hquiet, hst⟩ := hx.stopped (fun r t ht => hmig r t (mem_transfers.mp ht).1) hle hstop
    have hnone : ∀ (n : Fin N) {P : Fin N × ReassignMsg N Id S U → Prop},
      ¬∃ e ∈ x.inbox n, P e := by
      intro n P
      simp [hquiet n]
    refine ⟨hst, ?_, ?_, ?_⟩
    · intro n o d
      rw [← hmoves o n d]
      refine ⟨hx.depart n o d, ?_⟩
      rintro ⟨r, hr⟩
      exact (hx.hostTold r (by simp [hst r]) o n d hr).resolve_right (hnone n)
    · intro n o a
      constructor
      · intro ha
        obtain ⟨h, hm, rfl⟩ := hx.arrive n o a ha
        obtain ⟨rfl, hrest⟩ := (hmoves o h n).mp hm
        exact ⟨rfl, hrest⟩
      · rintro ⟨rfl, hrest⟩
        have hm := (hmoves o (host o) n).mpr ⟨rfl, hrest⟩
        exact (hx.destTold (host o) (by simp [hst]) o n hm).resolve_right (hnone n)
    · intro n
      have hset : {o | ∃ d, d ≠ host o ∧ ∃ r, ⟨⟨o, host o⟩, d⟩ ∈ requests r} =
          {o | ∃ t ∈ moved requests, t.obj.id = o} := by
        ext o
        constructor
        · rintro ⟨d, hd⟩
          obtain ⟨r, hr⟩ := (hmoves o (host o) d).mpr ⟨rfl, hd⟩
          exact ⟨_, mem_moved.mpr ⟨r, hr⟩, rfl⟩
        · rintro ⟨⟨⟨o, h⟩, d⟩, ht, rfl⟩
          exact ⟨d, ((hmoves o h d).mp (mem_moved.mp ht)).2⟩
      rw [hset, ncard_moved honce, ← globalCount_transfers]
      exact (hx.counted (fun m => by simp [hst m]) n).resolve_right (hnone n)

/-- Object 0 of node 0 is moved to node 1 by its host, object 1 of node 1 by its destination node 2,
and object 2 of node 2 by node 1, to node 0. -/
private def threeRequests (a b c : Fin 3) (n : Fin 3) : List (Transfer (Fin 3) ℕ) :=
  if n = a then [⟨⟨0, a⟩, b⟩] else if n = b then [⟨⟨2, c⟩, a⟩] else [⟨⟨1, b⟩, c⟩]

/-- Each node's model of each object. -/
private def threeQueries : LoadQueries (Fin 3) ℕ (ℕ × ℕ) Unit :=
  ⟨fun n o => (n.1, o), fun n o => (n.1, o), fun _ _ => ()⟩

theorem reassignment_normalized_three :
    Ends (step (fun _ => true) threeQueries)
      (Normalized threeQueries (fun o => Fin.ofNat 3 o) (threeRequests 0 1 2))
      (requested (threeRequests 0 1 2)) :=
  reassignment_normalized _ _ _ _ (fun _ _ _ => rfl) (by decide) (by decide)

end Reassign

end VtRuntime.Balance
