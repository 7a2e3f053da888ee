import VtRuntime.Lib.Combine
import VtRuntime.Lib.Lists
import VtRuntime.Lib.Run
import VtRuntime.Lib.Sum
import VtRuntime.Lib.Tree

/-!
# Reductions

Each node of a scope contributes values to a reduction, which is identified by its stamp.  A node
keeps the messages of a stamp, its own contributions and those of its children, until their number
is that of its children and its contributions together.  It then combines them into one message
for its parent.  The root of the tree sends its message to the root of the reduction, where the
root handler runs.

Any number of reductions are under way at a time.  The nodes use a stamp for one reduction, with
the same root and combine handler.
-/

namespace VtRuntime.Collective

open Lib List Function WithZero SpanningTree

/-- A `ReduceMsg`. -/
structure ReduceMsg (R S H α : Type) where
  stamp : S
  combineHandler : H
  reduceRoot : R
  val : α

/-- The state of a stamp on a node. -/
structure ReduceState (R S H α : Type) where
  msgs : List (ReduceMsg R S H α)
  numContrib : ℕ
  numLocalContrib : ℕ
  combineHandler : H
  reduceRoot : R

/-- The scope of the reductions: its spanning tree, the node numbers, and the operators of the
combine handlers.  The root of a reduction may be a node outside the scope. -/
structure Reduce (N R H α : Type) where
  tree : SpanningTree N
  node : N → R
  op : H → α → α → α

/-- What the nodes pass to `reduceImmediate`: the root and the combine handler of a stamp, and the
number of contributions of a node. -/
structure Plan (N R S H : Type) where
  root : S → R
  handler : S → H
  numContrib : N → S → ℕ
  numContrib_pos : ∀ n σ, 0 < numContrib n σ

/-- The states on all nodes and the messages in flight, each with its destination.  The books: the
runs of the root handler, the values contributed, and the stamps of the messages handled. -/
structure ReduceSys (N R S H α : Type) where
  state : N × S → Option (ReduceState R S H α) := fun _ => none
  up : List (N × ReduceMsg R S H α) := []
  toRoot : List (R × ReduceMsg R S H α) := []
  rootRuns : List (R × ReduceMsg R S H α) := []
  contributed : N × S → List α := fun _ => []
  handled : List S := []

inductive ReduceAct (N S α : Type)
  | contribute (n : N) (σ : S) (x : α)
  | up (i : ℕ)
  | toRoot (i : ℕ)

/-- The combine handler on the chain of the messages: it combines the values into the first. -/
def msgHandler {R S H α : Type} (op : α → α → α) :
    List (ReduceMsg R S H α) → Option (ReduceMsg R S H α)
  | [] => none
  | fst :: rest => some { fst with val := (rest.map (·.val)).foldl op fst.val }

/-- `Reduce::reduceAddMsg` on the state of the stamp.  A message from a child passes no number of
contributions.  The handler and the root of a new state are set right away. -/
def addToState {R S H α : Type} (state : Option (ReduceState R S H α)) (msg : ReduceMsg R S H α)
    (isLocal : Bool) (numContrib : Option ℕ) : ReduceState R S H α :=
  let state := state.getD ⟨[], numContrib.getD 1, 0, msg.combineHandler, msg.reduceRoot⟩
  { msgs := state.msgs ++ [msg]
    numContrib := numContrib.getD state.numContrib
    numLocalContrib := state.numLocalContrib + if isLocal then 1 else 0
    combineHandler := msg.combineHandler
    reduceRoot := msg.reduceRoot }

section Model

variable {N R S H α : Type} [Fintype N] [DecidableEq N] [DecidableEq R] [DecidableEq S]

def reduceAddMsg (s : ReduceSys N R S H α) (n : N) (msg : ReduceMsg R S H α) (isLocal : Bool)
    (numContrib : Option ℕ) : ReduceSys N R S H α :=
  let state := addToState (s.state (n, msg.stamp)) msg isLocal numContrib
  { s with state := Function.update s.state (n, msg.stamp) (some state) }

/-- The state of a stamp is erased. -/
def eraseState (s : ReduceSys N R S H α) (n : N) (σ : S) : ReduceSys N R S H α :=
  { s with state := Function.update s.state (n, σ) none }

variable (E : Reduce N R H α) (P : Plan N R S H)

variable (s : ReduceSys N R S H α)

/-- The last part of `startReduce`: the message goes to the parent, or from the root of the tree to
the root of the reduction. -/
def sendOn (n : N) (root : R) (msg : ReduceMsg R S H α) : ReduceSys N R S H α :=
  if n = E.tree.root then
    if root = E.node n then { s with rootRuns := s.rootRuns ++ [(root, msg)] }
    else { s with toRoot := s.toRoot ++ [(root, msg)] }
  else { s with up := s.up ++ [(E.tree.parent n, msg)] }

/-- `Reduce::startReduce` on a node. -/
def startReduce (n : N) (σ : S) : ReduceSys N R S H α :=
  match s.state (n, σ) with
  | none => s
  | some state =>
      if state.msgs.length = E.tree.numChildren n + state.numContrib then
        match msgHandler (E.op state.combineHandler) state.msgs with
        | none => s
        | some msg => sendOn E (eraseState s n σ) n state.reduceRoot msg
      else s

/-- `Reduce::reduceRootRecv` runs the root handler on a message in flight. -/
def reduceRootRecv (i : ℕ) (e : R × ReduceMsg R S H α) : ReduceSys N R S H α :=
  { s with
    toRoot := s.toRoot.eraseIdx i
    rootRuns := s.rootRuns ++ [e]
    handled := e.2.stamp :: s.handled }

namespace ReduceSys

variable (s : ReduceSys N R S H α)

/-- The book of the contributions. -/
def record (n : N) (σ : S) (x : α) : ReduceSys N R S H α :=
  let values := s.contributed (n, σ) ++ [x]
  { s with contributed := Function.update s.contributed (n, σ) values }

/-- A node contributes a value by `reduceImmediate`, as long as it has not made all its
contributions; a message is handled by `reduceUpHan` or by `reduceRootRecv`. -/
def step : ReduceAct N S α → Option (ReduceSys N R S H α)
  | .contribute n σ x =>
      if (s.contributed (n, σ)).length < P.numContrib n σ then
        let msg := ⟨σ, P.handler σ, P.root σ, x⟩
        let s := reduceAddMsg (s.record n σ x) n msg true (some (P.numContrib n σ))
        some (startReduce E s n σ)
      else none
  | .up i =>
      s.up[i]?.map fun e =>
        let s := { s with up := s.up.eraseIdx i, handled := e.2.stamp :: s.handled }
        startReduce E (reduceAddMsg s e.1 e.2 false none) e.1 e.2.stamp
  | .toRoot i =>
      s.toRoot[i]?.map (reduceRootRecv s i)

/-- The states reached from the one in which nothing has been contributed. -/
def Reaches : ReduceSys N R S H α → Prop := Reach (· = {}) (step E P) anyStep

/-- The node has made all contributions to the reduction. -/
def Complete (σ : S) : Prop :=
  ∀ n, (s.contributed (n, σ)).length = P.numContrib n σ

/-- The runs of the root handler of a stamp. -/
def runs (σ : S) : List (R × ReduceMsg R S H α) :=
  s.rootRuns.filter (·.2.stamp = σ)

/-- No message of the reduction is in flight. -/
def Quiet (σ : S) : Prop :=
  (∀ e ∈ s.up, e.2.stamp ≠ σ) ∧ ∀ e ∈ s.toRoot, e.2.stamp ≠ σ

end ReduceSys

/-- The root handler of the stamp runs at most once, on the root of the reduction, after all
contributions and with their combination.  At most one message for each node is sent, and when all
contributions are made and no message is in flight, the handler has run. -/
structure ReducesOnce (s : ReduceSys N R S H α) (σ : S) : Prop where
  once : (s.runs σ).length ≤ 1
  combined : ∀ r ∈ s.runs σ, r.1 = P.root σ ∧ s.Complete P σ ∧
    ∀ l : List α, ∑ n, (s.contributed (n, σ) : Multiset α) = l →
      combination (E.op (P.handler σ)) l = some r.2.val
  ends : s.handled.count σ ≤ Fintype.card N
  runs : s.Complete P σ → s.Quiet σ → (s.runs σ).length = 1

end Model

/-! ## Accounts of a stamp -/

namespace ReduceSys

variable {N R S H α : Type} [DecidableEq N] [DecidableEq S]

variable (s : ReduceSys N R S H α)

/-- The messages that were sent and are not kept by a node. -/
def sent : List (ReduceMsg R S H α) :=
  s.up.map (·.2) ++ s.toRoot.map (·.2) ++ s.rootRuns.map (·.2)

/-- The messages of a stamp that a node keeps. -/
def kept (n : N) (σ : S) : List (ReduceMsg R S H α) :=
  ((s.state (n, σ)).map (·.msgs)).getD []

/-- The number of messages on their way to a node. -/
def upTo (σ : S) (n : N) : ℕ :=
  s.up.countP fun e => e.1 = n ∧ e.2.stamp = σ

/-- The number of messages that the root of the tree has sent. -/
def fromRoot (σ : S) : ℕ :=
  s.toRoot.countP (·.2.stamp = σ) + s.rootRuns.countP (·.2.stamp = σ)

def inflight (σ : S) : ℕ :=
  s.up.countP (·.2.stamp = σ) + s.toRoot.countP (·.2.stamp = σ)

variable (P : Plan N R S H)

/-- The node has made all contributions and has passed them on. -/
def fired (s : ReduceSys N R S H α) (σ : S) (n : N) : ℕ :=
  if (s.state (n, σ)).isNone ∧ (s.contributed (n, σ)).length = P.numContrib n σ then 1 else 0

end ReduceSys

namespace Plan

variable {N R S H α : Type} (P : Plan N R S H)

/-- The message belongs to the reduction of its stamp. -/
def Fits (m : ReduceMsg R S H α) : Prop :=
  m.reduceRoot = P.root m.stamp ∧ m.combineHandler = P.handler m.stamp

/-- The state of a stamp on a node that has made `k` contributions. -/
structure Keeps (n : N) (σ : S) (k : ℕ) (st : ReduceState R S H α) : Prop where
  msgs : ∀ m ∈ st.msgs, m.stamp = σ ∧ P.Fits m
  contrib : st.numContrib = if k = 0 then 1 else P.numContrib n σ
  handler : st.combineHandler = P.handler σ
  root : st.reduceRoot = P.root σ
  length : k ≤ st.msgs.length

end Plan

section Invariant

variable {N R S H α : Type} [Fintype N] [DecidableEq N] [DecidableEq R] [DecidableEq S]
  (E : Reduce N R H α) (P : Plan N R S H)

variable (s : ReduceSys N R S H α)

/-- The number of messages from its children that a node has kept or passed on. -/
def received (σ : S) (n : N) : ℕ :=
  if s.fired P σ n = 1 then E.tree.numChildren n
  else (s.kept n σ).length - (s.contributed (n, σ)).length

/-- What holds between any two calls.  Each message that a child has sent is on its way or has been
received, and the root has sent one message. -/
structure Inv : Prop where
  fits : ∀ m ∈ s.sent, P.Fits m
  dest : ∀ e ∈ s.toRoot ++ s.rootRuns, e.1 = P.root e.2.stamp
  most : ∀ n σ, (s.contributed (n, σ)).length ≤ P.numContrib n σ
  idle : ∀ n σ, s.state (n, σ) = none → s.contributed (n, σ) = [] ∨ s.fired P σ n = 1
  keeps : ∀ n σ st, s.state (n, σ) = some st → P.Keeps n σ (s.contributed (n, σ)).length st
  children : ∀ n σ, ∑ c ∈ E.tree.children n, s.fired P σ c = s.upTo σ n + received E P s σ n
  root : ∀ σ, s.fromRoot σ = s.fired P σ E.tree.root
  bound : ∀ σ, s.handled.count σ + s.inflight σ ≤ ∑ n, s.fired P σ n

/-- No node has all messages of a stamp. -/
def Waiting : Prop :=
  ∀ n σ st, s.state (n, σ) = some st → st.msgs.length ≠ E.tree.numChildren n + st.numContrib

end Invariant

open ReduceSys

section Lemmas

variable {N R S H α : Type} {E : Reduce N R H α} {P : Plan N R S H} {s : ReduceSys N R S H α}
  {n m : N} {σ τ : S} {k : ℕ} {msg : ReduceMsg R S H α}

theorem forall_pair {p : N → S → Prop} (n : N) (σ : S) (h : p n σ)
    (hne : ∀ m τ, (m, τ) ≠ (n, σ) → p m τ) (m : N) (τ : S) : p m τ := by
  by_cases heq : (m, τ) = (n, σ)
  · obtain ⟨rfl, rfl⟩ := Prod.mk.inj heq
    exact h
  · exact hne m τ heq

theorem fired_le : s.fired P σ n ≤ 1 := by
  rw [fired]
  split <;> omega

theorem fired_eq_one : s.fired P σ n = 1 ↔
    s.state (n, σ) = none ∧ (s.contributed (n, σ)).length = P.numContrib n σ := by
  simp [fired]

theorem fired_eq_zero : s.fired P σ n = 0 ↔
    (s.state (n, σ) = none → (s.contributed (n, σ)).length ≠ P.numContrib n σ) := by
  simp [fired]

theorem kept_eq {st : ReduceState R S H α} (h : s.state (n, σ) = some st) :
    s.kept n σ = st.msgs := by
  rw [kept, h]
  rfl

/-- A contribution, or a message from a child, is added to the messages of a node. -/
theorem keeps_add {st : Option (ReduceState R S H α)} (hnone : st = none → k = 0)
    (hsome : ∀ st', st = some st' → P.Keeps n msg.stamp k st') (hfits : P.Fits msg) :
    P.Keeps n msg.stamp (k + 1) (addToState st msg true (some (P.numContrib n msg.stamp))) ∧
      P.Keeps n msg.stamp k (addToState st msg false none) := by
  cases st with
  | none =>
    have hmsgs : ∀ m ∈ [msg], m.stamp = msg.stamp ∧ P.Fits m := by simp [hfits]
    exact ⟨⟨hmsgs, rfl, hfits.2, hfits.1, by simp [addToState, hnone]⟩,
      hmsgs, by simp [addToState, hnone], hfits.2, hfits.1, by simp [hnone]⟩
  | some st =>
    have hst := hsome st rfl
    have hmsgs : ∀ m ∈ st.msgs ++ [msg], m.stamp = msg.stamp ∧ P.Fits m := by
      simpa [or_imp, forall_and, hfits] using hst.msgs
    have hlen := hst.length
    exact ⟨⟨hmsgs, rfl, hfits.2, hfits.1, by simpa [addToState] using hlen⟩,
      hmsgs, hst.contrib, hfits.2, hfits.1, by simp [addToState]; omega⟩

/-- The state has a positive number of contributions to wait for. -/
theorem Plan.Keeps.numContrib_pos {st : ReduceState R S H α} (h : P.Keeps n σ k st) :
    0 < st.numContrib := by
  rw [h.contrib]
  split
  · exact Nat.one_pos
  · exact P.numContrib_pos n σ

theorem Plan.Keeps.combined {st : ReduceState R S H α} (h : P.Keeps n σ k st) {op : α → α → α}
    (hmsg : msgHandler op st.msgs = some msg) : msg.stamp = σ ∧ P.Fits msg := by
  cases hmsgs : st.msgs with
  | nil => simp [hmsgs, msgHandler] at hmsg
  | cons fst rest =>
    rw [hmsgs] at hmsg
    obtain rfl := Option.some.inj hmsg
    exact h.msgs fst (hmsgs ▸ mem_cons_self)

theorem length_addToState (st : Option (ReduceState R S H α)) (msg : ReduceMsg R S H α)
    (isLocal : Bool) (num : Option ℕ) :
    (addToState st msg isLocal num).msgs.length = ((st.map (·.msgs)).getD []).length + 1 := by
  cases st <;> simp [addToState]

theorem sent_reduceRootRecv {i : ℕ} {e : R × ReduceMsg R S H α} (he : s.toRoot[i]? = some e) :
    (reduceRootRecv s i e).sent.Perm s.sent := by
  have hto := (perm_eraseIdx he).map (·.2)
  have hlast := perm_append_singleton e.2
    ((s.toRoot.eraseIdx i).map (·.2) ++ s.rootRuns.map (·.2))
  simp only [sent, reduceRootRecv, map_append, append_assoc] at hlast ⊢
  exact (hlast.trans (hto.append_right _).symm).append_left _

variable [DecidableEq N]

section Frame

variable [DecidableEq R] (E) (s) (n) (msg) (root : R)

theorem sendOn_frame : (sendOn E s n root msg).state = s.state ∧
    (sendOn E s n root msg).contributed = s.contributed ∧
    (sendOn E s n root msg).handled = s.handled := by
  rw [sendOn]
  split
  · split <;> exact ⟨rfl, rfl, rfl⟩
  · exact ⟨rfl, rfl, rfl⟩

theorem dest_sendOn (h : ∀ e ∈ s.toRoot ++ s.rootRuns, e.1 = P.root e.2.stamp)
    (hroot : root = P.root msg.stamp) : ∀ e ∈ (sendOn E s n root msg).toRoot ++
      (sendOn E s n root msg).rootRuns, e.1 = P.root e.2.stamp := by
  intro e he
  have hcases : e ∈ s.toRoot ++ s.rootRuns ∨ e = (root, msg) := by
    rw [sendOn] at he
    split at he
    · split at he <;> simp at he ⊢ <;> tauto
    · exact Or.inl he
  rcases hcases with hmem | rfl
  · exact h e hmem
  · exact hroot

theorem sent_sendOn : (sendOn E s n root msg).sent.Perm (msg :: s.sent) := by
  rw [sendOn]
  split
  · split
    · simpa [sent] using perm_append_singleton msg s.sent
    · have hmiddle : (s.up.map (·.2) ++ s.toRoot.map (·.2) ++ msg :: s.rootRuns.map (·.2)).Perm
          (msg :: s.sent) := perm_middle
      simpa [sent] using hmiddle
  · simp [sent, perm_middle]

end Frame

variable [DecidableEq S]

variable {isLocal : Bool} {num : Option ℕ}

theorem state_reduceAddMsg : (reduceAddMsg s n msg isLocal num).state (n, msg.stamp) =
      some (addToState (s.state (n, msg.stamp)) msg isLocal num) :=
  update_self ..

theorem state_reduceAddMsg_of_ne (h : (m, τ) ≠ (n, msg.stamp)) :
    (reduceAddMsg s n msg isLocal num).state (m, τ) = s.state (m, τ) :=
  update_of_ne h ..

theorem kept_reduceAddMsg :
    (reduceAddMsg s n msg isLocal num).kept n msg.stamp = s.kept n msg.stamp ++ [msg] := by
  rw [kept, state_reduceAddMsg, kept]
  cases s.state (n, msg.stamp) <;> simp [addToState]

theorem kept_reduceAddMsg_of_ne (h : (m, τ) ≠ (n, msg.stamp)) :
    (reduceAddMsg s n msg isLocal num).kept m τ = s.kept m τ := by
  rw [kept, state_reduceAddMsg_of_ne h, kept]

theorem contributed_record (x : α) :
    (s.record n σ x).contributed (n, σ) = s.contributed (n, σ) ++ [x] := update_self ..

theorem contributed_record_of_ne {x : α} (h : (m, τ) ≠ (n, σ)) :
    (s.record n σ x).contributed (m, τ) = s.contributed (m, τ) := update_of_ne h ..

theorem state_eraseState : (eraseState s n σ).state (n, σ) = none := update_self ..

theorem state_eraseState_of_ne (h : (m, τ) ≠ (n, σ)) :
    (eraseState s n σ).state (m, τ) = s.state (m, τ) := update_of_ne h ..

theorem kept_eraseState : (eraseState s n σ).kept n σ = [] := by
  rw [kept, state_eraseState]
  rfl

theorem kept_eraseState_of_ne (h : (m, τ) ≠ (n, σ)) : (eraseState s n σ).kept m τ = s.kept m τ := by
  rw [kept, state_eraseState_of_ne h, kept]

section Send

variable [DecidableEq R] (E) (s) (n) (msg) (root : R)

theorem upTo_sendOn (τ : S) (m : N) : (sendOn E s n root msg).upTo τ m =
    s.upTo τ m + if (n ≠ E.tree.root ∧ E.tree.parent n = m) ∧ msg.stamp = τ then 1 else 0 := by
  rw [sendOn]
  split
  case isTrue h => split <;> simp [upTo, h]
  case isFalse h => simp [upTo, h, countP_append, countP_singleton]

theorem fromRoot_sendOn (τ : S) : (sendOn E s n root msg).fromRoot τ =
    s.fromRoot τ + if n = E.tree.root ∧ msg.stamp = τ then 1 else 0 := by
  rw [sendOn]
  split
  case isTrue h =>
    split
    case isTrue =>
      simp [fromRoot, h, countP_append, countP_singleton, Nat.add_assoc]
    case isFalse =>
      simp [fromRoot, h, countP_append, countP_singleton, Nat.add_right_comm]
  case isFalse h => simp [fromRoot, h]

theorem inflight_sendOn (τ : S) : (sendOn E s n root msg).inflight τ ≤
    s.inflight τ + if msg.stamp = τ then 1 else 0 := by
  rw [sendOn]
  split
  · split
    · exact Nat.le_add_right ..
    · simp [inflight, countP_append, countP_singleton, Nat.add_assoc]
  · simp [inflight, countP_append, countP_singleton, Nat.add_right_comm]

end Send

variable [Fintype N]

omit [DecidableEq S] in
theorem sum_fired_le (n : N) : ∑ c ∈ E.tree.children n, s.fired P σ c ≤ E.tree.numChildren n := by
  rw [numChildren, Finset.card_eq_sum_ones]
  exact Finset.sum_le_sum fun c _ => fired_le

/-- The children of a node that has passed on its messages have done so too. -/
theorem fired_children (hi : Inv E P s) (h : s.fired P σ n = 1) :
    s.upTo σ n = 0 ∧ ∀ c ∈ E.tree.children n, s.fired P σ c = 1 := by
  have hsum := hi.children n σ
  have hle := sum_fired_le (E := E) (P := P) (s := s) (σ := σ) n
  rw [received, if_pos h] at hsum
  refine ⟨by omega, (Finset.sum_eq_sum_iff_of_le fun c _ => fired_le).mp ?_⟩
  rw [← Finset.card_eq_sum_ones]
  exact le_antisymm hle (show E.tree.numChildren n ≤ _ by omega)

/-- A node to which a message is on its way has not passed on its messages. -/
theorem fired_of_upTo (hi : Inv E P s) (h : 0 < s.upTo σ n) : s.fired P σ n = 0 := by
  by_contra hne
  have hle : s.fired P σ n ≤ 1 := fired_le
  have hone : s.fired P σ n = 1 := by omega
  have hzero := (fired_children hi hone).1
  omega

/-- What a node that has not passed on its messages keeps. -/
theorem Inv.unfired (hi : Inv E P s) (h : s.fired P σ n = 0) :
    (s.state (n, σ) = none → (s.contributed (n, σ)).length = 0) ∧
      (s.contributed (n, σ)).length ≤ (s.kept n σ).length := by
  cases hst : s.state (n, σ) with
  | none =>
    have hnil := (hi.idle n σ hst).resolve_right (by omega)
    simp [hnil]
  | some st => simpa [kept, hst] using (hi.keeps n σ st hst).length

variable {s' : ReduceSys N R S H α} {st : ReduceState R S H α} {i : ℕ}

theorem Inv.add (hi : Inv E P s) (hzero : s.fired P σ n = 0) (hstate : s'.state (n, σ) = some st)
    (hframe : ∀ m τ, (m, τ) ≠ (n, σ) → s'.state (m, τ) = s.state (m, τ) ∧
      s'.contributed (m, τ) = s.contributed (m, τ) ∧ s'.upTo τ m = s.upTo τ m)
    (hkeeps : P.Keeps n σ (s'.contributed (n, σ)).length st)
    (hmost : (s'.contributed (n, σ)).length ≤ P.numContrib n σ)
    (hreceived : s'.upTo σ n + st.msgs.length + (s.contributed (n, σ)).length =
      s.upTo σ n + (s.kept n σ).length + (s'.contributed (n, σ)).length)
    (hsent : ∀ m ∈ s'.sent, m ∈ s.sent) (htoRoot : s'.toRoot = s.toRoot)
    (hruns : s'.rootRuns = s.rootRuns)
    (hbound : ∀ τ, s'.handled.count τ + s'.inflight τ = s.handled.count τ + s.inflight τ) :
    Inv E P s' := by
  have hfired : ∀ m τ, s'.fired P τ m = s.fired P τ m := by
    refine forall_pair n σ ?_ fun m τ h => ?_
    · rw [hzero, fired_eq_zero, hstate]
      simp
    · rw [fired, fired, (hframe m τ h).1, (hframe m τ h).2.1]
  have hchildren : ∀ m τ, s'.upTo τ m + received E P s' τ m = s.upTo τ m + received E P s τ m := by
    simp only [received, hfired]
    refine forall_pair n σ ?_ fun m τ h => ?_
    · have hle := hkeeps.length
      have hle' := (hi.unfired hzero).2
      rw [hzero, if_neg Nat.zero_ne_one, if_neg Nat.zero_ne_one, kept_eq hstate]
      omega
    · obtain ⟨hst, hcontributed, hup⟩ := hframe m τ h
      rw [kept, kept, hst, hcontributed, hup]
  constructor
  case fits => exact fun m hm => hi.fits m (hsent m hm)
  case dest =>
    rw [htoRoot, hruns]
    exact hi.dest
  case most => exact forall_pair n σ hmost fun m τ h => (hframe m τ h).2.1 ▸ hi.most m τ
  case idle =>
    refine forall_pair n σ (fun hst => by simp [hstate] at hst) fun m τ h => ?_
    rw [hfired, (hframe m τ h).2.1, (hframe m τ h).1]
    exact hi.idle m τ
  case keeps =>
    refine forall_pair n σ (fun st' hst => ?_) fun m τ h => ?_
    · obtain rfl := Option.some.inj (hstate ▸ hst)
      exact hkeeps
    · rw [(hframe m τ h).2.1, (hframe m τ h).1]
      exact hi.keeps m τ
  case children =>
    intro m τ
    rw [hchildren, Finset.sum_congr rfl fun c _ => hfired c τ]
    exact hi.children m τ
  case root =>
    intro τ
    rw [hfired, fromRoot, htoRoot, hruns]
    exact hi.root τ
  case bound =>
    intro τ
    rw [hbound, Finset.sum_congr rfl fun c _ => hfired c τ]
    exact hi.bound τ

theorem Inv.contribute (hi : Inv E P s) (msg : ReduceMsg R S H α) (x : α)
    (hlt : (s.contributed (n, msg.stamp)).length < P.numContrib n msg.stamp) (hfits : P.Fits msg) :
    Inv E P (reduceAddMsg (s.record n msg.stamp x) n msg true
      (some (P.numContrib n msg.stamp))) := by
  have hzero : s.fired P msg.stamp n = 0 := fired_eq_zero.mpr fun _ => by omega
  have hlen : ((reduceAddMsg (s.record n msg.stamp x) n msg true
      (some (P.numContrib n msg.stamp))).contributed (n, msg.stamp)).length =
        (s.contributed (n, msg.stamp)).length + 1 := by
    simp [reduceAddMsg, record]
  refine hi.add hzero state_reduceAddMsg ?_ ?_ ?_ ?_ (fun _ h => h) rfl rfl fun _ => rfl
  · intro m τ h
    exact ⟨state_reduceAddMsg_of_ne h, update_of_ne h .., rfl⟩
  · rw [hlen]
    exact (keeps_add (hi.unfired hzero).1 (hi.keeps n msg.stamp) hfits).1
  · rw [hlen]
    omega
  · rw [hlen, length_addToState]
    show s.upTo msg.stamp n + ((s.kept n msg.stamp).length + 1) + _ = _
    omega

theorem Inv.receive (hi : Inv E P s) {e : N × ReduceMsg R S H α} (he : s.up[i]? = some e) :
    Inv E P (reduceAddMsg { s with up := s.up.eraseIdx i, handled := e.2.stamp :: s.handled }
      e.1 e.2 false none) := by
  have hcount := fun p => ((perm_eraseIdx he).countP_eq p).trans countP_cons
  have hpos : 0 < s.upTo e.2.stamp e.1 := by
    rw [upTo, hcount]
    simp
  have hzero := fired_of_upTo hi hpos
  have hmem : e.2 ∈ s.sent := by
    refine mem_append_left _ (mem_append_left _ (mem_map_of_mem ?_))
    exact mem_of_getElem? he
  refine hi.add hzero state_reduceAddMsg ?_ ?_ (hi.most _ _) ?_ ?_ rfl rfl ?_
  · intro m τ h
    refine ⟨state_reduceAddMsg_of_ne h, rfl, ?_⟩
    have hne : ¬ (e.1 = m ∧ e.2.stamp = τ) := by
      rintro ⟨rfl, rfl⟩
      exact h rfl
    simp only [upTo, hcount, reduceAddMsg, hne, decide_false, Bool.false_eq_true, if_false,
      Nat.add_zero]
  · exact (keeps_add (hi.unfired hzero).1 (hi.keeps _ _) (hi.fits _ hmem)).2
  · rw [length_addToState]
    simp only [upTo, hcount, reduceAddMsg, kept]
    simp
    omega
  · intro m hm
    simp only [sent, reduceAddMsg, mem_append] at hm ⊢
    refine hm.imp_left (Or.imp_left fun h => ?_)
    obtain ⟨e', he', rfl⟩ := mem_map.mp h
    exact mem_map_of_mem (mem_of_mem_eraseIdx he')
  · intro τ
    simp only [inflight, hcount, reduceAddMsg, count_cons]
    by_cases h : e.2.stamp = τ
    · simp [h]
      omega
    · simp [h]

/-- A node that has all messages of a stamp has made its contributions. -/
theorem Inv.ready (hi : Inv E P s) (hst : s.state (n, σ) = some st)
    (hready : st.msgs.length = E.tree.numChildren n + st.numContrib) :
    (s.contributed (n, σ)).length = P.numContrib n σ ∧
      received E P s σ n = E.tree.numChildren n := by
  have hkeeps := hi.keeps n σ st hst
  have hzero : s.fired P σ n = 0 := fired_eq_zero.mpr (by simp [hst])
  have hreceived : received E P s σ n = st.msgs.length - (s.contributed (n, σ)).length := by
    rw [received, hzero, if_neg Nat.zero_ne_one, kept_eq hst]
  have hsum := hi.children n σ
  have hle := sum_fired_le (E := E) (P := P) (s := s) (σ := σ) n
  have hcontrib := hkeeps.contrib
  have hmost := hi.most n σ
  -- without a contribution of its own a node waits for one more message than it has children
  split at hcontrib <;> omega

theorem Inv.rootRecv (hi : Inv E P s) {e : R × ReduceMsg R S H α} (he : s.toRoot[i]? = some e) :
    Inv E P (reduceRootRecv s i e) := by
  have hcount := fun p => ((perm_eraseIdx he).countP_eq p).trans countP_cons
  refine { hi with
    fits := fun m hm => hi.fits m ((sent_reduceRootRecv he).mem_iff.mp hm)
    dest := fun x hx => hi.dest x ?_, root := fun τ => ?_, bound := fun τ => ?_ }
  · simp only [reduceRootRecv, mem_append, mem_singleton] at hx ⊢
    rcases hx with hx | hx | rfl
    · exact Or.inl (mem_of_mem_eraseIdx hx)
    · exact Or.inr hx
    · exact Or.inl (mem_of_getElem? he)
  · rw [← show s.fired P τ E.tree.root = (reduceRootRecv s i e).fired P τ E.tree.root from rfl,
      ← hi.root τ, fromRoot, fromRoot, hcount]
    simp [reduceRootRecv, countP_append, countP_singleton]
    omega
  · have hbound := hi.bound τ
    refine le_trans (le_of_eq ?_) hbound
    rw [inflight, inflight, hcount]
    simp [reduceRootRecv, count_cons]
    omega

theorem init_inv : Inv E P ({} : ReduceSys N R S H α) ∧ Waiting E ({} : ReduceSys N R S H α) := by
  have hfired : ∀ σ n, ({} : ReduceSys N R S H α).fired P σ n = 0 := by
    intro σ n
    rw [fired_eq_zero]
    exact fun _ => (P.numContrib_pos n σ).ne
  constructor
  · constructor <;> simp [sent, hfired, upTo, received, kept,
      fromRoot, inflight]
  · intro n σ st hst
    simp at hst

variable [DecidableEq R]

/-- `startReduce` leaves the messages where they are, or combines and sends them. -/
theorem startReduce_cases (hpos : ∀ st, s.state (n, σ) = some st → 0 < st.numContrib) :
    (startReduce E s n σ = s ∧ ∀ st, s.state (n, σ) = some st →
      st.msgs.length ≠ E.tree.numChildren n + st.numContrib) ∨
    ∃ st msg, s.state (n, σ) = some st ∧
      st.msgs.length = E.tree.numChildren n + st.numContrib ∧
      msgHandler (E.op st.combineHandler) st.msgs = some msg ∧
      startReduce E s n σ = sendOn E (eraseState s n σ) n st.reduceRoot msg := by
  rw [startReduce]
  cases hst : s.state (n, σ) with
  | none => exact Or.inl ⟨rfl, by simp⟩
  | some st =>
    by_cases hready : st.msgs.length = E.tree.numChildren n + st.numContrib
    · have hne : st.msgs ≠ [] := by
        intro hnil
        have hpos' := hpos st hst
        rw [hnil, length_nil] at hready
        omega
      obtain ⟨fst, rest, hmsgs⟩ := exists_cons_of_ne_nil hne
      have hmsg := congrArg (msgHandler (E.op st.combineHandler)) hmsgs
      refine Or.inr ⟨st, _, rfl, hready, hmsg, ?_⟩
      dsimp only
      rw [if_pos hready, hmsg]
      rfl
    · exact Or.inl ⟨if_neg hready, by simpa using hready⟩

/-- A node passes on the messages of a stamp. -/
theorem Inv.fire (hi : Inv E P s) (hst : s.state (n, σ) = some st)
    (hready : st.msgs.length = E.tree.numChildren n + st.numContrib) (hfits : P.Fits msg)
    (hstamp : msg.stamp = σ) : Inv E P (sendOn E (eraseState s n σ) n st.reduceRoot msg) := by
  obtain ⟨hall, hreceived⟩ := hi.ready hst hready
  have hzero : s.fired P σ n = 0 := fired_eq_zero.mpr (by simp [hst])
  generalize hs' : sendOn E (eraseState s n σ) n st.reduceRoot msg = s'
  obtain ⟨hstate, hcontributed, hhandled⟩ : s'.state = (eraseState s n σ).state ∧
      s'.contributed = s.contributed ∧ s'.handled = s.handled := hs' ▸ sendOn_frame ..
  have hframe : ∀ m τ, (m, τ) ≠ (n, σ) → s'.state (m, τ) = s.state (m, τ) := by
    intro m τ h
    rw [hstate, state_eraseState_of_ne h]
  have hself : s'.fired P σ n = 1 := by
    rw [fired_eq_one, hstate, hcontributed, state_eraseState]
    exact ⟨rfl, hall⟩
  have hother : ∀ m τ, (m, τ) ≠ (n, σ) → s'.fired P τ m = s.fired P τ m := by
    intro m τ h
    rw [fired, fired, hframe m τ h, hcontributed]
  have hfired : ∀ m τ, s'.fired P τ m = s.fired P τ m + if m = n ∧ σ = τ then 1 else 0 := by
    refine forall_pair n σ ?_ fun m τ h => ?_
    · rw [hself, hzero, if_pos ⟨rfl, rfl⟩]
    · have hoff : ¬ (m = n ∧ σ = τ) := fun heq => h (by rw [heq.1, heq.2])
      rw [hother m τ h, if_neg hoff, Nat.add_zero]
  have hreceived' : ∀ m τ, received E P s' τ m = received E P s τ m := by
    refine forall_pair n σ ?_ fun m τ h => ?_
    · rw [hreceived, received, if_pos hself]
    · rw [received, received, hother m τ h, kept, kept, hframe m τ h,
        hcontributed]
  constructor
  case fits =>
    intro m hm
    rw [← hs', (sent_sendOn ..).mem_iff] at hm
    rcases mem_cons.mp hm with rfl | hm
    · exact hfits
    · exact hi.fits m hm
  case dest =>
    rw [← hs']
    exact dest_sendOn _ _ _ _ _ hi.dest (by rw [(hi.keeps n σ st hst).root, hstamp])
  case most =>
    rw [hcontributed]
    exact hi.most
  case idle =>
    rw [hcontributed]
    refine forall_pair n σ (fun _ => Or.inr hself) fun m τ h => ?_
    rw [hother m τ h, hframe m τ h]
    exact hi.idle m τ
  case keeps =>
    rw [hcontributed]
    refine forall_pair n σ ?_ fun m τ h => ?_
    · simp [hstate, state_eraseState]
    · rw [hframe m τ h]
      exact hi.keeps m τ
  case children =>
    intro m τ
    have hsum : ∑ c ∈ E.tree.children m, (if c = n ∧ σ = τ then 1 else 0) =
        if (n ≠ E.tree.root ∧ E.tree.parent n = m) ∧ msg.stamp = τ then 1 else 0 := by
      rw [hstamp]
      by_cases h : σ = τ <;> simp [h]
    rw [hreceived', Finset.sum_congr rfl fun c _ => hfired c τ, Finset.sum_add_distrib,
      hi.children m τ, ← hs', upTo_sendOn, hsum]
    exact Nat.add_right_comm ..
  case root =>
    intro τ
    rw [hfired, ← hs', fromRoot_sendOn, hstamp, ← hi.root τ]
    simp only [eq_comm]
    rfl
  case bound =>
    intro τ
    have hsum : ∑ c, (if c = n ∧ σ = τ then 1 else 0) = if msg.stamp = τ then 1 else 0 := by
      rw [hstamp]
      by_cases h : σ = τ <;> simp [h]
    have hle : s'.inflight τ ≤ s.inflight τ + if msg.stamp = τ then 1 else 0 :=
      hs' ▸ inflight_sendOn ..
    have hbound := hi.bound τ
    rw [Finset.sum_congr rfl fun c _ => hfired c τ, Finset.sum_add_distrib, hsum, hhandled]
    omega

theorem startReduce_inv (hi : Inv E P s) (hw : ∀ m τ st, (m, τ) ≠ (n, σ) →
    s.state (m, τ) = some st → st.msgs.length ≠ E.tree.numChildren m + st.numContrib) :
    Inv E P (startReduce E s n σ) ∧ Waiting E (startReduce E s n σ) := by
  rcases startReduce_cases fun st hst => (hi.keeps n σ st hst).numContrib_pos with
    ⟨heq, hnot⟩ | ⟨st, msg, hst, hready, hmsg, heq⟩
  · rw [heq]
    exact ⟨hi, forall_pair n σ hnot fun m τ h st => hw m τ st h⟩
  · obtain ⟨hstamp, hfits⟩ := (hi.keeps n σ st hst).combined hmsg
    rw [heq]
    refine ⟨hi.fire hst hready hfits hstamp, ?_⟩
    rw [Waiting, (sendOn_frame ..).1]
    refine forall_pair n σ ?_ fun m τ h st' hst' => ?_
    · simp [state_eraseState]
    · rw [state_eraseState_of_ne h] at hst'
      exact hw m τ st' h hst'

theorem step_inv {a : ReduceAct N S α} (hi : Inv E P s ∧ Waiting E s) (h : s.step E P a = some s') :
    Inv E P s' ∧ Waiting E s' := by
  cases a with
  | contribute n σ x =>
    obtain ⟨hlt, rfl⟩ := of_guard h
    have hadd := hi.1.contribute ⟨σ, P.handler σ, P.root σ, x⟩ x hlt ⟨rfl, rfl⟩
    refine startReduce_inv hadd ?_
    intro m τ st hne hst
    rw [state_reduceAddMsg_of_ne hne] at hst
    exact hi.2 m τ st hst
  | up i =>
    obtain ⟨e, he, rfl⟩ := Option.map_eq_some_iff.mp h
    refine startReduce_inv (hi.1.receive he) ?_
    intro m τ st hne hst
    exact hi.2 m τ st (state_reduceAddMsg_of_ne hne ▸ hst)
  | toRoot i =>
    obtain ⟨e, he, rfl⟩ := Option.map_eq_some_iff.mp h
    exact ⟨hi.1.rootRecv he, hi.2⟩

theorem reaches_inv (h : s.Reaches E P) : Inv E P s ∧ Waiting E s :=
  Reach.invariant (fun _ heq => heq ▸ init_inv) (fun _ _ _ hi _ hs => step_inv hi hs) h

end Lemmas

/-! ## The values -/

section Values

variable {N R S H α : Type} [AddCommSemigroup α] [DecidableEq S] {σ : S}

/-- What a message counts for in the reduction of the stamp. -/
def weight (σ : S) (m : ReduceMsg R S H α) : WithZero α := if m.stamp = σ then m.val else 0

theorem sum_weight {msgs : List (ReduceMsg R S H α)} (h : ∀ m ∈ msgs, m.stamp = σ) :
    (msgs.map (weight σ)).sum = ((msgs.map (·.val)).map coe).sum := by
  have hw : ∀ m ∈ msgs, weight σ m = coe m.val := fun m hm => if_pos (h m hm)
  rw [map_congr_left hw, map_map]
  rfl

variable {E : Reduce N R H α} {P : Plan N R S H} {s : ReduceSys N R S H α} {n : N}

/-- The combined message counts for the messages that it is combined from. -/
theorem weight_combined (hop : E.op (P.handler σ) = (· + ·)) {st : ReduceState R S H α} {k : ℕ}
    {msg : ReduceMsg R S H α} (hkeeps : P.Keeps n σ k st)
    (hmsg : msgHandler (E.op st.combineHandler) st.msgs = some msg) :
    weight σ msg = (st.msgs.map (weight σ)).sum := by
  rw [sum_weight fun m hm => (hkeeps.msgs m hm).1, weight, if_pos (hkeeps.combined hmsg).1]
  cases hmsgs : st.msgs with
  | nil => simp [hmsgs, msgHandler] at hmsg
  | cons fst rest =>
    rw [hmsgs, hkeeps.handler, hop] at hmsg
    obtain rfl := Option.some.inj hmsg
    rw [coe_foldl_add]
    rfl

variable [Fintype N] [DecidableEq N]

/-- The contributions to a reduction are the values that the nodes keep and those that were sent. -/
def Conserved (σ : S) (s : ReduceSys N R S H α) : Prop :=
  ∑ n, ((s.contributed (n, σ)).map coe).sum =
    (s.sent.map (weight σ)).sum + ∑ n, ((s.kept n σ).map (weight σ)).sum

/-- The values that the nodes keep after a message is added to them. -/
theorem sum_kept_reduceAddMsg (s : ReduceSys N R S H α) (n : N) (msg : ReduceMsg R S H α)
    (isLocal : Bool) (num : Option ℕ) :
    ∑ m, (((reduceAddMsg s n msg isLocal num).kept m σ).map (weight σ)).sum =
      weight σ msg + ∑ m, ((s.kept m σ).map (weight σ)).sum := by
  refine sum_increase_at n ?_ ?_
  · intro m hm
    rw [kept_reduceAddMsg_of_ne fun h => hm (Prod.mk.inj h).1]
  · by_cases h : msg.stamp = σ
    · subst h
      rw [kept_reduceAddMsg, map_append, sum_append, map_singleton,
        sum_singleton, add_comm]
    · rw [kept_reduceAddMsg_of_ne fun heq => h (Prod.mk.inj heq).2.symm, weight, if_neg h, zero_add]

theorem conserved_contribute (h : Conserved σ s) (n : N) (msg : ReduceMsg R S H α)
    (num : Option ℕ) :
    Conserved σ (reduceAddMsg (s.record n msg.stamp msg.val) n msg true num) := by
  have hsum : ∑ m, (((s.record n msg.stamp msg.val).contributed (m, σ)).map coe).sum =
      weight σ msg + ∑ m, ((s.contributed (m, σ)).map coe).sum := by
    refine sum_increase_at n ?_ ?_
    · intro m hm
      rw [contributed_record_of_ne fun h => hm (Prod.mk.inj h).1]
    · by_cases h : msg.stamp = σ
      · subst h
        rw [contributed_record, map_append, sum_append, weight,
          if_pos rfl, map_singleton, sum_singleton, add_comm]
      · rw [contributed_record_of_ne fun heq => h (Prod.mk.inj heq).2.symm, weight, if_neg h,
          zero_add]
  refine hsum.trans ?_
  rw [sum_kept_reduceAddMsg, h]
  exact add_left_comm ..

theorem conserved_receive (h : Conserved σ s) {i : ℕ} {e : N × ReduceMsg R S H α}
    (he : s.up[i]? = some e) :
    Conserved σ (reduceAddMsg { s with up := s.up.eraseIdx i, handled := e.2.stamp :: s.handled }
      e.1 e.2 false none) := by
  rw [Conserved, sum_kept_reduceAddMsg]
  refine h.trans ?_
  simp only [sent, reduceAddMsg, map_append, sum_append]
  rw [(((perm_eraseIdx he).map (·.2)).map (weight σ)).sum_eq]
  simp only [map_cons, sum_cons]
  ac_rfl

variable [DecidableEq R]

theorem conserved_startReduce (hi : Inv E P s) (hop : E.op (P.handler σ) = (· + ·))
    (h : Conserved σ s) (n : N) (τ : S) : Conserved σ (startReduce E s n τ) := by
  rcases startReduce_cases fun st hst => (hi.keeps n τ st hst).numContrib_pos with
    ⟨heq, -⟩ | ⟨st, msg, hst, hready, hmsg, heq⟩
  · rwa [heq]
  · have hkeeps := hi.keeps n τ st hst
    have hsum : ∑ m, ((s.kept m σ).map (weight σ)).sum =
        weight σ msg + ∑ m, (((eraseState s n τ).kept m σ).map (weight σ)).sum := by
      refine sum_increase_at n ?_ ?_
      · intro m hm
        rw [kept_eraseState_of_ne fun h => hm (Prod.mk.inj h).1]
      · by_cases hτ : τ = σ
        · subst hτ
          rw [kept_eraseState, weight_combined hop hkeeps hmsg, kept, hst]
          simp
        · rw [kept_eraseState_of_ne fun h => hτ (Prod.mk.inj h).2.symm, weight,
            if_neg ((hkeeps.combined hmsg).1 ▸ hτ), zero_add]
    have hkept : ∀ m, (sendOn E (eraseState s n τ) n st.reduceRoot msg).kept m σ =
        (eraseState s n τ).kept m σ := by
      intro m
      rw [kept, (sendOn_frame ..).1, kept]
    rw [heq, Conserved, (sendOn_frame ..).2.1, ((sent_sendOn ..).map _).sum_eq, map_cons, sum_cons]
    simp only [hkept]
    refine h.trans ?_
    rw [hsum, add_left_comm, ← add_assoc]
    rfl

theorem reaches_conserved (hop : E.op (P.handler σ) = (· + ·)) (h : s.Reaches E P) :
    Conserved σ s := by
  refine Reach.invariant_of (fun _ => reaches_inv) ?_ ?_ h
  · rintro s rfl
    simp [Conserved, sent, kept]
  · intro s a s' hi hc _ hstep
    cases a with
    | contribute n τ x =>
      obtain ⟨hlt, rfl⟩ := of_guard hstep
      have hadd := hi.1.contribute ⟨τ, P.handler τ, P.root τ, x⟩ x hlt ⟨rfl, rfl⟩
      exact conserved_startReduce hadd hop (conserved_contribute hc n _ _) n τ
    | up i =>
      obtain ⟨e, he, rfl⟩ := Option.map_eq_some_iff.mp hstep
      exact conserved_startReduce (hi.1.receive he) hop (conserved_receive hc he) e.1 _
    | toRoot i =>
      obtain ⟨e, he, rfl⟩ := Option.map_eq_some_iff.mp hstep
      rw [Conserved, ((sent_reduceRootRecv he).map _).sum_eq]
      exact hc

end Values

/-! ## The root handler -/

variable {N R S H α : Type} [DecidableEq S] {E : Reduce N R H α} {P : Plan N R S H}
  {s : ReduceSys N R S H α} {σ : S}

theorem length_runs : (s.runs σ).length = s.rootRuns.countP (·.2.stamp = σ) :=
  countP_eq_length_filter.symm

variable [Fintype N] [DecidableEq N]

/-- When the root has sent its message, all nodes have. -/
theorem fired_all (hi : Inv E P s) (h : s.fired P σ E.tree.root = 1) (n : N) :
    s.fired P σ n = 1 := by
  refine E.tree.induction_down h ?_ n
  intro n hn hp
  exact (fired_children hi hp).2 n (E.tree.mem_children.mpr ⟨hn, rfl⟩)

/-- When all contributions are made and no message is in flight, all nodes have sent theirs. -/
theorem fired_of_quiet (hi : Inv E P s) (hw : Waiting E s) (hc : s.Complete P σ) (hq : s.Quiet σ)
    (n : N) : s.fired P σ n = 1 := by
  refine E.tree.induction_up ?_ n
  intro n hchildren
  by_contra hne
  have hle : s.fired P σ n ≤ 1 := fired_le
  have hzero : s.fired P σ n = 0 := by omega
  have hup : s.upTo σ n = 0 := by
    rw [upTo, countP_eq_zero]
    intro e he
    simp [hq.1 e he]
  -- the node has the messages of all its children, and all contributions
  have hsum := hi.children n σ
  rw [Finset.sum_congr rfl hchildren, ← Finset.card_eq_sum_ones, hup, received, hzero,
    if_neg Nat.zero_ne_one] at hsum
  cases hst : s.state (n, σ) with
  | none => exact fired_eq_zero.mp hzero hst (hc n)
  | some st =>
    have hkeeps := hi.keeps n σ st hst
    have hcontrib := hkeeps.contrib
    have hlen := hkeeps.length
    have hpos := P.numContrib_pos n σ
    rw [hc n] at hcontrib hlen hsum
    rw [if_neg hpos.ne'] at hcontrib
    have hready := hw n σ st hst
    rw [kept_eq hst] at hsum
    rw [numChildren] at hready
    omega

/-- The messages of other stamps count for nothing. -/
theorem sum_weight_filter [AddCommSemigroup α] (msgs : List (ReduceMsg R S H α)) :
    (msgs.map (weight σ)).sum = ((msgs.filter (·.stamp = σ)).map (weight σ)).sum := by
  induction msgs with
  | nil => rfl
  | cons m msgs ih =>
    by_cases h : m.stamp = σ
    · simp [h, ih]
    · simp [h, ih, weight]

omit [DecidableEq S] in
/-- The contributions in any order. -/
theorem sum_contributed [AddCommSemigroup α] {l : List α}
    (h : ∑ n, (s.contributed (n, σ) : Multiset α) = l) :
    ∑ n, ((s.contributed (n, σ)).map coe).sum = (l.map coe).sum := by
  have hsum : ∀ t : Finset N, ((∑ n ∈ t, (s.contributed (n, σ) : Multiset α)).map coe).sum =
      ∑ n ∈ t, ((s.contributed (n, σ)).map coe).sum := by
    intro t
    induction t using Finset.induction_on with
    | empty => simp
    | insert n t hn ih => simp [Finset.sum_insert hn, ih]
  rw [← hsum, h]
  simp

/-- When the root handler has run, its message is the only one left. -/
theorem sent_of_run (hi : Inv E P s) {r : R × ReduceMsg R S H α} (hr : r ∈ s.runs σ) :
    (∀ n, s.fired P σ n = 1) ∧ s.sent.filter (·.stamp = σ) = [r.2] := by
  have hroot := hi.root σ
  have hone : s.fired P σ E.tree.root ≤ 1 := fired_le
  have hpos : 0 < (s.runs σ).length := length_pos_of_mem hr
  rw [fromRoot, ← length_runs] at hroot
  have hall := fired_all hi (show s.fired P σ E.tree.root = 1 by omega)
  have hup : ∀ e ∈ s.up, e.2.stamp ≠ σ := by
    intro e he hstamp
    have hzero := (fired_children hi (hall e.1)).1
    rw [upTo, countP_eq_zero] at hzero
    exact hzero e he (by simp [hstamp])
  have hto : s.toRoot.countP (·.2.stamp = σ) = 0 := by omega
  have hruns : s.runs σ = [r] := by
    obtain ⟨r', hr'⟩ := length_eq_one_iff.mp (show (s.runs σ).length = 1 by omega)
    rw [hr', mem_singleton] at hr
    rw [hr', hr]
  refine ⟨hall, ?_⟩
  have hupFilter : (s.up.map (·.2)).filter (·.stamp = σ) = [] := by
    rw [filter_map, filter_eq_nil_iff.mpr (by simpa using hup)]
    rfl
  have htoFilter : (s.toRoot.map (·.2)).filter (·.stamp = σ) = [] := by
    rw [countP_eq_zero] at hto
    rw [filter_map, filter_eq_nil_iff.mpr (by simpa using hto)]
    rfl
  have hrunFilter : (s.rootRuns.map (·.2)).filter (·.stamp = σ) = [r.2] := by
    rw [filter_map]
    exact congrArg (List.map (·.2)) hruns
  rw [sent, filter_append, filter_append, hupFilter, htoFilter, hrunFilter]
  rfl

/-- In every state reached, the root handler of every stamp whose operator is associative and
commutative runs once, with the combination of all contributions. -/
theorem reduce_exactly_once [DecidableEq R] (h : s.Reaches E P) (σ : S)
    [Std.Associative (E.op (P.handler σ))] [Std.Commutative (E.op (P.handler σ))] :
    ReducesOnce E P s σ := by
  obtain ⟨hi, hw⟩ := reaches_inv h
  have hroot := hi.root σ
  have hone : s.fired P σ E.tree.root ≤ 1 := fired_le
  rw [fromRoot] at hroot
  constructor
  case once =>
    rw [length_runs]
    omega
  case combined =>
    intro r hr
    obtain ⟨hmem, hstamp⟩ := mem_filter.mp hr
    have hstamp : r.2.stamp = σ := of_decide_eq_true hstamp
    obtain ⟨hall, hsent⟩ := sent_of_run hi hr
    refine ⟨hstamp ▸ hi.dest r (mem_append_right _ hmem),
      fun n => (fired_eq_one.mp (hall n)).2, ?_⟩
    intro l hl
    let _ := addOf (E.op (P.handler σ))
    have hconserved : Conserved σ s := reaches_conserved rfl h
    have hkept : ∀ n, s.kept n σ = [] := by
      intro n
      rw [kept, (fired_eq_one.mp (hall n)).1]
      rfl
    rw [Conserved, sum_contributed hl, sum_weight_filter, hsent] at hconserved
    rw [← show combination (E.op (P.handler σ)) l = (l.map coe).sum from combination_add l]
      at hconserved
    rw [hconserved]
    simp [hkept, weight, hstamp]
    rfl
  case ends =>
    have hle : ∑ n, s.fired P σ n ≤ ∑ _n : N, 1 := Finset.sum_le_sum fun n _ => fired_le
    rw [← Finset.card_eq_sum_ones, Finset.card_univ] at hle
    have hbound := hi.bound σ
    omega
  case runs =>
    intro hc hq
    have hfired := fired_of_quiet hi hw hc hq E.tree.root
    have hnone : s.toRoot.countP (·.2.stamp = σ) = 0 := by
      rw [countP_eq_zero]
      intro e he
      simpa using hq.2 e he
    rw [length_runs]
    omega

theorem exists_reaches [DecidableEq R] (E : Reduce N R H α) (P : Plan N R S H)
    (as : List (ReduceAct N S α)) (Q : ReduceSys N R S H α → Prop) [DecidablePred Q]
    (h : (run (step E P) {} as).any (Q ·) = true) : ∃ s, s.Reaches E P ∧ Q s :=
  Reach.of_run _ as Q rfl h

/-- Two nodes contribute twice each to the reductions 7 and 8.  The message of node 1 for reduction
7 arrives before node 0 contributes to it, and the result goes to node 1. -/
theorem reduce_exactly_once_pair : ∃ s : ReduceSys (Fin 2) (Fin 2) ℕ Unit ℕ,
    s.Reaches ⟨star 0, id, fun _ => (· + ·)⟩
      ⟨fun _ => 1, fun _ => (), fun _ _ => 2, fun _ _ => Nat.two_pos⟩ ∧
    (s.runs 7).map (·.2.val) = [10] ∧
    ReducesOnce ⟨star 0, id, fun _ => (· + ·)⟩
      ⟨fun _ => 1, fun _ => (), fun _ _ => 2, fun _ _ => Nat.two_pos⟩ s 7 := by
  obtain ⟨s, hs, hp⟩ := exists_reaches
    ⟨star (0 : Fin 2), (id : Fin 2 → Fin 2), fun _ => (· + ·)⟩
    ⟨fun _ => 1, fun _ => (), fun _ _ => 2, fun _ _ => Nat.two_pos⟩
    [.contribute 1 7 1, .contribute 0 8 5, .contribute 1 7 2, .up 0, .contribute 0 7 3,
      .contribute 1 8 5, .contribute 0 7 4, .toRoot 0]
    (fun s => (s.runs 7).map (·.2.val) = [10]) (by decide +kernel)
  exact ⟨s, hs, hp, reduce_exactly_once hs 7⟩

end VtRuntime.Collective
