import VtRuntime.Lib.Lists
import VtRuntime.Lib.Run
import Mathlib.Data.Fintype.Basic

/-!
# Continuations of group operations

`GroupManagerT<T>` keeps the actions that are registered for an operation, and the messages that
are triggered for an operation before its first action is registered.  The messages that wait
are passed to the actions by `triggerWaitingContinuations`.  Both tables are static: all
operations and all groups under construction on a node share those of a message type.

An action is a piece of code that may call the same functions again, so the loops over messages
and actions are frames of a stack, and other calls may be made between two actions.  In C++ it is
undefined to change a vector while a loop runs over it; the loops here run over the elements they
began with, and `Orderly` excludes such calls.
-/

namespace VtRuntime.Group

open Lib List Function

/-- A message that was triggered.  Its number is a book. -/
structure Trigger (T : Type) where
  number : ℕ
  msg : T

/-- A loop of `triggerWaitingContinuations`, or of `triggerContinuationT`, with the calls it has
yet to make. -/
structure Frame (Op A T : Type) where
  op : Op
  drains : Bool
  todo : List (A × Trigger T)

/-- The static members of `GroupManagerT<T>`, and the loops that run, the innermost first.  An
operation without an entry has an empty list.  The other fields are books: the number of
messages triggered, those triggered before an action was registered, the actions that a message
has to be passed to since its loop began, and the calls made. -/
structure GroupManagerT (Op A T : Type) where
  continuationActions : Op → List A := fun _ => []
  waitingCont : Op → List (Trigger T) := fun _ => []
  frames : List (Frame Op A T) := []
  triggered : ℕ := 0
  early : List (ℕ × Op) := []
  due : ℕ → List A := fun _ => []
  passed : List (A × ℕ) := []

inductive ContAct (Op A T : Type)
  | register (op : Op) (action : A)
  | trigger (op : Op) (msg : T)
  | triggerWaiting (op : Op)
  | runAction
  | endLoop

namespace GroupManagerT

variable {Op A T : Type} [DecidableEq Op]

/-- The calls that pass every message to every action. -/
def calls (msgs : List (Trigger T)) (actions : List A) : List (A × Trigger T) :=
  msgs.flatMap fun m => actions.map fun a => (a, m)

variable (s : GroupManagerT Op A T)

variable (op : Op)

def registerContinuationT (action : A) : GroupManagerT Op A T :=
  { s with continuationActions :=
      Function.update s.continuationActions op (s.continuationActions op ++ [action]) }

def triggerWaitingContinuations : GroupManagerT Op A T :=
  let actions := s.continuationActions op
  let msgs := s.waitingCont op
  if !actions.isEmpty && !msgs.isEmpty then
    { s with
      frames := ⟨op, true, calls msgs actions⟩ :: s.frames
      due := fun k => if k ∈ msgs.map (·.number) then actions else s.due k }
  else s

def triggerContinuationT (msg : T) : GroupManagerT Op A T :=
  let actions := s.continuationActions op
  let m : Trigger T := ⟨s.triggered, msg⟩
  if !actions.isEmpty then
    { s with
      triggered := s.triggered + 1
      frames := ⟨op, false, calls [m] actions⟩ :: s.frames
      due := Function.update s.due s.triggered actions }
  else
    { s with
      triggered := s.triggered + 1
      waitingCont := Function.update s.waitingCont op (s.waitingCont op ++ [m])
      early := s.early ++ [(s.triggered, op)] }

/-- The innermost loop makes its next call. -/
def runAction : Option (GroupManagerT Op A T) :=
  match s.frames with
  | ⟨op, drains, (a, m) :: todo⟩ :: fs =>
      some { s with
        frames := ⟨op, drains, todo⟩ :: fs
        passed := s.passed ++ [(a, m.number)] }
  | _ => none

/-- The innermost loop is over.  The loop over the waiting messages is followed by
`waiting_cont_.clear()`. -/
def endLoop : Option (GroupManagerT Op A T) :=
  match s.frames with
  | ⟨_, true, []⟩ :: fs => some { s with frames := fs, waitingCont := fun _ => [] }
  | ⟨_, false, []⟩ :: fs => some { s with frames := fs }
  | _ => none

def step : ContAct Op A T → Option (GroupManagerT Op A T)
  | .register op action => some (s.registerContinuationT op action)
  | .trigger op msg => some (s.triggerContinuationT op msg)
  | .triggerWaiting op => some (s.triggerWaitingContinuations op)
  | .runAction => s.runAction
  | .endLoop => s.endLoop

def init : Prop := s = {}

/-! ## The condition -/

/-- No action is registered for an operation whose actions are being run, the messages of an
operation are not passed to its actions from within the loop that does so, and the buffer is
cleared only while no other operation has messages in it. -/
def Orderly : ContAct Op A T → Prop
  | .register op _ => ∀ f ∈ s.frames, f.op ≠ op
  | .triggerWaiting op => ∀ f ∈ s.frames, f.drains = true → f.op ≠ op
  | .endLoop => ∀ f ∈ s.frames.head?, f.drains = true →
      ∀ op, op ≠ f.op → (s.waitingCont op).isEmpty = true
  | _ => True

instance [Fintype Op] (s : GroupManagerT Op A T) : (a : ContAct Op A T) → Decidable (Orderly s a)
  | .register .. => inferInstanceAs (Decidable (∀ f ∈ s.frames, _ ≠ _))
  | .triggerWaiting _ => inferInstanceAs (Decidable (∀ f ∈ s.frames, _ → _ ≠ _))
  | .endLoop => inferInstanceAs (Decidable (∀ f ∈ s.frames.head?, _ → ∀ _, _ ≠ _ → _))
  | .trigger _ _ | .runAction => isTrue trivial

/-! ## The invariant -/

/-- The actions that a message was passed to, and those it will be passed to by a loop. -/
def passedTo (k : ℕ) : List A :=
  (s.passed.filter (·.2 = k)).map (·.1)

def todoIn (todo : List (A × Trigger T)) (k : ℕ) : List A :=
  (todo.filter (·.2.number = k)).map (·.1)

def todoOf (fs : List (Frame Op A T)) (k : ℕ) : List A :=
  fs.flatMap fun f => todoIn f.todo k

/-- A loop that passes the waiting messages of the operation to its actions is running. -/
def Draining : Prop :=
  ∃ f ∈ s.frames, f.drains = true ∧ f.op = op

end GroupManagerT

structure ContInv {Op A T : Type} [DecidableEq Op] (s : GroupManagerT Op A T) : Prop where
  fresh : ∀ p ∈ s.early, p.1 < s.triggered
  distinct : (s.early.map (·.1)).Nodup
  unborn : ∀ k, s.triggered ≤ k → s.due k = []
  buffered : ∀ op, ∀ m ∈ s.waitingCont op, (m.number, op) ∈ s.early
  once : ∀ op, ((s.waitingCont op).map (·.number)).Nodup
  kept : ∀ p ∈ s.early, p.1 ∈ (s.waitingCont p.2).map (·.number) ∨ s.due p.1 ≠ []
  untouched : ∀ op, ¬ s.Draining op → ∀ m ∈ s.waitingCont op, s.due m.number = []
  drained : ∀ f ∈ s.frames, f.drains = true →
    (∀ m ∈ s.waitingCont f.op, s.due m.number ≠ []) ∧ s.continuationActions f.op ≠ [] ∧
      ∀ x ∈ f.todo, x.2 ∈ s.waitingCont f.op
  direct : ∀ f ∈ s.frames, f.drains = false → ∀ x ∈ f.todo, x.2.number < s.triggered ∧
    ∀ p ∈ s.early, p.1 ≠ x.2.number
  apart : s.frames.Pairwise fun f g => f.drains = true → g.drains = true → f.op ≠ g.op
  account : ∀ k, s.passedTo k ++ GroupManagerT.todoOf s.frames k = s.due k
  owed : ∀ p ∈ s.early, s.due p.1 <+: s.continuationActions p.2

namespace GroupManagerT

variable {Op A T : Type} [DecidableEq Op] {s s' : GroupManagerT Op A T}

omit [DecidableEq Op] in
@[simp] theorem todoOf_cons (f : Frame Op A T) (fs : List (Frame Op A T)) (k : ℕ) :
    todoOf (f :: fs) k = todoIn f.todo k ++ todoOf fs k :=
  flatMap_cons

theorem todoIn_calls_cons (m : Trigger T) (msgs : List (Trigger T)) (actions : List A) (k : ℕ) :
    todoIn (calls (m :: msgs) actions) k =
      (if m.number = k then actions else []) ++ todoIn (calls msgs actions) k := by
  by_cases h : m.number = k <;> simp [todoIn, calls, h, filter_map, comp_def]

variable {msgs : List (Trigger T)} {k : ℕ} {op : Op}

theorem todoIn_calls_of_notMem (actions : List A) (h : k ∉ msgs.map (·.number)) :
    todoIn (calls msgs actions) k = [] := by
  induction msgs with
  | nil => rfl
  | cons m msgs ih =>
    rw [map_cons, mem_cons, not_or] at h
    rw [todoIn_calls_cons, if_neg (Ne.symm h.1), ih h.2, append_nil]

theorem todoIn_calls_of_mem (actions : List A) (hnodup : (msgs.map (·.number)).Nodup)
    (h : k ∈ msgs.map (·.number)) : todoIn (calls msgs actions) k = actions := by
  induction msgs with
  | nil => simp at h
  | cons m msgs ih =>
    rw [map_cons, nodup_cons] at hnodup
    rw [todoIn_calls_cons]
    by_cases heq : m.number = k
    · rw [if_pos heq, todoIn_calls_of_notMem actions (heq ▸ hnodup.1), append_nil]
    · rw [map_cons, mem_cons] at h
      rw [if_neg heq, nil_append, ih hnodup.2 (h.resolve_left (Ne.symm heq))]

theorem mem_calls {actions : List A} {x : A × Trigger T} (h : x ∈ calls msgs actions) :
    x.2 ∈ msgs := by
  obtain ⟨m, hm, hx⟩ := mem_flatMap.mp h
  obtain ⟨a, -, rfl⟩ := mem_map.mp hx
  exact hm

theorem init_inv (h : init s) : ContInv s := by
  obtain rfl : s = {} := h
  constructor <;> simp [passedTo, todoOf]

/-- What a message that is in no loop was passed to. -/
theorem passedTo_eq (hi : ContInv s) (h : todoOf s.frames k = []) : s.passedTo k = s.due k := by
  rw [← hi.account k, h, append_nil]

/-- A message was triggered for one operation. -/
theorem op_unique (hi : ContInv s) {op' : Op} (h : (k, op) ∈ s.early) (h' : (k, op') ∈ s.early) :
    op = op' :=
  congrArg Prod.snd (inj_on_of_nodup_map hi.distinct h h' rfl)

theorem register_inv {action : A} (hi : ContInv s) :
    ContInv (s.registerContinuationT op action) := by
  have hmore : ∀ op', s.continuationActions op' <+:
      (s.registerContinuationT op action).continuationActions op' := by
    intro op'
    by_cases heq : op' = op
    · simp [registerContinuationT, heq]
    · simp [registerContinuationT, update_of_ne heq]
  refine { hi with drained := ?_, owed := fun p hp => (hi.owed p hp).trans (hmore p.2) }
  intro f hf hdrains
  obtain ⟨hdue, hne, htodo⟩ := hi.drained f hf hdrains
  exact ⟨hdue, fun hnil => hne (prefix_nil.mp (hnil ▸ hmore f.op)), htodo⟩

/-- A loop begins, over messages that were passed to no action: all those that wait for the
operation, or one that did not have to wait. -/
theorem begin_inv {drains : Bool} {t : ℕ} (hi : ContInv s) (hact : s.continuationActions op ≠ [])
    (ht : s.triggered ≤ t) (hborn : ∀ m ∈ msgs, m.number < t)
    (hdue : ∀ m ∈ msgs, s.due m.number = []) (hnodup : (msgs.map (·.number)).Nodup)
    (hearly : ∀ p ∈ s.early, p.1 ∈ msgs.map (·.number) → drains = true ∧ p.2 = op)
    (hdrains : drains = true → s.waitingCont op = msgs ∧ ¬ s.Draining op) :
    ContInv { s with
      triggered := t
      frames := ⟨op, drains, calls msgs (s.continuationActions op)⟩ :: s.frames
      due := fun k => if k ∈ msgs.map (·.number) then s.continuationActions op else s.due k } := by
  have hmore : ∀ k, s.due k ≠ [] →
      (if k ∈ msgs.map (·.number) then s.continuationActions op else s.due k) ≠ [] := by
    intro k hk
    split
    · exact hact
    · exact hk
  refine { hi with
    fresh := fun p hp => (hi.fresh p hp).trans_le ht
    kept := fun p hp => (hi.kept p hp).imp_right (hmore p.1)
    unborn := ?unborn, untouched := ?untouched, drained := ?drained, direct := ?direct
    apart := ?apart, account := ?account, owed := ?owed }
  case unborn =>
    intro k hk
    have hnot : k ∉ msgs.map (·.number) := by
      intro hmem
      obtain ⟨m, hm, rfl⟩ := mem_map.mp hmem
      exact absurd (hborn m hm) (Nat.not_lt.mpr hk)
    dsimp only
    rw [if_neg hnot, hi.unborn k (ht.trans hk)]
  case untouched =>
    intro op' hidle m hm
    have hnot : m.number ∉ msgs.map (·.number) := by
      intro hmem
      obtain ⟨hd, heq⟩ := hearly _ (hi.buffered op' m hm) hmem
      exact hidle ⟨_, mem_cons_self, hd, heq.symm⟩
    dsimp only
    rw [if_neg hnot]
    refine hi.untouched op' ?_ m hm
    rintro ⟨f, hf, hd, heq⟩
    exact hidle ⟨f, mem_cons_of_mem _ hf, hd, heq⟩
  case drained =>
    intro f hf hd
    rcases mem_cons.mp hf with rfl | hf
    · obtain ⟨rfl, -⟩ := hdrains hd
      refine ⟨?_, hact, fun x hx => mem_calls hx⟩
      intro m hm
      dsimp only
      rw [if_pos (mem_map_of_mem hm)]
      exact hact
    · obtain ⟨hdue, hne, htodo⟩ := hi.drained f hf hd
      exact ⟨fun m hm => hmore m.number (hdue m hm), hne, htodo⟩
  case direct =>
    intro f hf hdirect x hx
    rcases mem_cons.mp hf with rfl | hf
    · have hmem := mem_calls hx
      refine ⟨hborn _ hmem, ?_⟩
      intro p hp heq
      have hd := (hearly p hp (heq ▸ mem_map_of_mem hmem)).1
      exact absurd (hdirect.symm.trans hd) Bool.false_ne_true
    · exact (hi.direct f hf hdirect x hx).imp_left fun h => h.trans_le ht
  case apart =>
    refine pairwise_cons.mpr ⟨?_, hi.apart⟩
    intro f hf hd hd' heq
    exact (hdrains hd).2 ⟨f, hf, hd', heq.symm⟩
  case account =>
    intro k
    have hold := hi.account k
    change s.passedTo k ++ todoOf _ k = _
    dsimp only
    rw [todoOf_cons]
    split
    case isTrue hmem =>
      obtain ⟨m, hm, rfl⟩ := mem_map.mp hmem
      rw [hdue m hm, append_eq_nil_iff] at hold
      rw [todoIn_calls_of_mem _ hnodup hmem, hold.1, hold.2, append_nil, nil_append]
    case isFalse hmem => rw [todoIn_calls_of_notMem _ hmem, nil_append, hold]
  case owed =>
    intro p hp
    dsimp only
    split
    case isTrue hmem => rw [(hearly p hp hmem).2]
    case isFalse => exact hi.owed p hp

theorem triggerWaiting_inv (hi : ContInv s) (hok : ∀ f ∈ s.frames, f.drains = true → f.op ≠ op) :
    ContInv (s.triggerWaitingContinuations op) := by
  rw [triggerWaitingContinuations]
  split
  case isFalse => exact hi
  case isTrue hne =>
    simp only [Bool.and_eq_true, Bool.not_eq_true', isEmpty_eq_false_iff] at hne
    have hidle : ¬ s.Draining op := fun ⟨f, hf, hdrains, heq⟩ => hok f hf hdrains heq
    have hearly : ∀ m ∈ s.waitingCont op, (m.number, op) ∈ s.early := hi.buffered op
    refine begin_inv hi hne.1 le_rfl (fun m hm => hi.fresh _ (hearly m hm))
      (hi.untouched op hidle) (hi.once op) ?_ fun _ => ⟨rfl, hidle⟩
    intro p hp hmem
    obtain ⟨m, hm, heq⟩ := mem_map.mp hmem
    exact ⟨rfl, op_unique hi hp (heq ▸ hearly m hm)⟩

theorem trigger_inv {msg : T} (hi : ContInv s) : ContInv (s.triggerContinuationT op msg) := by
  have hlt : ∀ p ∈ s.early, p.1 ≠ s.triggered := fun p hp => (hi.fresh p hp).ne
  rw [triggerContinuationT]
  split
  case isTrue hne =>
    simp only [Bool.not_eq_true', isEmpty_eq_false_iff] at hne
    have hdue : Function.update s.due s.triggered (s.continuationActions op) =
        fun k => if k ∈ [s.triggered] then s.continuationActions op else s.due k := by
      funext k
      simp [update_apply]
    rw [hdue]
    exact begin_inv hi hne (Nat.le_succ _) (by simp) (by simpa using hi.unborn _ le_rfl) (by simp)
      (by simpa using fun k op' hp heq => absurd heq (hlt (k, op') hp)) (by simp)
  case isFalse hne =>
    simp only [Bool.not_eq_true', Bool.not_eq_false, List.isEmpty_iff] at hne
    have hmem : ∀ op' m, m ∈ Function.update s.waitingCont op
        (s.waitingCont op ++ [⟨s.triggered, msg⟩]) op' ↔ m ∈ s.waitingCont op' ∨
          op' = op ∧ m = ⟨s.triggered, msg⟩ := by
      intro op' m
      by_cases heq : op' = op
      · simp [heq]
      · simp [heq, update_of_ne]
    -- the operation has no action, so its messages are in no loop
    have hidle : ∀ f ∈ s.frames, f.drains = true → f.op ≠ op := by
      rintro f hf hdrains rfl
      exact (hi.drained f hf hdrains).2.1 hne
    refine { hi with
      unborn := fun k hk => hi.unborn k (Nat.le_of_succ_le hk)
      fresh := ?fresh, distinct := ?distinct, buffered := ?buffered, once := ?once, kept := ?kept
      untouched := ?untouched, drained := ?drained, direct := ?direct, owed := ?owed }
    case fresh =>
      exact forall_mem_concat (fun p hp => (hi.fresh p hp).trans (Nat.lt_succ_self _))
        (Nat.lt_succ_self _)
    case distinct => exact nodup_map_concat hi.distinct hlt
    case buffered =>
      intro op' m hm
      rcases (hmem op' m).mp hm with hm | ⟨rfl, rfl⟩
      · exact mem_append_left _ (hi.buffered op' m hm)
      · exact mem_append_right _ mem_cons_self
    case once =>
      intro op'
      by_cases heq : op' = op
      · subst heq
        dsimp only
        rw [update_self]
        exact nodup_map_concat (hi.once op') fun m hm => hlt _ (hi.buffered op' m hm)
      · dsimp only
        rw [update_of_ne heq]
        exact hi.once op'
    case kept =>
      refine forall_mem_concat (fun p hp => (hi.kept p hp).imp_left fun h => ?_) (by simp)
      obtain ⟨m, hm, heq⟩ := mem_map.mp h
      exact mem_map.mpr ⟨m, (hmem _ m).mpr (Or.inl hm), heq⟩
    case untouched =>
      intro op' hidle' m hm
      rcases (hmem op' m).mp hm with hm | ⟨-, rfl⟩
      · exact hi.untouched op' hidle' m hm
      · exact hi.unborn _ le_rfl
    case drained =>
      intro f hf hdrains
      obtain ⟨h, hact, htodo⟩ := hi.drained f hf hdrains
      refine ⟨?_, hact, fun x hx => (hmem _ _).mpr (Or.inl (htodo x hx))⟩
      intro m hm
      rcases (hmem f.op m).mp hm with hm | ⟨heq, -⟩
      · exact h m hm
      · exact absurd heq (hidle f hf hdrains)
    case direct =>
      intro f hf hdirect x hx
      obtain ⟨hborn, hnot⟩ := hi.direct f hf hdirect x hx
      exact ⟨Nat.lt_succ_of_lt hborn, forall_mem_concat hnot hborn.ne'⟩
    case owed =>
      refine forall_mem_concat hi.owed ?_
      dsimp only
      rw [hi.unborn _ le_rfl]
      exact nil_prefix

theorem runAction_inv (hi : ContInv s) (h : s.runAction = some s') : ContInv s' := by
  rw [runAction] at h
  split at h
  case h_2 => simp at h
  case h_1 op drains a m todo fs hframes =>
    obtain rfl := Option.some.inj h
    have hmem : ∀ f ∈ (⟨op, drains, todo⟩ :: fs : List (Frame Op A T)), ∃ g ∈ s.frames,
        g.op = f.op ∧ g.drains = f.drains ∧ ∀ x ∈ f.todo, x ∈ g.todo := by
      rw [hframes]
      exact forall_mem_cons.mpr ⟨⟨_, mem_cons_self, rfl, rfl, fun x hx => mem_cons_of_mem _ hx⟩,
        fun f hf => ⟨f, mem_cons_of_mem _ hf, rfl, rfl, fun x hx => hx⟩⟩
    refine { hi with
      untouched := ?untouched, drained := ?drained, direct := ?direct, apart := ?apart
      account := ?account }
    case untouched =>
      intro op' hidle
      refine hi.untouched op' ?_
      rintro ⟨f, hf, hdrains, heq⟩
      rw [hframes] at hf
      rcases mem_cons.mp hf with rfl | hf
      · exact hidle ⟨_, mem_cons_self, hdrains, heq⟩
      · exact hidle ⟨f, mem_cons_of_mem _ hf, hdrains, heq⟩
    case drained =>
      intro f hf hdrains
      obtain ⟨g, hg, hop, hkind, htodo⟩ := hmem f hf
      obtain ⟨hdue, hact, hwait⟩ := hi.drained g hg (hkind.trans hdrains)
      rw [hop] at hdue hact hwait
      exact ⟨hdue, hact, fun x hx => hwait x (htodo x hx)⟩
    case direct =>
      intro f hf hdirect x hx
      obtain ⟨g, hg, -, hkind, htodo⟩ := hmem f hf
      exact hi.direct g hg (hkind.trans hdirect) x (htodo x hx)
    case apart =>
      have hapart := hi.apart
      rw [hframes] at hapart
      exact pairwise_cons.mpr (pairwise_cons.mp hapart)
    case account =>
      -- the call is moved from the loop to the calls made
      intro k
      rw [← hi.account k, hframes]
      by_cases hk : m.number = k <;> simp [passedTo, todoIn, hk]

theorem endLoop_inv (hi : ContInv s) (hok : Orderly s .endLoop) (h : s.endLoop = some s') :
    ContInv s' := by
  rw [endLoop] at h
  split at h
  case h_3 => simp at h
  case h_1 op fs hframes =>
    obtain rfl := Option.some.inj h
    have hothers : ∀ op', op' ≠ op → s.waitingCont op' = [] := by
      intro op' hne
      exact List.isEmpty_iff.mp (hok ⟨op, true, []⟩ (by rw [hframes]; rfl) rfl op' hne)
    have hdrained := hi.drained
    have hdirect := hi.direct
    have hapart := hi.apart
    have haccount := hi.account
    rw [hframes] at hdrained hdirect hapart haccount
    rw [pairwise_cons] at hapart
    refine { hi with
      buffered := by simp, once := by simp, untouched := by simp, apart := hapart.2
      account := haccount, direct := fun f hf => hdirect f (mem_cons_of_mem _ hf)
      kept := ?kept, drained := ?drained }
    case kept =>
      -- the messages that were in the buffer were those of this loop
      intro p hp
      refine Or.inr ((hi.kept p hp).elim ?_ id)
      intro hwait
      obtain ⟨m, hm, heq⟩ := mem_map.mp hwait
      have hop : p.2 = op := by
        by_contra hne
        rw [hothers p.2 hne] at hm
        simp at hm
      rw [hop] at hm
      rw [← heq]
      exact (hdrained _ mem_cons_self rfl).1 m hm
    case drained =>
      intro f hf hdrains
      obtain ⟨-, hact, htodo⟩ := hdrained f (mem_cons_of_mem _ hf) hdrains
      rw [hothers f.op (hapart.1 f hf rfl hdrains).symm] at htodo
      exact ⟨by simp, hact, htodo⟩
  case h_2 op fs hframes =>
    obtain rfl := Option.some.inj h
    have hsub : ∀ f ∈ fs, f ∈ s.frames := by
      rw [hframes]
      exact fun f hf => mem_cons_of_mem _ hf
    have hapart := hi.apart
    have haccount := hi.account
    rw [hframes] at hapart haccount
    refine { hi with
      drained := fun f hf => hi.drained f (hsub f hf), direct := fun f hf => hi.direct f (hsub f hf)
      apart := (pairwise_cons.mp hapart).2, account := haccount, untouched := ?_ }
    intro op' hidle
    refine hi.untouched op' ?_
    rintro ⟨f, hf, hdrains, heq⟩
    rw [hframes] at hf
    rcases mem_cons.mp hf with rfl | hf
    · simp at hdrains
    · exact hidle ⟨f, hf, hdrains, heq⟩

theorem step_inv {a : ContAct Op A T} (hi : ContInv s) (hok : Orderly s a)
    (h : step s a = some s') : ContInv s' := by
  cases a with
  | register op action =>
    obtain rfl := Option.some.inj h
    exact register_inv hi
  | trigger op msg =>
    obtain rfl := Option.some.inj h
    exact trigger_inv hi
  | triggerWaiting op =>
    obtain rfl := Option.some.inj h
    exact triggerWaiting_inv hi hok
  | runAction => exact runAction_inv hi h
  | endLoop => exact endLoop_inv hi hok h

/-! ## No message is lost -/

/-- How often a message is in the buffer of an operation. -/
def buffered (s : GroupManagerT Op A T) (k : ℕ) (op : Op) : ℕ :=
  ((s.waitingCont op).map (·.number)).count k

/-- A message that is in the buffer of its operation and of no other, and was passed to no action
unless the loop that does so runs. -/
def Waits (s : GroupManagerT Op A T) (k : ℕ) (op : Op) : Prop :=
  (∀ op', s.buffered k op' = if op' = op then 1 else 0) ∧
    (¬ s.Draining op → s.passedTo k = []) ∧
    (s.Draining op → s.due k ≠ [] ∧ s.passedTo k ++ todoOf s.frames k = s.due k)

/-- A message that was passed, once and in their order, to the actions registered when
`triggerWaitingContinuations` was called, and is in no buffer. -/
def Handed (s : GroupManagerT Op A T) (k : ℕ) : Prop :=
  (∀ op, s.buffered k op = 0) ∧ s.due k ≠ [] ∧ s.passedTo k = s.due k

/-- A message that is not in the buffer of its operation is in no other, and in no loop. -/
theorem gone (hi : ContInv s) (h : (k, op) ∈ s.early)
    (hnot : k ∉ (s.waitingCont op).map (·.number)) :
    (∀ op', k ∉ (s.waitingCont op').map (·.number)) ∧ todoOf s.frames k = [] := by
  have hall : ∀ op', k ∉ (s.waitingCont op').map (·.number) := by
    intro op' hmem
    obtain ⟨m, hm, heq⟩ := mem_map.mp hmem
    obtain rfl := op_unique hi h (heq ▸ hi.buffered op' m hm)
    exact hnot hmem
  refine ⟨hall, flatMap_eq_nil_iff.mpr ?_⟩
  intro f hf
  have hnone : f.todo.filter (·.2.number = k) = [] := by
    rw [filter_eq_nil_iff]
    intro x hx heq
    rw [decide_eq_true_eq] at heq
    cases hdrains : f.drains with
    | true => exact hall f.op (heq ▸ mem_map_of_mem ((hi.drained f hf hdrains).2.2 x hx))
    | false => exact (hi.direct f hf hdrains x hx).2 _ h heq.symm
  rw [todoIn, hnone, map_nil]

theorem waits_or_handed (hi : ContInv s) (h : (k, op) ∈ s.early) : s.Waits k op ∨ s.Handed k := by
  by_cases hmem : k ∈ (s.waitingCont op).map (·.number)
  · refine Or.inl ⟨?_, ?_, ?_⟩
    · intro op'
      split
      case isTrue heq =>
        rw [heq]
        exact count_eq_one_of_mem (hi.once op) hmem
      case isFalse hne =>
        refine count_eq_zero.mpr ?_
        intro hmem'
        obtain ⟨m, hm, heq⟩ := mem_map.mp hmem'
        exact hne (op_unique hi (heq ▸ hi.buffered op' m hm) h)
    · intro hidle
      obtain ⟨m, hm, rfl⟩ := mem_map.mp hmem
      have hold := hi.account m.number
      rw [hi.untouched op hidle m hm, append_eq_nil_iff] at hold
      exact hold.1
    · rintro ⟨f, hf, hdrains, rfl⟩
      obtain ⟨m, hm, rfl⟩ := mem_map.mp hmem
      exact ⟨(hi.drained f hf hdrains).1 m hm, hi.account m.number⟩
  · obtain ⟨hall, htodo⟩ := gone hi h hmem
    refine Or.inr ⟨fun op' => count_eq_zero.mpr (hall op'), ?_, ?_⟩
    · exact (hi.kept _ h).resolve_left hmem
    · exact passedTo_eq hi htodo

/-- In every run whose steps meet the condition, every message triggered before an action of its
operation was registered waits in the buffer until it is handed to the actions of its operation,
each of which gets it once. -/
theorem continuation_once (h : Reach init step Orderly s) :
    ∀ p ∈ s.early, s.due p.1 <+: s.continuationActions p.2 ∧ (s.Waits p.1 p.2 ∨ s.Handed p.1) := by
  have hi : ContInv s := h.invariant (fun _ => init_inv) fun _ _ _ => step_inv
  intro p hp
  exact ⟨hi.owed p hp, waits_or_handed hi hp⟩

/-- Two messages for an operation wait for its two actions. -/
def drainOne (op : Op) (x y : A) (t : T) : List (ContAct Op A T) :=
  [.trigger op t, .trigger op t, .register op x, .register op y, .triggerWaiting op, .runAction,
    .runAction, .runAction, .runAction, .endLoop]

theorem continuation_once_drained :
    ∃ s : GroupManagerT (Fin 2) (Fin 2) Unit, Reach init step Orderly s ∧
      (0, (1 : Fin 2)) ∈ s.early ∧ s.passedTo 0 = [0, 1] ∧ (s.Waits 0 1 ∨ s.Handed 0) := by
  obtain ⟨s, hs, hearly, hpassed⟩ := Reach.of_guarded_run Orderly step
    (drainOne (1 : Fin 2) (0 : Fin 2) 1 ())
    (fun s => (0, (1 : Fin 2)) ∈ s.early ∧ s.passedTo 0 = [0, 1]) (show init {} from rfl)
    (by decide +kernel)
  exact ⟨s, hs, hearly, hpassed, (continuation_once hs _ hearly).2⟩

/-- Two operations have a message in the buffer when the message of the first one is handed to
its action. -/
def drainFirst (op op' : Op) (x : A) (t : T) : List (ContAct Op A T) :=
  [.trigger op t, .trigger op' t, .register op x, .triggerWaiting op, .runAction, .endLoop,
    .register op' x, .triggerWaiting op']

/-- The message of the other operation is lost: it is in no buffer and was passed to no action. -/
theorem continuation_cleared :
    ∃ s : GroupManagerT (Fin 2) (Fin 2) Unit, Reach init step anyStep s ∧
      (1, (1 : Fin 2)) ∈ s.early ∧ ¬ (s.Waits 1 1 ∨ s.Handed 1) := by
  obtain ⟨s, hs, hearly, hbuffered, hpassed⟩ := Reach.of_run step
    (drainFirst (0 : Fin 2) 1 (0 : Fin 2) ())
    (fun s => (1, (1 : Fin 2)) ∈ s.early ∧ s.buffered 1 1 = 0 ∧ s.passedTo 1 = [])
    (show init {} from rfl) (by decide +kernel)
  refine ⟨s, hs, hearly, ?_⟩
  rintro (hwaits | ⟨-, hdue, heq⟩)
  · exact absurd (hwaits.1 1) (by simp [hbuffered])
  · exact hdue (heq ▸ hpassed)

end GroupManagerT
end VtRuntime.Group
