import VtRuntime.Lib.Run
import VtRuntime.Epoch.Layout
import Mathlib.Algebra.Order.Group.Multiset
import Mathlib.Tactic.Abel

/-!
# Actions registered on epochs

`termination/term_action.cc` on one node.  An action registered on an epoch is stored in
the bucket of that epoch and of the epoch current at the registration, which encapsulates
it and gets one unit.  When the epoch terminates, or at once if it is over already, a
runnable is queued for each bucket of the epoch.  The runnable runs the actions of its
bucket and then erases the bucket.

An action is a piece of code, and what matters about it are the registrations it makes
itself, and that it may run the scheduler; `body` says which.  An action runs with the
encapsulating epoch as current epoch, so a registration it makes there goes to the bucket
that is being run.

Whether an epoch is over is asked of the window of the node.  A window has all epochs marked
as terminated until the node activates them, and a node need not hear of an epoch that begins
elsewhere.
-/

namespace VtRuntime.Termination

open Lib Epoch Function List

/-- Which call registers an action, `addAction` or `addActionUnique`; each has a container of
its own. -/
inductive ActionKind
  | plain
  | unique
deriving DecidableEq

/-- A registration: the call, its epoch, the current epoch and the code to run. -/
structure Registration (C : Type) where
  kind : ActionKind
  epoch : EpochType
  encap : EpochType
  code : C
deriving DecidableEq

/-- A registered action.  Its number tells it from other registrations of the same code. -/
structure Action (C : Type) where
  number : ℕ
  call : Registration C
deriving DecidableEq

/-- What the code of an action does: it registers an action, or it runs the scheduler, which
takes a runnable. -/
inductive Op (C : Type)
  | addAction (r : Registration C)
  | runActions (epoch encap : EpochType)
deriving DecidableEq

/-- The actions of a node.  A bucket of `epochActions` is the part of a container with one
epoch and one encapsulating epoch; an empty bucket is not stored.  The marks of the window are
`terminated`.  The last group of fields are books: the epochs that are over, the actions
registered, run, and run before their epoch was over, and the units produced and consumed on
each encapsulating epoch. -/
structure TermAction (C : Type) where
  globalTermActions : List (Action C) := []
  epochActions : ActionKind → List (Action C) := fun _ => []
  runnables : List (EpochType × EpochType) := []
  terminated : EpochType → Bool := fun _ => false
  ended : EpochType → Bool := fun _ => false
  registered : List (Action C) := []
  ran : List (Action C) := []
  early : List (Action C) := []
  produced : EpochType → ℕ := fun _ => 0
  consumed : EpochType → ℕ := fun _ => 0

namespace TermAction

variable {C : Type}

section

variable (s : TermAction C) (r : Registration C) (epoch : EpochType)

def produce : TermAction C :=
  { s with produced := update s.produced epoch (s.produced epoch + 1) }

def consume : TermAction C :=
  { s with consumed := update s.consumed epoch (s.consumed epoch + 1) }

/-- The encapsulating epochs with a bucket for an epoch. -/
def encapsulating (kind : ActionKind) (epoch : EpochType) : List EpochType :=
  (((s.epochActions kind).filter fun x => x.call.epoch = epoch).map fun x => x.call.encap).dedup

/-- The part of `queueActions` for epochs other than the global one. -/
def makeRunnables : TermAction C :=
  { s with
    runnables := s.runnables ++ (s.encapsulating .plain epoch).map (fun c => (epoch, c)) ++
      (s.encapsulating .unique epoch).map (fun c => (epoch, c)) }

/-- The windows never have the global epoch marked, so the test does not find it over. -/
def testEpochTerminated : Bool :=
  s.terminated epoch && epoch != anyEpochSentinel

def afterAddEpochAction : TermAction C :=
  if s.testEpochTerminated epoch then s.makeRunnables epoch else s

/-- The action that a registration makes. -/
def newAction : Action C := ⟨s.registered.length, r⟩

/-- `addAction` on the global epoch. -/
def addGlobalAction : TermAction C :=
  { s with
    globalTermActions := s.globalTermActions ++ [s.newAction r]
    registered := s.newAction r :: s.registered }

/-- Store an action in its bucket. -/
def store : TermAction C :=
  { s with
    epochActions := update s.epochActions r.kind
      (s.epochActions r.kind ++ [s.newAction r])
    registered := s.newAction r :: s.registered }

/-- `addActionEpoch` and `addActionUnique`. -/
def addActionEpoch : TermAction C :=
  ((s.produce r.encap).store r).afterAddEpochAction r.epoch

/-- Only `addAction` treats the global epoch apart. -/
def addAction : TermAction C :=
  if r.kind = .plain ∧ r.epoch = anyEpochSentinel then s.addGlobalAction r
  else s.addActionEpoch r

end

variable (body : C → List (Op C)) (perform : TermAction C → Op C → TermAction C) (fuel : ℕ)
  (s : TermAction C) (epoch : EpochType) (x : Action C)

/-- Enter the run of an action into the books. -/
def noteRun : TermAction C :=
  { s with
    ran := x :: s.ran
    early := if s.ended x.call.epoch then s.early else x :: s.early }

/-- Run an action. -/
def invoke : TermAction C :=
  (body x.call.code).foldl perform (s.noteRun x)

/-- One iteration of the loops of `triggerAllEpochActions`. -/
def trigger : TermAction C :=
  invoke body perform (s.consume x.call.encap) x

/-- The bucket an action is in. -/
def inBucket (epoch encap : EpochType) (x : Action C) : Bool :=
  x.call.epoch = epoch && x.call.encap = encap

/-- Erase a bucket. -/
def eraseBucket (kind : ActionKind) (epoch encap : EpochType) : TermAction C :=
  { s with
    epochActions := update s.epochActions kind
      ((s.epochActions kind).filter fun x => !inBucket epoch encap x) }

/-- Run a bucket and erase it.  The bounds of the loop are taken before its first iteration,
and the erased bucket is the one found then, with whatever has been added since. -/
def runBucket (kind : ActionKind) (epoch encap : EpochType) (s : TermAction C) : TermAction C :=
  (((s.epochActions kind).filter (inBucket epoch encap)).foldl (trigger body perform) s).eraseBucket
    kind epoch encap

def triggerAllEpochActions (epoch encap : EpochType) : TermAction C :=
  runBucket body perform .unique epoch encap (runBucket body perform .plain epoch encap s)

/-- What an action does.  The scheduler may be run again by the actions that it runs; the fuel
bounds how deep. -/
def performOp : ℕ → TermAction C → Op C → TermAction C
  | _, s, .addAction r => s.addAction r
  | 0, s, .runActions .. => s
  | fuel + 1, s, .runActions e c =>
      if (e, c) ∈ s.runnables then
        triggerAllEpochActions body (performOp fuel)
          { s with runnables := s.runnables.erase (e, c) } e c
      else s

def queueActions : TermAction C :=
  if epoch = anyEpochSentinel then
    { s.globalTermActions.foldl (invoke body (performOp body fuel)) s with globalTermActions := [] }
  else s.makeRunnables epoch

/-- Mark an epoch as over or as in use. -/
def setTerminated (ended : Bool) : TermAction C :=
  { s with
    terminated := update s.terminated epoch ended
    ended := update s.ended epoch ended }

/-- The actions of `epochTerminated`.  The mark may come first, as queueing does not read it
and the global epoch has none. -/
def epochTerminated : TermAction C :=
  queueActions body fuel (s.setTerminated epoch true) epoch

/-- A registration from outside of any action, a termination, the execution of a queued
runnable, the next use of an identifier, and an epoch that begins or ends without word to this
node. -/
inductive Act (C : Type)
  | addAction (r : Registration C)
  | epochTerminated (epoch : EpochType)
  | runActions (epoch encap : EpochType)
  | activateEpoch (epoch : EpochType)
  | elsewhere (epoch : EpochType) (ended : Bool)
deriving DecidableEq

def step : Act C → Option (TermAction C)
  | .addAction r => some (s.addAction r)
  | .epochTerminated e => some (s.epochTerminated body fuel e)
  | .runActions e c =>
      if (e, c) ∈ s.runnables then
        some (triggerAllEpochActions body (performOp body fuel)
          { s with runnables := s.runnables.erase (e, c) } e c)
      else none
  | .activateEpoch e => some (s.setTerminated e false)
  | .elsewhere e ended => some { s with ended := update s.ended e ended }

/-- No action is registered, the global epoch is not over, and each other epoch may be, or may be
marked so. -/
def Init : Prop :=
  ∃ f g : EpochType → Bool, f anyEpochSentinel = false ∧ s = { terminated := f, ended := g }

def Reachable (ok : TermAction C → Act C → Prop) : TermAction C → Prop :=
  Reach Init (step body fuel) ok

/-! ## Registrations that lose no action -/

variable (known : EpochType → Prop)

/-- The action does not run the scheduler.  It makes no registration on the global epoch, and none
with its own call on its own epoch and from its own encapsulating epoch, which would go to the
bucket being run. -/
def Selfless (r : Registration C) : Prop :=
  ∀ o ∈ body r.code, ∃ r', o = .addAction r' ∧ r'.epoch ≠ anyEpochSentinel ∧
    ¬ (r'.kind = r.kind ∧ r'.epoch = r.epoch ∧ r'.encap = r.encap)

/-- So are all actions that the registration leads to, and they are on known epochs. -/
def Tame (r : Registration C) : Prop :=
  ∀ r', Relation.ReflTransGen (fun a b => .addAction b ∈ body a.code) r r' →
    Selfless body r' ∧ known r'.epoch

/-- The window has no mark for a known epoch that is not over.  The registrations from outside are
tame, and on the global epoch only `addAction` before its termination; an identifier is used again
after the runnables of its last use. -/
def Proper (a : Act C) : Prop :=
  (∀ e, known e → s.terminated e = true → s.ended e = true) ∧
    match a with
    | .addAction r => Tame body known r ∧
        (r.epoch = anyEpochSentinel → r.kind = .plain ∧ s.terminated anyEpochSentinel = false)
    | .activateEpoch e => ∀ p ∈ s.runnables, p.1 ≠ e
    | _ => True

variable {body known}

theorem Tame.selfless {r : Registration C} (h : Tame body known r) : Selfless body r :=
  (h r .refl).1

theorem Tame.known_epoch {r : Registration C} (h : Tame body known r) : known r.epoch :=
  (h r .refl).2

theorem Tame.of_mem {r r' : Registration C} (h : Tame body known r)
    (hr : .addAction r' ∈ body r.code) : Tame body known r' :=
  fun r'' hr'' => h r'' (.head hr hr'')

/-! ## The invariant -/

/-- The actions stored on the node. -/
def pending (s : TermAction C) : List (Action C) :=
  s.globalTermActions ++ (s.epochActions .plain ++ s.epochActions .unique)

/-- The action counts on the epoch. -/
def counted (c : EpochType) (x : Action C) : Bool :=
  x.call.epoch != anyEpochSentinel && x.call.encap == c

/-- Every registered action is stored or has been run, where `D` are actions that have been
run and are still stored.  A runnable is queued for every action whose epoch is over, apart
from those in `B`. -/
structure Inv (body : C → List (Op C)) (known : EpochType → Prop) (D : Multiset (Action C))
    (B : Action C → Prop)
    (s : TermAction C) : Prop where
  account : (s.ran : Multiset (Action C)) + s.pending = s.registered + D
  fresh : ∀ x ∈ s.registered, x.number < s.registered.length
  nodup : s.registered.Nodup
  global : ∀ x ∈ s.globalTermActions, x.call.epoch = anyEpochSentinel
  stored : ∀ k, ∀ x ∈ s.epochActions k, x.call.kind = k ∧ x.call.epoch ≠ anyEpochSentinel
  tame : ∀ x ∈ s.pending, Tame body known x.call
  queued : ∀ k, ∀ x ∈ s.epochActions k, ¬ B x → s.terminated x.call.epoch = true →
    (x.call.epoch, x.call.encap) ∈ s.runnables
  justified : ∀ p ∈ s.runnables, s.terminated p.1 = true ∧ p.1 ≠ anyEpochSentinel
  early : s.early = []
  produced : ∀ c, s.produced c = s.registered.countP (counted c)
  consumed : ∀ c, s.consumed c = s.ran.countP (counted c)

/-- The global actions that are stored wait for the termination of the global epoch. -/
def Waiting (s : TermAction C) : Prop :=
  s.terminated anyEpochSentinel = true → s.globalTermActions = []

variable {D : Multiset (Action C)} {B : Action C → Prop} {s s' : TermAction C} {fuel : ℕ}
  {r : Registration C} {x : Action C} {e c : EpochType} {k : ActionKind}

theorem mem_pending : x ∈ s.pending ↔ x ∈ s.globalTermActions ∨ ∃ k, x ∈ s.epochActions k := by
  simp only [pending, mem_append]
  constructor
  · rintro (h | h | h)
    · exact .inl h
    all_goals exact .inr ⟨_, h⟩
  · rintro (h | ⟨k, h⟩)
    · exact .inl h
    · cases k with
      | plain => exact .inr (.inl h)
      | unique => exact .inr (.inr h)

theorem inv_init (hs : Init s) : Inv body known 0 (fun _ => False) s := by
  obtain ⟨f, g, -, rfl⟩ := hs
  refine ⟨by simp [pending], by simp, by simp, by simp, by simp, by simp [pending], by simp,
    by simp, rfl, by simp, by simp⟩

/-! ## Registration -/

theorem mem_encapsulating (hx : x ∈ s.epochActions k) (he : x.call.epoch = e) :
    x.call.encap ∈ s.encapsulating k e := by
  simp only [encapsulating, mem_dedup, mem_map, mem_filter, decide_eq_true_eq]
  exact ⟨x, ⟨hx, he⟩, rfl⟩

theorem mem_makeRunnables (hx : x ∈ s.epochActions k) :
    (x.call.epoch, x.call.encap) ∈ (s.makeRunnables x.call.epoch).runnables := by
  have henc := mem_encapsulating hx rfl
  simp only [TermAction.makeRunnables, mem_append, mem_map]
  cases k with
  | plain => exact .inl (.inr ⟨_, henc, rfl⟩)
  | unique => exact .inr ⟨_, henc, rfl⟩

/-- The runnables of an epoch that is over may be queued at any time. -/
theorem Inv.makeRunnables (h : Inv body known D B s) (he : s.terminated e = true)
    (hne : e ≠ anyEpochSentinel) : Inv body known D B (s.makeRunnables e) := by
  refine { h with queued := ?_, justified := ?_ }
  · intro k x hx hb ht
    refine mem_append_left _ (mem_append_left _ ?_)
    exact h.queued k x hx hb ht
  · intro p hp
    simp only [TermAction.makeRunnables, mem_append, mem_map] at hp
    rcases hp with (hp | ⟨c, -, rfl⟩) | ⟨c, -, rfl⟩
    · exact h.justified p hp
    all_goals exact ⟨he, hne⟩

theorem newAction_notMem (h : Inv body known D B s) : s.newAction r ∉ s.registered :=
  fun hx => Nat.lt_irrefl _ (h.fresh _ hx)

theorem Inv.register (h : Inv body known D B s)
    (hreg : s'.registered = s.newAction r :: s.registered) :
    (∀ x ∈ s'.registered, x.number < s'.registered.length) ∧ s'.registered.Nodup := by
  rw [hreg]
  exact ⟨forall_mem_cons.mpr ⟨Nat.lt_succ_self _, fun x hold => Nat.lt_succ_of_lt (h.fresh x hold)⟩,
    nodup_cons.mpr ⟨newAction_notMem h, h.nodup⟩⟩

theorem Inv.addGlobalAction (h : Inv body known D B s) (ht : Tame body known r)
    (he : r.epoch = anyEpochSentinel) : Inv body known D B (s.addGlobalAction r) := by
  refine { h with
    fresh := (h.register rfl).1, nodup := (h.register rfl).2
    account := ?account, global := ?global, tame := ?tame, produced := ?produced }
  case account =>
    have := h.account
    simp only [TermAction.addGlobalAction, pending, ← Multiset.coe_add, ← Multiset.cons_coe,
      ← Multiset.singleton_add, Multiset.coe_nil, add_zero] at this ⊢
    rw [add_assoc {s.newAction r}, ← this]
    abel
  case global => exact forall_mem_append.mpr ⟨h.global, forall_mem_singleton.mpr he⟩
  case tame =>
    intro x hx
    rcases mem_pending.mp hx with hx | ⟨k, hx⟩
    · cases mem_append.mp hx with
      | inl hold => exact h.tame x (mem_pending.mpr (.inl hold))
      | inr hnew => exact mem_singleton.mp hnew ▸ ht
    · exact h.tame x (mem_pending.mpr (.inr ⟨k, hx⟩))
  case produced =>
    intro c
    have hne : counted c (s.newAction r) = false := by simp [counted, newAction, he]
    simpa [TermAction.addGlobalAction, countP_cons, hne] using h.produced c

theorem epochActions_store (s : TermAction C) (r : Registration C) (k : ActionKind) :
    (s.store r).epochActions k =
      s.epochActions k ++ if k = r.kind then [s.newAction r] else [] := by
  by_cases hk : k = r.kind
  · subst hk
    simp [store]
  · simp [store, hk]

theorem mem_store : x ∈ (s.store r).epochActions k ↔
    x ∈ s.epochActions k ∨ k = r.kind ∧ x = s.newAction r := by
  rw [epochActions_store, mem_append, mem_ite_nil_right, mem_singleton]

theorem pending_store : ((s.store r).pending : Multiset (Action C)) =
    s.newAction r ::ₘ (s.pending : Multiset (Action C)) := by
  cases hk : r.kind with
  | plain | unique =>
    simp only [pending, store, hk, update_self, ne_eq, reduceCtorEq, not_false_eq_true,
      update_of_ne, ← Multiset.coe_add, ← Multiset.singleton_add, ← Multiset.cons_coe,
      Multiset.coe_nil, add_zero]
    abel

theorem Inv.exempt {B' : Action C → Prop} (h : Inv body known D B' s)
    (hq : ∀ k, ∀ x ∈ s.epochActions k, ¬ B x → B' x → s.terminated x.call.epoch = true →
      (x.call.epoch, x.call.encap) ∈ s.runnables) : Inv body known D B s := by
  refine { h with queued := ?_ }
  intro k x hx hb ht
  by_cases hb' : B' x
  · exact hq k x hx hb hb' ht
  · exact h.queued k x hx hb' ht

/-- The unit of an action on its encapsulating epoch. -/
theorem update_encap (f : EpochType → ℕ) (he : x.call.epoch ≠ anyEpochSentinel) (c : EpochType) :
    update f x.call.encap (f x.call.encap + 1) c = f c + if counted c x then 1 else 0 := by
  by_cases hc : x.call.encap = c
  · subst hc
    simp [counted, he]
  · simp [counted, hc, update_of_ne (Ne.symm hc)]

/-- A stored action is exempt until its runnable is queued. -/
theorem Inv.store (h : Inv body known D B s) (ht : Tame body known r)
    (he : r.epoch ≠ anyEpochSentinel) :
    Inv body known D (fun x => B x ∨ x = s.newAction r) ((s.produce r.encap).store r) := by
  refine { h with
    fresh := (h.register rfl).1, nodup := (h.register rfl).2
    account := ?account, stored := ?stored, tame := ?tame, queued := ?queued
    produced := ?produced }
  case account =>
    have := h.account
    have hp : (((s.produce r.encap).store r).pending : Multiset (Action C)) =
        s.newAction r ::ₘ (s.pending : Multiset (Action C)) := pending_store
    change (s.ran : Multiset (Action C)) + _ = ((s.newAction r :: s.registered : List _) :
      Multiset (Action C)) + D
    rw [hp, ← Multiset.cons_coe, Multiset.cons_add, Multiset.add_cons, this]
  case stored =>
    intro k x hx
    cases mem_store.mp hx with
    | inl hold => exact h.stored k x hold
    | inr hnew =>
      obtain ⟨rfl, rfl⟩ := hnew
      exact ⟨rfl, he⟩
  case tame =>
    intro x hx
    rcases mem_pending.mp hx with hx | ⟨k, hx⟩
    · exact h.tame x (mem_pending.mpr (.inl hx))
    · cases mem_store.mp hx with
      | inl hold => exact h.tame x (mem_pending.mpr (.inr ⟨k, hold⟩))
      | inr hnew => exact hnew.2 ▸ ht
  case queued =>
    intro k x hx hb hterm
    rw [not_or] at hb
    cases mem_store.mp hx with
    | inl hold => exact h.queued k x hold hb.1 hterm
    | inr hnew => exact absurd hnew.2 hb.2
  case produced =>
    intro c
    change update s.produced (s.newAction r).call.encap (s.produced _ + 1) c =
      (s.newAction r :: s.registered).countP (counted c)
    rw [countP_cons, ← h.produced c]
    exact update_encap s.produced he c

theorem Inv.addActionEpoch (h : Inv body known D B s) (ht : Tame body known r)
    (he : r.epoch ≠ anyEpochSentinel) : Inv body known D B (s.addActionEpoch r) := by
  have hs := h.store ht he
  rw [TermAction.addActionEpoch, afterAddEpochAction]
  have hmem : s.newAction r ∈ ((s.produce r.encap).store r).epochActions r.kind :=
    mem_store.mpr (.inr ⟨rfl, rfl⟩)
  split
  · rename_i hover
    have hover : s.terminated r.epoch = true := (Bool.and_eq_true_iff.mp hover).1
    refine (hs.makeRunnables hover he).exempt ?_
    intro k x _ hb hb' _
    rw [hb'.resolve_left hb]
    exact mem_makeRunnables hmem
  · rename_i hover
    refine hs.exempt ?_
    intro k x _ hb hb' hterm
    have hx : x = s.newAction r := hb'.resolve_left hb
    subst hx
    refine absurd (Bool.and_eq_true_iff.mpr ⟨hterm, bne_iff_ne.mpr he⟩) hover

theorem Inv.addAction (h : Inv body known D B s) (ht : Tame body known r)
    (he : r.epoch ≠ anyEpochSentinel) : Inv body known D B (s.addAction r) := by
  rw [TermAction.addAction, if_neg fun hr => he hr.2]
  exact h.addActionEpoch ht he

/-! ## What a registration leaves alone -/

/-- The marks and the global actions are left alone. -/
structure Frame (s s' : TermAction C) : Prop where
  terminated : s'.terminated = s.terminated
  ended : s'.ended = s.ended
  globalTermActions : s'.globalTermActions = s.globalTermActions

theorem Frame.trans {s'' : TermAction C} (h : Frame s s') (h' : Frame s' s'') : Frame s s'' :=
  ⟨h'.terminated.trans h.terminated, h'.ended.trans h.ended,
    h'.globalTermActions.trans h.globalTermActions⟩

theorem addActionEpoch_frame (s : TermAction C) (r : Registration C) :
    Frame s (s.addActionEpoch r) ∧ ∀ k, (s.addActionEpoch r).epochActions k =
      s.epochActions k ++ if k = r.kind then [s.newAction r] else [] := by
  rw [TermAction.addActionEpoch, afterAddEpochAction]
  split <;> exact ⟨⟨rfl, rfl, rfl⟩, epochActions_store (s.produce r.encap) r⟩

/-- An action that only makes registrations. -/
theorem performOp_addAction (s : TermAction C) (r : Registration C) :
    performOp body fuel s (.addAction r) = s.addAction r := by
  cases fuel <;> rfl

variable (body fuel) in
/-- What the registrations of an action leave alone: the marks, the global actions, and each
bucket that none of them is for. -/
theorem foldl_performOp_frame (os : List (Op C)) (s : TermAction C)
    (hos : ∀ o ∈ os, ∃ r, o = .addAction r ∧ r.epoch ≠ anyEpochSentinel) :
    Frame s (os.foldl (performOp body fuel) s) ∧
      ∀ k e c, (∀ r, .addAction r ∈ os → ¬ (r.kind = k ∧ r.epoch = e ∧ r.encap = c)) →
        ((os.foldl (performOp body fuel) s).epochActions k).filter (inBucket e c) =
          (s.epochActions k).filter (inBucket e c) := by
  induction os generalizing s with
  | nil => exact ⟨⟨rfl, rfl, rfl⟩, fun _ _ _ _ => rfl⟩
  | cons o os ih =>
    obtain ⟨r, rfl, hne⟩ := hos o mem_cons_self
    have hadd : performOp body fuel s (.addAction r) = s.addActionEpoch r :=
      (performOp_addAction s r).trans (if_neg fun hr => hne hr.2)
    obtain ⟨hframe, hk⟩ := addActionEpoch_frame s r
    rw [foldl_cons, hadd]
    obtain ⟨ih1, ih2⟩ := ih (s.addActionEpoch r) fun o ho => hos o (mem_cons_of_mem _ ho)
    refine ⟨hframe.trans ih1, ?_⟩
    intro k e c hb
    rw [ih2 k e c fun r' hr' => hb r' (mem_cons_of_mem _ hr'), hk, filter_append]
    have hnew : (if k = r.kind then [s.newAction r] else []).filter (inBucket e c) = [] := by
      split
      · rename_i hkind
        have hnot : ¬ (r.epoch = e ∧ r.encap = c) := fun hb' =>
          hb r mem_cons_self ⟨hkind.symm, hb'⟩
        simpa [inBucket, newAction] using hnot
      · rfl
    rw [hnew, append_nil]

theorem Inv.foldl_performOp {os : List (Op C)} (h : Inv body known D B s)
    (hos : ∀ o ∈ os, ∃ r, o = .addAction r ∧ Tame body known r ∧ r.epoch ≠ anyEpochSentinel) :
    Inv body known D B (os.foldl (performOp body fuel) s) := by
  induction os generalizing s with
  | nil => exact h
  | cons o os ih =>
    obtain ⟨r, rfl, ht, he⟩ := hos o mem_cons_self
    rw [foldl_cons, performOp_addAction]
    exact ih (h.addAction ht he) fun o ho => hos o (mem_cons_of_mem _ ho)

/-! ## The run of an action -/

/-- The books after the begin of a run; `consumed` has the unit of the action already. -/
theorem Inv.noteRun (h : Inv body known D B s) (hover : s.ended x.call.epoch = true)
    {f : EpochType → ℕ} (hf : ∀ c, f c = (x :: s.ran).countP (counted c)) :
    Inv body known (x ::ₘ D) B (TermAction.noteRun { s with consumed := f } x) := by
  refine { h with account := ?_, early := ?_, consumed := hf }
  · have := h.account
    change ((x :: s.ran : List _) : Multiset (Action C)) + s.pending = s.registered + x ::ₘ D
    rw [← Multiset.cons_coe, Multiset.cons_add, this, Multiset.add_cons]
  · simp only [TermAction.noteRun, hover, if_true]
    exact h.early

theorem tame_body (ht : Tame body known x.call) : ∀ o ∈ body x.call.code, ∃ r,
    o = .addAction r ∧ Tame body known r ∧ r.epoch ≠ anyEpochSentinel := by
  intro o ho
  obtain ⟨r, rfl, hne, -⟩ := ht.selfless o ho
  exact ⟨r, rfl, ht.of_mem ho, hne⟩

theorem Inv.invoke (h : Inv body known D B s) (hx : Tame body known x.call)
    (he : x.call.epoch = anyEpochSentinel) (hover : s.ended x.call.epoch = true) :
    Inv body known (x ::ₘ D) B (invoke body (performOp body fuel) s x) := by
  refine Inv.foldl_performOp (h.noteRun hover (f := s.consumed) ?_) (tame_body hx)
  intro c
  have hcount : counted c x = false := by simp [counted, he]
  rw [countP_cons, hcount, h.consumed]
  rfl

theorem Inv.trigger (h : Inv body known D B s) (hx : Tame body known x.call)
    (he : x.call.epoch ≠ anyEpochSentinel) (hover : s.ended x.call.epoch = true) :
    Inv body known (x ::ₘ D) B (trigger body (performOp body fuel) s x) := by
  refine Inv.foldl_performOp (h.noteRun hover (f := (s.consume x.call.encap).consumed) ?_)
    (tame_body hx)
  intro c
  rw [countP_cons, ← h.consumed]
  exact update_encap s.consumed he c

variable (fuel) in
/-- What the run of an action leaves alone: the marks, the global actions, and its own
bucket. -/
theorem invoke_frame (s : TermAction C) (hx : Tame body known x.call) :
    Frame s (invoke body (performOp body fuel) s x) ∧
      ((invoke body (performOp body fuel) s x).epochActions x.call.kind).filter
          (inBucket x.call.epoch x.call.encap) =
        (s.epochActions x.call.kind).filter (inBucket x.call.epoch x.call.encap) := by
  obtain ⟨h1, h2⟩ := foldl_performOp_frame body fuel (body x.call.code) (s.noteRun x)
    fun o ho => by
      obtain ⟨r, hr, hne, -⟩ := hx.selfless o ho
      exact ⟨r, hr, hne⟩
  refine ⟨⟨h1.terminated, h1.ended, h1.globalTermActions⟩, h2 _ _ _ fun r hr => ?_⟩
  obtain ⟨r', heq, -, hnot⟩ := hx.selfless _ hr
  cases heq
  exact hnot

/-! ## Buckets -/

variable (fuel) in
/-- The loop over a bucket: what it does to the books, and that it leaves the marks, the global
actions and the bucket alone. -/
theorem Inv.foldl_trigger {l : List (Action C)} (h : Inv body known D B s)
    (hl : ∀ x ∈ l, Tame body known x.call ∧ x.call.kind = k ∧ x.call.epoch = e ∧ x.call.encap = c)
    (he : e ≠ anyEpochSentinel) (hover : known e → s.ended e = true) :
    Inv body known (D + l) B (l.foldl (TermAction.trigger body (performOp body fuel)) s) ∧
      Frame s (l.foldl (TermAction.trigger body (performOp body fuel)) s) ∧
      ((l.foldl (TermAction.trigger body (performOp body fuel)) s).epochActions k).filter
        (inBucket e c) = (s.epochActions k).filter (inBucket e c) := by
  induction l generalizing s D with
  | nil => exact ⟨by simpa using h, ⟨rfl, rfl, rfl⟩, rfl⟩
  | cons x l ih =>
    obtain ⟨hx, rfl, rfl, rfl⟩ := hl x mem_cons_self
    obtain ⟨hframe, hbucket⟩ := invoke_frame fuel (s.consume x.call.encap) hx
    obtain ⟨hinv, hframe', hbucket'⟩ := ih (h.trigger hx he (hover hx.known_epoch))
      (fun y hy => hl y (mem_cons_of_mem x hy)) fun hk => (congrFun hframe.ended _).trans (hover hk)
    have hconsume : Frame s (s.consume x.call.encap) := ⟨rfl, rfl, rfl⟩
    rw [foldl_cons, ← Multiset.cons_coe, Multiset.add_cons, ← Multiset.cons_add]
    exact ⟨hinv, (hconsume.trans hframe).trans hframe', hbucket'.trans hbucket⟩

theorem mem_eraseBucket {k' : ActionKind} (h : x ∈ (s.eraseBucket k e c).epochActions k') :
    x ∈ s.epochActions k' ∧ (k' = k → inBucket e c x = false) := by
  by_cases hk : k' = k
  · subst hk
    simp only [eraseBucket, update_self, mem_filter, Bool.not_eq_true'] at h
    exact ⟨h.1, fun _ => h.2⟩
  · simp only [eraseBucket, update_of_ne hk] at h
    exact ⟨h, fun heq => absurd heq hk⟩

theorem pending_eraseBucket (s : TermAction C) (k : ActionKind) (e c : EpochType) :
    (s.pending : Multiset (Action C)) =
      (s.eraseBucket k e c).pending + ((s.epochActions k).filter (inBucket e c) : List _) := by
  have hsplit : (s.epochActions k : Multiset (Action C)) =
      ((s.epochActions k).filter (inBucket e c) : List _) +
        ((s.epochActions k).filter fun x => !inBucket e c x : List _) := by
    rw [Multiset.coe_add]
    exact Multiset.coe_eq_coe.mpr (filter_append_perm _ _).symm
  cases k with
  | plain | unique =>
    simp only [pending, eraseBucket, update_self, ne_eq, reduceCtorEq,
      not_false_eq_true, update_of_ne, ← Multiset.coe_add]
    rw [hsplit]
    abel

theorem Inv.eraseBucket
    (h : Inv body known ((s.epochActions k).filter (inBucket e c) : List _) B s) :
    Inv body known 0 (fun x => B x ∧ ¬ (x.call.kind = k ∧ inBucket e c x = true))
      (s.eraseBucket k e c) := by
  refine { h with
    stored := fun k' x hx => h.stored k' x (mem_eraseBucket hx).1
    account := ?account, tame := ?tame, queued := ?queued }
  case account =>
    have := h.account
    rw [pending_eraseBucket s k e c, ← add_assoc] at this
    rw [add_zero]
    exact add_right_cancel this
  case tame =>
    intro x hx
    refine h.tame x (mem_pending.mpr ?_)
    rcases mem_pending.mp hx with hx | ⟨k', hx⟩
    · exact .inl hx
    · exact .inr ⟨k', (mem_eraseBucket hx).1⟩
  case queued =>
    intro k' x hx hb ht
    obtain ⟨hx, hgone⟩ := mem_eraseBucket hx
    refine h.queued k' x hx ?_ ht
    intro hB
    refine hb ⟨hB, ?_⟩
    rintro ⟨hk, hin⟩
    have := hgone ((h.stored k' x hx).1.symm.trans hk)
    exact Bool.noConfusion (this.symm.trans hin)

variable (fuel) in
/-- The run of a bucket: its actions are run and gone, and the marks and the global actions are left
alone. -/
theorem Inv.runBucket (h : Inv body known 0 B s) (k : ActionKind) (e c : EpochType)
    (he : e ≠ anyEpochSentinel) (hover : known e → s.ended e = true) :
    Inv body known 0 (fun x => B x ∧ ¬ (x.call.kind = k ∧ inBucket e c x = true))
        (runBucket body (performOp body fuel) k e c s) ∧
      Frame s (runBucket body (performOp body fuel) k e c s) := by
  have hl : ∀ x ∈ (s.epochActions k).filter (inBucket e c), Tame body known x.call ∧
      x.call.kind = k ∧ x.call.epoch = e ∧ x.call.encap = c := by
    intro x hx
    obtain ⟨hx, hin⟩ := mem_filter.mp hx
    simp only [inBucket, Bool.and_eq_true, decide_eq_true_eq] at hin
    exact ⟨h.tame x (mem_pending.mpr (.inr ⟨k, hx⟩)), (h.stored k x hx).1, hin⟩
  obtain ⟨hloop, hframe, hbucket⟩ := h.foldl_trigger fuel hl he hover
  refine ⟨Inv.eraseBucket (B := B) ?_, ⟨hframe.terminated, hframe.ended, hframe.globalTermActions⟩⟩
  rwa [hbucket, ← zero_add (Multiset.ofList _)]

/-- The execution of a runnable that was taken from the queue. -/
theorem Inv.runActions (h : Inv body known 0 (fun _ => False) s) (hw : s.Waiting)
    (hmem : (e, c) ∈ s.runnables) (hagree : known e → s.terminated e = true → s.ended e = true)
    (hs : s' = triggerAllEpochActions body (performOp body fuel)
      { s with runnables := s.runnables.erase (e, c) } e c) :
    Inv body known 0 (fun _ => False) s' ∧ s'.Waiting := by
  subst hs
  obtain ⟨ht, he⟩ := h.justified _ hmem
  have htake : Inv body known 0 (fun x => inBucket e c x = true)
      { s with runnables := s.runnables.erase (e, c) } := by
    refine { h with queued := ?_, justified := ?_ }
    · intro k x hx hb hterm
      refine (mem_erase_of_ne ?_).mpr (h.queued k x hx id hterm)
      intro heq
      rw [Prod.mk.injEq] at heq
      simp [inBucket, heq.1, heq.2] at hb
    · exact fun p hp => h.justified p (mem_of_mem_erase hp)
  obtain ⟨hplain, hframe⟩ := htake.runBucket fuel .plain e c he fun hk => hagree hk ht
  obtain ⟨hunique, hframe'⟩ := hplain.runBucket fuel .unique e c he fun hk =>
    (congrFun hframe.ended e).trans (hagree hk ht)
  refine ⟨hunique.exempt ?_, ?_⟩
  · intro k x _ _ hb
    exfalso
    cases hk : x.call.kind with
    | plain => exact hb.1.2 ⟨hk, hb.1.1⟩
    | unique => exact hb.2 ⟨hk, hb.1.1⟩
  · have hall := hframe.trans hframe'
    rw [triggerAllEpochActions, Waiting, hall.terminated, hall.globalTermActions]
    exact hw

/-! ## Termination -/

variable (fuel) in
/-- The loop over the actions of the global epoch. -/
theorem Inv.foldl_invoke {l : List (Action C)} (h : Inv body known D B s)
    (hl : ∀ x ∈ l, Tame body known x.call ∧ x.call.epoch = anyEpochSentinel)
    (hover : s.ended anyEpochSentinel = true) :
    Inv body known (D + l) B (l.foldl (TermAction.invoke body (performOp body fuel)) s) ∧
      (l.foldl (TermAction.invoke body (performOp body fuel)) s).globalTermActions =
        s.globalTermActions := by
  induction l generalizing s D with
  | nil => exact ⟨by simpa using h, rfl⟩
  | cons x l ih =>
    obtain ⟨hx, he⟩ := hl x mem_cons_self
    obtain ⟨hframe, -⟩ := invoke_frame fuel s hx
    have hrest := ih (h.invoke hx he (he ▸ hover)) (fun y hy => hl y (mem_cons_of_mem x hy))
      ((congrFun hframe.ended _).trans hover)
    rw [foldl_cons, ← Multiset.cons_coe, Multiset.add_cons, ← Multiset.cons_add]
    exact ⟨hrest.1, hrest.2.trans hframe.globalTermActions⟩

theorem terminated_setTerminated (s : TermAction C) (e e' : EpochType) (b : Bool) :
    (s.setTerminated e b).terminated e' = if e' = e then b else s.terminated e' :=
  update_apply ..

/-- The mark of a termination; the actions of the epoch wait for their runnables. -/
theorem Inv.mark (h : Inv body known 0 (fun _ => False) s) (e : EpochType) :
    Inv body known 0 (fun x => x.call.epoch = e) (s.setTerminated e true) := by
  refine { h with queued := ?_, justified := ?_ }
  · intro k x hx hb ht
    rw [terminated_setTerminated, if_neg hb] at ht
    exact h.queued k x hx id ht
  · intro p hp
    rw [terminated_setTerminated]
    refine ⟨?_, (h.justified p hp).2⟩
    split
    · rfl
    · exact (h.justified p hp).1

theorem Inv.clearGlobal (h : Inv body known s.globalTermActions B s) :
    Inv body known 0 B { s with globalTermActions := [] } := by
  have hrest : ∀ x ∈ pending { s with globalTermActions := [] }, x ∈ s.pending :=
    fun x hx => mem_append_right _ hx
  refine { h with account := ?_, global := by simp, tame := fun x hx => h.tame x (hrest x hx) }
  have hacc := h.account
  simp only [pending, ← Multiset.coe_add] at hacc
  rw [add_left_comm, add_comm (s.registered : Multiset (Action C))] at hacc
  simpa only [pending, nil_append, ← Multiset.coe_add, add_zero] using add_left_cancel hacc

theorem Inv.epochTerminated (h : Inv body known 0 (fun _ => False) s) (hw : s.Waiting)
    (e : EpochType) :
    Inv body known 0 (fun _ => False) (s.epochTerminated body fuel e) ∧
      (s.epochTerminated body fuel e).Waiting := by
  have hmark := h.mark e
  have hterm : (s.setTerminated e true).terminated e = true := by
    rw [terminated_setTerminated, if_pos rfl]
  rw [TermAction.epochTerminated, queueActions]
  split
  · rename_i he
    subst he
    have hl : ∀ x ∈ s.globalTermActions, Tame body known x.call ∧ x.call.epoch = anyEpochSentinel :=
      fun x hx => ⟨h.tame x (mem_pending.mpr (.inl hx)), h.global x hx⟩
    obtain ⟨hloop, hglobal⟩ := hmark.foldl_invoke fuel hl (by simp [setTerminated])
    refine ⟨?_, fun _ => rfl⟩
    have hclear : Inv body known 0 _ _ := Inv.clearGlobal (s := s.globalTermActions.foldl
      (TermAction.invoke body (performOp body fuel)) (s.setTerminated anyEpochSentinel true)) (by
        rw [hglobal]
        rwa [zero_add] at hloop)
    refine hclear.exempt ?_
    intro k x hx _ hb _
    exact absurd hb (hclear.stored k x hx).2
  · rename_i he
    refine ⟨?_, ?_⟩
    · refine (hmark.makeRunnables hterm he).exempt ?_
      intro k x hx _ hb _
      subst hb
      exact mem_makeRunnables (s := s.setTerminated _ true) hx
    · intro ht
      refine hw ?_
      have := terminated_setTerminated s e anyEpochSentinel true
      rw [if_neg (Ne.symm he)] at this
      exact this.symm.trans ht

/-! ## One step -/

theorem Inv.step (h : Inv body known 0 (fun _ => False) s) (hw : s.Waiting) {a : Act C}
    (hok : Proper body s known a) (hs : step body fuel s a = some s') :
    Inv body known 0 (fun _ => False) s' ∧ s'.Waiting := by
  cases a with
  | addAction r =>
    cases hs
    obtain ⟨-, ht, hany⟩ := hok
    rw [TermAction.addAction]
    split
    · rename_i hr
      refine ⟨h.addGlobalAction ht hr.2, ?_⟩
      intro hterm
      exact Bool.noConfusion ((hany hr.2).2.symm.trans hterm)
    · rename_i hr
      have he : r.epoch ≠ anyEpochSentinel := fun he => hr ⟨(hany he).1, he⟩
      obtain ⟨hframe, -⟩ := addActionEpoch_frame s r
      refine ⟨h.addActionEpoch ht he, ?_⟩
      rw [Waiting, hframe.terminated, hframe.globalTermActions]
      exact hw
  | epochTerminated e =>
    cases hs
    exact h.epochTerminated hw e
  | runActions e c =>
    obtain ⟨hmem, rfl⟩ := of_guard hs
    exact h.runActions hw hmem (hok.1 e) rfl
  | activateEpoch e =>
    cases hs
    refine ⟨{ h with queued := ?_, justified := ?_ }, ?_⟩
    · intro k x hx _ ht
      rw [terminated_setTerminated] at ht
      split at ht
      · cases ht
      · exact h.queued k x hx id ht
    · intro p hp
      rw [terminated_setTerminated, if_neg (hok.2 p hp)]
      exact h.justified p hp
    · intro ht
      rw [terminated_setTerminated] at ht
      split at ht
      · cases ht
      · exact hw ht
  | elsewhere e ended =>
    cases hs
    exact ⟨{ h with }, hw⟩

theorem Reachable.inv (h : Reachable body fuel (Proper body · known) s) :
    Inv body known 0 (fun _ => False) s ∧ s.Waiting := by
  refine Reach.invariant ?_ ?_ h
  · intro s hs
    refine ⟨inv_init hs, ?_⟩
    obtain ⟨f, g, -, rfl⟩ := hs
    exact fun _ => rfl
  · intro s a s' hinv hok hs
    exact hinv.1.step hinv.2 hok hs

variable [DecidableEq C]

/-- In every proper run, each registered action is either stored or has been run once, and it
was run after the termination of its epoch.  Each encapsulating epoch has got one unit for each
registration and has one of them consumed for each run.  When no runnable is left, every
action whose epoch is over has been run. -/
theorem actions_exactly_once (body : C → List (Op C)) (known : EpochType → Prop) {fuel : ℕ}
    {s : TermAction C} (h : Reachable body fuel (Proper body · known) s) :
    (∀ x ∈ s.registered, s.ran.count x + s.pending.count x = 1) ∧ s.early = [] ∧
      (∀ c, s.produced c = s.registered.countP (counted c) ∧
        s.consumed c = s.ran.countP (counted c)) ∧
      (s.runnables = [] → ∀ x ∈ s.registered, s.terminated x.call.epoch = true →
        s.ran.count x = 1) := by
  obtain ⟨hinv, hw⟩ := h.inv
  have hone : ∀ x ∈ s.registered, s.ran.count x + s.pending.count x = 1 := by
    intro x hx
    have := congrArg (Multiset.count x) hinv.account
    rw [add_zero, Multiset.count_add, Multiset.coe_count, Multiset.coe_count,
      Multiset.coe_count, count_eq_one_of_mem hinv.nodup hx] at this
    exact this
  refine ⟨hone, hinv.early, fun c => ⟨hinv.produced c, hinv.consumed c⟩, ?_⟩
  intro hempty x hx ht
  have hgone : x ∉ s.pending := by
    intro hmem
    rcases mem_pending.mp hmem with hglobal | ⟨k, hstored⟩
    · have := hw (hinv.global x hglobal ▸ ht)
      rw [this] at hglobal
      cases hglobal
    · have := hinv.queued k x hstored id ht
      rw [hempty] at this
      cases this
  have := hone x hx
  rwa [count_eq_zero.mpr hgone, add_zero] at this

/-- The code `true` calls `addAction` on epoch 1 from epoch 2, with code that registers
nothing. -/
def nestedBody : Bool → List (Op Bool)
  | true => [.addAction ⟨.plain, 1, 2, false⟩]
  | false => []

/-- An action registered with `addActionUnique` may do so from its own encapsulating epoch. -/
theorem tame_unique : Tame nestedBody (· = 1) ⟨.unique, 1, 2, true⟩ := by
  have hlast : ∀ r : Registration Bool, r.code = false → Selfless nestedBody r := by
    intro r hr r' hr'
    rw [hr] at hr'
    cases hr'
  intro r' hr'
  rcases Relation.ReflTransGen.cases_head hr' with rfl | ⟨r, hr, hrest⟩
  · refine ⟨fun o ho => ?_, rfl⟩
    cases mem_singleton.mp ho
    exact ⟨_, rfl, by decide⟩
  · cases mem_singleton.mp hr
    rcases Relation.ReflTransGen.cases_head hrest with rfl | ⟨r, hr, -⟩
    · exact ⟨hlast _ rfl, rfl⟩
    · cases hr

/-- Both actions are run: the plain one by the next runnable. -/
theorem actions_exactly_once_nested :
    ∃ s : TermAction Bool, Reachable nestedBody 0 (Proper nestedBody · (· = 1)) s ∧
      s.registered.length = 2 ∧ ∀ x ∈ s.registered, s.ran.count x = 1 := by
  let acts : List (Act Bool) := [.addAction ⟨.unique, 1, 2, true⟩, .epochTerminated 1,
    .runActions 1 2, .runActions 1 2, .runActions 1 2]
  let ok (s : TermAction Bool) (a : Act Bool) :=
    (s.terminated 1 = true → s.ended 1 = true) ∧ a ∈ acts
  obtain ⟨s, hs, hlen, hempty, hterm⟩ := Reach.of_guarded_run ok (step nestedBody 0) acts
    (fun s => s.registered.length = 2 ∧ s.runnables = [] ∧
      ∀ x ∈ s.registered, s.terminated x.call.epoch = true)
    (show Init {} from ⟨_, _, rfl, rfl⟩) (by decide +kernel)
  have hok : ∀ s a, ok s a → Proper nestedBody s (· = 1) a := by
    rintro s a ⟨hover, ha⟩
    refine ⟨fun e he => he ▸ hover, ?_⟩
    simp only [acts, mem_cons, not_mem_nil, or_false] at ha
    rcases ha with rfl | rfl | rfl | rfl | rfl
    · exact ⟨tame_unique, fun h => absurd h (by decide)⟩
    all_goals trivial
  have hs := hs.mono hok
  exact ⟨s, hs, hlen, fun x hx =>
    (actions_exactly_once nestedBody (· = 1) hs).2.2.2 hempty x hx (hterm x hx)⟩

/-- The code `true` runs the scheduler, which takes the runnable of epochs 1 and 2. -/
def schedulerBody : Bool → List (Op Bool)
  | true => [.runActions 1 2]
  | false => []

/-- The action on epoch 1 registers another one there while it runs: that action is erased
with the bucket.  Its epoch is over and no runnable is left, but it has not been run, and its
encapsulating epoch has one unit that is never consumed.  An action on an epoch that is not over
is run at once if the window has the epoch marked.  An action that runs the scheduler is run twice,
and so is the one behind it. -/
theorem nested_action_lost :
    (∃ s : TermAction Bool, Reachable nestedBody 0 anyStep s ∧ s.runnables = [] ∧
      (∃ x ∈ s.registered, s.terminated x.call.epoch = true ∧ s.ran.count x = 0 ∧
        s.pending.count x = 0) ∧ s.produced 2 = 2 ∧ s.consumed 2 = 1) ∧
    (∃ s : TermAction Bool, Reachable nestedBody 0 anyStep s ∧ s.ended 1 = false ∧
      s.early.length = 1) ∧
    ∃ s : TermAction Bool, Reachable schedulerBody 2 anyStep s ∧ s.registered.length = 2 ∧
      ∀ x ∈ s.registered, s.ran.count x = 2 := by
  refine ⟨?_, ?_, ?_⟩
  · exact Reach.of_run (step nestedBody 0)
      [.addAction ⟨.plain, 1, 2, true⟩, .epochTerminated 1, .runActions 1 2, .runActions 1 2] _
      (show Init {} from ⟨_, _, rfl, rfl⟩) (by decide +kernel)
  · exact Reach.of_run (step nestedBody 0) [.addAction ⟨.plain, 1, 2, false⟩, .runActions 1 2] _
      (show Init { terminated := fun e => e != anyEpochSentinel } from ⟨_, _, rfl, rfl⟩)
      (by decide +kernel)
  · exact Reach.of_run (step schedulerBody 2)
      [.epochTerminated 1, .addAction ⟨.plain, 1, 2, true⟩, .addAction ⟨.plain, 1, 2, false⟩,
        .runActions 1 2] _ (show Init {} from ⟨_, _, rfl, rfl⟩) (by decide +kernel)

end TermAction
end VtRuntime.Termination
