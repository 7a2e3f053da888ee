import Mathlib.Data.Multiset.Filter
import VtRuntime.Epoch.Layout

/-!
# A send that happens when its object goes away

A `PendingSend` holds a message, a message and the action that sends it, or an action in an epoch.
It produces on the epoch when it is constructed, and on `release`, which the destructor calls, it
does what it holds and consumes.  A move takes what is held and copies the epoch.
-/

namespace VtRuntime.Messaging.Send

open Epoch Multiset

variable {M A B : Type}

/-- A message with what the constructor reads of its envelope. -/
structure Message (M : Type) where
  data : M
  isTerm : Bool
  isEpochType : Bool
  epoch : EpochType

/-- The calls that a `PendingSend` makes. -/
inductive Call (M A B : Type)
  | produce (ep : EpochType)
  | doMessageSend (msg : Option (Message M))
  | sendAction (action : A) (msg : Option (Message M))
  | epochAction (action : B)
  | consume (ep : EpochType)

def produce (ep : EpochType) : List (Call M A B) := if ep ≠ noEpoch then [.produce ep] else []

def consume (ep : EpochType) : List (Call M A B) := if ep ≠ noEpoch then [.consume ep] else []

structure PendingSend (M A B : Type) where
  msg : Option (Message M) := none
  sendAction : Option A := none
  epochAction : Option B := none
  epochProduced : EpochType := noEpoch

namespace PendingSend

variable (p : PendingSend M A B)

def getProduceEpochFromMsg : EpochType :=
  match p.msg with
  | none => noEpoch
  | some msg => if msg.isTerm || !msg.isEpochType then noEpoch else msg.epoch

def produceMsg : PendingSend M A B × List (Call M A B) :=
  ({ p with epochProduced := p.getProduceEpochFromMsg }, produce p.getProduceEpochFromMsg)

def consumeMsg : List (Call M A B) := consume p.epochProduced

def sendMsg : PendingSend M A B × List (Call M A B) :=
  ({ p with msg := none, sendAction := none },
    (match p.sendAction with
      | none => .doMessageSend p.msg
      | some action => .sendAction action p.msg) :: p.consumeMsg)

/-- A message and an epoch action at once fail an assertion. -/
def release : Option (PendingSend M A B × List (Call M A B)) :=
  let sendMsg := p.msg.isSome || p.sendAction.isSome
  if sendMsg && p.epochAction.isSome then none
  else if sendMsg then some p.sendMsg
  else match p.epochAction with
    | some action => some ({ p with epochAction := none }, .epochAction action :: p.consumeMsg)
    | none => some (p, [])

/-- The object that a move leaves.  The new one has the values of `p`. -/
def movedFrom : PendingSend M A B := { epochProduced := p.epochProduced }

/-- There is something to do. -/
def holds : Bool := p.msg.isSome || p.sendAction.isSome || p.epochAction.isSome

variable {p}

theorem release_of_not_holds (h : p.holds = false) : p.release = some (p, []) := by
  simp_all [holds, release]

end PendingSend

/-- The constructors. -/
inductive Construct (M A B : Type)
  | message (msg : Option (Message M)) (action : Option A)
  | epoch (ep : EpochType) (action : B)
  | nullptr

namespace Construct

def run : Construct M A B → PendingSend M A B × List (Call M A B)
  | .message msg action => PendingSend.produceMsg { msg, sendAction := action }
  | .epoch ep action => ({ epochAction := some action, epochProduced := ep }, produce ep)
  | .nullptr => ({}, [])

/-- What is to be done, once. -/
def action : Construct M A B → List (Call M A B)
  | .message msg (some action) => [.sendAction action msg]
  | .message (some msg) none => [.doMessageSend (some msg)]
  | .message none none => []
  | .epoch _ action => [.epochAction action]
  | .nullptr => []

/-- The epoch that is given: the one in the envelope of a message that is counted in epochs, or the
one of the action. -/
def epochGiven : Construct M A B → EpochType
  | .message (some ⟨_, false, true, ep⟩) _ => ep
  | .message _ _ => noEpoch
  | .epoch ep _ => ep
  | .nullptr => noEpoch

/-- The calls at first: one produce if there is an epoch. -/
def opening (c : Construct M A B) : List (Call M A B) :=
  if c.epochGiven = noEpoch then [] else [.produce c.epochGiven]

/-- The calls of the release: what is to be done, and then one consume on the same epoch. -/
def closing (c : Construct M A B) : List (Call M A B) :=
  if c.epochGiven = noEpoch then c.action else c.action ++ [.consume c.epochGiven]

variable (c : Construct M A B)

theorem epochProduced_run : c.run.1.epochProduced = c.epochGiven := by
  cases c with
  | message msg =>
    rcases msg with _ | ⟨_, _ | _, _ | _, _⟩ <;> rfl
  | epoch | nullptr => rfl

theorem run_calls : c.run.2 = c.opening := by
  have hcalls : c.run.2 = produce c.run.1.epochProduced := by
    cases c with
    | message | epoch => rfl
    | nullptr => exact (if_neg (not_not.mpr rfl)).symm
  rw [hcalls, epochProduced_run, produce, opening, ite_not]

theorem release_run : ∃ q, c.run.1.release = some (q, c.closing) ∧ q.holds = false := by
  have hclosing : c.closing = c.action ++ c.run.1.consumeMsg := by
    rw [closing, PendingSend.consumeMsg, epochProduced_run, consume]
    split_ifs with h <;> simp_all
  rw [hclosing]
  cases c with
  | message msg action =>
    cases action with
    | some action => cases msg <;> exact ⟨_, rfl, rfl⟩
    | none => cases msg <;> exact ⟨_, rfl, rfl⟩
  | epoch | nullptr => exact ⟨_, rfl, rfl⟩

end Construct

/-- The objects that come from one construction.  Book: which were moved from, and the calls. -/
structure Sends (M A B : Type) where
  objs : Multiset (PendingSend M A B × Bool)
  calls : List (Call M A B)

namespace Sends

variable (c : Construct M A B)

def start : Sends M A B := ⟨{(c.run.1, false)}, c.run.2⟩

/-- An object is moved to a new one, released or destroyed. -/
inductive Step : Sends M A B → Sends M A B → Prop
  | move {p b rest calls} :
      Step ⟨(p, b) ::ₘ rest, calls⟩ ⟨(p, false) ::ₘ (p.movedFrom, true) ::ₘ rest, calls⟩
  | release {p b rest calls q out} : p.release = some (q, out) →
      Step ⟨(p, b) ::ₘ rest, calls⟩ ⟨(q, b) ::ₘ rest, calls ++ out⟩
  | destroy {p b rest calls q out} : p.release = some (q, out) →
      Step ⟨(p, b) ::ₘ rest, calls⟩ ⟨rest, calls ++ out⟩

def Reaches : Sends M A B → Prop := Relation.ReflTransGen Step (start c)

/-- The objects that have something to do. -/
def held (objs : Multiset (PendingSend M A B × Bool)) : Multiset (PendingSend M A B × Bool) :=
  objs.filter (·.1.holds)

/-- No object that was moved from has anything to do.  All is to be done by one object, or is
done. -/
def Inv (s : Sends M A B) : Prop :=
  (∀ x ∈ s.objs, x.2 = true → x.1.holds = false) ∧
    (s.calls = c.opening ∧ held s.objs = held {(c.run.1, false)} ∨
      s.calls = c.opening ++ c.closing ∧ held s.objs = 0)

variable {c : Construct M A B} {s s' : Sends M A B} {p q : PendingSend M A B} {b : Bool}
  {rest : Multiset (PendingSend M A B × Bool)} {calls out : List (Call M A B)}

theorem held_cons_of_not (h : p.holds = false) : held ((p, b) ::ₘ rest) = held rest :=
  filter_cons_of_neg _ (by simpa using h)

theorem Inv.release (h : Inv c ⟨(p, b) ::ₘ rest, calls⟩) (hp : p.release = some (q, out)) :
    q.holds = false ∧ Inv c ⟨rest, calls ++ out⟩ := by
  obtain ⟨hmoved, hheld⟩ := h
  have hrest := fun x hx => hmoved x (mem_cons_of_mem hx)
  cases hholds : p.holds with
  | false =>
    obtain ⟨rfl, rfl⟩ : p = q ∧ [] = out := by
      simpa using (PendingSend.release_of_not_holds hholds).symm.trans hp
    rw [held_cons_of_not hholds] at hheld
    exact ⟨hholds, hrest, by simpa using hheld⟩
  | true =>
    have hcons : held ((p, b) ::ₘ rest) = (p, b) ::ₘ held rest := filter_cons_of_pos _ hholds
    rw [hcons] at hheld
    obtain ⟨hcalls, hheld⟩ | ⟨-, hheld⟩ := hheld
    · have hone : held {(c.run.1, false)} = if c.run.1.holds then {(c.run.1, false)} else 0 :=
        filter_singleton _
      rw [hone] at hheld
      split_ifs at hheld
      · obtain ⟨hc, hnone⟩ := (singleton_eq_cons_iff _).mp hheld.symm
        obtain ⟨rfl, -⟩ := Prod.mk.inj hc
        obtain ⟨q', hq', hempty⟩ := c.release_run
        obtain ⟨rfl, rfl⟩ : q' = q ∧ _ = out := by simpa using hq'.symm.trans hp
        exact ⟨hempty, hrest, .inr ⟨congrArg (· ++ _) hcalls, hnone⟩⟩
      · exact absurd hheld cons_ne_zero
    · exact absurd hheld cons_ne_zero

theorem Inv.step (h : Inv c s) (hs : Step s s') : Inv c s' := by
  cases hs with
  | @move p b rest calls =>
    refine ⟨fun x hx hmoved => ?_, ?_⟩
    · rw [mem_cons, mem_cons] at hx
      obtain rfl | rfl | hx := hx
      · cases hmoved
      · rfl
      · exact h.1 x (mem_cons_of_mem hx) hmoved
    · have hobj : held ((p, false) ::ₘ rest) = held ((p, b) ::ₘ rest) := by
        cases b with
        | false => rfl
        | true =>
          have hp := h.1 (p, true) (mem_cons_self _ _) rfl
          rw [held_cons_of_not hp, held_cons_of_not hp]
      rw [cons_swap, held_cons_of_not rfl, hobj]
      exact h.2
  | release hp =>
    obtain ⟨hq, hmoved, hheld⟩ := h.release hp
    refine ⟨fun x hx hx' => ?_, by rwa [held_cons_of_not hq]⟩
    obtain rfl | hx := mem_cons.mp hx
    · exact hq
    · exact hmoved x hx hx'
  | destroy hp => exact (h.release hp).2

end Sends

/-- Every object can be released, and one that was moved from then makes no call.  Either what was
constructed is held by one object and there was only the produce, or there was the produce, the send
or action and the consume, and nothing is held.  When no object is left, it is the latter. -/
theorem pendingSend_balanced {c : Construct M A B} {s : Sends M A B} (h : s.Reaches c) :
    (∀ x ∈ s.objs, ∃ q out, x.1.release = some (q, out) ∧ (x.2 = true → out = [])) ∧
    (s.calls = c.opening ∧ Sends.held s.objs = Sends.held {(c.run.1, false)} ∨
      s.calls = c.opening ++ c.closing ∧ Sends.held s.objs = 0) ∧
    (s.objs = 0 → s.calls = c.opening ++ c.closing) := by
  have hinv : Sends.Inv c s := by
    induction h with
    | refl => exact ⟨by simp [Sends.start], .inl ⟨c.run_calls, rfl⟩⟩
    | tail _ hs ih => exact ih.step hs
  obtain ⟨q, hq, -⟩ := c.release_run
  refine ⟨fun x hx => ?_, hinv.2, fun hnone => ?_⟩
  · cases hholds : x.1.holds with
    | false => exact ⟨_, _, PendingSend.release_of_not_holds hholds, fun _ => rfl⟩
    | true =>
      have hmem : x ∈ Sends.held s.objs := mem_filter.mpr ⟨hx, hholds⟩
      obtain ⟨-, hheld⟩ | ⟨-, hheld⟩ := hinv.2
      · rw [hheld] at hmem
        obtain rfl := mem_singleton.mp (mem_of_mem_filter hmem)
        exact ⟨q, _, hq, nofun⟩
      · exact absurd (hheld ▸ hmem) (notMem_zero x)
  · obtain ⟨hcalls, hheld⟩ | ⟨hcalls, -⟩ := hinv.2
    · -- nothing was to be done
      rw [hnone] at hheld
      have hc : c.run.1.holds = false := by
        simpa using filter_eq_nil.mp hheld.symm (c.run.1, false) (mem_singleton_self _)
      have hout := hq.symm.trans (PendingSend.release_of_not_holds hc)
      rw [hcalls, (Prod.mk.inj (Option.some.inj hout)).2, List.append_nil]
    · exact hcalls

/-- A message is moved to a second object, and both are destroyed. -/
theorem pendingSend_balanced_moved : ∃ s : Sends ℕ ℕ ℕ,
    s.Reaches (.message (some ⟨0, false, true, 7⟩) none) ∧ s.objs = 0 ∧
      s.calls = [.produce 7, .doMessageSend (some ⟨0, false, true, 7⟩), .consume 7] := by
  have hrun : Sends.Reaches (.message (some ⟨0, false, true, 7⟩) none : Construct ℕ ℕ ℕ) ⟨0, _⟩ :=
    ((Relation.ReflTransGen.refl.tail .move).tail (.destroy rfl)).tail (.destroy rfl)
  exact ⟨_, hrun, rfl, (pendingSend_balanced hrun).2.2 rfl⟩

end VtRuntime.Messaging.Send
