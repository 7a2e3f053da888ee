import Mathlib.Data.List.Basic
import Mathlib.Tactic.Ring

/-!
# The Dijkstra–Scholten state of an epoch on one node

`termination/dijkstra-scholten/ds.{h,cc}`: credit, debt and the outstanding
acknowledgement requests of one node.  The calls into `StateDS` are returned as a list of
effects, in the order in which they are made.

Between two calls a node is in one of two situations: it is idle, or it holds exactly one
outstanding request, that of the node that engaged it, or at the root the request to
itself that the root starts with.
-/

namespace VtRuntime.Termination

universe u

/-- A request for an acknowledgement. -/
structure AckRequest (N : Type u) where
  pred : N
  count : ℤ
deriving DecidableEq

/-- The state of one node; `parent` is `none` where the source has `-1`. -/
structure TermDS (N : Type u) where
  parent : Option N := none
  self : N
  C : ℤ := 0
  ackedArbitrary : ℤ := 0
  ackedParent : ℤ := 0
  reqedParent : ℤ := 0
  engagementMessageCount : ℤ := 0
  D : ℤ := 0
  processedSum : ℤ := 0
  lC : ℤ := 0
  lD : ℤ := 0
  outstanding : List (AckRequest N) := []
  isTerminated : Bool := false

/-- The calls a node makes into its communication layer. -/
inductive EffectDS (N : Type u)
  | acknowledge (predecessor : N) (count : ℤ)
  | rootTerminated
  | disengage
deriving DecidableEq

namespace TermDS

variable {N : Type u} [DecidableEq N]

/-- A new state; the root starts with a request to itself. -/
def make (isRoot : Bool) (self : N) : TermDS N :=
  { self, outstanding := if isRoot then [⟨self, 0⟩] else [] }

def isEngaged (t : TermDS N) : Bool := decide (0 < t.engagementMessageCount)

def msgSent (t : TermDS N) (successor : N) (count : ℤ) : TermDS N :=
  if successor = t.self then { t with lD := t.lD + count } else { t with D := t.D + count }

/-- Acknowledge the last request beyond the first. -/
def tryAck (t : TermDS N) : TermDS N × List (EffectDS N) :=
  if t.outstanding.length ≤ 1 then (t, [])
  else
    match t.outstanding.getLast? with
    | none => (t, [])
    | some a =>
        if a.count ≤ t.C then
          ({ t with
              C := t.C - a.count
              ackedParent := if t.parent = some a.pred then t.ackedParent + a.count
                else t.ackedParent
              ackedArbitrary := if t.parent = some a.pred then t.ackedArbitrary
                else t.ackedArbitrary + a.count
              outstanding := t.outstanding.dropLast }, [.acknowledge a.pred a.count])
        else (t, [])

/-- The state after the last request was answered. -/
def reset (t : TermDS N) (terminated : Bool) : TermDS N :=
  { t with
    parent := none
    C := 0, ackedParent := 0, ackedArbitrary := 0, reqedParent := 0
    engagementMessageCount := 0, processedSum := 0
    outstanding := t.outstanding.dropLast
    isTerminated := t.isTerminated || terminated }

/-- Answer the last request when no local unit and no debt is left. -/
def tryLast (t : TermDS N) : TermDS N × List (EffectDS N) :=
  if t.outstanding.length ≠ 1 ∨ t.lC ≠ t.lD then (t, [])
  else if t.reqedParent - t.ackedParent = t.engagementMessageCount ∧ t.D = 0 ∧
      t.C = t.engagementMessageCount then
    match t.outstanding.getLast? with
    | none => (t, [])
    | some a =>
        if a.pred = t.self then (t.reset true, [.rootTerminated, .disengage])
        else
          match t.parent with
          | none => (t.reset false, [.disengage])
          | some p => (t.reset false, [.acknowledge p t.engagementMessageCount, .disengage])
  else (t, [])

def gotAck (t : TermDS N) (count : ℤ) : TermDS N × List (EffectDS N) :=
  { t with D := t.D - count }.tryLast

/-- Add to the request of a predecessor, or append a new one. -/
def addRequest (predecessor : N) (count : ℤ) : List (AckRequest N) → List (AckRequest N)
  | [] => [⟨predecessor, count⟩]
  | a :: rest =>
      if a.pred = predecessor then { a with count := a.count + count } :: rest
      else a :: addRequest predecessor count rest

/-- Credit for a message, local or not, before anything is acknowledged. -/
def credit (t : TermDS N) (predecessor : N) (count : ℤ) : TermDS N :=
  if predecessor = t.self then { t with lC := t.lC + count }
  else { t with C := t.C + count, processedSum := t.processedSum + count }

/-- Enter the request of a message that came from another node; the first request, that
of the parent, is not searched. -/
def enterRequest (t : TermDS N) (predecessor : N) (count : ℤ) : TermDS N :=
  if predecessor = t.self then t
  else
    match t.outstanding with
    | [] =>
        { t with
          parent := some predecessor
          engagementMessageCount := count
          outstanding := [⟨predecessor, count⟩] }
    | a :: rest => { t with outstanding := a :: addRequest predecessor count rest }

def msgProcessed (t : TermDS N) (predecessor : N) (count : ℤ) :
    TermDS N × List (EffectDS N) :=
  let t₁ := (t.credit predecessor count).enterRequest predecessor count
  let t₂ := if t₁.parent = some predecessor then
    { t₁ with reqedParent := t₁.reqedParent + count } else t₁
  let (t₃, acks) := t₂.tryAck
  let (t₄, last) := t₃.tryLast
  (t₄, acks ++ last)

/-! ## The two situations -/

/-- No request and no credit or debt; local units are not excluded. -/
structure Vacant (t : TermDS N) : Prop where
  outstanding : t.outstanding = []
  parent : t.parent = none
  C : t.C = 0
  ackedArbitrary : t.ackedArbitrary = 0
  ackedParent : t.ackedParent = 0
  reqedParent : t.reqedParent = 0
  engagementMessageCount : t.engagementMessageCount = 0
  D : t.D = 0
  processedSum : t.processedSum = 0

/-- The one outstanding request is that of the parent, or at the root that to itself.  The
field `processed` is what the source asserts as its invariant. -/
structure Active (t : TermDS N) (a : AckRequest N) : Prop where
  outstanding : t.outstanding = [a]
  count : a.count = t.engagementMessageCount
  C : t.C = t.engagementMessageCount
  requested : t.reqedParent - t.ackedParent = t.engagementMessageCount
  processed : t.C = t.processedSum - (t.ackedArbitrary + t.ackedParent)
  kind : (a.pred ≠ t.self ∧ t.parent = some a.pred ∧ 0 < t.engagementMessageCount) ∨
    (a.pred = t.self ∧ t.parent = none ∧ t.engagementMessageCount = 0)

variable {t : TermDS N} {a : AckRequest N}

omit [DecidableEq N] in
/-- The local counters and the debt may change freely. -/
theorem Active.of_eq {t' : TermDS N} (h : Active t a)
    (ht : t' = { t with D := t'.D, lC := t'.lC, lD := t'.lD }) : Active t' a := by
  rw [ht]
  exact { h with }

theorem msgSent_self {n : N} (h : t.self = n) (count : ℤ) :
    t.msgSent n count = { t with lD := t.lD + count } := if_pos h.symm

theorem msgSent_of_ne {successor : N} (h : successor ≠ t.self) (count : ℤ) :
    t.msgSent successor count = { t with D := t.D + count } := if_neg h

/-- The last request is answered as soon as no local unit and no debt is left. -/
theorem tryLast_of_active (h : Active t a) :
    t.tryLast =
      if t.lC = t.lD ∧ t.D = 0 then
        (t.reset (decide (a.pred = t.self)), if a.pred = t.self then [.rootTerminated, .disengage]
          else [.acknowledge a.pred t.engagementMessageCount, .disengage])
      else (t, []) := by
  by_cases hl : t.lC = t.lD
  · by_cases hd : t.D = 0
    · rcases h.kind with ⟨hne, hp, -⟩ | ⟨heq, hp, -⟩
      · simp [tryLast, h.outstanding, hl, hd, h.requested, h.C, hne, hp]
      · simp [tryLast, h.outstanding, hl, hd, h.requested, h.C, heq]
    · simp [tryLast, h.outstanding, hl, hd]
  · simp [tryLast, hl]

omit [DecidableEq N] in
/-- After the last request was answered nothing is left. -/
theorem vacant_reset (h : Active t a) (hd : t.D = 0) (terminated : Bool) :
    Vacant (t.reset terminated) :=
  { outstanding := by simp [reset, h.outstanding], parent := rfl, C := rfl
    ackedArbitrary := rfl, ackedParent := rfl, reqedParent := rfl
    engagementMessageCount := rfl, D := hd, processedSum := rfl }

theorem msgProcessed_self (h : Active t a) {n : N} (hn : t.self = n) (count : ℤ) :
    t.msgProcessed n count = { t with lC := t.lC + count }.tryLast := by
  subst hn
  have hp : t.parent ≠ some t.self := by
    rcases h.kind with ⟨hne, hp, -⟩ | ⟨-, hp, -⟩
    · rw [hp]
      exact fun heq => hne (Option.some.inj heq)
    · rw [hp]
      exact (Option.some_ne_none _).symm
  simp [msgProcessed, credit, enterRequest, hp, tryAck, h.outstanding]

/-- A message that finds the node active is acknowledged at once. -/
theorem msgProcessed_active (h : Active t a) {pred : N} (hne : pred ≠ t.self) (hl : t.lC ≠ t.lD)
    (count : ℤ) :
    ∃ t', t.msgProcessed pred count = (t', [.acknowledge pred count]) ∧ Active t' a ∧
      t'.self = t.self ∧ t'.parent = t.parent ∧ t'.D = t.D ∧ t'.lC = t.lC ∧ t'.lD = t.lD ∧
      t'.engagementMessageCount = t.engagementMessageCount := by
  have hemc : 0 ≤ t.engagementMessageCount := by
    rcases h.kind with ⟨-, -, hk⟩ | ⟨-, -, hk⟩ <;> omega
  have hC := h.C
  have hle : count ≤ t.C + count := by omega
  have h1 := h.requested
  have h2 := h.processed
  by_cases hp : t.parent = some pred
  · refine ⟨{ t with
      processedSum := t.processedSum + count, reqedParent := t.reqedParent + count
      ackedParent := t.ackedParent + count }, ?_, ?_, rfl, rfl, rfl, rfl, rfl, rfl⟩
    · simp [msgProcessed, credit, enterRequest, hne, h.outstanding, addRequest, hp, tryAck,
        hle, tryLast, hl]
    · exact
        { outstanding := h.outstanding, count := h.count, C := h.C
          requested := by simp only; omega, processed := by simp only; omega, kind := h.kind }
  · refine ⟨{ t with
      processedSum := t.processedSum + count, ackedArbitrary := t.ackedArbitrary + count },
      ?_, ?_, rfl, rfl, rfl, rfl, rfl, rfl⟩
    · simp [msgProcessed, credit, enterRequest, hne, h.outstanding, addRequest, hp, tryAck,
        hle, tryLast, hl]
    · exact
        { outstanding := h.outstanding, count := h.count, C := h.C
          requested := h.requested, processed := by simp only; omega, kind := h.kind }

theorem msgProcessed_vacant (h : Vacant t) {pred : N} (hne : pred ≠ t.self) (hl : t.lC ≠ t.lD)
    (count : ℤ) (hc : 0 < count) :
    ∃ t', t.msgProcessed pred count = (t', []) ∧ Active t' ⟨pred, count⟩ ∧
      t'.self = t.self ∧ t'.parent = some pred ∧ t'.D = 0 ∧ t'.lC = t.lC ∧ t'.lD = t.lD ∧
      t'.engagementMessageCount = count := by
  refine ⟨{ t with
    parent := some pred, C := count, processedSum := count, reqedParent := count
    engagementMessageCount := count, outstanding := [⟨pred, count⟩] }, ?_, ?_, rfl, rfl, h.D,
    rfl, rfl, rfl⟩
  · simp [msgProcessed, credit, enterRequest, hne, h.outstanding, h.C, h.processedSum,
      h.reqedParent, tryAck, tryLast, hl]
  · exact
      { outstanding := rfl, count := rfl, C := rfl
        requested := by simp [h.ackedParent]
        processed := by simp [h.ackedArbitrary, h.ackedParent]
        kind := .inl ⟨hne, rfl, hc⟩ }

end TermDS
end VtRuntime.Termination
