import Mathlib.Algebra.Group.Prod
import Mathlib.Algebra.Group.Int.Defs

/-!
# The wave state of an epoch on one node

`termination/term_state.{h,cc}` and the part of `termination.cc` that acts on one
`TermState`: the four counters, the wave numbers and `propagateEpoch`.  What
`propagateEpoch` sends is returned as an `Outcome`.
-/

namespace VtRuntime.Termination

/-- The state of the four-counter wave for one epoch on one node. -/
structure TermState where
  lProd : ℤ := 0
  lCons : ℤ := 0
  gProd1 : ℤ := 0
  gCons1 : ℤ := 0
  gProd2 : ℤ := 0
  gCons2 : ℤ := 0
  constantCount : ℕ := 0
  localTerminated : Bool := true
  epochActive : Bool := true
  termDetected : Bool := false
  deps : ℤ := 0
  recvChildCount : ℕ := 0
  numChildren : ℕ
  curWave : ℤ := 0
  submittedWave : ℤ := -1
deriving DecidableEq, Repr

/-- What a call of `propagateEpoch` leads to: nothing, the counters sent to the parent,
or at the root the evaluated counters with termination or with the next wave. -/
inductive Outcome
  | idle
  | submitted (counters : ℤ × ℤ)
  | detected (counters : ℤ × ℤ)
  | continued (counters : ℤ × ℤ) (wave : ℤ)
deriving DecidableEq, Repr

namespace TermState

variable (st : TermState)

def notifyChildReceive : TermState :=
  { st with recvChildCount := st.recvChildCount + 1 }

def setTerminated : TermState := { st with termDetected := true }

def activateEpoch : TermState := { st with epochActive := true }

def notifyLocalTerminated (terminated : Bool) : TermState :=
  { st with localTerminated := terminated }

def submitToParent : TermState :=
  { st with submittedWave := st.submittedWave + 1, recvChildCount := 0 }

def receiveContinueSignal (wave : ℤ) : TermState :=
  { st with curWave := wave }

def incrementDependency : TermState := { st with deps := st.deps + 1 }

def decrementDependency : TermState := { st with deps := st.deps - 1 }

def readySubmitParent : Bool :=
  st.epochActive && st.localTerminated && st.deps == 0 &&
    st.recvChildCount == st.numChildren && st.submittedWave == st.curWave - 1 &&
    !st.termDetected

/-- Count units as produced or as consumed. -/
def addUnits (numUnits : ℕ) (produce : Bool) : TermState :=
  if produce then { st with lProd := st.lProd + numUnits }
  else { st with lCons := st.lCons + numUnits }

/-- Add the counters a child sent. -/
def addChild (prod cons : ℤ) : TermState :=
  { st with gProd1 := st.gProd1 + prod, gCons1 := st.gCons1 + cons }

/-- The global counters of a wave with the node's own added. -/
def counted : ℤ × ℤ := (st.gProd1 + st.lProd, st.gCons1 + st.lCons)

/-- The four-counter test. -/
def isTerm : Bool :=
  st.counted.1 == st.counted.2 && st.gProd2 == st.gCons2 && st.counted.1 == st.gProd2

/-- After the counters were sent to the parent. -/
def afterSubmit : TermState :=
  { st with gProd1 := 0, gCons1 := 0 }.submitToParent

/-- At the root, when the test has succeeded. -/
def afterDetect : TermState :=
  { st with gProd1 := st.counted.1, gCons1 := st.counted.2 }.setTerminated

/-- At the root, when the test has failed: the counters become those of the wave before
and the next wave begins. -/
def afterContinue : TermState :=
  { st with
    constantCount :=
      if st.gProd2 = st.counted.1 ∧ st.gCons2 = st.counted.2 then st.constantCount + 1 else 0
    gProd2 := st.counted.1
    gCons2 := st.counted.2
    gProd1 := 0
    gCons1 := 0
    curWave := st.curWave + 1 }.submitToParent

/-- Submit the counters of a finished wave: to the parent, or at the root to the
four-counter test. -/
def propagateEpoch (isRoot : Bool) (st : TermState) : TermState × Outcome :=
  if st.readySubmitParent then
    if !isRoot then (st.afterSubmit, .submitted st.counted)
    else if st.isTerm then (st.afterDetect, .detected st.counted)
    else (st.afterContinue, .continued st.counted (st.curWave + 1))
  else (st, .idle)

/-- The local counters as a pair. -/
def loc : ℤ × ℤ := (st.lProd, st.lCons)

/-- The counters accumulated for the current wave. -/
def acc1 : ℤ × ℤ := (st.gProd1, st.gCons1)

/-- The counters of the wave before. -/
def acc2 : ℤ × ℤ := (st.gProd2, st.gCons2)

theorem counted_eq : st.counted = st.acc1 + st.loc := rfl

theorem isTerm_iff : st.isTerm = true ↔ st.counted = st.acc2 ∧ st.acc2.1 = st.acc2.2 := by
  simp only [isTerm, acc2, Bool.and_eq_true, beq_iff_eq, Prod.ext_iff]
  omega

theorem readySubmitParent_iff : st.readySubmitParent = true ↔
      st.epochActive = true ∧ st.localTerminated = true ∧ st.deps = 0 ∧
        st.recvChildCount = st.numChildren ∧ st.submittedWave = st.curWave - 1 ∧
        st.termDetected = false := by
  simp [readySubmitParent, and_assoc]

end TermState
end VtRuntime.Termination
