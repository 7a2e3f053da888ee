import VtRuntime.Lib.Closure
import VtRuntime.Termination.NodeDetector

/-!
# Dependencies between epochs

An epoch holds one unit, and on a wave epoch one dependency, on each of its successors, which
therefore must terminate after it.  `addDependency` drops those edges that the new successor
implies.  The books say how many units and dependencies on each epoch come from elsewhere.
-/

namespace VtRuntime.Termination

open Epoch Lib Function NodeDetector SuccessorBag

/-- An epoch other than the sentinels. -/
def Proper (e : EpochType) : Prop := e ≠ anyEpochSentinel ∧ e ≠ noEpoch

instance (e : EpochType) : Decidable (Proper e) :=
  inferInstanceAs (Decidable (e ≠ anyEpochSentinel ∧ e ≠ noEpoch))

instance : Finite EpochType := Finite.of_injective BitVec.toFin fun _ _ h => BitVec.eq_of_toFin_eq h

namespace NodeDetector

variable {I : Place} (d : NodeDetector I)

def Successor (p s : EpochType) : Prop := s ∈ (d.successors p).1

instance (e : EpochType) : DecidablePred fun x => d.Successor x e :=
  fun x => inferInstanceAs (Decidable (e ∈ (d.successors x).1))

/-- An epoch must terminate before another one. -/
def Before : EpochType → EpochType → Prop := Relation.TransGen d.Successor

/-- The number of epochs that have `e` among their successors. -/
noncomputable def dependents (e : EpochType) : ℕ := Set.ncard {x | d.Successor x e}

/-- Produced less consumed units. -/
def balance (e : EpochType) : ℤ := (d.units e).1 - (d.units e).2

variable {d} in
theorem dependents_congr {d' : NodeDetector I} (h : d'.successors = d.successors) :
    d'.dependents = d.dependents := by
  funext e
  simp only [dependents, Successor, h]

/-! ## What the operations leave unchanged -/

section

variable (x : EpochType)

@[simp] theorem produceConsume_frame (n : ℕ) (b : Bool) :
    (d.produceConsume x n b).successors = d.successors ∧
      (d.produceConsume x n b).isTerminated = d.isTerminated := by
  unfold produceConsume
  repeat' split
  all_goals exact ⟨rfl, rfl⟩

@[simp] theorem getEpochDep_frame : (d.getEpochDep x).successors = d.successors ∧
    (d.getEpochDep x).isTerminated = d.isTerminated := by
  unfold getEpochDep
  split <;> exact ⟨rfl, rfl⟩

@[simp] theorem addEpochStateDependency_frame :
    (d.addEpochStateDependency x).successors = d.successors ∧
      (d.addEpochStateDependency x).isTerminated = d.isTerminated := by
  unfold addEpochStateDependency
  split <;> exact ⟨rfl, rfl⟩

@[simp] theorem removeEpochStateDependency_frame :
    (d.removeEpochStateDependency x).successors = d.successors ∧
      (d.removeEpochStateDependency x).isTerminated = d.isTerminated := by
  unfold removeEpochStateDependency
  dsimp only
  repeat' split
  all_goals exact ⟨rfl, rfl⟩

@[simp] theorem release_frame : (d.release x).successors = d.successors ∧
    (d.release x).isTerminated = d.isTerminated := by
  simp [release, consume]

end

@[simp] theorem successors_setSuccessors (p : EpochType) (s : SuccessorBag) :
    (d.setSuccessors p s).successors p = s := by
  simp [setSuccessors]

variable {p x e s : EpochType} {l : List EpochType}

theorem successors_setSuccessors_of_ne (hx : x ≠ p) (s : SuccessorBag) :
    (d.setSuccessors p s).successors x = d.successors x := by
  simp [setSuccessors, hx]

theorem foldl_release_frame (l : List EpochType) :
    (l.foldl release d).successors = d.successors ∧
      (l.foldl release d).isTerminated = d.isTerminated := by
  induction l generalizing d with
  | nil => exact ⟨rfl, rfl⟩
  | cons x l ih => simpa using ih (d.release x)

/-- Some of the successors of an epoch are released. -/
theorem setSuccessors_release_frame (l : List EpochType) (p : EpochType) (s : SuccessorBag) :
    ((l.foldl release d).setSuccessors p s).isTerminated = d.isTerminated ∧
      ∀ x, x ≠ p → ((l.foldl release d).setSuccessors p s).successors x = d.successors x := by
  refine ⟨(foldl_release_frame d l).2, fun x hx => ?_⟩
  rw [successors_setSuccessors_of_ne _ hx, (foldl_release_frame d l).1]

/-! ## What the operations count -/

theorem balance_produceConsume (hx : Proper x) (n : ℕ) (b : Bool) (e : EpochType) :
    (d.produceConsume (if x = noEpoch then anyEpochSentinel else x) n b).balance e =
      d.balance e + if e = x then if b then (n : ℤ) else -n else 0 := by
  rw [if_neg hx.2, balance, balance, units_produceConsume d hx.1]
  split
  · cases b <;> simp only [change, Prod.fst_add, Prod.snd_add, if_true, Bool.false_eq_true,
      if_false] <;>
      omega
  · omega

theorem units_setState_of_loc {s : TermState} (hx : isDS x = false) (hst : s.loc = d.units x)
    (e : EpochType) : (d.setState x s).units e = d.units e := by
  rw [units_setState d hx, hst]
  split
  · next he => rw [he]
  · rfl

theorem deps_setState_add {s : TermState} {k : ℤ} (hst : s.deps = d.deps x + k) (e : EpochType) :
    (d.setState x s).deps e = d.deps e + if e = x then k else 0 := by
  rw [deps_setState, hst]
  split
  · next he => rw [he]
  · exact (add_zero _).symm

@[simp] theorem units_getEpochDep (x e : EpochType) : (d.getEpochDep x).units e = d.units e := by
  unfold getEpochDep
  cases hx : isDS x with
  | false => exact d.units_setState_of_loc hx (loc_findOrCreateState d hx false) e
  | true =>
    simp only [if_true]
    rw [units_setDSTerm d hx, loc_getDSTerm d hx]
    split
    · next he => rw [he]
    · rfl

@[simp] theorem deps_getEpochDep (x e : EpochType) : (d.getEpochDep x).deps e = d.deps e := by
  unfold getEpochDep
  split
  · rfl
  · rw [d.deps_setState_add (k := 0) ((deps_findOrCreateState d x false).trans (add_zero _).symm)]
    simp

@[simp] theorem units_addEpochStateDependency (x e : EpochType) :
    (d.addEpochStateDependency x).units e = d.units e := by
  unfold addEpochStateDependency
  cases hx : isDS x with
  | false =>
    refine d.units_setState_of_loc hx ?_ e
    exact loc_findOrCreateState d hx true
  | true => rfl

theorem ne_of_isDS (hx : isDS x = true) (he : isDS e = false) : e ≠ x := by
  rintro rfl
  simp [he] at hx

theorem deps_addEpochStateDependency (x : EpochType) (he : isDS e = false) :
    (d.addEpochStateDependency x).deps e = d.deps e + if e = x then 1 else 0 := by
  unfold addEpochStateDependency
  split
  · next hx => simp [ne_of_isDS hx he]
  · exact d.deps_setState_add (congrArg (· + 1) (deps_findOrCreateState d x true)) e

@[simp] theorem units_removeEpochStateDependency (x e : EpochType) :
    (d.removeEpochStateDependency x).units e = d.units e := by
  unfold removeEpochStateDependency
  cases hx : isDS x with
  | false =>
    have hset := d.units_setState_of_loc (s := (d.findOrCreateState x true).decrementDependency)
      hx (loc_findOrCreateState d hx true) e
    simp only [Bool.false_eq_true, if_false]
    split
    · rw [(maybePropagate_frame _ _).1, hset]
    · exact hset
  | true => rfl

theorem deps_removeEpochStateDependency (x : EpochType) (he : isDS e = false) :
    (d.removeEpochStateDependency x).deps e = d.deps e + if e = x then -1 else 0 := by
  unfold removeEpochStateDependency
  split
  · next hx => simp [ne_of_isDS hx he]
  · have hset := d.deps_setState_add (s := (d.findOrCreateState x true).decrementDependency)
      (congrArg (· - 1) (deps_findOrCreateState d x true)) e
    dsimp only
    split
    · rw [(maybePropagate_frame _ _).2, hset]
    · exact hset

theorem balance_release (hx : Proper x) (e : EpochType) :
    (d.release x).balance e = d.balance e + if e = x then -1 else 0 := by
  rw [balance, release, units_removeEpochStateDependency]
  exact balance_produceConsume d hx 1 false e

theorem deps_release (x : EpochType) (he : isDS e = false) :
    (d.release x).deps e = d.deps e + if e = x then -1 else 0 := by
  rw [release, deps_removeEpochStateDependency _ x he, consume, deps_produceConsume]

/-- Whether an epoch is in a list, as a number. -/
def has (l : List EpochType) (e : EpochType) : ℤ := if e ∈ l then 1 else 0

theorem has_cons (hx : x ∉ l) (e : EpochType) :
    has (x :: l) e = (if e = x then 1 else 0) + has l e := by
  by_cases he : e = x
  · subst he
    simp [has, hx]
  · simp [has, he]

/-- The loops of `removeIntersection` and `clearSuccessors`. -/
theorem foldl_release (hl : l.Nodup) (hp : ∀ x ∈ l, Proper x) (e : EpochType) :
    (l.foldl release d).balance e = d.balance e - has l e ∧
      (isDS e = false → (l.foldl release d).deps e = d.deps e - has l e) := by
  induction l generalizing d with
  | nil => simp [has]
  | cons x l ih =>
    obtain ⟨hx, hl⟩ := List.nodup_cons.mp hl
    obtain ⟨hbal, hdeps⟩ := ih (d.release x) hl fun y hy => hp y (List.mem_cons_of_mem x hy)
    rw [List.foldl_cons, has_cons hx]
    refine ⟨?_, fun he => ?_⟩
    · rw [hbal, balance_release d (hp x List.mem_cons_self)]
      split <;> omega
    · rw [hdeps he, deps_release d x he]
      split <;> omega

/-! ## Changes of the graph -/

/-- The detector `d'` differs from `d` in the successors of `p` only, and counts what changed. -/
structure Rewired (d d' : NodeDetector I) (p : EpochType) : Prop where
  other : ∀ x, x ≠ p → d'.successors x = d.successors x
  balance : ∀ e, d'.balance e = d.balance e + (has (d'.successors p).1 e - has (d.successors p).1 e)
  deps : ∀ e, isDS e = false →
    d'.deps e = d.deps e + (has (d'.successors p).1 e - has (d.successors p).1 e)

variable {d}

theorem Rewired.dependents {d' : NodeDetector I} (h : Rewired d d' p) (e : EpochType) :
    (d'.dependents e : ℤ) =
      d.dependents e + (has (d'.successors p).1 e - has (d.successors p).1 e) := by
  have hother : ∀ x, x ≠ p → (d'.Successor x e ↔ d.Successor x e) := by
    intro x hx
    rw [Successor, Successor, h.other x hx]
  exact ncard_change p hother

theorem Rewired.trans {d₁ d₂ d₃ : NodeDetector I} (h : Rewired d₁ d₂ p) (h' : Rewired d₂ d₃ p) :
    Rewired d₁ d₃ p where
  other x hx := (h'.other x hx).trans (h.other x hx)
  balance e := by
    have := h.balance e
    have := h'.balance e
    omega
  deps e he := by
    have := h.deps e he
    have := h'.deps e he
    omega

theorem rewired_release {s : SuccessorBag} (hl : l.Nodup) (hp : ∀ x ∈ l, Proper x)
    (hs : ∀ e, has s.1 e = has (d.successors p).1 e - has l e) :
    Rewired d ((l.foldl release d).setSuccessors p s) p where
  other := (d.setSuccessors_release_frame l p s).2
  balance e := by
    have hbal := (foldl_release d hl hp e).1
    rw [successors_setSuccessors, hs]
    change (l.foldl release d).balance e = _
    omega
  deps e he := by
    have hdeps := (foldl_release d hl hp e).2 he
    rw [successors_setSuccessors, hs]
    change (l.foldl release d).deps e = _
    omega

theorem rewired_clearSuccessors (hp : ∀ x ∈ (d.successors p).1, Proper x) :
    Rewired d (d.clearSuccessors p) p :=
  rewired_release (d.successors p).2 hp fun e => by simp [empty, has]

theorem rewired_removeIntersection (hp : ∀ x ∈ (d.successors p).1, Proper x) (s : SuccessorBag) :
    Rewired d (d.removeIntersection p s) p := by
  refine rewired_release (s.inter (d.successors p)).2
    (fun x hx => hp x (mem_inter.mp hx).2) ?_
  intro e
  simp only [has, mem_diff, mem_inter]
  by_cases hs : e ∈ s.1 <;> by_cases he : e ∈ (d.successors p).1 <;> simp [hs, he]

theorem rewired_addSuccessor (hs : Proper s) : Rewired d (d.addSuccessor p s) p := by
  unfold addSuccessor
  split
  · exact ⟨fun _ _ => rfl, fun e => by omega, fun e _ => by omega⟩
  · next hnot =>
    simp only [produce, produceConsume_frame]
    have hhas : ∀ e, has ((d.successors p).insert s).1 e =
        has (d.successors p).1 e + if e = s then 1 else 0 := by
      intro e
      by_cases he : e = s
      · subst he
        simp [has, hnot]
      · simp [has, he]
    have hsucc : ∀ d' : NodeDetector I,
        ((d'.setSuccessors p ((d.successors p).insert s)).addEpochStateDependency s).successors p =
          (d.successors p).insert s := by
      intro d'
      simp [setSuccessors]
    refine ⟨fun x hx => by simp [setSuccessors, hx], fun e => ?_, fun e he => ?_⟩
    · rw [hsucc, hhas, balance, units_addEpochStateDependency, add_sub_cancel_left]
      exact balance_produceConsume d hs 1 true e
    · rw [hsucc, hhas, deps_addEpochStateDependency _ s he]
      have hdeps :
          ((d.produceConsume (if s = noEpoch then anyEpochSentinel else s) 1 true).setSuccessors p
          ((d.successors p).insert s)).deps e = d.deps e := deps_produceConsume d _ 1 true e
      rw [hdeps]
      omega

theorem rewired_addDependency (hlive : d.isTerminated p = false) (hs : Proper s)
    (hp : ∀ x ∈ (d.successors p).1, Proper x) : Rewired d (d.addDependency p s) p := by
  unfold addDependency
  rw [hlive]
  simp only [Bool.false_eq_true, if_false]
  set d₁ := (d.getEpochDep p).getEpochDep s with hd₁
  have hsucc : d₁.successors = d.successors := by simp [hd₁]
  have hsame : Rewired d d₁ p :=
    ⟨fun x _ => by rw [hsucc], fun e => by simp [hd₁, balance], fun e _ => by simp [hd₁]⟩
  rw [← hsucc] at hp
  exact (hsame.trans (rewired_removeIntersection hp _)).trans (rewired_addSuccessor hs)

theorem successor_addDependency (hlive : d.isTerminated p = false) (y : EpochType) :
    (d.addDependency p s).Successor p y ↔ y = s ∨ d.Successor p y ∧ ¬ d.Successor s y := by
  unfold addDependency
  rw [hlive]
  simp only [Bool.false_eq_true, if_false]
  set d₁ := (d.getEpochDep p).getEpochDep s with hd₁
  have hsucc : d₁.successors = d.successors := by simp [hd₁]
  have hrem : y ∈ ((d₁.removeIntersection p (d₁.successors s)).successors p).1 ↔
      d.Successor p y ∧ ¬ d.Successor s y := by
    rw [removeIntersection, successors_setSuccessors, mem_diff, mem_inter, hsucc]
    exact and_congr_right fun hy => not_congr (and_iff_left hy)
  unfold addSuccessor
  split
  · next hmem =>
    rw [Successor, hrem, iff_or_self]
    rintro rfl
    exact hrem.mp hmem
  · rw [Successor, (addEpochStateDependency_frame _ _).1, successors_setSuccessors, mem_insert,
      produce, (produceConsume_frame _ _ _ _).1, hrem]

theorem addSuccessor_frame (d : NodeDetector I) (p s : EpochType) :
    (d.addSuccessor p s).isTerminated = d.isTerminated ∧
      ∀ x, x ≠ p → (d.addSuccessor p s).successors x = d.successors x := by
  unfold addSuccessor
  split
  · exact ⟨rfl, fun _ _ => rfl⟩
  · refine ⟨by simp [produce, setSuccessors], fun x hx => ?_⟩
    simp [produce, setSuccessors, hx]

theorem addDependency_frame (d : NodeDetector I) (p s : EpochType) :
    (d.addDependency p s).isTerminated = d.isTerminated ∧
      ∀ x, x ≠ p → (d.addDependency p s).successors x = d.successors x := by
  unfold addDependency
  split
  · exact ⟨rfl, fun _ _ => rfl⟩
  · dsimp only
    refine ⟨?_, fun x hx => ?_⟩
    · rw [(addSuccessor_frame _ p s).1, removeIntersection, (setSuccessors_release_frame _ _ p _).1]
      simp
    · rw [(addSuccessor_frame _ p s).2 x hx, removeIntersection,
        (setSuccessors_release_frame _ _ p _).2 x hx]
      simp

theorem before_addDependency (hne : p ≠ s) (hlive : d.isTerminated p = false) :
    (d.addDependency p s).Before =
      Relation.TransGen fun x y => d.Successor x y ∨ x = p ∧ y = s := by
  refine transGen_reduce hne ?_ (successor_addDependency hlive)
  intro x y hx
  rw [Successor, Successor, (addDependency_frame d p s).2 x hx]

end NodeDetector

/-! ## Sequences of operations -/

/-- A node with its books: the units on each epoch, and the dependencies of each wave epoch, that do
not come from other epochs. -/
structure DepBooks (I : Place) where
  node : NodeDetector I
  otherUnits : EpochType → ℤ
  otherDeps : EpochType → ℤ

inductive DepAct
  | activate (epoch : EpochType)
  | addDependency (predecessor successor : EpochType)
  | epochTerminated (epoch : EpochType) (fromRoot : Bool)
  | cleanupEpoch (epoch : EpochType)
  | produce (epoch : EpochType) (numUnits : ℕ)
  | consume (epoch : EpochType) (numUnits : ℕ)
  | addEpochStateDependency (epoch : EpochType)
  | removeEpochStateDependency (epoch : EpochType)

namespace DepBooks

open NodeDetector

variable {I : Place}

/-- No dependency keeps the termination of an epoch from being detected: a wave state submits only
when its dependencies are zero, and `tryLast` answers only when no local unit is left. -/
def unblocked (d : NodeDetector I) (e : EpochType) : Bool :=
  if isDS e then d.balance e == 0 else d.deps e == 0

variable (r : DepBooks I)

/-- The state of an epoch is removed, with the units that others had on it. -/
def forget (d : NodeDetector I) (e : EpochType) : DepBooks I where
  node := d
  otherUnits := update r.otherUnits e 0
  otherDeps := update r.otherDeps e 0

/-- An operation on dependencies, or one of others on the same counters.  Others consume on a
Dijkstra–Scholten epoch no more than they produced, and remove only dependencies that they added. -/
def step : DepAct → Option (DepBooks I)
  | .activate e =>
      some { r with node := { r.node with isTerminated := update r.node.isTerminated e false } }
  | .addDependency p s =>
      if p ≠ s ∧ Proper s then some { r with node := r.node.addDependency p s } else none
  | .epochTerminated e fromRoot =>
      if Proper e ∧ unblocked r.node e then
        some (if fromRoot then { r with node := r.node.epochTerminated e true }
          else r.forget (r.node.epochTerminated e false) e)
      else none
  | .cleanupEpoch e =>
      if Proper e ∧ r.node.isTerminated e ∧ unblocked r.node e then
        some (r.forget (r.node.cleanupEpoch e false) e)
      else none
  | .produce e n =>
      if Proper e then
        some { r with
          node := r.node.produce e n
          otherUnits := update r.otherUnits e (r.otherUnits e + n) }
      else none
  | .consume e n =>
      if Proper e ∧ (isDS e → (n : ℤ) ≤ r.otherUnits e) then
        some { r with
          node := r.node.consume e n
          otherUnits := update r.otherUnits e (r.otherUnits e - n) }
      else none
  | .addEpochStateDependency e =>
      some { r with
        node := r.node.addEpochStateDependency e
        otherDeps := update r.otherDeps e (r.otherDeps e + 1) }
  | .removeEpochStateDependency e =>
      if 0 < r.otherDeps e then
        some { r with
          node := r.node.removeEpochStateDependency e
          otherDeps := update r.otherDeps e (r.otherDeps e - 1) }
      else none

/-- The units and the dependencies on each epoch that come from dependencies are those of the epochs
that have it among their successors. -/
structure Held : Prop where
  units : ∀ e, Proper e → r.node.balance e - r.otherUnits e = r.node.dependents e
  deps : ∀ e, isDS e = false → r.node.deps e - r.otherDeps e = r.node.dependents e
  unitsNonneg : ∀ e, isDS e = true → 0 ≤ r.otherUnits e
  depsNonneg : ∀ e, 0 ≤ r.otherDeps e
  ended : ∀ e, r.node.isTerminated e = true → (r.node.successors e).1 = []
  proper : ∀ e, ∀ s ∈ (r.node.successors e).1, Proper s

variable {r r' : DepBooks I}

variable {e : EpochType} {d' : NodeDetector I}

/-- The books follow a node whose graph stays as it is. -/
theorem Held.same (h : r.Held) (hsucc : r'.node.successors = r.node.successors)
    (hterm : r'.node.isTerminated = r.node.isTerminated)
    (hunits : ∀ e, Proper e →
      r'.node.balance e - r'.otherUnits e = r.node.balance e - r.otherUnits e)
    (hdeps : ∀ e, isDS e = false →
      r'.node.deps e - r'.otherDeps e = r.node.deps e - r.otherDeps e)
    (hu : ∀ e, isDS e = true → 0 ≤ r'.otherUnits e) (hv : ∀ e, 0 ≤ r'.otherDeps e) : r'.Held where
  units e he := by rw [hunits e he, h.units e he, dependents_congr hsucc]
  deps e he := by rw [hdeps e he, h.deps e he, dependents_congr hsucc]
  unitsNonneg := hu
  depsNonneg := hv
  ended := hsucc ▸ hterm ▸ h.ended
  proper := hsucc ▸ h.proper

/-- Nothing depends on an epoch whose termination can be detected. -/
theorem Held.dependents_eq_zero (h : r.Held) (he : Proper e) (hun : unblocked r.node e = true) :
    r.node.dependents e = 0 := by
  unfold unblocked at hun
  cases hds : isDS e with
  | true =>
    have hunits := h.units e he
    have hpos := h.unitsNonneg e hds
    simp only [hds, if_true, beq_iff_eq] at hun
    omega
  | false =>
    have hdeps := h.deps e hds
    have hpos := h.depsNonneg e
    simp only [hds, Bool.false_eq_true, if_false, beq_iff_eq] at hun
    omega

/-- An operation that changes the successors of one epoch. -/
theorem Held.rewired {p : EpochType} (h : r.Held) (hd : Rewired r.node d' p)
    (hended : ∀ e, d'.isTerminated e = true → (d'.successors e).1 = [])
    (hproper : ∀ s ∈ (d'.successors p).1, Proper s) :
    ({ r with node := d' } : DepBooks I).Held where
  units e he := by
    have := h.units e he
    have := hd.balance e
    have := hd.dependents e
    change d'.balance e - r.otherUnits e = d'.dependents e
    omega
  deps e he := by
    have := h.deps e he
    have := hd.deps e he
    have := hd.dependents e
    change d'.deps e - r.otherDeps e = d'.dependents e
    omega
  unitsNonneg := h.unitsNonneg
  depsNonneg := h.depsNonneg
  ended := hended
  proper e := by
    by_cases hep : e = p
    · subst hep
      exact hproper
    · change ∀ s ∈ (d'.successors e).1, Proper s
      rw [hd.other e hep]
      exact h.proper e

theorem Held.addDependency (h : r.Held) {p s : EpochType} (hs : Proper s) :
    ({ r with node := r.node.addDependency p s } : DepBooks I).Held := by
  cases hlive : r.node.isTerminated p with
  | true =>
    have hsame : r.node.addDependency p s = r.node := by simp [NodeDetector.addDependency, hlive]
    rw [hsame]
    exact h
  | false =>
    obtain ⟨hterm, hother⟩ := addDependency_frame r.node p s
    refine h.rewired (rewired_addDependency hlive hs (h.proper p)) ?_ ?_
    · intro e he
      rw [hterm] at he
      have hep : e ≠ p := by
        rintro rfl
        simp [hlive] at he
      rw [hother e hep]
      exact h.ended e he
    · intro y hy
      obtain rfl | ⟨hy, -⟩ := (successor_addDependency hlive y).mp hy
      · exact hs
      · exact h.proper p y hy

theorem clearSuccessors_frame (d : NodeDetector I) (e : EpochType) :
    (d.clearSuccessors e).isTerminated = d.isTerminated ∧
      ((d.clearSuccessors e).successors e).1 = [] ∧
      ∀ x, x ≠ e → (d.clearSuccessors e).successors x = d.successors x := by
  obtain ⟨hterm, hother⟩ := d.setSuccessors_release_frame (d.successors e).1 e .empty
  refine ⟨hterm, ?_, hother⟩
  rw [clearSuccessors, successors_setSuccessors]
  rfl

/-- The part of `epochTerminated` before the state is removed. -/
theorem Held.clearSuccessors (h : r.Held) (e : EpochType) :
    ({ r with node := (r.node.getEpochDep e).clearSuccessors e } : DepBooks I).Held := by
  obtain ⟨hsucc, hflags⟩ := getEpochDep_frame r.node e
  obtain ⟨hterm, hempty, hother⟩ := clearSuccessors_frame (r.node.getEpochDep e) e
  have hsame : Rewired r.node (r.node.getEpochDep e) e :=
    ⟨fun x _ => by rw [hsucc], fun x => by simp [balance], fun x _ => by simp⟩
  have hproper : ∀ x ∈ ((r.node.getEpochDep e).successors e).1, Proper x := by
    rw [hsucc]
    exact h.proper e
  refine h.rewired (hsame.trans (rewired_clearSuccessors hproper)) ?_ ?_
  · intro x hx
    by_cases hxe : x = e
    · subst hxe
      exact hempty
    · rw [hother x hxe, hsucc]
      rw [hterm, hflags] at hx
      exact h.ended x hx
  · rw [hempty]
    simp

/-- The state of an epoch without successors is removed, if nothing depends on the epoch. -/
theorem Held.forget (h : r.Held) (hterm : r.node.isTerminated e = true)
    (hzero : r.node.dependents e = 0) : (r.forget (r.node.eraseEpoch e) e).Held := by
  have hsucc : (r.node.eraseEpoch e).successors = r.node.successors := by
    have hempty : r.node.successors e = .empty := Subtype.ext (h.ended e hterm)
    have hupdate : update r.node.successors e .empty = r.node.successors := by
      rw [← hempty, update_eq_self]
    unfold eraseEpoch
    split <;> exact hupdate
  have hflags : (r.node.eraseEpoch e).isTerminated = r.node.isTerminated := by
    unfold eraseEpoch
    split <;> rfl
  have hunits : ∀ x, (r.node.eraseEpoch e).balance x = if x = e then 0 else r.node.balance x := by
    intro x
    unfold balance NodeDetector.units eraseEpoch
    by_cases hx : x = e
    · subst hx
      cases hds : isDS x <;> simp
    · cases hds : isDS e <;> simp [hx]
  have hdeps : ∀ x, isDS x = false →
      (r.node.eraseEpoch e).deps x = if x = e then 0 else r.node.deps x := by
    intro x hxds
    unfold NodeDetector.deps eraseEpoch
    by_cases hx : x = e
    · subst hx
      simp [hxds]
    · cases hds : isDS e <;> simp [hx]
  refine h.same hsucc hflags ?_ ?_ ?_ ?_
  · intro x hx
    simp only [DepBooks.forget, hunits, update_apply]
    split
    · next heq => rw [heq, h.units e (heq ▸ hx), hzero]; rfl
    · rfl
  · intro x hx
    simp only [DepBooks.forget, hdeps x hx, update_apply]
    split
    · next heq => rw [heq, h.deps e (heq ▸ hx), hzero]; rfl
    · rfl
  · exact (forall_update_iff _ fun x u => isDS x = true → 0 ≤ u).mpr
      ⟨fun _ => le_rfl, fun x _ => h.unitsNonneg x⟩
  · exact (forall_update_iff _ fun _ v => 0 ≤ v).mpr ⟨le_rfl, fun x _ => h.depsNonneg x⟩

/-- Only these parts of a node count. -/
theorem Held.congr (h : r.Held) (hunits : ∀ x, d'.units x = r.node.units x)
    (hdeps : ∀ x, d'.deps x = r.node.deps x) (hsucc : d'.successors = r.node.successors)
    (hterm : d'.isTerminated = r.node.isTerminated) : ({ r with node := d' } : DepBooks I).Held :=
  h.same hsucc hterm (fun x _ => by simp only [balance, hunits])
    (fun x _ => by simp only [hdeps]) h.unitsNonneg h.depsNonneg

theorem Held.updateResolvedEpochs (h : r.Held) (he : (r.node.successors e).1 = []) :
    ({ r with node := r.node.updateResolvedEpochs e } : DepBooks I).Held := by
  refine { h with ended := ?_ }
  intro x hx
  by_cases hxe : x = e
  · subst hxe
    exact he
  · simp only [NodeDetector.updateResolvedEpochs, update_of_ne hxe] at hx
    exact h.ended x hx

theorem Held.consumeOnGlobal (h : r.Held) :
    ({ r with node := r.node.consumeOnGlobal } : DepBooks I).Held := by
  have hglobal : r.node.consumeOnGlobal = r.node.produceConsume anyEpochSentinel 1 false := by
    simp [NodeDetector.consumeOnGlobal, NodeDetector.consume]
  have hunits : ∀ x, (r.node.produceConsume anyEpochSentinel 1 false).units x = r.node.units x := by
    intro x
    simp only [produceConsume, if_true]
    rfl
  rw [hglobal]
  obtain ⟨hsucc, hterm⟩ := produceConsume_frame r.node anyEpochSentinel 1 false
  exact h.congr hunits (deps_produceConsume r.node _ 1 false) hsucc hterm

/-- No successor set gains an epoch when one is cleared. -/
theorem dependents_clearSuccessors_le (d : NodeDetector I) (p e : EpochType) :
    (d.clearSuccessors p).dependents e ≤ d.dependents e := by
  obtain ⟨-, hempty, hother⟩ := clearSuccessors_frame d p
  refine Set.ncard_le_ncard ?_ (Set.toFinite _)
  intro x hx
  rw [Set.mem_ofPred_eq, Successor] at hx ⊢
  by_cases hxp : x = p
  · subst hxp
    rw [hempty] at hx
    simp at hx
  · rwa [hother x hxp] at hx

theorem Held.epochTerminated (h : r.Held) (hzero : r.node.dependents e = 0) (fromRoot : Bool) :
    (if fromRoot then { r with node := r.node.epochTerminated e true }
      else r.forget (r.node.epochTerminated e false) e : DepBooks I).Held := by
  set d := ((r.node.getEpochDep e).clearSuccessors e).updateResolvedEpochs e with hd
  have hempty := (clearSuccessors_frame (r.node.getEpochDep e) e).2.1
  have hresolved : ({ r with node := d } : DepBooks I).Held :=
    (h.clearSuccessors e).updateResolvedEpochs hempty
  have hend : ∀ fromRoot, r.node.epochTerminated e fromRoot =
      if !isRooted e || isDS e || Epoch.node e == I.thisNode then
        (d.cleanupEpoch e fromRoot).consumeOnGlobal else d.cleanupEpoch e fromRoot := fun _ => rfl
  cases fromRoot with
  | true =>
    have hclean : ({ r with node := d.cleanupEpoch e true } : DepBooks I).Held :=
      hresolved.congr (fun _ => rfl) (fun _ => rfl) rfl rfl
    rw [if_pos rfl, hend]
    split
    · exact hclean.consumeOnGlobal
    · exact hclean
  | false =>
    have hflag : d.isTerminated e = true := by simp [hd, NodeDetector.updateResolvedEpochs]
    have hnone : d.dependents e = 0 := by
      refine Nat.eq_zero_of_le_zero ((dependents_clearSuccessors_le _ e e).trans ?_)
      rw [dependents_congr (getEpochDep_frame r.node e).1, hzero]
    have hclean : (r.forget (d.cleanupEpoch e false) e).Held :=
      (hresolved.forget hflag hnone).congr (fun _ => rfl) (fun _ => rfl) rfl rfl
    rw [if_neg Bool.false_ne_true, hend]
    split
    · exact hclean.consumeOnGlobal
    · exact hclean

theorem add_sub_update (f : EpochType → ℤ) (e x : EpochType) (b k : ℤ) :
    (b + if x = e then k else 0) - update f e (f e + k) x = b - f x := by
  rw [update_apply]
  split
  · next heq => rw [heq]; omega
  · omega

theorem Held.produceConsume (h : r.Held) (he : Proper e) (n : ℕ) (b : Bool)
    (hle : isDS e = true → 0 ≤ r.otherUnits e + if b then (n : ℤ) else -n) :
    ({ r with
        node := r.node.produceConsume (if e = noEpoch then anyEpochSentinel else e) n b
        otherUnits := update r.otherUnits e (r.otherUnits e + if b then (n : ℤ) else -n) } :
      DepBooks I).Held := by
  obtain ⟨hsucc, hterm⟩ := produceConsume_frame r.node (if e = noEpoch then _ else e) n b
  refine h.same hsucc hterm ?_ (fun x _ => by simp) ?_ h.depsNonneg
  · intro x _
    simp only [balance_produceConsume r.node he, add_sub_update]
  · exact (forall_update_iff _ fun x u => isDS x = true → 0 ≤ u).mpr
      ⟨hle, fun x _ => h.unitsNonneg x⟩

theorem held_step {a : DepAct} (h : r.Held) (hs : r.step a = some r') : r'.Held := by
  cases a with
  | activate e =>
    obtain rfl := Option.some.inj hs
    refine { h with ended := ?_ }
    intro x hx
    by_cases hxe : x = e
    · subst hxe
      simp at hx
    · simp only [update_of_ne hxe] at hx
      exact h.ended x hx
  | addDependency p s =>
    obtain ⟨⟨-, hproper⟩, rfl⟩ := of_guard hs
    exact h.addDependency hproper
  | epochTerminated e fromRoot =>
    obtain ⟨⟨he, hun⟩, rfl⟩ := of_guard hs
    exact h.epochTerminated (h.dependents_eq_zero he hun) fromRoot
  | cleanupEpoch e =>
    obtain ⟨⟨he, hterm, hun⟩, rfl⟩ := of_guard hs
    exact (h.forget hterm (h.dependents_eq_zero he hun)).congr (fun _ => rfl) (fun _ => rfl) rfl rfl
  | produce e n =>
    obtain ⟨he, rfl⟩ := of_guard hs
    exact h.produceConsume he n true fun hds => add_nonneg (h.unitsNonneg e hds)
      (Int.natCast_nonneg n)
  | consume e n =>
    obtain ⟨⟨he, hle⟩, rfl⟩ := of_guard hs
    exact h.produceConsume he n false fun hds => sub_nonneg.mpr (hle hds)
  | addEpochStateDependency e =>
    obtain rfl := Option.some.inj hs
    obtain ⟨hsucc, hterm⟩ := addEpochStateDependency_frame r.node e
    refine h.same hsucc hterm (fun x _ => by simp [balance]) ?_ h.unitsNonneg ?_
    · intro x hx
      simp only [deps_addEpochStateDependency r.node e hx, add_sub_update]
    · exact (forall_update_iff _ fun _ v => 0 ≤ v).mpr
        ⟨add_nonneg (h.depsNonneg e) zero_le_one, fun x _ => h.depsNonneg x⟩
  | removeEpochStateDependency e =>
    obtain ⟨hpos, rfl⟩ := of_guard hs
    obtain ⟨hsucc, hterm⟩ := removeEpochStateDependency_frame r.node e
    refine h.same hsucc hterm (fun x _ => by simp [balance]) ?_ h.unitsNonneg ?_
    · intro x hx
      simp only [deps_removeEpochStateDependency r.node e hx]
      exact add_sub_update ..
    · exact (forall_update_iff _ fun _ v => 0 ≤ v).mpr
        ⟨Int.sub_nonneg.mpr hpos, fun x _ => h.depsNonneg x⟩

/-- A node without epochs. -/
def fresh (I : Place) : DepBooks I where
  node :=
    { isTerminated := fun _ => true
      anyEpochState := { numChildren := I.numChildren }
      epochState := fun _ => none
      term := fun _ => none
      successors := fun _ => .empty
      epochReady := ∅ }
  otherUnits := fun _ => 0
  otherDeps := fun _ => 0

theorem held_fresh (I : Place) : (fresh I).Held := by
  have hdep : ∀ e, (fresh I).node.dependents e = 0 := by
    intro e
    simp [dependents, Successor, fresh, empty]
  refine ⟨fun e _ => ?_, fun e _ => ?_, fun _ _ => le_rfl, fun _ => le_rfl, fun _ _ => rfl, ?_⟩
  · rw [hdep]
    simp [balance, units, fresh]
  · rw [hdep]
    simp [deps, fresh]
  · simp [fresh, empty]

end DepBooks

/-- A dependency that is added to any graph blocks what the edge would block.  And from a graph
whose units and dependencies are those of its edges, the same is true after any operations. -/
theorem addDependency_blocks (I : Place) :
    (∀ (d : NodeDetector I) (p s : EpochType), p ≠ s → d.isTerminated p = false →
      (d.addDependency p s).Before = Relation.TransGen fun x y => d.Successor x y ∨ x = p ∧ y = s) ∧
    ∀ r : DepBooks I, Reach DepBooks.Held DepBooks.step anyStep r → r.Held := by
  refine ⟨fun d p s hne hlive => before_addDependency hne hlive, ?_⟩
  intro r hr
  exact hr.invariant (fun _ h => h) fun r a r' h _ hs => DepBooks.held_step h hs

/-- The edge from 1 to 3 is dropped when 2, which has it as well, becomes a successor of 1. -/
theorem addDependency_blocks_three :
    ∃ r : DepBooks ⟨0, true, 0⟩, (r.node.successors 1).1 = [2] ∧ r.node.deps 3 = 1 ∧ r.Held ∧
      (r.node.addDependency 3 4).Before =
        Relation.TransGen fun x y => r.node.Successor x y ∨ x = 3 ∧ y = 4 := by
  obtain ⟨r, hr, hsucc, hdeps, hlive⟩ := Reach.of_run DepBooks.step [.activate 1, .activate 2,
      .activate 3, .addDependency 1 3, .addDependency 2 3, .addDependency 1 2]
    (fun r => (r.node.successors 1).1 = [2] ∧ r.node.deps 3 = 1 ∧ r.node.isTerminated 3 = false)
    (DepBooks.held_fresh ⟨0, true, 0⟩) (by decide +kernel)
  obtain ⟨hblocks, hheld⟩ := addDependency_blocks ⟨0, true, 0⟩
  exact ⟨r, hsucc, hdeps, hheld r hr, hblocks r.node 3 4 (by decide) hlive⟩

end VtRuntime.Termination
