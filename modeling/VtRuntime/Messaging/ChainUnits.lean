import VtRuntime.Messaging.SendChain
import Mathlib.Algebra.BigOperators.Intervals
import Mathlib.Algebra.Order.BigOperators.Group.Finset

/-!
# The units of epochs

Every unit that is outstanding on an epoch has a holder: a send that was not released, an action
that was not run, other work, or an epoch of which it is a successor.  So an epoch without units
has no holders.
-/

namespace VtRuntime.SendChain

open Lib Finset Function Nat Term

/-! ## Successors -/

namespace Term

variable {t : Term} {e p q : ℕ}

variable (o : Option ℕ)

@[simp] theorem produce_frame :
    (t.produce o).numEpochs = t.numEpochs ∧ (t.produce o).ended = t.ended ∧
      (t.produce o).terminated = t.terminated ∧ (t.produce o).successors = t.successors := by
  cases o <;> exact ⟨rfl, rfl, rfl, rfl⟩

@[simp] theorem consume_frame :
    (t.consume o).numEpochs = t.numEpochs ∧ (t.consume o).ended = t.ended ∧
      (t.consume o).terminated = t.terminated ∧ (t.consume o).successors = t.successors := by
  cases o <;> exact ⟨rfl, rfl, rfl, rfl⟩

@[simp] theorem addDependency_frame : (t.addDependency p q).numEpochs = t.numEpochs ∧
    (t.addDependency p q).ended = t.ended ∧ (t.addDependency p q).terminated = t.terminated := by
  simp only [addDependency, addSuccessor]
  split_ifs <;> exact ⟨rfl, rfl, rfl⟩

@[simp] theorem makeEpochRooted_frame (cur : Option ℕ) :
    (t.makeEpochRooted cur).numEpochs = t.numEpochs + 1 ∧
      (t.makeEpochRooted cur).ended = t.ended ∧
      (t.makeEpochRooted cur).terminated = t.terminated := by
  cases cur <;> simp [makeEpochRooted]

theorem units_produce : (t.produce o).units e = t.units e + if o = some e then 1 else 0 := by
  cases o with
  | none => simp [produce]
  | some a =>
    by_cases ha : a = e
    · simp [produce, ha]
    · simp [produce, ha, Ne.symm ha]

theorem units_consume : (t.consume o).units e = t.units e - if o = some e then 1 else 0 := by
  cases o with
  | none => simp [consume]
  | some a =>
    by_cases ha : a = e
    · simp [consume, ha]
    · simp [consume, ha, Ne.symm ha]

/-- The number of epochs that `e` is a successor of. -/
def deps (t : Term) (e : ℕ) : ℕ :=
  ∑ p ∈ Finset.range t.numEpochs, if e ∈ t.successors p then 1 else 0

theorem deps_congr {t' : Term} (hn : t'.numEpochs = t.numEpochs)
    (hs : t'.successors = t.successors) : t'.deps e = t.deps e := by
  rw [deps, deps, hn, hs]

theorem deps_setSuccessors (es : Finset ℕ) (hp : t.Made p) :
    (t.setSuccessors p es).deps e + (if e ∈ t.successors p then 1 else 0) =
      t.deps e + if e ∈ es then 1 else 0 := by
  have hmem : p ∈ Finset.range t.numEpochs := mem_range.mpr hp
  have hrest : ∑ p' ∈ (Finset.range t.numEpochs).erase p,
      (if e ∈ Function.update t.successors p es p' then 1 else 0) =
      ∑ p' ∈ (Finset.range t.numEpochs).erase p, if e ∈ t.successors p' then 1 else 0 := by
    refine sum_congr rfl fun p' hp' => ?_
    rw [update_of_ne (ne_of_mem_erase hp')]
  rw [deps, deps, setSuccessors, ← add_sum_erase _ _ hmem, ← add_sum_erase _ _ hmem,
    hrest]
  simp only [update_self]
  omega

end Term

/-- The successors change, and the units with them. -/
structure Relinks (t t' : Term) : Prop where
  numEpochs : t'.numEpochs = t.numEpochs
  fresh : ∀ p, ¬ t.Made p → t'.successors p = t.successors p
  units : ∀ e, t'.units e + t.deps e = t.units e + t'.deps e

namespace Relinks

variable {t t' t'' : Term} {e p q : ℕ}

theorem refl : Relinks t t := ⟨rfl, fun _ _ => rfl, fun _ => rfl⟩

theorem trans (h : Relinks t t') (h' : Relinks t' t'') : Relinks t t'' := by
  refine ⟨h'.numEpochs.trans h.numEpochs, ?_, ?_⟩
  · intro p hp
    have hp' : ¬ t'.Made p := by
      rw [Term.Made, h.numEpochs]
      exact hp
    rw [h'.fresh p hp', h.fresh p hp]
  · intro e
    have hfirst := h.units e
    have hsecond := h'.units e
    omega

theorem of_setSuccessors {es : Finset ℕ} {u : ℕ → ℕ} (hp : t.Made p)
    (hu : ∀ e, u e + (if e ∈ t.successors p then 1 else 0) =
      t.units e + if e ∈ es then 1 else 0) :
    Relinks t ({ t with units := u }.setSuccessors p es) := by
  refine ⟨rfl, ?_, ?_⟩
  · intro p' hp'
    refine update_of_ne ?_ _ _
    rintro rfl
    exact hp' hp
  · intro e
    have hdeps := deps_setSuccessors (t := { t with units := u }) (e := e) es hp
    have hsame : deps { t with units := u } e = t.deps e := deps_congr rfl rfl
    rw [hsame] at hdeps
    have hunits := hu e
    have heq : ({ t with units := u }.setSuccessors p es).units e = u e := rfl
    rw [heq]
    simp only at hdeps
    omega

/-- Some successors are dropped, and a unit is consumed on each. -/
theorem consumeAll {es : Finset ℕ} (hp : t.Made p) (hes : es ⊆ t.successors p)
    (ht : ∀ e, t.deps e ≤ t.units e) :
    Relinks t ((t.consumeAll es).setSuccessors p (t.successors p \ es)) := by
  refine of_setSuccessors hp fun e => ?_
  by_cases he : e ∈ es
  · have hpos : 0 < t.units e := by
      refine lt_of_lt_of_le ?_ (ht e)
      refine lt_of_lt_of_le zero_lt_one ?_
      have hsingle := single_le_sum
        (f := fun p' => if e ∈ t.successors p' then 1 else 0) (fun _ _ => zero_le _)
        (mem_range.mpr hp)
      rw [if_pos (hes he)] at hsingle
      exact hsingle
    simp only [he, if_true, hes he, mem_sdiff, not_true, and_false, if_false]
    omega
  · simp [he]

theorem addSuccessor (hp : t.Made p) : Relinks t (t.addSuccessor p q) := by
  rw [Term.addSuccessor]
  split
  · exact refl
  · next hq =>
    refine of_setSuccessors hp fun e => ?_
    by_cases he : e = q
    · subst he
      simp [hq]
    · simp [he, mem_insert]

theorem addDependency (hp : t.Made p) (ht : ∀ e, t.deps e ≤ t.units e) :
    Relinks t (t.addDependency p q) := by
  rw [Term.addDependency]
  split
  · exact refl
  · exact (consumeAll hp inter_subset_right ht).trans (addSuccessor hp)

theorem clearSuccessors (hp : t.Made p) (ht : ∀ e, t.deps e ≤ t.units e) :
    Relinks t (t.clearSuccessors p) := by
  have hclear := consumeAll hp (Finset.Subset.refl _) ht
  rwa [sdiff_self] at hclear

end Relinks

/-! ## Holders of units -/

/-- The send in a closure that owns it. -/
def Closure.owned : Closure → Option PendingSend
  | .pending p => some p
  | .merged _ => none

namespace ChainSys

variable {C : Type}

/-- The sends that were handed to a chain and not released. -/
def live (s : ChainSys C) : List PendingSend :=
  s.actions.filterMap (·.closure.owned) ++ (s.shared.filter (0 < ·.useCount)).map (·.pending)

/-- The epochs of the units of sends and actions. -/
def holdings (s : ChainSys C) : List (Option ℕ) :=
  s.live.map (·.epochProduced) ++ s.actions.map (·.encap)

end ChainSys

variable {C : Type} {s s' : ChainSys C} {hand hand' : List (Option ℕ)} {e : ℕ} {o cur : Option ℕ}

/-- All units have a holder; those in hand are being dealt with in a step. -/
structure Balance (hand : List (Option ℕ)) (s : ChainSys C) : Prop where
  fresh : ∀ p, ¬ s.term.Made p → s.term.successors p = ∅
  units : ∀ e, (hand ++ s.holdings).count (some e) + s.work e + s.term.deps e ≤ s.term.units e

namespace Balance

theorem start : Balance [] ({} : ChainSys C) := by
  refine ⟨fun _ _ => rfl, ?_⟩
  intro e
  simp [ChainSys.holdings, ChainSys.live, deps]

theorem covered (h : Balance hand s) (e : ℕ) : s.term.deps e ≤ s.term.units e :=
  le_trans (le_add_left _ _) (h.units e)

theorem move (h : Balance hand s) (hhold : (hand' ++ s'.holdings).Perm (hand ++ s.holdings))
    (hterm : s'.term = s.term) (hwork : s'.work = s.work) : Balance hand' s' := by
  refine ⟨hterm ▸ h.fresh, ?_⟩
  intro e
  rw [hhold.count_eq, hterm, hwork]
  exact h.units e

theorem relinks (h : Balance hand s) {t : Term} (hr : Relinks s.term t) :
    Balance hand { s with term := t } := by
  constructor
  · intro p hp
    have hp' : ¬ s.term.Made p := by
      rw [Term.Made, ← hr.numEpochs]
      exact hp
    exact (hr.fresh p hp').trans (h.fresh p hp')
  · intro e
    have hunits := h.units e
    have hmoved := hr.units e
    have hsame : ({ s with term := t } : ChainSys C).holdings = s.holdings := rfl
    rw [hsame]
    simp only
    omega

theorem addDependency (h : Balance hand s) {p q : ℕ} (hp : s.term.Made p) :
    Balance hand (s.addDependency p q) :=
  h.relinks (Relinks.addDependency hp h.covered)

/-- Units go to other hands or to other work, and are produced and consumed. -/
theorem change (h : Balance hand s) (hhold : s'.holdings = s.holdings)
    (hn : s'.term.numEpochs = s.term.numEpochs) (hs : s'.term.successors = s.term.successors)
    (hunits : ∀ e, hand'.count (some e) + s'.work e + s.term.units e ≤
      hand.count (some e) + s.work e + s'.term.units e) : Balance hand' s' := by
  refine ⟨by simpa only [Term.Made, hn, hs] using h.fresh, ?_⟩
  intro e
  have hold := h.units e
  have hnew := hunits e
  rw [List.count_append] at hold ⊢
  rw [hhold, deps_congr hn hs]
  omega

theorem produce (h : Balance hand s) (o : Option ℕ) :
    Balance (o :: hand) { s with term := s.term.produce o } := by
  refine h.change rfl (produce_frame o).1 (produce_frame o).2.2.2 ?_
  intro e
  simp only [List.count_cons, units_produce, beq_iff_eq]
  omega

theorem consume (h : Balance (o :: hand) s) : Balance hand { s with term := s.term.consume o } := by
  refine h.change rfl (consume_frame o).1 (consume_frame o).2.2.2 ?_
  intro e
  simp only [List.count_cons, units_consume, beq_iff_eq]
  omega

theorem work_of_hand (h : Balance (some e :: hand) s) :
    Balance hand { s with work := Function.update s.work e (s.work e + 1) } := by
  refine h.change rfl rfl rfl ?_
  intro e'
  by_cases he : e' = e
  · subst he
    simp
    omega
  · simp [he, Ne.symm he]

theorem hand_of_work (h : Balance hand s) (he : 0 < s.work e) :
    Balance (some e :: hand) { s with work := Function.update s.work e (s.work e - 1) } := by
  refine h.change rfl rfl rfl ?_
  intro e'
  by_cases heq : e' = e
  · subst heq
    simp
    omega
  · simp [heq, Ne.symm heq]

theorem begin (h : Balance hand s) (o : Option ℕ) : Balance hand (s.begin o) := by
  cases o with
  | none => exact h
  | some e => exact (h.produce (some e)).work_of_hand

theorem makeEpochRooted (h : Balance hand s) (cur : Option ℕ) :
    Balance (some s.term.numEpochs :: hand)
      { s with term := s.term.makeEpochRooted cur } := by
  have hnew : Balance hand
      { s with term := { s.term with numEpochs := s.term.numEpochs + 1 } } := by
    refine ⟨fun p hp => h.fresh p fun hmade => hp (lt_succ_of_lt hmade), ?_⟩
    intro e
    have hunits := h.units e
    have hempty := h.fresh s.term.numEpochs (lt_irrefl _)
    have hdeps : deps { s.term with numEpochs := s.term.numEpochs + 1 } e = s.term.deps e := by
      simp only [deps, sum_range_succ, hempty, notMem_empty, if_false,
        add_zero]
    rw [hdeps]
    exact hunits
  have hproduced := hnew.produce (some s.term.numEpochs)
  cases cur with
  | none => exact hproduced
  | some successor => exact hproduced.addDependency (lt_succ_self _)

/-- An epoch without units has no send that is still to be released. -/
theorem not_live (h : Balance hand s) (he : s.term.units e = 0) {p : PendingSend}
    (hp : p ∈ s.live) : p.epochProduced ≠ some e := by
  intro hunit
  have hunits := h.units e
  have hmem : some e ∈ hand ++ s.holdings := by
    refine List.mem_append_right _ (List.mem_append_left _ ?_)
    exact List.mem_map.mpr ⟨p, hp, hunit⟩
  have hpos := List.count_pos_iff.mpr hmem
  omega

end Balance

end VtRuntime.SendChain
