import VtRuntime.Lib.Walk
import Mathlib.Data.Finset.Card

/-!
# Epoch graphs

The graph of the epochs that are live on a node, which is built when the program seems to hang.
Its vertices are shared pointers, and a vertex points to the epochs that it is a successor of.
`detectCycles` looks for a cycle by a depth-first search from the root, with the epochs of the
path on a stack.
-/

namespace VtRuntime.Termination

open Lib List

/-- A vertex: its epoch, the label of the user, and its pointers. -/
structure EpochVertex (E R : Type) where
  epoch : E
  userLabel : String
  successors : List R

/-- The vertices behind the pointers `Ref`, and the root. -/
structure EpochGraph (E : Type) where
  Ref : Type
  [decEq : DecidableEq Ref]
  vertex : Ref → EpochVertex E Ref
  root : Ref

attribute [instance] EpochGraph.decEq

namespace EpochGraph

variable {E : Type} [DecidableEq E] (g : EpochGraph E)

/-- The loop over the successors, which ends when a cycle is reported. -/
def visitAll {R C : Type} (visit : R → Option (Option C)) : List R → Option (Option C)
  | [] => some none
  | s :: rest => (visit s).bind fun
    | some cycle => some (some cycle)
    | none => visitAll visit rest

/-- `EpochGraph::detectCyclesImpl`.  The inner option is the cycle with which the program is
aborted. -/
def detectCyclesImpl : ℕ → List E → g.Ref → Option (Option (List E))
  | 0, _, _ => none
  | fuel + 1, stack, r =>
      let epoch := (g.vertex r).epoch
      if epoch ∈ stack then some (some (stack.dropWhile (· ≠ epoch) ++ [epoch]))
      else visitAll (detectCyclesImpl fuel (stack ++ [epoch])) (g.vertex r).successors

def detectCycles (fuel : ℕ) : Option (Option (List E)) := g.detectCyclesImpl fuel [] g.root

/-- The search ends with a cycle. -/
def Reports : Prop := ∃ fuel cycle, g.detectCycles fuel = some (some cycle)

def successors (r : g.Ref) : List g.Ref := (g.vertex r).successors

/-- The epochs that a walk meets. -/
def epochs (l : List g.Ref) : List E := l.map fun r => (g.vertex r).epoch

variable {g}

/-! ## The search -/

section Visit

variable {R C : Type} {visit : R → Option (Option C)} {l : List R}

theorem visitAll_cycle {cycle : C} (h : visitAll visit l = some (some cycle)) :
    ∃ s ∈ l, visit s = some (some cycle) := by
  induction l with
  | nil => simp [visitAll] at h
  | cons s rest ih =>
    obtain ⟨r, hr, h⟩ := Option.bind_eq_some_iff.mp h
    cases r with
    | some c =>
      simp only [Option.some.injEq] at h
      exact ⟨s, mem_cons_self, h ▸ hr⟩
    | none =>
      obtain ⟨t, ht, hcycle⟩ := ih h
      exact ⟨t, mem_cons_of_mem s ht, hcycle⟩

theorem visitAll_none (h : visitAll visit l = some none) : ∀ s ∈ l, visit s = some none := by
  induction l with
  | nil => simp
  | cons s rest ih =>
    obtain ⟨r, hr, h⟩ := Option.bind_eq_some_iff.mp h
    cases r with
    | some c => simp at h
    | none =>
      intro t ht
      rcases mem_cons.mp ht with rfl | ht
      · exact hr
      · exact ih h t ht

theorem isSome_visitAll (h : ∀ s ∈ l, (visit s).isSome) : (visitAll visit l).isSome := by
  induction l with
  | nil => rfl
  | cons s rest ih =>
    have hrest := ih fun t ht => h t (mem_cons_of_mem s ht)
    obtain ⟨r, hr⟩ := Option.isSome_iff_exists.mp (h s mem_cons_self)
    cases r with
    | some c => simp [visitAll, hr]
    | none => simpa [visitAll, hr] using hrest

end Visit

variable {fuel : ℕ} {stack : List E} {r : g.Ref}

theorem detectCyclesImpl_cycle {cycle : List E}
    (h : g.detectCyclesImpl fuel stack r = some (some cycle)) :
    ∃ l, Walk g.successors r l ∧ ¬ (stack ++ g.epochs l).Nodup := by
  induction fuel generalizing stack r with
  | zero => simp [detectCyclesImpl] at h
  | succ fuel ih =>
    rw [detectCyclesImpl] at h
    split at h
    case isTrue hmem =>
      refine ⟨[r], .single r, ?_⟩
      intro hnodup
      exact (disjoint_of_nodup_append hnodup) hmem (mem_singleton_self _)
    case isFalse =>
      obtain ⟨s, hs, hcycle⟩ := visitAll_cycle h
      obtain ⟨l, hwalk, hl⟩ := ih hcycle
      refine ⟨r :: l, .cons hs hwalk, ?_⟩
      rwa [append_assoc] at hl

/-- When the search returns, no walk meets an epoch twice. -/
theorem detectCyclesImpl_none (hstack : stack.Nodup)
    (h : g.detectCyclesImpl fuel stack r = some none) {l : List g.Ref}
    (hwalk : Walk g.successors r l) : (stack ++ g.epochs l).Nodup := by
  induction fuel generalizing stack r l with
  | zero => simp [detectCyclesImpl] at h
  | succ fuel ih =>
    rw [detectCyclesImpl] at h
    split at h
    case isTrue => simp at h
    case isFalse hmem =>
      have hpush : (stack ++ [(g.vertex r).epoch]).Nodup := by
        rw [nodup_append_comm]
        exact nodup_cons.mpr ⟨hmem, hstack⟩
      cases hwalk with
      | single => exact hpush
      | cons hedge hwalk =>
        have hrest := ih hpush (visitAll_none h _ hedge) hwalk
        rwa [append_assoc] at hrest

/-- The stack has no epoch twice, so the depth of the search is bounded by the number of epochs. -/
theorem isSome_detectCyclesImpl {all : Finset E}
    (hall : ∀ s, Relation.ReflTransGen (Edge g.successors) r s → (g.vertex s).epoch ∈ all)
    (hstack : stack.Nodup) (hsub : ∀ e ∈ stack, e ∈ all) (hfuel : all.card < fuel + stack.length) :
    (g.detectCyclesImpl fuel stack r).isSome := by
  induction fuel generalizing stack r with
  | zero =>
    have hle : stack.toFinset.card ≤ all.card :=
      Finset.card_le_card fun e he => hsub e (mem_toFinset.mp he)
    rw [toFinset_card_of_nodup hstack] at hle
    omega
  | succ fuel ih =>
    rw [detectCyclesImpl]
    split
    case isTrue => rfl
    case isFalse hmem =>
      apply isSome_visitAll
      intro s hs
      apply ih
      · intro t ht
        exact hall t (.head hs ht)
      · rw [nodup_append_comm]
        exact nodup_cons.mpr ⟨hmem, hstack⟩
      · intro e he
        rw [mem_append, mem_singleton] at he
        rcases he with he | rfl
        · exact hsub e he
        · exact hall r .refl
      · rw [length_append, length_singleton]
        omega

theorem isSome_detectCycles {all : Finset E}
    (hall : ∀ s, Relation.ReflTransGen (Edge g.successors) g.root s → (g.vertex s).epoch ∈ all)
    (hfuel : all.card < fuel) : (g.detectCycles fuel).isSome :=
  isSome_detectCyclesImpl hall nodup_nil (by simp) hfuel

/-- The search reports a cycle if and only if a walk from the root meets an epoch twice. -/
theorem reports_iff {all : Finset E}
    (hall : ∀ s, Relation.ReflTransGen (Edge g.successors) g.root s → (g.vertex s).epoch ∈ all) :
    g.Reports ↔ ∃ l, Walk g.successors g.root l ∧ ¬ (g.epochs l).Nodup := by
  constructor
  · rintro ⟨fuel, cycle, h⟩
    exact detectCyclesImpl_cycle h
  · rintro ⟨l, hwalk, hl⟩
    obtain ⟨result, hresult⟩ :=
      Option.isSome_iff_exists.mp (isSome_detectCycles hall (Nat.lt_succ_self _))
    cases result with
    | some cycle => exact ⟨_, cycle, hresult⟩
    | none => exact absurd (detectCyclesImpl_none nodup_nil hresult hwalk) hl

end EpochGraph

end VtRuntime.Termination
