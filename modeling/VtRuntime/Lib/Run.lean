import Mathlib.Data.Nat.Init
import Mathlib.Data.Option.Basic

/-!
# Runs of a guarded transition system

A system is a partial step function `σ → α → Option σ`: an action that is not
enabled in a state is refused.  A run is a list of actions, and `Reach` is the set
of states some run visits.  The predicate `ok` restricts the runs to those whose
every step satisfies a condition on the state before the step and on the action;
the unrestricted runs are those of `anyStep`.

## Main definitions

* `run step s as` — execute a list of actions, if every one is enabled.
* `Reach init step ok` — the states of the runs whose steps satisfy `ok`.
* `Reach.invariant` — the induction rule every safety result below uses.
* `Ends step P` — every run ends, in a state that satisfies `P`.
-/

namespace VtRuntime.Lib

universe u v

variable {σ : Type u} {α : Type v}

/-- Execute a list of actions from a state; `none` if one of them is refused. -/
def run (step : σ → α → Option σ) : σ → List α → Option σ
  | s, [] => some s
  | s, a :: as => (step s a).bind fun s' => run step s' as

/-- What an enabled action with a guard did. -/
theorem of_guard {c : Prop} [Decidable c] {x y : σ} (h : (if c then some x else none) = some y) :
    c ∧ x = y := by
  obtain ⟨hc, hx⟩ := Option.ite_none_right_eq_some.mp h
  exact ⟨hc, Option.some.inj hx⟩

/-- The condition that restricts nothing. -/
def anyStep (_ : σ) (_ : α) : Prop := True

/-- The states visited by the runs from `init` whose every step satisfies `ok`. -/
inductive Reach (init : σ → Prop) (step : σ → α → Option σ) (ok : σ → α → Prop) : σ → Prop
  | start {s : σ} : init s → Reach init step ok s
  | next {s s' : σ} {a : α} :
      Reach init step ok s → ok s a → step s a = some s' → Reach init step ok s'

variable {init : σ → Prop} {step : σ → α → Option σ} {ok : σ → α → Prop}

/-- A predicate that holds initially and is preserved by every admitted step holds
in every reachable state. -/
@[elab_as_elim]
theorem Reach.invariant {P : σ → Prop} (h0 : ∀ s, init s → P s)
    (hstep : ∀ s a s', P s → ok s a → step s a = some s' → P s') {s : σ}
    (h : Reach init step ok s) : P s := by
  induction h with
  | start hs => exact h0 _ hs
  | next _ hok hs ih => exact hstep _ _ _ ih hok hs

/-- The same rule when the step lemma needs an invariant proved earlier. -/
@[elab_as_elim]
theorem Reach.invariant_of {P Q : σ → Prop} (hQ : ∀ s, Reach init step ok s → Q s)
    (h0 : ∀ s, init s → P s)
    (hstep : ∀ s a s', Q s → P s → ok s a → step s a = some s' → P s') {s : σ}
    (h : Reach init step ok s) : P s := by
  induction h with
  | start hs => exact h0 _ hs
  | next hr hok hs ih => exact hstep _ _ _ (hQ _ hr) ih hok hs

/-- A weaker condition admits more runs. -/
theorem Reach.mono {ok' : σ → α → Prop} (hok : ∀ s a, ok s a → ok' s a) {s : σ}
    (h : Reach init step ok s) : Reach init step ok' s := by
  induction h with
  | start hs => exact .start hs
  | next _ ha hs ih => exact ih.next (hok _ _ ha) hs

/-- A part of the state that each step leaves as it is or takes through a step of another system
is reachable in that system. -/
theorem Reach.project {τ : Type*} {β : Type*} {init' : τ → Prop} {step' : τ → β → Option τ}
    {ok' : τ → β → Prop} (f : σ → τ) (h0 : ∀ s, init s → init' (f s))
    (hstep : ∀ s a s', ok s a → step s a = some s' →
      f s' = f s ∨ ∃ b, ok' (f s) b ∧ step' (f s) b = some (f s')) {s : σ}
    (h : Reach init step ok s) : Reach init' step' ok' (f s) := by
  induction h with
  | start hs => exact .start (h0 _ hs)
  | next _ hok hs ih =>
    obtain heq | ⟨b, hb, hs'⟩ := hstep _ _ _ hok hs
    · rw [heq]
      exact ih
    · exact ih.next hb hs'

/-- An execution from a reachable state, of actions that satisfy the condition in any state,
ends in a reachable state. -/
theorem Reach.run {s s' : σ} {as : List α} (h : Reach init step ok s)
    (hok : ∀ a ∈ as, ∀ s, ok s a) (hr : Lib.run step s as = some s') : Reach init step ok s' := by
  induction as generalizing s with
  | nil =>
    rw [Lib.run, Option.some.injEq] at hr
    exact hr ▸ h
  | cons a as ih =>
    rw [Lib.run] at hr
    obtain ⟨t, ht, hr⟩ := Option.bind_eq_some_iff.mp hr
    have hrest : ∀ a' ∈ as, ∀ s, ok s a' := fun a' ha' => hok a' (List.mem_cons_of_mem a ha')
    exact ih (h.next (hok a List.mem_cons_self s) ht) hrest hr

/-- An execution from an initial state, of actions that satisfy the condition in any state, ends in
a reachable state. -/
theorem Reach.of_run_ok (step : σ → α → Option σ) (as : List α) (P : σ → Prop) [DecidablePred P]
    {s : σ} (h : init s) (hok : ∀ a ∈ as, ∀ s, ok s a) (hr : (Lib.run step s as).any (P ·) = true) :
    ∃ s', Reach init step ok s' ∧ P s' := by
  cases hs : Lib.run step s as with
  | none => simp [hs] at hr
  | some s' =>
    rw [hs, Option.any_some] at hr
    exact ⟨s', Reach.run (.start h) hok hs, of_decide_eq_true hr⟩

/-- An execution from an initial state ends in a reachable state. -/
theorem Reach.of_run (step : σ → α → Option σ) (as : List α) (P : σ → Prop) [DecidablePred P]
    {s : σ} (h : init s) (hr : (Lib.run step s as).any (P ·) = true) :
    ∃ s', Reach init step anyStep s' ∧ P s' :=
  of_run_ok step as P h (fun _ _ _ => trivial) hr

/-- The system in which every action that violates the condition is refused. -/
def guarded (step : σ → α → Option σ) (ok : σ → α → Prop) [∀ s a, Decidable (ok s a)] (s : σ)
    (a : α) : Option σ :=
  if ok s a then step s a else none

/-- An execution of the guarded system ends in a reachable state. -/
theorem Reach.of_guarded_run (ok : σ → α → Prop) [∀ s a, Decidable (ok s a)]
    (step : σ → α → Option σ) (as : List α) (P : σ → Prop) [DecidablePred P] {s : σ} (h : init s)
    (hr : (Lib.run (guarded step ok) s as).any (P ·) = true) :
    ∃ s', Reach init step ok s' ∧ P s' := by
  obtain ⟨s', hs', hp⟩ := Reach.of_run _ as P h hr
  refine ⟨s', ?_, hp⟩
  clear hr hp
  induction hs' with
  | start hi => exact .start hi
  | next _ _ hstep ih =>
    obtain ⟨hok, hstep⟩ := Option.ite_none_right_eq_some.mp hstep
    exact ih.next hok hstep

/-- Every run from a state ends, and it ends in a state that satisfies `P`. -/
inductive Ends (step : σ → α → Option σ) (P : σ → Prop) : σ → Prop
  | intro {s : σ} : ((∀ a, step s a = none) → P s) →
      (∀ a s', step s a = some s' → Ends step P s') → Ends step P s

/-- Runs end if a measure decreases in every step. -/
theorem Ends.of_measure {P Q : σ → Prop} (μ : σ → ℕ)
    (hstep : ∀ s a s', Q s → step s a = some s' → Q s' ∧ μ s' < μ s)
    (hstop : ∀ s, Q s → (∀ a, step s a = none) → P s) {s : σ} (hs : Q s) : Ends step P s := by
  induction hk : μ s using Nat.strong_induction_on generalizing s with
  | _ k ih =>
    refine .intro (hstop s hs) ?_
    intro a s' ha
    obtain ⟨hs', hlt⟩ := hstep s a s' hs ha
    exact ih (μ s') (hk ▸ hlt) hs' rfl

end VtRuntime.Lib
