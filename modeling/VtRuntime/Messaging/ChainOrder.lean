import VtRuntime.Messaging.ChainHands

/-!
# The order of dependent sends

If the send of every step holds a unit of the epoch of the step, it is released once, after the
epoch of the step before has terminated and before the epoch of the step does.  The chain itself
holds no unit: a send without one may be overtaken by the sends of later steps.
-/

namespace VtRuntime.SendChain

open Lib List Option ChainSys

variable {C : Type} {s s' : ChainSys C} {p : PendingSend} {e i : ℕ} {hand : List PendingSend}
  {cur : Option ℕ}

/-! ## The calls on chains -/

section Calls

variable [DecidableEq C] {c : C}

namespace Handed

/-- A chain without a previous step gets a new epoch. -/
theorem reset (h : Handed hand s) (hc : s.previous c = none) : Handed hand (s.reset c cur) := by
  have hmade := h.congr (t := (s.term.makeEpochRooted cur).consume (some s.term.numEpochs)) s.work
    (by simp) (by simp) (by simp)
  refine { hmade with last := ?_, madeLast := ?_ }
  · intro c' e he
    have hne : c' ≠ c := by
      rintro rfl
      exact absurd (hc.symm.trans he) (some_ne_none e).symm
    exact (Function.update_of_ne hne _ _).trans (h.last c' e he)
  · intro c' e he
    by_cases heq : c' = c
    · subst heq
      obtain rfl : s.term.numEpochs = e := by simpa [reset] using he
      simp [reset, Term.Made]
    · refine hmade.madeLast c' e ?_
      simpa [ChainSys.reset, heq] using he

theorem done (h : Handed hand s) : Handed hand (s.done c cur) := by
  have hcleared : Handed hand { s with previous := Function.update s.previous c none } := by
    refine { h with last := ?_ }
    intro c' e he
    by_cases heq : c' = c
    · simp [heq] at he
    · exact h.last c' e (by simpa [heq] using he)
  exact hcleared.reset (Function.update_self ..)

/-- `checkInit` does nothing to a chain that has an epoch. -/
theorem checkInit (h : Handed hand s) : Handed hand (s.checkInit c cur) := by
  rw [ChainSys.checkInit]
  split
  · next hnone =>
    refine h.reset (eq_none_iff_forall_ne_some.mpr fun e he => ?_)
    exact absurd (hnone.symm.trans (h.last c e he)) (some_ne_none e).symm
  · exact h

theorem setLast (h : Handed hand s) (he : s.term.Made e) : Handed hand (s.setLast c e) := by
  refine { h with last := ?_, madeLast := ?_ }
  · intro c' e' he'
    by_cases heq : c' = c
    · simpa [ChainSys.setLast, heq] using he'
    · have hlast := h.last c' e' (by simpa [ChainSys.setLast, heq] using he')
      simpa [ChainSys.setLast, heq] using hlast
  · intro c' e' he'
    by_cases heq : c' = c
    · obtain rfl : e = e' := by simpa [ChainSys.setLast, heq] using he'
      exact he
    · exact h.madeLast c' e' (by simpa [ChainSys.setLast, heq] using he')

omit [DecidableEq C] in
/-- A send is handed to actions of the epochs that it waits for. -/
theorem handOver (h : Handed [] s) {new : List EpochAction} {shared : List Shared}
    {step : ChainStep} (hshared : s.shared <+: shared) (hid : p.id = s.steps.length)
    (hpayload : p.payload ≠ .empty)
    (hunit : p.epochProduced = some step.epoch) (hended : s.term.ended step.epoch = false)
    (hafter : ∀ e, e ∈ step.after ↔ ∃ a ∈ new, a.epoch = e)
    (hprevious : ∀ e ∈ step.previous, e ∈ step.after) (hmade : ∀ e ∈ step.after, s.term.Made e)
    (hlive : (s.setClosures (s.actions ++ new) shared).live.Perm (p :: s.live))
    (hlink : ∀ a ∈ new,
      (s.setClosures (s.actions ++ new) shared).link a.closure = some p.id)
    (hcount : ∀ k x, shared[k]? = some x →
      x.useCount = (s.actions ++ new).countP (·.closure = .merged k)) :
    Handed [] { s.setClosures (s.actions ++ new) shared with
      steps := s.steps ++ [step] } := by
  have hold : ∀ {c : Closure} {i : ℕ}, s.link c = some i →
      (s.setClosures (s.actions ++ new) shared).link c = some i := by
    intro c i hi
    cases c with
    | pending q => exact hi
    | merged k =>
      obtain ⟨x, hx, hxi⟩ := map_eq_some_iff.mp hi
      obtain ⟨extra, rfl⟩ := hshared
      have hlt := (List.getElem?_eq_some_iff.mp hx).1
      rw [link, setClosures, List.getElem?_append_left hlt, hx, map_some,
        hxi]
  have hget : ∀ {i : ℕ} {st : ChainStep}, s.steps[i]? = some st →
      (s.steps ++ [step])[i]? = some st := fun hi =>
    (List.getElem?_append_left (List.getElem?_eq_some_iff.mp hi).1).trans hi
  have hcases : ∀ {i : ℕ} {st : ChainStep}, (s.steps ++ [step])[i]? = some st →
      s.steps[i]? = some st ∨ i = p.id ∧ st = step := by
    intro i st hi
    by_cases hlt : i < s.steps.length
    · exact .inl ((List.getElem?_append_left hlt).symm.trans hi)
    · rw [List.getElem?_append_right (Nat.le_of_not_lt hlt), List.getElem?_singleton] at hi
      obtain ⟨hzero, heq⟩ := ite_none_right_eq_some.mp hi
      exact .inr ⟨by omega, (Option.some.inj heq).symm⟩
  refine {
    ids := ?_, unit := ?_, useCount := hcount, waits := ?_, after := ?_, before := ?_,
    previous := ?_, last := h.last, madeLast := h.madeLast, madeAfter := ?_, ended := h.ended }
  · have hids : ((p.id :: s.live.map (·.id)) ++ s.released).Perm
        (p.id :: List.range s.steps.length) := h.ids.cons p.id
    refine ((hlive.map _).append_right _).trans (hids.trans ?_)
    rw [length_append, length_singleton, range_succ, hid]
    exact (perm_append_singleton _ _).symm
  · intro q hq
    rcases mem_cons.mp (hlive.mem_iff.mp hq) with rfl | hq
    · exact ⟨hpayload, step, by simp [hid], hunit⟩
    · obtain ⟨hne, st, hst, hepoch⟩ := h.unit q hq
      exact ⟨hne, st, hget hst, hepoch⟩
  · intro a ha
    rcases mem_append.mp ha with ha | ha
    · obtain ⟨i, st, hi, hst, hepoch⟩ := h.waits a ha
      exact ⟨i, st, hold hi, hget hst, hepoch⟩
    · exact ⟨p.id, step, hlink a ha, by simp [hid], (hafter a.epoch).mpr ⟨a, ha, rfl⟩⟩
  · intro i st hi e he
    rcases hcases hi with hi | ⟨rfl, rfl⟩
    · rcases h.after i st hi e he with hend | ⟨a, ha, hepoch, hai⟩
      · exact .inl hend
      · exact .inr ⟨a, mem_append_left _ ha, hepoch, hold hai⟩
    · obtain ⟨a, ha, hepoch⟩ := (hafter e).mp he
      exact .inr ⟨a, mem_append_right _ ha, hepoch, hlink a ha⟩
  · intro i st hi hend
    rcases hcases hi with hi | ⟨rfl, rfl⟩
    · exact h.before i st hi hend
    · exact absurd hend (hended ▸ Bool.false_ne_true)
  · exact forall_mem_concat h.previous hprevious
  · exact forall_mem_concat h.madeAfter hmade

end Handed

namespace Balance

variable {held : List (Option ℕ)}

theorem reset (h : Balance held s) : Balance held (s.reset c cur) :=
  (h.makeEpochRooted cur).consume.move (.refl _) rfl rfl

theorem checkInit (h : Balance held s) : Balance held (s.checkInit c cur) := by
  rw [ChainSys.checkInit]
  split
  · exact h.reset
  · exact h

end Balance

namespace ChainSys

/-- `checkInit` changes the epochs and the last epoch of the chain only. -/
theorem checkInit_eq (s : ChainSys C) (c : C) (cur : Option ℕ) : ∃ t l,
    s.checkInit c cur = { s with term := t, lastEpoch := l } ∧ t.ended = s.term.ended ∧
      s.term.numEpochs ≤ t.numEpochs ∧ (∃ e, l c = some e) ∧
      ∀ c' e, s.lastEpoch c' = some e → l c' = some e := by
  rw [checkInit]
  split
  · next hnone =>
    refine ⟨_, _, rfl, by simp, by simp, ⟨_, Function.update_self ..⟩, ?_⟩
    intro c' e he
    have hne : c' ≠ c := by
      rintro rfl
      exact absurd (hnone.symm.trans he) (some_ne_none e).symm
    exact (Function.update_of_ne hne _ _).trans he
  · next hsome =>
    exact ⟨_, _, rfl, rfl, Nat.le_refl _, ne_none_iff_exists'.mp hsome, fun _ _ he => he⟩

omit [DecidableEq C] in
theorem last_eq (he : s.lastEpoch c = some e) : s.last c = e := by
  rw [last, he, getD_some]

end ChainSys

/-- The invariant of the node. -/
structure ChainInv (s : ChainSys C) : Prop where
  handed : Handed [] s
  balance : Balance [] s

namespace ChainInv

variable {newEpoch : ℕ} {linked : Payload}

omit [DecidableEq C] in
/-- A send that is made holds its unit in hand. -/
theorem pendingSend (h : ChainInv s) (linked : Payload) :
    Handed [] (s.pendingSend linked).1 ∧ Balance [linked.epoch] (s.pendingSend linked).1 ∧
      (s.pendingSend linked).1.term.ended = s.term.ended ∧
      (s.pendingSend linked).1.term.numEpochs = s.term.numEpochs :=
  ⟨h.handed.congr s.work (by simp) (by simp) (by simp), h.balance.produce linked.epoch,
    (Term.produce_frame _).2.1, (Term.produce_frame _).1⟩

theorem addStep (h : Handed [] s) (hb : Balance [p.epochProduced] s) (hc : s.lastEpoch c = some e)
    (hid : p.id = s.steps.length) (hpayload : p.payload ≠ .empty)
    (hunit : p.epochProduced = some newEpoch) (hended : s.term.ended newEpoch = false)
    (hmade : s.term.Made newEpoch) : ChainInv (s.addStep c cur newEpoch p) := by
  have hmadeLast := h.madeLast c e hc
  set t := (s.term.addDependency e newEpoch).produce cur with ht
  set new : List EpochAction := [⟨e, cur, .pending p⟩] with hnew
  set step : ChainStep := ⟨newEpoch, [e], (s.previous c).toList⟩ with hstep
  have heq : s.addStep c cur newEpoch p =
      ({ ({ s with term := t } : ChainSys C).setClosures (s.actions ++ new) s.shared with
        steps := s.steps ++ [step] }).setLast c newEpoch := by
    have hlast := last_eq hc
    subst hlast
    rfl
  have hterm : Handed [] { s with term := t } :=
    h.congr s.work (by simp [ht]) (by simp [ht]) (by simp [ht])
  have hlive : (({ s with term := t } : ChainSys C).setClosures (s.actions ++ new)
      s.shared).live.Perm (p :: s.live) := live_append_pending rfl
  rw [heq]
  constructor
  · refine Handed.setLast (Handed.handOver hterm (prefix_refl _) hid hpayload hunit ?_ ?_ ?_ ?_
      hlive ?_ ?_) ?_
    · simpa [ht] using hended
    · simp [hnew, hstep, eq_comm]
    · intro e' he'
      obtain rfl := Option.some.inj (hc.symm.trans (h.last c e' (by simpa [hstep] using he')))
      exact mem_singleton_self _
    · intro e' he'
      rw [mem_singleton.mp he']
      simpa [ht, Term.Made] using hmadeLast
    · intro a ha
      rw [mem_singleton.mp ha]
      rfl
    · intro k x hx
      rw [h.useCount k x hx, countP_append]
      simp [hnew]
    · simpa [ht, Term.Made, setClosures] using hmade
  · have hunits : Balance (new.map (·.encap) ++ [p.epochProduced]) { s with term := t } :=
      (hb.addDependency hmadeLast).produce cur
    exact (hunits.handOver hlive).move (.refl _) rfl rfl

/-- A step of two chains.  They may be one chain, or have the same last epoch. -/
theorem mergeStep {a b : C} {ea eb : ℕ} (h : Handed [] s) (hb : Balance [p.epochProduced] s)
    (hca : s.lastEpoch a = some ea) (hcb : s.lastEpoch b = some eb) (hid : p.id = s.steps.length)
    (hpayload : p.payload ≠ .empty) (hunit : p.epochProduced = some newEpoch)
    (hended : s.term.ended newEpoch = false) (hmade : s.term.Made newEpoch) :
    ChainInv (s.mergeStep a b cur newEpoch p) := by
  have hmadea := h.madeLast a ea hca
  have hmadeb := h.madeLast b eb hcb
  set t := ((((s.term.addDependency ea newEpoch).addDependency eb newEpoch).produce cur).produce
    cur) with ht
  set new : List EpochAction :=
    [⟨ea, cur, .merged s.shared.length⟩, ⟨eb, cur, .merged s.shared.length⟩] with hnew
  set step : ChainStep :=
    ⟨newEpoch, [ea, eb], (s.previous a).toList ++ (s.previous b).toList⟩ with hstep
  have heq : s.mergeStep a b cur newEpoch p =
      (({ ({ s with term := t } : ChainSys C).setClosures (s.actions ++ new)
          (s.shared ++ [Shared.mk 2 p]) with
        steps := s.steps ++ [step] }).setLast a newEpoch).setLast b newEpoch := by
    have hlasta := last_eq hca
    have hlastb := last_eq hcb
    subst hlasta hlastb
    rw [ChainSys.mergeStep]
    simp only [addActionUnique, append_assoc, cons_append, nil_append]
    rfl
  have hterm : Handed [] { s with term := t } :=
    h.congr s.work (by simp [ht]) (by simp [ht]) (by simp [ht])
  have hlive : (({ s with term := t } : ChainSys C).setClosures (s.actions ++ new)
      (s.shared ++ [Shared.mk 2 p])).live.Perm (p :: s.live) := by
    have howned : new.filterMap (·.closure.owned) = [] := rfl
    simp only [live, setClosures, filterMap_append, howned,
      filter_append, map_append, append_nil]
    rw [← append_assoc]
    exact perm_append_singleton _ _
  -- no action points to the new entry yet
  have hnone : s.actions.countP (·.closure = .merged s.shared.length) = 0 := by
    refine countP_eq_zero.mpr fun x hx hc => ?_
    obtain ⟨i, -, hlink, -⟩ := h.waits x hx
    rw [of_decide_eq_true hc] at hlink
    simp [link] at hlink
  have hafter : ∀ e', e' ∈ step.after ↔ e' = ea ∨ e' = eb := by simp [hstep]
  rw [heq]
  constructor
  · refine Handed.setLast (Handed.setLast (Handed.handOver hterm (prefix_append _ _) hid hpayload
      hunit ?_ ?_ ?_ ?_ hlive ?_ ?_) ?_) ?_
    · simpa [ht] using hended
    · simp [hnew, hstep, eq_comm]
    · intro e' he'
      rw [hafter]
      rcases mem_append.mp he' with he' | he'
      · exact .inl (Option.some.inj ((h.last a e' (by simpa using he')).symm.trans hca))
      · exact .inr (Option.some.inj ((h.last b e' (by simpa using he')).symm.trans hcb))
    · intro e' he'
      rcases (hafter e').mp he' with rfl | rfl
      · simpa [ht, Term.Made] using hmadea
      · simpa [ht, Term.Made] using hmadeb
    · intro x hx
      have hclosure : x.closure = .merged s.shared.length := by
        rcases mem_cons.mp hx with rfl | hx
        · rfl
        · rw [mem_singleton.mp hx]
      rw [hclosure]
      simp [link, setClosures]
    · intro k x hx
      rw [countP_append]
      by_cases hk : k < s.shared.length
      · have hx' := (List.getElem?_append_left hk).symm.trans hx
        rw [h.useCount k x hx']
        simp [hnew, Nat.ne_of_gt hk]
      · rw [List.getElem?_append_right (Nat.le_of_not_lt hk), List.getElem?_singleton] at hx
        obtain ⟨hzero, hx'⟩ := ite_none_right_eq_some.mp hx
        obtain rfl : k = s.shared.length := by omega
        rw [hnone, ← Option.some.inj hx']
        simp [hnew]
    · simpa [ht, Term.Made, setClosures] using hmade
    · simpa [ht, Term.Made, setClosures, setLast] using hmade
  · have hdeps := (hb.addDependency (q := newEpoch) hmadea).addDependency (p := eb) (q := newEpoch)
      (by simpa [addDependency, Term.Made] using hmadeb)
    have hunits : Balance (new.map (·.encap) ++ [p.epochProduced]) { s with term := t } :=
      (hdeps.produce cur).produce cur
    exact (hunits.handOver hlive).move (.refl _) rfl rfl

theorem payload_ne_empty (hepoch : linked.epoch = some newEpoch) : linked ≠ .empty := by
  rintro rfl
  exact absurd hepoch.symm (some_ne_none newEpoch)

theorem add (h : ChainInv s) (hmade : s.term.Made newEpoch) (hunit : s.HoldsUnit newEpoch linked) :
    ChainInv (s.add c cur newEpoch linked) := by
  obtain ⟨hepoch, hended⟩ := hunit
  obtain ⟨h₀, hb₀, hended₀, hn₀⟩ := h.pendingSend linked
  set s₀ := (s.pendingSend linked).1 with hs₀
  obtain ⟨t, l, heq, ht, hn, ⟨e, he⟩, -⟩ := s₀.checkInit_eq c cur
  change ChainInv ((s₀.checkInit c cur).addStep c cur newEpoch (s.pendingSend linked).2)
  refine addStep h₀.checkInit hb₀.checkInit (e := e) ?_ ?_ (payload_ne_empty hepoch) hepoch ?_ ?_
  · rw [heq]
    exact he
  · rw [heq]
    rfl
  · rw [heq, ht, hended₀]
    exact hended
  · rw [heq]
    exact Nat.lt_of_lt_of_le hmade (hn₀ ▸ hn)

theorem mergeChainStep {a b : C} (h : ChainInv s) (hmade : s.term.Made newEpoch)
    (hunit : s.HoldsUnit newEpoch linked) :
    ChainInv (s.mergeChainStep a b cur newEpoch linked) := by
  obtain ⟨hepoch, hended⟩ := hunit
  obtain ⟨h₀, hb₀, hended₀, hn₀⟩ := h.pendingSend linked
  set s₀ := (s.pendingSend linked).1 with hs₀
  obtain ⟨t, l, heq, ht, hn, ⟨ea, hea⟩, -⟩ := s₀.checkInit_eq a cur
  obtain ⟨t', l', heq', ht', hn', ⟨eb, heb⟩, hkept⟩ := (s₀.checkInit a cur).checkInit_eq b cur
  rw [heq] at ht' hn' hkept
  change ChainInv (((s₀.checkInit a cur).checkInit b cur).mergeStep a b cur newEpoch
    (s.pendingSend linked).2)
  have hca : ((s₀.checkInit a cur).checkInit b cur).lastEpoch a = some ea := by
    rw [heq']
    exact hkept a ea hea
  have hcb : ((s₀.checkInit a cur).checkInit b cur).lastEpoch b = some eb := by
    rw [heq']
    exact heb
  refine mergeStep h₀.checkInit.checkInit hb₀.checkInit.checkInit hca hcb ?_
    (payload_ne_empty hepoch) hepoch ?_ ?_
  · rw [heq', heq]
    rfl
  · rw [heq', ht', ht, hended₀]
    exact hended
  · rw [heq']
    exact Nat.lt_of_lt_of_le hmade (Nat.le_trans (hn₀ ▸ hn) hn')

theorem done (h : ChainInv s) : ChainInv (s.done c cur) :=
  ⟨h.handed.done, (h.balance.reset (c := c)).move (.refl _) rfl rfl⟩

theorem call (h : ChainInv s) {b : ChainCall C} (hsound : s.Sound (.inl b))
    (hstep : s.call b = some s') : ChainInv s' := by
  cases b with
  | makeEpoch cur =>
    obtain ⟨-, rfl⟩ := of_guard hstep
    refine ⟨h.handed.congr _ (by simp) (by simp) (by simp), ?_⟩
    exact (h.balance.makeEpochRooted cur).work_of_hand
  | produce e =>
    obtain ⟨-, rfl⟩ := of_guard hstep
    exact ⟨h.handed.congr _ (by simp) (by simp) (by simp), h.balance.begin (some e)⟩
  | consume e =>
    obtain ⟨hpos, rfl⟩ := of_guard hstep
    refine ⟨h.handed.congr _ (by simp) (by simp) (by simp), ?_⟩
    exact (h.balance.hand_of_work hpos).consume
  | addDependency p q =>
    obtain ⟨⟨hp, -⟩, rfl⟩ := of_guard hstep
    refine ⟨h.handed.congr s.work (by simp) (by simp) (by simp), h.balance.addDependency hp⟩
  | add c cur newEpoch linked =>
    obtain ⟨⟨hmade, -⟩, rfl⟩ := of_guard hstep
    exact h.add hmade hsound
  | mergeChainStep a b cur newEpoch linked =>
    obtain ⟨⟨hmade, -⟩, rfl⟩ := of_guard hstep
    exact h.mergeChainStep hmade hsound
  | done c cur =>
    obtain ⟨-, rfl⟩ := of_guard hstep
    exact h.done

end ChainInv

end Calls

/-! ## Runs -/

namespace ChainInv

theorem detect (h : ChainInv s) {b : Detect} (hstep : s.detect b = some s') : ChainInv s' := by
  cases b with
  | endEpoch e =>
    obtain ⟨⟨-, -, hunits⟩, rfl⟩ := of_guard hstep
    exact ⟨h.handed.endEpoch h.balance hunits, ⟨h.balance.fresh, h.balance.units⟩⟩
  | epochTerminated e =>
    obtain ⟨⟨hmade, hended, -⟩, rfl⟩ := of_guard hstep
    refine ⟨h.handed.epochTerminated hended, ?_⟩
    have hcleared := h.balance.relinks (Relinks.clearSuccessors hmade h.balance.covered)
    exact ⟨hcleared.fresh, hcleared.units⟩
  | runAction i =>
    simp only [ChainSys.detect] at hstep
    split at hstep
    · exact absurd hstep.symm (some_ne_none s')
    · next a ha =>
      obtain ⟨hterminated, rfl⟩ := of_guard hstep
      obtain ⟨hhanded, hbalance⟩ := h.handed.runAction h.balance ha hterminated
      exact ⟨hhanded, hbalance⟩

theorem of_reach [DecidableEq C]
    (h : Reach (· = ({} : ChainSys C)) step Sound s) : ChainInv s := by
  refine h.invariant ?_ ?_
  · rintro s rfl
    exact ⟨.start, .start⟩
  · intro s b s' hs hsound hstep
    cases b with
    | inl b => exact hs.call hsound hstep
    | inr b => exact hs.detect hstep

end ChainInv

/-! ## The end of a run -/

namespace ChainSys

/-- What the detector has still to do. -/
def remaining (s : ChainSys C) : ℕ :=
  s.actions.length + ∑ e ∈ Finset.range s.term.numEpochs,
    ((if s.term.ended e then 0 else 1) + if s.term.terminated e then 0 else 1)

theorem sum_flag_lt {f g : ℕ → ℕ} {n : ℕ} (he : e < n) (hlt : f e < g e)
    (hrest : ∀ e', e' ≠ e → f e' = g e') :
    ∑ e' ∈ Finset.range n, f e' < ∑ e' ∈ Finset.range n, g e' := by
  refine Finset.sum_lt_sum ?_ ⟨e, Finset.mem_range.mpr he, hlt⟩
  intro e' _
  by_cases heq : e' = e
  · exact heq ▸ Nat.le_of_lt hlt
  · exact Nat.le_of_eq (hrest e' heq)

/-- Releasing a send leaves the detector less to do. -/
theorem remaining_release : (s.release p).remaining = s.remaining := by
  rw [release]
  split
  · rfl
  · next epoch _ => cases epoch <;> simp [remaining, begin, consumeMsg]
  · simp [remaining, consumeMsg]

theorem remaining_invoke (c : Closure) : (s.invoke c).remaining = s.remaining := by
  cases c with
  | pending p => rw [invoke, release_emptied, remaining_release]
  | merged k =>
    simp only [invoke]
    split
    · rfl
    · split
      · rw [remaining_release]
        rfl
      · rfl

theorem remaining_lt {b : Detect} (hstep : s.detect b = some s') : s'.remaining < s.remaining := by
  cases b with
  | endEpoch e =>
    obtain ⟨⟨hmade, hended, -⟩, rfl⟩ := of_guard hstep
    refine Nat.add_lt_add_left (sum_flag_lt hmade ?_ ?_) _
    · simp [hended]
    · intro e' he'
      simp [he']
  | epochTerminated e =>
    obtain ⟨⟨hmade, -, hterminated⟩, rfl⟩ := of_guard hstep
    refine Nat.add_lt_add_left (sum_flag_lt hmade ?_ ?_) _
    · simp [Term.epochTerminated, Term.clearSuccessors, Term.consumeAll, Term.setSuccessors,
        hterminated]
    · intro e' he'
      simp [Term.epochTerminated, Term.clearSuccessors, Term.consumeAll, Term.setSuccessors, he']
  | runAction i =>
    simp only [detect] at hstep
    split at hstep
    · exact absurd hstep.symm (some_ne_none s')
    · next a ha =>
      obtain ⟨-, rfl⟩ := of_guard hstep
      rw [remaining_invoke]
      refine Nat.add_lt_add_of_lt_of_le ?_ (by simp)
      have hlength := (perm_eraseIdx ha).length_eq
      simp only [length_cons] at hlength
      simp only
      omega

end ChainSys

namespace ChainInv

/-- When the detector is at rest, the sends that wait for no epoch were released. -/
theorem released_of_stopped (h : ChainInv s) (hend : ∀ b, s.detect b = none) {step : ChainStep}
    (hi : s.steps[i]? = some step) (hafter : ∀ e ∈ step.after, s.term.ended e = true) :
    i ∈ s.released := by
  rcases h.handed.released_or_live hi with hreleased | ⟨p, hp, rfl⟩
  · exact hreleased
  · obtain ⟨a, ha, hlink⟩ := h.handed.link_of_live hp
    obtain ⟨i', step', hlink', hstep', hepoch⟩ := h.handed.waits a ha
    obtain rfl := Option.some.inj (hlink.symm.trans hlink')
    obtain rfl := Option.some.inj (hi.symm.trans hstep')
    have hmade := h.handed.madeAfter step (mem_of_getElem? hi) a.epoch hepoch
    -- the node has learnt that the epoch of the action has terminated
    have hterminated : s.term.terminated a.epoch = true := by
      by_contra hnot
      have hstop := hend (.epochTerminated a.epoch)
      rw [ChainSys.detect, if_pos ⟨hmade, hafter _ hepoch, Bool.eq_false_iff.mpr hnot⟩] at hstop
      exact some_ne_none _ hstop
    obtain ⟨j, hj⟩ := mem_iff_getElem?.mp ha
    have hstop := hend (.runAction j)
    simp only [ChainSys.detect, hj, if_pos hterminated] at hstop
    exact absurd hstop (some_ne_none _)

theorem ends (h : ChainInv s) :
    Ends ChainSys.detect (fun s' => ∀ i step, s'.steps[i]? = some step →
      (∀ e ∈ step.after, s'.term.ended e = true) → i ∈ s'.released) s := by
  refine Ends.of_measure remaining ?_ ?_ h
  · intro s b s' hs hstep
    exact ⟨hs.detect hstep, remaining_lt hstep⟩
  · intro s hs hend i step hi hafter
    exact hs.released_of_stopped hend hi hafter

end ChainInv

/-- If every send that is handed to a chain holds a unit of the epoch of its step, it is released
once, between the end of the epochs of the steps before and the end of its own epoch. -/
theorem chains_in_order [DecidableEq C]
    (h : Reach (· = ({} : ChainSys C)) step Sound s) : ChainsInOrder s := by
  have hinv := ChainInv.of_reach h
  have hnodup := hinv.handed.ids.nodup_iff.mpr nodup_range
  exact {
    once := (nodup_append.mp hnodup).2.1
    previous := hinv.handed.previous
    after := fun i step hi hreleased e he => hinv.handed.ended_of_released hi hreleased he
    before := hinv.handed.before
    runs := hinv.ends }

/-- Two chains with a step each, and a step of both: its send is released last. -/
theorem chains_in_order_merged :
    ∃ s : ChainSys Bool, Reach (· = {}) ChainSys.step Sound s ∧
      s.released = [0, 1, 2] ∧ ChainsInOrder s := by
  obtain ⟨s, hs, hreleased⟩ := @Reach.of_guarded_run _ _ (· = {}) Sound _ step
    [.inl (.makeEpoch none), .inl (.makeEpoch none), .inl (.makeEpoch none),
      .inl (.add true none 0 (.msg (some 0))), .inl (.add false none 1 (.msg (some 1))),
      .inl (.mergeChainStep true false none 2 (.epochAction (some 2))),
      .inl (.consume 0), .inl (.consume 1), .inl (.consume 2),
      .inr (.endEpoch 3), .inr (.epochTerminated 3), .inr (.runAction 0), .inl (.consume 0),
      .inr (.endEpoch 0), .inr (.epochTerminated 0), .inr (.runAction 1),
      .inr (.endEpoch 4), .inr (.epochTerminated 4), .inr (.runAction 0), .inl (.consume 1),
      .inr (.endEpoch 1), .inr (.epochTerminated 1), .inr (.runAction 0)]
    (·.released = [0, 1, 2]) _ _ rfl (by decide +kernel)
  exact ⟨s, hs, hreleased, chains_in_order hs⟩

/-- The message of the first step has no epoch.  The epoch of the step terminates before it is sent,
and the message of the second step is sent first. -/
theorem send_overtaken :
    ∃ s : ChainSys Unit, Reach (· = {}) step anyStep s ∧
      s.steps.map (·.epoch) = [0, 2] ∧ s.steps.map (·.previous) = [[], [0]] ∧
      s.term.ended 0 = true ∧ s.released = [1] := by
  refine Reach.of_run step
    [.inl (.makeEpoch none), .inl (.add () none 0 (.msg none)), .inl (.consume 0),
      .inl (.makeEpoch none), .inl (.add () none 2 (.msg (some 2))), .inl (.consume 2),
      .inr (.endEpoch 1), .inr (.epochTerminated 1), .inr (.endEpoch 0),
      .inr (.epochTerminated 0), .inr (.runAction 1)] _ rfl ?_
  decide +kernel

end VtRuntime.SendChain
