import VtRuntime.Messaging.ChainUnits
import VtRuntime.Lib.Lists

/-!
# Sends in the hands of actions

A send that was handed to a chain is in a closure of its own, or shared by two closures, until an
action releases it.
-/

namespace VtRuntime.SendChain

open Lib List ChainSys Option

variable {C : Type} {s s' : ChainSys C} {p : PendingSend} {a : EpochAction} {e i k : ℕ}
  {hand : List PendingSend} {cur : Option ℕ} {x y : Shared}

/-! ## Sends that were not released -/

namespace ChainSys

/-- The number of the send that a closure waits to release. -/
def link (s : ChainSys C) : Closure → Option ℕ
  | .pending p => some p.id
  | .merged k => s.shared[k]?.map (·.pending.id)

/-- The closures are replaced. -/
def setClosures (s : ChainSys C) (actions : List EpochAction) (shared : List Shared) : ChainSys C :=
  { s with actions := actions, shared := shared }

@[simp] theorem setClosures_actions {actions : List EpochAction} {shared : List Shared} :
    (s.setClosures actions shared).actions = actions := rfl

theorem live_erase (ha : s.actions[i]? = some a) :
    s.live.Perm
      (a.closure.owned.toList ++ (s.setClosures (s.actions.eraseIdx i) s.shared).live) := by
  have hperm := (perm_eraseIdx ha).filterMap (·.closure.owned)
  rw [live, live, setClosures, ← append_assoc]
  refine List.Perm.append_right _ (hperm.trans ?_)
  rw [filterMap_cons]
  cases a.closure.owned with
  | none => exact .refl _
  | some p => exact .refl _

/-- The send of an entry with pointers to it. -/
def active (x : Shared) : List PendingSend := if 0 < x.useCount then [x.pending] else []

theorem live_set (hx : s.shared[k]? = some x) :
    (active x ++ (s.setClosures s.actions (s.shared.set k y)).live).Perm (active y ++ s.live) := by
  have hk : k < s.shared.length := (List.getElem?_eq_some_iff.mp hx).1
  have hold : (s.shared.filter (0 < ·.useCount)).Perm
      ((x :: s.shared.eraseIdx k).filter (0 < ·.useCount)) := (perm_eraseIdx hx).filter _
  have hnew : ((s.shared.set k y).filter (0 < ·.useCount)).Perm
      ((y :: s.shared.eraseIdx k).filter (0 < ·.useCount)) :=
    (set_perm_cons_eraseIdx hk y).filter _
  have hsplit : ∀ z : Shared, ((z :: s.shared.eraseIdx k).filter (0 < ·.useCount)).map (·.pending) =
      active z ++ ((s.shared.eraseIdx k).filter (0 < ·.useCount)).map (·.pending) := by
    intro z
    by_cases hz : 0 < z.useCount
    · simp [active, hz]
    · simp [active, hz]
  have hold' := hold.map (·.pending)
  have hnew' := hnew.map (·.pending)
  rw [hsplit] at hold' hnew'
  refine perm_iff_count.mpr fun z => ?_
  simp only [live, setClosures, count_append, hold'.count_eq, hnew'.count_eq]
  omega

theorem live_append_pending {new : EpochAction} (hnew : new.closure = .pending p) :
    (s.setClosures (s.actions ++ [new]) s.shared).live.Perm (p :: s.live) := by
  rw [live, live, setClosures, filterMap_append, append_assoc]
  simp [hnew, Closure.owned]

theorem link_set (hx : s.shared[k]? = some x) (hy : y.pending.id = x.pending.id) (c : Closure) :
    (s.setClosures s.actions (s.shared.set k y)).link c = s.link c := by
  cases c with
  | pending p => rfl
  | merged k' =>
    simp only [link, setClosures, List.getElem?_set]
    by_cases hk : k = k'
    · subst hk
      obtain ⟨hlt, rfl⟩ := List.getElem?_eq_some_iff.mp hx
      simp [hy, hlt]
    · simp [hk]

end ChainSys

/-! ## The invariant -/

/-- Every send that was handed to a chain is in a closure, in hand or released.  As long as an epoch
that it waits for has not terminated, an action of this epoch holds it. -/
structure Handed (hand : List PendingSend) (s : ChainSys C) : Prop where
  ids : ((hand ++ s.live).map (·.id) ++ s.released).Perm (List.range s.steps.length)
  unit : ∀ p ∈ hand ++ s.live, p.payload ≠ .empty ∧
    ∃ step, s.steps[p.id]? = some step ∧ p.epochProduced = some step.epoch
  useCount : ∀ k x, s.shared[k]? = some x →
    x.useCount = s.actions.countP (·.closure = .merged k)
  waits : ∀ a ∈ s.actions, ∃ i step, s.link a.closure = some i ∧ s.steps[i]? = some step ∧
    a.epoch ∈ step.after
  after : ∀ i step, s.steps[i]? = some step → ∀ e ∈ step.after, s.term.ended e = true ∨
    ∃ a ∈ s.actions, a.epoch = e ∧ s.link a.closure = some i
  before : ∀ i step, s.steps[i]? = some step → s.term.ended step.epoch = true → i ∈ s.released
  previous : ∀ step ∈ s.steps, ∀ e ∈ step.previous, e ∈ step.after
  last : ∀ c e, s.previous c = some e → s.lastEpoch c = some e
  madeLast : ∀ c e, s.lastEpoch c = some e → s.term.Made e
  madeAfter : ∀ step ∈ s.steps, ∀ e ∈ step.after, s.term.Made e
  ended : ∀ e, s.term.terminated e = true → s.term.ended e = true

namespace Handed

theorem start : Handed [] ({} : ChainSys C) := by
  constructor <;> simp [live]

section

variable (h : Handed hand s)
include h

/-- Units and successors are of no concern. -/
theorem congr {t : Term} (w : ℕ → ℕ) (hn : s.term.numEpochs ≤ t.numEpochs)
    (hended : t.ended = s.term.ended) (hterminated : t.terminated = s.term.terminated) :
    Handed hand { s with term := t, work := w } :=
  { h with
    after := hended ▸ h.after
    before := hended ▸ h.before
    madeLast := fun c e he => Nat.lt_of_lt_of_le (h.madeLast c e he) hn
    madeAfter := fun step hstep e he => Nat.lt_of_lt_of_le (h.madeAfter step hstep e he) hn
    ended := by
      simp only [hended, hterminated]
      exact h.ended }

/-- A send is released, or it is in hand or in a closure. -/
theorem released_or_live {step : ChainStep} (hi : s.steps[i]? = some step) :
    i ∈ s.released ∨ ∃ p ∈ hand ++ s.live, p.id = i := by
  have hlt : i ∈ List.range s.steps.length :=
    mem_range.mpr (List.getElem?_eq_some_iff.mp hi).1
  rcases mem_append.mp (h.ids.mem_iff.mpr hlt) with hlive | hreleased
  · exact .inr (mem_map.mp hlive)
  · exact .inl hreleased

theorem not_released (hp : p ∈ hand ++ s.live) : p.id ∉ s.released := by
  have hnodup := h.ids.nodup_iff.mpr nodup_range
  exact fun hreleased => (nodup_append.mp hnodup).2.2 _ (mem_map_of_mem hp) _ hreleased rfl

/-- The send of an action that was not run is in a closure. -/
theorem live_of_link (ha : a ∈ s.actions) (hlink : s.link a.closure = some i) :
    ∃ p ∈ s.live, p.id = i := by
  cases hc : a.closure with
  | pending p =>
    rw [hc] at hlink
    refine ⟨p, ?_, some.inj hlink⟩
    exact mem_append_left _ (mem_filterMap.mpr ⟨a, ha, by rw [hc]; rfl⟩)
  | merged k =>
    rw [hc] at hlink
    obtain ⟨x, hx, rfl⟩ := map_eq_some_iff.mp hlink
    have hpos : 0 < x.useCount := by
      rw [h.useCount k x hx]
      exact countP_pos_iff.mpr ⟨a, ha, by simpa using hc⟩
    refine ⟨x.pending, mem_append_right _ (mem_map.mpr ⟨x, ?_, rfl⟩), rfl⟩
    exact mem_filter.mpr ⟨mem_of_getElem? hx, by simpa using hpos⟩

/-- A send in a closure has an action that was not run. -/
theorem link_of_live (hp : p ∈ s.live) : ∃ a ∈ s.actions, s.link a.closure = some p.id := by
  rcases mem_append.mp hp with howned | hshared
  · obtain ⟨a, ha, hp⟩ := mem_filterMap.mp howned
    refine ⟨a, ha, ?_⟩
    cases hc : a.closure with
    | pending q =>
      rw [hc] at hp
      rw [← some.inj hp]
      rfl
    | merged k =>
      rw [hc] at hp
      exact absurd hp.symm (some_ne_none p)
  · obtain ⟨x, hx, rfl⟩ := mem_map.mp hshared
    obtain ⟨hmem, hpos⟩ := mem_filter.mp hx
    obtain ⟨k, hk⟩ := mem_iff_getElem?.mp hmem
    have hcount : 0 < s.actions.countP (·.closure = .merged k) := by
      rw [← h.useCount k x hk]
      simpa using hpos
    obtain ⟨a, ha, hc⟩ := countP_pos_iff.mp hcount
    refine ⟨a, ha, ?_⟩
    rw [of_decide_eq_true hc, link, hk, map_some]

/-- A send that was released waits for no epoch. -/
theorem ended_of_released {step : ChainStep} (hi : s.steps[i]? = some step)
    (hreleased : i ∈ s.released) (he : e ∈ step.after) : s.term.ended e = true := by
  rcases h.after i step hi e he with hended | ⟨a, ha, -, hlink⟩
  · exact hended
  · obtain ⟨p, hp, rfl⟩ := h.live_of_link ha hlink
    exact absurd hreleased (h.not_released (mem_append_right _ hp))

end

/-- An epoch without units terminates: the send of a step with this epoch was released. -/
theorem endEpoch (h : Handed [] s) (hb : Balance [] s) (he : s.term.units e = 0) :
    Handed [] { s with term := { s.term with ended := Function.update s.term.ended e true } } := by
  have hmono : ∀ e', s.term.ended e' = true → Function.update s.term.ended e true e' = true := by
    intro e' he'
    by_cases heq : e' = e
    · simp [heq]
    · simpa [heq] using he'
  refine { h with after := ?_, before := ?_, ended := fun e' he' => hmono e' (h.ended e' he') }
  · intro i step hi e' he'
    exact (h.after i step hi e' he').imp_left (hmono e')
  · intro i step hi hended
    by_cases heq : step.epoch = e
    · rcases h.released_or_live hi with hreleased | ⟨p, hp, rfl⟩
      · exact hreleased
      · obtain ⟨-, step', hstep', hunit⟩ := h.unit p hp
        obtain rfl := some.inj (hi.symm.trans hstep')
        exact absurd (heq ▸ hunit) (hb.not_live he hp)
    · exact h.before i step hi (by simpa [heq] using hended)

theorem epochTerminated (h : Handed hand s) (he : s.term.ended e = true) :
    Handed hand { s with term := s.term.epochTerminated e } := by
  refine { h with ended := ?_ }
  intro e' he'
  by_cases heq : e' = e
  · exact heq ▸ he
  · refine h.ended e' ?_
    simpa [Term.epochTerminated, Term.clearSuccessors, Term.consumeAll, Term.setSuccessors, heq]
      using he'

/-- An action of an epoch that has terminated is taken from the list. -/
theorem take (hand : List PendingSend) (h : Handed [] s) (ha : s.actions[i]? = some a)
    (hterminated : s.term.terminated a.epoch = true) {shared : List Shared}
    (hlive : (hand ++ (s.setClosures (s.actions.eraseIdx i) shared).live).Perm s.live)
    (hlink : ∀ c, (s.setClosures (s.actions.eraseIdx i) shared).link c = s.link c)
    (hcount : ∀ k x, shared[k]? = some x →
      x.useCount = (s.actions.eraseIdx i).countP (·.closure = .merged k)) :
    Handed hand (s.setClosures (s.actions.eraseIdx i) shared) := by
  have hmem : ∀ b, b ∈ s.actions ↔ b = a ∨ b ∈ s.actions.eraseIdx i := by
    intro b
    rw [(perm_eraseIdx ha).mem_iff, mem_cons]
  refine { h with
    ids := ((hlive.map _).append_right _).trans h.ids
    unit := fun p hp => h.unit p (hlive.mem_iff.mp hp)
    useCount := hcount
    waits := ?_
    after := ?_ }
  · intro b hb
    rw [hlink]
    exact h.waits b ((hmem b).mpr (.inr hb))
  · intro j step hj e he
    rcases h.after j step hj e he with hended | ⟨b, hb, hepoch, hbj⟩
    · exact .inl hended
    · rcases (hmem b).mp hb with rfl | hb
      · exact .inl (hepoch ▸ h.ended b.epoch hterminated)
      · exact .inr ⟨b, hb, hepoch, (hlink b.closure).trans hbj⟩

theorem release (h : Handed (p :: hand) s) : Handed hand (s.release p) := by
  have hnote : Handed hand { s with released := s.released ++ [p.id] } := by
    refine { h with
      ids := ?_
      unit := fun q hq => h.unit q (mem_cons_of_mem p hq)
      before := fun i step hi he => mem_append_left _ (h.before i step hi he) }
    refine List.Perm.trans ?_ h.ids
    rw [cons_append, map_cons, cons_append, ← append_assoc]
    exact perm_append_singleton _ _
  obtain ⟨hpayload, -⟩ := h.unit p mem_cons_self
  rw [ChainSys.release]
  split
  · next hempty => exact absurd hempty hpayload
  · next epoch _ =>
    cases epoch with
    | none => exact hnote.congr s.work (by simp [begin]) (by simp [begin]) (by simp [begin])
    | some e => exact hnote.congr _ (by simp [begin]) (by simp [begin]) (by simp [begin])
  · exact hnote.congr s.work (by simp) (by simp) (by simp)

end Handed

namespace Balance

variable {held : List (Option ℕ)}

theorem release (h : Balance (p.epochProduced :: held) s) (hp : p.payload ≠ .empty) :
    Balance held (s.release p) := by
  rw [ChainSys.release]
  split
  · next hempty => exact absurd hempty hp
  · next epoch _ =>
    have hbegin := h.begin epoch
    exact Balance.consume (s := { s.begin epoch with released := s.released ++ [p.id] })
      (hbegin.move (.refl _) rfl rfl)
  · exact Balance.consume (s := { s with released := s.released ++ [p.id] })
      (h.move (.refl _) rfl rfl)

/-- An action is taken from the list, and the units that it held are in hand. -/
theorem take (hand : List PendingSend) (h : Balance [] s) (ha : s.actions[i]? = some a)
    {shared : List Shared}
    (hlive : (hand ++ (s.setClosures (s.actions.eraseIdx i) shared).live).Perm
      s.live) :
    Balance (a.encap :: hand.map (·.epochProduced))
      (s.setClosures (s.actions.eraseIdx i) shared) := by
  refine h.move ?_ rfl rfl
  have hencap := (perm_eraseIdx ha).map (·.encap)
  have hepochs := hlive.map (·.epochProduced)
  rw [map_append] at hepochs
  refine perm_iff_count.mpr fun z => ?_
  simp only [holdings, setClosures_actions, count_append, count_cons,
    nil_append, ← hepochs.count_eq, hencap.count_eq, map_cons]
  omega

/-- The units of a send and of the actions that wait to release it are handed over. -/
theorem handOver {new : List EpochAction} {shared : List Shared}
    (h : Balance (new.map (·.encap) ++ [p.epochProduced]) s)
    (hlive : (s.setClosures (s.actions ++ new) shared).live.Perm (p :: s.live)) :
    Balance [] (s.setClosures (s.actions ++ new) shared) := by
  refine h.move ?_ rfl rfl
  have hepochs := hlive.map (·.epochProduced)
  refine perm_iff_count.mpr fun z => ?_
  simp only [holdings, setClosures_actions, count_append, nil_append, hepochs.count_eq,
    map_append, map_cons, count_cons, count_nil]
  omega

end Balance

/-! ## The actions of the detector -/

namespace ChainSys

/-- A `PendingSend` that was released does nothing when it is destroyed. -/
theorem release_emptied : s.release p.emptied = s := rfl

end ChainSys

namespace Handed

theorem useCount_set (h : Handed hand s) (ha : s.actions[i]? = some a) (hc : a.closure = .merged k)
    (hx : s.shared[k]? = some x) (hy : y.useCount + 1 = x.useCount) (k' : ℕ) (x' : Shared)
    (hx' : (s.shared.set k y)[k']? = some x') :
    x'.useCount = (s.actions.eraseIdx i).countP (·.closure = .merged k') := by
  have hcount := (perm_eraseIdx ha).countP_eq (·.closure = .merged k')
  rw [countP_cons, hc] at hcount
  rw [List.getElem?_set] at hx'
  by_cases hk : k = k'
  · subst hk
    rw [if_pos rfl, if_pos (List.getElem?_eq_some_iff.mp hx).1] at hx'
    rw [← some.inj hx']
    have hold := h.useCount k x hx
    simp only [decide_true, if_true] at hcount
    omega
  · rw [if_neg hk] at hx'
    rw [h.useCount k' x' hx', hcount]
    simp [hk]

/-- What an action does to the sends: one that it owns or that it is the last to point to is
released. -/
theorem runAction (h : Handed [] s) (hb : Balance [] s) (ha : s.actions[i]? = some a)
    (hterminated : s.term.terminated a.epoch = true) :
    Handed [] ({ s with actions := s.actions.eraseIdx i, term := s.term.consume a.encap }.invoke
        a.closure) ∧
      Balance [] ({ s with actions := s.actions.eraseIdx i, term := s.term.consume a.encap }.invoke
        a.closure) := by
  have herase := live_erase ha
  -- the send in hand is released after the unit of the action was consumed
  have hreleased : ∀ {p : PendingSend} {shared : List Shared},
      (p :: (s.setClosures (s.actions.eraseIdx i) shared).live).Perm s.live →
      Handed [p] (s.setClosures (s.actions.eraseIdx i) shared) →
      Handed [] ({ s.setClosures (s.actions.eraseIdx i) shared with
        term := s.term.consume a.encap }.release p) ∧
      Balance [] ({ s.setClosures (s.actions.eraseIdx i) shared with
        term := s.term.consume a.encap }.release p) := by
    intro p shared hlive hp
    have hconsumed := hp.congr (t := s.term.consume a.encap) s.work (by simp [setClosures])
      (by simp [setClosures]) (by simp [setClosures])
    have hunits := (hb.take [p] ha hlive).consume
    exact ⟨hconsumed.release, hunits.release (hp.unit p mem_cons_self).1⟩
  cases hc : a.closure with
  | pending p =>
    rw [hc] at herase
    have hcount : ∀ k x, s.shared[k]? = some x →
        x.useCount = (s.actions.eraseIdx i).countP (·.closure = .merged k) := by
      intro k x hx
      rw [h.useCount k x hx, (perm_eraseIdx ha).countP_eq, countP_cons, hc]
      simp
    rw [invoke, release_emptied]
    exact hreleased herase.symm (h.take [p] ha hterminated herase.symm (fun _ => rfl) hcount)
  | merged k =>
    rw [hc] at herase
    obtain ⟨j, step, hlink, -⟩ := h.waits a (mem_of_getElem? ha)
    rw [hc] at hlink
    obtain ⟨x, hx, -⟩ := map_eq_some_iff.mp hlink
    have hpos : 0 < x.useCount := by
      rw [h.useCount k x hx]
      exact countP_pos_iff.mpr ⟨a, mem_of_getElem? ha, by simpa using hc⟩
    have hset := fun y : Shared =>
      (live_set (s := s.setClosures (s.actions.eraseIdx i) s.shared) (y := y) hx).trans
        (herase.symm.append_left _)
    simp only [invoke, hx]
    split
    · next hone =>
      have hlive := hset ⟨0, x.pending.emptied⟩
      simp only [active, hpos, if_true, Nat.lt_irrefl, if_false] at hlive
      refine hreleased hlive (h.take [x.pending] ha hterminated hlive ?_ ?_)
      · exact link_set hx rfl
      · exact h.useCount_set ha hc hx hone.symm
    · next hmore =>
      have htwo : 0 < x.useCount - 1 := by omega
      have hlive := hset ⟨x.useCount - 1, x.pending⟩
      simp only [active, hpos, htwo, if_true] at hlive
      have htake := h.take [] ha hterminated hlive.cons_inv (link_set hx rfl)
        (h.useCount_set ha hc hx (Nat.succ_pred_eq_of_pos hpos))
      refine ⟨htake.congr s.work ?_ ?_ ?_, (hb.take [] ha hlive.cons_inv).consume⟩ <;>
        simp [setClosures]

end Handed

end VtRuntime.SendChain
