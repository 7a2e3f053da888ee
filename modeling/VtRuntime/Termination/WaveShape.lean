import VtRuntime.Termination.Wave
import Mathlib.Tactic.Abel

/-!
# The shape of a wave

What every reachable state of the wave protocol looks like while no termination has been
detected.  With `W` the wave of the root, every other node is in one of three phases: it
waits for the continue signal of `W`, it is in wave `W` and has not submitted, or it has
submitted wave `W` (`Done`).  A node that is done has received all its children, and a
node that is not done counts those of its children whose counters have arrived.
-/

namespace VtRuntime.Termination

open Lib List
open Finset hiding sum_cons mem_singleton

universe u

/-- A state without the fields the shape of a wave does not depend on. -/
def TermState.skeleton (st : TermState) : TermState :=
  { st with
    lProd := 0, lCons := 0, constantCount := 0, localTerminated := true
    epochActive := true, deps := 0 }

theorem TermState.of_skeleton_eq {st st' : TermState} (h : st'.skeleton = st.skeleton) :
    st'.curWave = st.curWave ∧ st'.submittedWave = st.submittedWave ∧
      st'.recvChildCount = st.recvChildCount ∧ st'.numChildren = st.numChildren ∧
      st'.termDetected = st.termDetected ∧ st'.acc2 = st.acc2 := by
  simp only [skeleton, TermState.mk.injEq] at h
  simp [acc2, h]

namespace WaveSys

variable {N : Type u} [Fintype N] [DecidableEq N] (T : SpanningTree N)

variable (st : N → TermState)

/-- The node has submitted its counters for the wave the root is in. -/
def Done (n : N) : Prop := (st n).submittedWave = (st T.root).curWave

instance (st : N → TermState) : DecidablePred (Done T st) :=
  fun _ => inferInstanceAs (Decidable (_ = _))

/-- The children whose counters for the root's wave have arrived. -/
def received (toParent : N → List (ℤ × ℤ)) (n : N) : Finset N :=
  (T.children n).filter fun c => Done T st c ∧ toParent c = []

/-- The shape of a state in which no termination has been detected. -/
structure Shape (toParent : N → List (ℤ × ℤ)) (continues : N → List ℤ)
    (samples : N → ℤ → List (ℤ × ℤ)) (evals : List (ℤ × (ℤ × ℤ))) : Prop where
  numChildren : ∀ n, (st n).numChildren = T.numChildren n
  undetected : (st T.root).termDetected = false
  nonneg : 0 ≤ (st T.root).curWave
  root : (st T.root).submittedWave = (st T.root).curWave - 1
  noneToRoot : continues T.root = []
  phase : ∀ n, n ≠ T.root →
    (continues n = [] ∧ (st n).curWave = (st T.root).curWave ∧
      ((st n).submittedWave = (st T.root).curWave - 1 ∨ Done T st n)) ∨
    (continues n = [(st T.root).curWave] ∧ (st n).curWave = (st T.root).curWave - 1 ∧
      (st n).submittedWave = (st T.root).curWave - 1)
  done : ∀ n, Done T st n → (st n).recvChildCount = 0 ∧ (st n).acc1 = 0 ∧
    ∀ c ∈ T.children n, Done T st c ∧ toParent c = []
  recv : ∀ n, ¬ Done T st n → (st n).recvChildCount = (received T st toParent n).card
  message : ∀ n, toParent n = [] ∨ (Done T st n ∧ ∃ x, toParent n = [x])
  unsampled : ∀ n, ¬ Done T st n → samples n (st T.root).curWave = []
  sampled : ∀ n, Done T st n → ∃ x, samples n (st T.root).curWave = [x]
  total : ∑ n, (samples n (st T.root).curWave).sum =
    ∑ n, (toParent n).sum + ∑ n, (st n).acc1
  future : ∀ n w, (st T.root).curWave < w → samples n w = []
  past : ∀ e ∈ evals, e.1 < (st T.root).curWave

variable {T} {st st' : N → TermState} {toParent : N → List (ℤ × ℤ)} {continues : N → List ℤ}
  {samples : N → ℤ → List (ℤ × ℤ)} {evals : List (ℤ × (ℤ × ℤ))}

namespace Shape

theorem skeleton_iff : Shape T (fun n => (st n).skeleton) toParent continues samples evals ↔
    Shape T st toParent continues samples evals :=
  ⟨fun h => { h with }, fun h => { h with }⟩

section

variable (h : Shape T st toParent continues samples evals)
include h

/-- Local counters, flags and dependencies may change freely. -/
theorem congr (hst : ∀ n, (st' n).skeleton = (st n).skeleton) :
    Shape T st' toParent continues samples evals := by
  rw [← skeleton_iff, funext hst, skeleton_iff]
  exact h

theorem not_done_root : ¬ Done T st T.root := by
  intro hd
  have := h.root
  rw [Done] at hd
  omega

/-- The node is in the root's wave and has not submitted, when it is ready. -/
theorem ready_phase {n : N} (hready : (st n).readySubmitParent = true) :
    (st n).curWave = (st T.root).curWave ∧ continues n = [] ∧ ¬ Done T st n := by
  have hr := (st n).readySubmitParent_iff.mp hready
  by_cases hn : n = T.root
  · subst hn
    exact ⟨rfl, h.noneToRoot, h.not_done_root⟩
  · rcases h.phase n hn with ⟨hc, hcur, -⟩ | ⟨-, hcur, hsub⟩
    · refine ⟨hcur, hc, ?_⟩
      rw [Done]
      omega
    · omega

/-- A node that is ready has received the counters of all its children. -/
theorem ready_children {n : N} (hready : (st n).readySubmitParent = true) :
    ∀ c ∈ T.children n, Done T st c ∧ toParent c = [] := by
  have hr := (st n).readySubmitParent_iff.mp hready
  have hcard : (received T st toParent n).card = (T.children n).card := by
    rw [← h.recv n (h.ready_phase hready).2.2, hr.2.2.2.1, h.numChildren]
    rfl
  intro c hc
  have hall := eq_of_subset_of_card_le (filter_subset _ _) hcard.ge
  rw [← hall, Finset.mem_filter] at hc
  exact hc.2

/-- When the root is ready, every other node is done and its counters have arrived. -/
theorem all_done (hready : (st T.root).readySubmitParent = true) :
    ∀ n, n ≠ T.root → Done T st n ∧ toParent n = [] := by
  refine T.induction ?_
  intro n hn ih
  have hmem : n ∈ T.children (T.parent n) := T.mem_children.mpr ⟨hn, rfl⟩
  by_cases hp : T.parent n = T.root
  · rw [hp] at hmem
    exact h.ready_children hready n hmem
  · exact (h.done _ (ih hp).1).2.2 n hmem

end

theorem received_congr {toParent' : N → List (ℤ × ℤ)} {n : N}
    (h : ∀ c ∈ T.children n, Done T st' c ∧ toParent' c = [] ↔ Done T st c ∧ toParent c = []) :
    received T st' toParent' n = received T st toParent n :=
  filter_congr h

end Shape

/-! ## A node submits -/

/-- What changes when a node other than the root submits. -/
structure Submission (T : SpanningTree N) (n : N) (st st' : N → TermState)
    (toParent toParent' : N → List (ℤ × ℤ)) (samples samples' : N → ℤ → List (ℤ × ℤ)) :
    Prop where
  ne_root : n ≠ T.root
  ready : (st n).readySubmitParent = true
  state : ∀ m, st' m = if m = n then (st n).afterSubmit else st m
  message : ∀ m, toParent' m = if m = n then (st n).counted :: toParent m else toParent m
  sample : ∀ m w, samples' m w =
    if m = n ∧ w = (st n).curWave then (st n).loc :: samples m w else samples m w

namespace Submission

variable {n m : N} {toParent' : N → List (ℤ × ℤ)} {samples' : N → ℤ → List (ℤ × ℤ)}

variable (c : Submission T n st st' toParent toParent' samples samples')
include c

omit [Fintype N] in
theorem state_self : st' n = (st n).afterSubmit := by
  rw [c.state, if_pos rfl]

omit [Fintype N] in
theorem state_of_ne (hm : m ≠ n) : st' m = st m := by
  rw [c.state, if_neg hm]

omit [Fintype N] in
theorem state_root : st' T.root = st T.root :=
  c.state_of_ne c.ne_root.symm

variable (h : Shape T st toParent continues samples evals)
include h

theorem done_iff : Done T st' m ↔ m = n ∨ Done T st m := by
  by_cases hm : m = n
  · subst hm
    have hcur := (h.ready_phase c.ready).1
    have hsub := ((st m).readySubmitParent_iff.mp c.ready).2.2.2.2.1
    simp only [Done, c.state_self, c.state_root, true_or, iff_true, TermState.afterSubmit,
      TermState.submitToParent]
    omega
  · simp only [Done, c.state_of_ne hm, c.state_root, hm, false_or]

/-- The node had no message in flight and no sample of the wave. -/
theorem fresh : toParent n = [] ∧ samples n (st T.root).curWave = [] := by
  have hnd := (h.ready_phase c.ready).2.2
  exact ⟨(h.message n).resolve_right fun hd => hnd hd.1, h.unsampled n hnd⟩

theorem sample_wave (m : N) :
    samples' m (st T.root).curWave =
      if m = n then [(st n).loc] else samples m (st T.root).curWave := by
  rw [c.sample]
  by_cases hm : m = n
  · subst hm
    simp [(h.ready_phase c.ready).1, (c.fresh h).2]
  · simp [hm]

/-- The children of a node that is done have submitted, and their counters have arrived. -/
theorem children (hm : ∀ k ∈ T.children m, Done T st k ∧ toParent k = []) :
    ∀ k ∈ T.children m, Done T st' k ∧ toParent' k = [] := by
  intro k hk
  have hkn : k ≠ n := by
    rintro rfl
    exact (h.ready_phase c.ready).2.2 (hm k hk).1
  rw [c.done_iff h, c.message, if_neg hkn]
  exact ⟨.inr (hm k hk).1, (hm k hk).2⟩

theorem done (hm : Done T st' m) :
    (st' m).recvChildCount = 0 ∧ (st' m).acc1 = 0 ∧
      ∀ k ∈ T.children m, Done T st' k ∧ toParent' k = [] := by
  by_cases hmn : m = n
  · subst hmn
    rw [c.state_self]
    exact ⟨rfl, rfl, c.children h (h.ready_children c.ready)⟩
  · obtain ⟨hrecv, hacc, hchild⟩ := h.done m (((c.done_iff h).mp hm).resolve_left hmn)
    rw [c.state_of_ne hmn]
    exact ⟨hrecv, hacc, c.children h hchild⟩

/-- The child that has just submitted was not counted and still is not. -/
theorem received : WaveSys.received T st' toParent' m = WaveSys.received T st toParent m := by
  refine Shape.received_congr ?_
  intro k hk
  rw [c.done_iff h, c.message]
  by_cases hkn : k = n
  · subst hkn
    simp [(h.ready_phase c.ready).2.2]
  · simp [hkn]

theorem total :
    ∑ m, (samples' m (st T.root).curWave).sum = ∑ m, (toParent' m).sum + ∑ m, (st' m).acc1 := by
  have hsamples := sum_change_at (f := fun m => (samples m (st T.root).curWave).sum)
    (g := fun m => (samples' m (st T.root).curWave).sum) n
    fun m hm => by rw [c.sample_wave h, if_neg hm]
  have hmessages := sum_change_at (f := fun m => (toParent m).sum)
    (g := fun m => (toParent' m).sum) n fun m hm => by rw [c.message, if_neg hm]
  have hacc := sum_change_at (f := fun m => (st m).acc1) (g := fun m => (st' m).acc1) n
    fun m hm => by rw [c.state_of_ne hm]
  have hzero : (st' n).acc1 = 0 := by
    rw [c.state_self]
    rfl
  rw [hsamples, hmessages, hacc, h.total, c.sample_wave h, if_pos rfl, c.message, if_pos rfl,
    hzero, (c.fresh h).1, (c.fresh h).2]
  simp only [sum_cons, sum_nil, TermState.counted_eq]
  abel

end Submission

namespace Shape

variable (h : Shape T st toParent continues samples evals)
include h

theorem submit {n : N} {toParent' : N → List (ℤ × ℤ)} {samples' : N → ℤ → List (ℤ × ℤ)}
    (c : Submission T n st st' toParent toParent' samples samples') :
    Shape T st' toParent' continues samples' evals where
  numChildren m := by
    rw [c.state]
    split
    · rename_i hm
      rw [hm]
      exact h.numChildren n
    · exact h.numChildren m
  undetected := c.state_root ▸ h.undetected
  nonneg := c.state_root ▸ h.nonneg
  root := c.state_root ▸ h.root
  noneToRoot := h.noneToRoot
  phase m hm := by
    rw [c.state_root]
    by_cases hmn : m = n
    · subst hmn
      left
      obtain ⟨hcur, hcont, -⟩ := h.ready_phase c.ready
      refine ⟨hcont, ?_, .inr ((c.done_iff h).mpr (.inl rfl))⟩
      rw [c.state_self]
      exact hcur
    · rw [c.state_of_ne hmn, c.done_iff h]
      simp only [hmn, false_or]
      exact h.phase m hm
  done m hm := c.done h hm
  recv m hm := by
    rw [c.done_iff h, not_or] at hm
    rw [c.state_of_ne hm.1, h.recv m hm.2, c.received h]
  message m := by
    rw [c.done_iff h, c.message]
    by_cases hmn : m = n
    · subst hmn
      simp [(c.fresh h).1]
    · simp only [hmn, if_false, false_or]
      exact h.message m
  unsampled m hm := by
    rw [c.done_iff h, not_or] at hm
    rw [c.state_root, c.sample_wave h, if_neg hm.1]
    exact h.unsampled m hm.2
  sampled m hm := by
    rw [c.state_root, c.sample_wave h]
    by_cases hmn : m = n
    · rw [if_pos hmn]
      exact ⟨_, rfl⟩
    · rw [if_neg hmn]
      exact h.sampled m (((c.done_iff h).mp hm).resolve_left hmn)
  total := by
    rw [c.state_root]
    exact c.total h
  future m w hw := by
    have hcur := (h.ready_phase c.ready).1
    rw [c.state_root] at hw
    rw [c.sample, if_neg (by omega)]
    exact h.future m w hw
  past := c.state_root ▸ h.past

/-- A counter message in flight comes from a node that is done, whose parent is not. -/
theorem of_mem_toParent {src : N} {msg : ℤ × ℤ} (hmsg : msg ∈ toParent src) :
    src ≠ T.root ∧ Done T st src ∧ toParent src = [msg] ∧ ¬ Done T st (T.parent src) := by
  rcases h.message src with h0 | ⟨hd, x, hx⟩
  · rw [h0] at hmsg
    exact absurd hmsg not_mem_nil
  · have hroot : src ≠ T.root := by
      rintro rfl
      exact h.not_done_root hd
    rw [hx, mem_singleton] at hmsg
    subst hmsg
    refine ⟨hroot, hd, hx, ?_⟩
    intro hp
    have := ((h.done _ hp).2.2 src (T.mem_children.mpr ⟨hroot, rfl⟩)).2
    rw [hx] at this
    exact cons_ne_nil _ _ this

/-- When a counter message is delivered the parent has not received all its children. -/
theorem recv_lt {src : N} {msg : ℤ × ℤ} (hmsg : msg ∈ toParent src) :
    (st (T.parent src)).recvChildCount < (st (T.parent src)).numChildren := by
  obtain ⟨hroot, -, hto, hp⟩ := h.of_mem_toParent hmsg
  rw [h.recv _ hp, h.numChildren]
  apply card_lt_card
  rw [received, filter_ssubset]
  refine ⟨src, T.mem_children.mpr ⟨hroot, rfl⟩, ?_⟩
  rw [hto]
  simp

end Shape

/-! ## A counter message is delivered -/

/-- What changes when a counter message is delivered. -/
structure Reception (T : SpanningTree N) (src : N) (msg : ℤ × ℤ) (st st' : N → TermState)
    (toParent toParent' : N → List (ℤ × ℤ)) : Prop where
  mem : msg ∈ toParent src
  state : ∀ m, st' m = if m = T.parent src then
    ((st m).addChild msg.1 msg.2).notifyChildReceive else st m
  message : ∀ m, toParent' m = if m = src then (toParent m).erase msg else toParent m

namespace Reception

variable {src m : N} {msg : ℤ × ℤ} {toParent' : N → List (ℤ × ℤ)}

variable (c : Reception T src msg st st' toParent toParent')
include c

omit [Fintype N] in
/-- The waves that a node is in and has submitted stay. -/
theorem waves (m : N) :
    (st' m).curWave = (st m).curWave ∧ (st' m).submittedWave = (st m).submittedWave := by
  rw [c.state]
  split <;> exact ⟨rfl, rfl⟩

omit [Fintype N] in
theorem done_iff : Done T st' m ↔ Done T st m := by
  rw [Done, Done, (c.waves m).2, (c.waves T.root).1]

section

variable (h : Shape T st toParent continues samples evals)
include h

theorem arrived : toParent' src = [] := by
  rw [c.message, if_pos rfl, (h.of_mem_toParent c.mem).2.2.1, erase_cons_head]

theorem done (hm : Done T st' m) :
    (st' m).recvChildCount = 0 ∧ (st' m).acc1 = 0 ∧
      ∀ k ∈ T.children m, Done T st' k ∧ toParent' k = [] := by
  rw [c.done_iff] at hm
  have hmp : m ≠ T.parent src := fun heq => (h.of_mem_toParent c.mem).2.2.2 (heq ▸ hm)
  obtain ⟨hrecv, hacc, hchild⟩ := h.done m hm
  rw [c.state, if_neg hmp]
  refine ⟨hrecv, hacc, ?_⟩
  intro k hk
  rw [c.done_iff]
  refine ⟨(hchild k hk).1, ?_⟩
  by_cases hks : k = src
  · rw [hks]
    exact c.arrived h
  · rw [c.message, if_neg hks]
    exact (hchild k hk).2

theorem received_parent :
    (received T st' toParent' (T.parent src)).card =
      (received T st toParent (T.parent src)).card + 1 := by
  obtain ⟨hsrc, hd, hone, -⟩ := h.of_mem_toParent c.mem
  have hins : received T st' toParent' (T.parent src) =
      insert src (received T st toParent (T.parent src)) := by
    ext k
    rw [Finset.mem_insert, received, received, Finset.mem_filter, Finset.mem_filter, c.done_iff]
    by_cases hks : k = src
    · subst hks
      simp [hsrc, hd, c.arrived h]
    · simp [c.message, hks]
  have hout : src ∉ received T st toParent (T.parent src) := by
    simp [received, hone]
  rw [hins, card_insert_of_notMem hout]

end

theorem received_of_ne (hm : m ≠ T.parent src) :
    received T st' toParent' m = received T st toParent m := by
  refine Shape.received_congr ?_
  intro k hk
  have hks : k ≠ src := by
    rintro rfl
    exact hm (T.mem_children.mp hk).2.symm
  rw [c.done_iff, c.message, if_neg hks]

/-- What the message carried is added to what the parent keeps. -/
theorem total (h : Shape T st toParent continues samples evals) :
    ∑ m, (toParent' m).sum + ∑ m, (st' m).acc1 = ∑ m, (toParent m).sum + ∑ m, (st m).acc1 := by
  have hmessages := sum_change_at (f := fun m => (toParent m).sum)
    (g := fun m => (toParent' m).sum) src fun m hm => by rw [c.message, if_neg hm]
  have hkept := sum_change_at (f := fun m => (st m).acc1) (g := fun m => (st' m).acc1)
    (T.parent src) fun m hm => by rw [c.state, if_neg hm]
  have hacc : (st' (T.parent src)).acc1 = (st (T.parent src)).acc1 + msg := by
    rw [c.state, if_pos rfl]
    rfl
  rw [hmessages, hkept, hacc, c.arrived h, (h.of_mem_toParent c.mem).2.2.1]
  simp only [sum_cons, sum_nil]
  abel

end Reception

namespace Shape

variable (h : Shape T st toParent continues samples evals)
include h

theorem receive {src : N} {msg : ℤ × ℤ} {toParent' : N → List (ℤ × ℤ)}
    (c : Reception T src msg st st' toParent toParent') :
    Shape T st' toParent' continues samples evals where
  numChildren m := by
    rw [c.state]
    split <;> exact h.numChildren m
  undetected := by
    rw [c.state]
    split <;> exact h.undetected
  nonneg := (c.waves T.root).1 ▸ h.nonneg
  root := by
    rw [(c.waves T.root).1, (c.waves T.root).2]
    exact h.root
  noneToRoot := h.noneToRoot
  phase m hm := by
    rw [(c.waves T.root).1, (c.waves m).1, (c.waves m).2, c.done_iff]
    exact h.phase m hm
  done m hm := c.done h hm
  recv m hm := by
    rw [c.done_iff] at hm
    by_cases hmp : m = T.parent src
    · rw [hmp, c.received_parent h, ← h.recv _ (hmp ▸ hm), c.state, if_pos rfl]
      rfl
    · rw [c.state, if_neg hmp, h.recv m hm, c.received_of_ne hmp]
  message m := by
    by_cases hms : m = src
    · rw [hms]
      exact .inl (c.arrived h)
    · rw [c.message, if_neg hms, c.done_iff]
      exact h.message m
  unsampled m hm := by
    rw [(c.waves T.root).1]
    exact h.unsampled m fun hm' => hm (c.done_iff.mpr hm')
  sampled m hm := by
    rw [(c.waves T.root).1]
    exact h.sampled m (c.done_iff.mp hm)
  total := by
    rw [(c.waves T.root).1, c.total h]
    exact h.total
  future m w hw := h.future m w ((c.waves T.root).1 ▸ hw)
  past := (c.waves T.root).1 ▸ h.past

variable {n : N} {w : ℤ} {continues' : N → List ℤ} {samples' : N → ℤ → List (ℤ × ℤ)}

/-- A continue signal in flight announces the root's wave to a node of the wave before. -/
theorem of_mem_continues (hw : w ∈ continues n) :
    n ≠ T.root ∧ w = (st T.root).curWave ∧ continues n = [w] ∧ (st n).curWave = w - 1 ∧
      (st n).submittedWave = w - 1 := by
  have hroot : n ≠ T.root := by
    rintro rfl
    rw [h.noneToRoot] at hw
    exact not_mem_nil hw
  rcases h.phase n hroot with ⟨h0, -⟩ | ⟨h0, hcur, hsub⟩
  · rw [h0] at hw
    exact absurd hw not_mem_nil
  · rw [h0, mem_singleton] at hw
    subst hw
    exact ⟨hroot, rfl, h0, hcur, hsub⟩

theorem receiveContinue (hw : w ∈ continues n)
    (hst : ∀ m, st' m = if m = n then (st m).receiveContinueSignal w else st m)
    (hco : ∀ m, continues' m = if m = n then (continues m).erase w else continues m) :
    Shape T st' toParent continues' samples evals := by
  obtain ⟨hn, rfl, hone, hcur, hsub⟩ := h.of_mem_continues hw
  have hroot : st' T.root = st T.root := by rw [hst, if_neg (Ne.symm hn)]
  have hdone : ∀ m, Done T st' m ↔ Done T st m := by
    intro m
    rw [Done, Done, hroot, hst]
    split <;> rfl
  have hrest : ∀ m, (st' m).recvChildCount = (st m).recvChildCount ∧
      (st' m).acc1 = (st m).acc1 ∧ (st' m).numChildren = (st m).numChildren := by
    intro m
    rw [hst]
    split <;> exact ⟨rfl, rfl, rfl⟩
  exact
    { numChildren := fun m => (hrest m).2.2 ▸ h.numChildren m
      undetected := hroot ▸ h.undetected
      nonneg := hroot ▸ h.nonneg
      root := hroot ▸ h.root
      noneToRoot := by
        rw [hco, if_neg (Ne.symm hn)]
        exact h.noneToRoot
      phase := by
        intro m hm
        rw [hroot, hdone]
        by_cases hmn : m = n
        · subst hmn
          left
          rw [hco, if_pos rfl, hone, erase_cons_head, hst, if_pos rfl]
          exact ⟨rfl, rfl, .inl hsub⟩
        · rw [hst, if_neg hmn, hco, if_neg hmn]
          exact h.phase m hm
      done := by
        intro m hm
        rw [(hrest m).1, (hrest m).2.1]
        simp only [hdone] at hm ⊢
        exact h.done m hm
      recv := by
        intro m hm
        rw [(hrest m).1, h.recv m (fun hm' => hm ((hdone m).mpr hm'))]
        refine congrArg _ (received_congr ?_).symm
        intro c _
        rw [hdone]
      message := by
        simp only [hdone]
        exact h.message
      unsampled := by
        simp only [hdone, hroot]
        exact h.unsampled
      sampled := by
        simp only [hdone, hroot]
        exact h.sampled
      total := by
        rw [hroot, h.total]
        exact congrArg _ (sum_congr rfl fun m _ => ((hrest m).2.1).symm)
      future := hroot ▸ h.future
      past := hroot ▸ h.past }

variable (hready : (st T.root).readySubmitParent = true)
include hready

/-- When the root is ready, the counters kept for the wave by the other nodes are zero
and no counter message is in flight. -/
theorem ready_root :
    (∀ n, toParent n = []) ∧ ∀ n, n ≠ T.root →
      (st n).acc1 = 0 ∧ (st n).recvChildCount = 0 ∧ continues n = [] ∧
        (st n).curWave = (st T.root).curWave ∧ (st n).submittedWave = (st T.root).curWave := by
  refine ⟨?_, ?_⟩
  · intro n
    by_cases hn : n = T.root
    · subst hn
      exact (h.message _).resolve_right fun hd => h.not_done_root hd.1
    · exact (h.all_done hready n hn).2
  · intro n hn
    have hd := (h.all_done hready n hn).1
    refine ⟨(h.done n hd).2.1, (h.done n hd).1, ?_⟩
    rcases h.phase n hn with ⟨h0, hcur, -⟩ | ⟨-, -, hsub⟩
    · exact ⟨h0, hcur, hd⟩
    · rw [Done] at hd
      omega

variable (hsa : ∀ m w, samples' m w =
  if m = T.root ∧ w = (st T.root).curWave then (st T.root).loc :: samples m w else samples m w)
include hsa

/-- What the root evaluates is the sum of one sample of the wave from each node. -/
theorem evaluated :
    (∀ n, ∃ x, samples' n (st T.root).curWave = [x]) ∧
      ∑ n, (samples' n (st T.root).curWave).sum = (st T.root).counted := by
  obtain ⟨hto, hrest⟩ := h.ready_root hready
  have hr0 := h.unsampled T.root h.not_done_root
  refine ⟨?_, ?_⟩
  · intro n
    rw [hsa]
    by_cases hn : n = T.root
    · subst hn
      simp [hr0]
    · simp only [hn, false_and, if_false]
      exact h.sampled n (h.all_done hready n hn).1
  · have h1 := sum_change_at (f := fun m => (samples m (st T.root).curWave).sum)
      (g := fun m => (samples' m (st T.root).curWave).sum) T.root
      (fun m hm => by simp [hsa, hm])
    have h2 : ∑ n, (st n).acc1 = (st T.root).acc1 :=
      Fintype.sum_eq_single _ fun n hn => (hrest n hn).1
    have h3 : ∑ n, (toParent n).sum = 0 :=
      sum_eq_zero fun n _ => by rw [hto n, sum_nil]
    rw [h1, h.total, h2, h3, hsa, if_pos ⟨rfl, rfl⟩, hr0, TermState.counted_eq]
    simp

theorem continueWave (x : ℤ × ℤ)
    (hst : ∀ m, st' m = if m = T.root then (st T.root).afterContinue else st m)
    (hco : ∀ m, continues' m =
      if m = T.root then continues m else ((st T.root).curWave + 1) :: continues m) :
    Shape T st' toParent continues' samples' (((st T.root).curWave, x) :: evals) := by
  obtain ⟨hto, hrest⟩ := h.ready_root hready
  have hself : st' T.root = (st T.root).afterContinue := by rw [hst, if_pos rfl]
  have hne : ∀ m, m ≠ T.root → st' m = st m := fun m hm => by rw [hst, if_neg hm]
  have hcur : (st' T.root).curWave = (st T.root).curWave + 1 := by rw [hself]; rfl
  have hsub : ∀ m, (st' m).submittedWave = (st T.root).curWave := by
    intro m
    by_cases hm : m = T.root
    · subst hm
      have : (st' T.root).submittedWave = (st T.root).submittedWave + 1 := by rw [hself]; rfl
      have := h.root
      omega
    · rw [hne m hm]
      exact (hrest m hm).2.2.2.2
  have hnone : ∀ m, ¬ Done T st' m := by
    intro m
    rw [Done, hsub, hcur]
    omega
  have hrecv : ∀ m, (st' m).recvChildCount = 0 ∧ (st' m).acc1 = 0 := by
    intro m
    by_cases hm : m = T.root
    · subst hm
      rw [hself]
      exact ⟨rfl, rfl⟩
    · rw [hne m hm]
      exact ⟨(hrest m hm).2.1, (hrest m hm).1⟩
  have hnew : ∀ m, samples' m ((st T.root).curWave + 1) = [] := by
    intro m
    rw [hsa, if_neg (by omega)]
    exact h.future m _ (by omega)
  refine
    { numChildren := ?_, undetected := ?_, nonneg := ?_, root := ?_, noneToRoot := ?_
      phase := ?_, done := fun m hm => absurd hm (hnone m), recv := ?_
      message := fun m => .inl (hto m), unsampled := ?_
      sampled := fun m hm => absurd hm (hnone m), total := ?_, future := ?_, past := ?_ }
  · intro m
    rw [hst]
    split
    · rename_i hm
      rw [hm]
      exact h.numChildren T.root
    · exact h.numChildren m
  · rw [hself]
    exact h.undetected
  · have := h.nonneg
    rw [hcur]
    omega
  · rw [hsub, hcur]
    omega
  · rw [hco, if_pos rfl]
    exact h.noneToRoot
  · intro m hm
    right
    rw [hco, if_neg hm, hcur, hsub, hne m hm, (hrest m hm).2.2.1, (hrest m hm).2.2.2.1]
    exact ⟨rfl, by omega, by omega⟩
  · intro m _
    have : received T st' toParent m = ∅ := by
      rw [received, filter_eq_empty_iff]
      exact fun c _ hc => hnone c hc.1
    rw [(hrecv m).1, this, card_empty]
  · intro m _
    rw [hcur]
    exact hnew m
  · rw [hcur]
    simp only [hnew, hto, fun m => (hrecv m).2, sum_nil, sum_const_zero, add_zero]
  · intro m w hw
    rw [hcur] at hw
    rw [hsa, if_neg (by omega)]
    exact h.future m w (by omega)
  · intro e he
    rw [hcur]
    rcases mem_cons.mp he with rfl | he
    · exact Int.lt_succ _
    · have := h.past e he
      omega

end Shape
end WaveSys
end VtRuntime.Termination
