import VtRuntime.Termination.WaveShape
import Mathlib.Algebra.BigOperators.Pi
import Mathlib.Algebra.Order.Group.Defs

/-!
# Safety of the four-counter wave

The two-wave argument.  When the root begins a wave it fixes a cut: the local counters
of every node at that moment.  The counters of the wave before were sampled before the
cut and those of the current wave after it, so equal sums of the two waves are the
counters at the cut; if these are balanced, no unit existed at the cut, and none has been
produced since.  The first wave has no wave before it: its cut is zero and a node that
produces before it takes part leaves a trace in its first sample.
-/

namespace VtRuntime.Termination
namespace WaveSys

open Lib List Shape Function Prod Option TermState
open Finset hiding mem_singleton sum_singleton

universe u

variable {N : Type u} [Fintype N] [DecidableEq N] (T : SpanningTree N)

variable (s : WaveSys N)

/-- The state has the shape of a wave. -/
def Shaped : Prop :=
  Shape T (s.get T) s.toParent s.continues s.samples s.evals

/-- Each evaluated pair is the sum of one sample of its wave from each node. -/
def History : Prop :=
  ∀ e ∈ s.evals, ∃ f : N → ℤ × ℤ, (∀ n, s.samples n e.1 = [f n]) ∧ e.2 = ∑ n, f n

/-- The units produced are those consumed, held or in flight. -/
def Conserved : Prop :=
  ∑ n, (s.get T n).lProd =
    ∑ n, (s.get T n).lCons + ∑ n, (s.held n : ℤ) + ∑ n, (s.flight n : ℤ)

/-- The counters, the samples of the current wave and the cut before it. -/
structure Balanced : Prop where
  conserved : s.Conserved T
  cut_le : ∀ n, s.cut n ≤ (s.get T n).loc
  sample_le : ∀ n, ∀ x ∈ s.samples n (s.get T T.root).curWave,
    s.cut n ≤ x ∧ x ≤ (s.get T n).loc
  acc2_le : (s.get T T.root).acc2 ≤ ∑ n, s.cut n
  quiet : (∑ n, s.cut n).1 = (∑ n, s.cut n).2 →
    (∀ n, (s.get T n).lProd = (s.cut n).1) ∨
    ∃ n, ((s.get T n).submittedWave = -1 ∧ (s.cut n).1 < (s.get T n).lProd) ∨
      ∃ x ∈ s.samples n (s.get T T.root).curWave, (s.cut n).1 < x.1

/-- After a detection no unit is left, no message is in flight and no node is ready. -/
structure Finished : Prop where
  conserved : s.Conserved T
  held : ∀ n, s.held n = 0
  flight : ∀ n, s.flight n = 0
  toParent : ∀ n, s.toParent n = []
  continues : ∀ n, s.continues n = []
  detected : (s.get T T.root).termDetected = true
  submitted : ∀ n, n ≠ T.root →
    (s.get T n).submittedWave = (s.get T n).curWave ∧ 0 ≤ (s.get T n).submittedWave
  recv : ∀ n, (s.get T n).recvChildCount ≤ (s.get T n).numChildren

/-- The invariant of all runs. -/
def Inv : Prop :=
  s.History ∧ ((s.Shaped T ∧ s.Balanced T) ∨ s.Finished T)

variable {T} {s s' : WaveSys N}

/-! ## The start -/

theorem shape_start : Shape T (fun n => { numChildren := T.numChildren n }) (fun _ => [])
    (fun _ => []) (fun _ _ => []) [] := by
  have hnone : ∀ n, ¬ Done T (fun n => { numChildren := T.numChildren n }) n := by
    intro n hd
    simp [Done] at hd
  refine
    { numChildren := fun _ => rfl, undetected := rfl, nonneg := le_rfl, root := rfl
      noneToRoot := rfl, phase := fun n _ => .inl ⟨rfl, rfl, .inl rfl⟩
      done := fun n hd => absurd hd (hnone n), recv := ?_, message := fun _ => .inl rfl
      unsampled := fun _ _ => rfl, sampled := fun n hd => absurd hd (hnone n), total := ?_
      future := fun _ _ _ => rfl, past := fun e he => absurd he not_mem_nil }
  · intro n _
    have : received T (fun n => { numChildren := T.numChildren n }) (fun _ => []) n = ∅ := by
      rw [received, filter_eq_empty_iff]
      exact fun c _ hc => hnone c hc.1
    rw [this, card_empty]
  · simp only [acc1, sum_nil, sum_const_zero, zero_add]
    exact sum_const_zero.symm

theorem inv_init (h : Init T s) : Inv T s := by
  have hget : ∀ n, (s.get T n).skeleton = { numChildren := T.numChildren n } ∧
      (s.get T n).loc = 0 ∧ (s.get T n).acc2 = 0 := by
    intro n
    rcases h.fresh n with hn | ⟨a, b, hn⟩ <;> rw [get, findOrCreateState, hn] <;>
      exact ⟨rfl, rfl, rfl⟩
  have hprod : ∀ n, (s.get T n).lProd = 0 := fun n => congrArg fst (hget n).2.1
  have hcons : ∀ n, (s.get T n).lCons = 0 := fun n => congrArg snd (hget n).2.1
  have hshape : s.Shaped T := by
    rw [Shaped, funext h.toParent, funext h.continues, funext fun n => funext (h.samples n),
      h.evals]
    exact shape_start.congr fun n => (hget n).1
  refine ⟨?_, .inl ⟨hshape, ?_⟩⟩
  · intro e he
    rw [h.evals] at he
    exact absurd he not_mem_nil
  · refine
      { conserved := ?_, cut_le := ?_, sample_le := ?_, acc2_le := ?_, quiet := ?_ }
    · simp [Conserved, hprod, hcons, h.held, h.flight]
    · intro n
      rw [h.cut, (hget n).2.1]
    · intro n x hx
      rw [h.samples] at hx
      exact absurd hx not_mem_nil
    · simp [(hget T.root).2.2, h.cut]
    · intro _
      left
      intro n
      rw [hprod, h.cut]
      rfl

/-! ## Changes of the counters, the units, the flags and the dependencies -/

/-- A state that is conserved and has consumed all it produced has no unit left. -/
theorem Conserved.no_units (h : s.Conserved T)
    (hle : ∑ n, (s.get T n).lProd ≤ ∑ n, (s.get T n).lCons) :
    (∀ n, s.held n = 0) ∧ ∀ n, s.flight n = 0 := by
  have h1 : 0 ≤ ∑ n, (s.held n : ℤ) := sum_nonneg fun n _ => Int.natCast_nonneg _
  have h2 : 0 ≤ ∑ n, (s.flight n : ℤ) := sum_nonneg fun n _ => Int.natCast_nonneg _
  rw [Conserved] at h
  have h3 : ∑ n, (s.held n : ℤ) = 0 := by omega
  have h4 : ∑ n, (s.flight n : ℤ) = 0 := by omega
  rw [sum_eq_zero_iff_of_nonneg fun n _ => Int.natCast_nonneg _] at h3 h4
  exact ⟨fun n => Int.natCast_eq_zero.mp (h3 n (mem_univ n)),
    fun n => Int.natCast_eq_zero.mp (h4 n (mem_univ n))⟩

/-- A unit that is held has been produced and not consumed. -/
theorem Conserved.lt_of_held (h : s.Conserved T) {n : N} (hn : 0 < s.held n) :
    ∑ n, (s.get T n).lCons < ∑ n, (s.get T n).lProd := by
  by_contra hle
  have := (h.no_units (not_lt.mp hle)).1 n
  omega

theorem Balanced.cut_le_cons (h : s.Balanced T) : (∑ n, s.cut n).2 ≤ ∑ n, (s.get T n).lCons := by
  rw [snd_sum]
  exact sum_le_sum fun n _ => (h.cut_le n).2

/-- After a detection the counters are balanced and no message is in flight. -/
theorem Finished.sum_eq (h : s.Finished T) : ∑ n, (s.get T n).lProd = ∑ n, (s.get T n).lCons := by
  simpa only [Conserved, h.held, h.flight, Nat.cast_zero, sum_const_zero,
    add_zero] using h.conserved

theorem Finished.notMem (h : s.Finished T) (n : N) :
    (∀ msg, msg ∉ s.toParent n) ∧ ∀ w, w ∉ s.continues n := by
  rw [h.toParent, h.continues]
  exact ⟨fun _ => not_mem_nil, fun _ => not_mem_nil⟩

/-- The wave fields, messages, samples and the cut stay, the counters grow, and only a
node that may produce counts a production. -/
structure Change (T : SpanningTree N) (s s' : WaveSys N) : Prop where
  skeleton : ∀ n, (s'.get T n).skeleton = (s.get T n).skeleton
  prod : ∀ n, (s'.get T n).lProd = (s.get T n).lProd ∨
    ((s.get T n).lProd ≤ (s'.get T n).lProd ∧
      (0 < s.held n ∨ ((s.get T n).submittedWave = -1 ∧ (s.get T n).termDetected = false)))
  cons : ∀ n, (s.get T n).lCons ≤ (s'.get T n).lCons
  toParent : s'.toParent = s.toParent
  continues : s'.continues = s.continues
  samples : s'.samples = s.samples
  evals : s'.evals = s.evals
  cut : s'.cut = s.cut
  conserved : s.Conserved T → s'.Conserved T

namespace Change

theorem prod_le (h : Change T s s') (n : N) : (s.get T n).lProd ≤ (s'.get T n).lProd := by
  rcases h.prod n with heq | hle
  · exact heq.ge
  · exact hle.1

theorem loc_le (h : Change T s s') (n : N) : (s.get T n).loc ≤ (s'.get T n).loc :=
  ⟨h.prod_le n, h.cons n⟩

theorem submittedWave (h : Change T s s') (n : N) :
    (s'.get T n).submittedWave = (s.get T n).submittedWave :=
  (of_skeleton_eq (h.skeleton n)).2.1

theorem curWave (h : Change T s s') (n : N) : (s'.get T n).curWave = (s.get T n).curWave :=
  (of_skeleton_eq (h.skeleton n)).1

/-- A production after a balanced cut leaves a trace. -/
theorem quiet (h : Change T s s') (hb : s.Balanced T) (hcut : (∑ n, s.cut n).1 = (∑ n, s.cut n).2) :
    (∀ n, (s'.get T n).lProd = (s.cut n).1) ∨
    ∃ n, ((s.get T n).submittedWave = -1 ∧ (s.cut n).1 < (s'.get T n).lProd) ∨
      ∃ x ∈ s.samples n (s.get T T.root).curWave, (s.cut n).1 < x.1 := by
  rcases hb.quiet hcut with hall | ⟨n, ⟨hsub, hlt⟩ | hx⟩
  · by_cases hsame : ∀ n, (s'.get T n).lProd = (s.get T n).lProd
    · exact .inl fun n => (hsame n).trans (hall n)
    right
    obtain ⟨m, hm⟩ := not_forall.mp hsame
    obtain ⟨hle, hheld | ⟨hsub, -⟩⟩ := (h.prod m).resolve_left hm
    · -- a unit is outstanding, so the counters would have moved since the balanced cut
      have h1 := hb.conserved.lt_of_held hheld
      have h2 : ∑ n, (s.get T n).lProd = (∑ n, s.cut n).1 := by
        rw [fst_sum]
        exact sum_congr rfl fun n _ => hall n
      have h3 := hb.cut_le_cons
      omega
    · have h1 : (s.cut m).1 ≤ (s.get T m).lProd := (hb.cut_le m).1
      exact ⟨m, .inl ⟨hsub, by omega⟩⟩
  · exact .inr ⟨n, .inl ⟨hsub, hlt.trans_le (h.prod_le n)⟩⟩
  · exact .inr ⟨n, .inr hx⟩

end Change

theorem Balanced.change (h : s.Balanced T) (hc : Change T s s') : s'.Balanced T := by
  have hacc := (of_skeleton_eq (hc.skeleton T.root)).2.2.2.2.2
  refine
    { conserved := hc.conserved h.conserved, cut_le := ?_, sample_le := ?_, acc2_le := ?_
      quiet := ?_ }
  · intro n
    rw [hc.cut]
    exact (h.cut_le n).trans (hc.loc_le n)
  · intro n x hx
    rw [hc.samples, hc.curWave] at hx
    rw [hc.cut]
    exact ⟨(h.sample_le n x hx).1, (h.sample_le n x hx).2.trans (hc.loc_le n)⟩
  · rw [hacc, hc.cut]
    exact h.acc2_le
  · rw [hc.cut, hc.samples]
    simp only [hc.submittedWave, hc.curWave]
    exact hc.quiet h

theorem Finished.change (h : s.Finished T) (hc : Change T s s') : s'.Finished T := by
  have hsame : ∀ n, (s'.get T n).lProd = (s.get T n).lProd := by
    intro n
    refine (hc.prod n).resolve_right ?_
    rintro ⟨-, hheld | ⟨hsub, hdet⟩⟩
    · have := h.held n
      omega
    · by_cases hn : n = T.root
      · rw [hn, h.detected] at hdet
        exact Bool.noConfusion hdet
      · have := (h.submitted n hn).2
        omega
  have hunits := hc.conserved h.conserved
  have hle : ∑ n, (s'.get T n).lProd ≤ ∑ n, (s'.get T n).lCons := by
    calc ∑ n, (s'.get T n).lProd
        = ∑ n, (s.get T n).lProd := sum_congr rfl fun n _ => hsame n
      _ = ∑ n, (s.get T n).lCons := h.sum_eq
      _ ≤ ∑ n, (s'.get T n).lCons := sum_le_sum fun n _ => hc.cons n
  refine
    { conserved := hunits, held := (hunits.no_units hle).1, flight := (hunits.no_units hle).2
      toParent := hc.toParent ▸ h.toParent, continues := hc.continues ▸ h.continues
      detected := ?_, submitted := ?_, recv := ?_ }
  · rw [(of_skeleton_eq (hc.skeleton T.root)).2.2.2.2.1]
    exact h.detected
  · intro n hn
    rw [hc.submittedWave, hc.curWave]
    exact h.submitted n hn
  · intro n
    obtain ⟨-, -, hrecv, hnum, -⟩ := of_skeleton_eq (hc.skeleton n)
    rw [hrecv, hnum]
    exact h.recv n

theorem Inv.change (h : Inv T s) (hc : Change T s s') : Inv T s' := by
  refine ⟨?_, ?_⟩
  · rw [History, hc.evals, hc.samples]
    exact h.1
  · rcases h.2 with ⟨hsh, hb⟩ | hf
    · left
      refine ⟨?_, hb.change hc⟩
      rw [Shaped, hc.toParent, hc.continues, hc.samples, hc.evals]
      exact hsh.congr hc.skeleton
    · exact .inr (hf.change hc)

/-! ## Deliveries -/

/-- The state of one node is stored, with the same local counters. -/
theorem loc_of_get {n : N} {t : TermState} (hget : ∀ m, s'.get T m = if m = n then t else s.get T m)
    (ht : t.loc = (s.get T n).loc) (m : N) : (s'.get T m).loc = (s.get T m).loc := by
  rw [hget]
  split
  · next hm => rw [hm, ht]
  · rfl

theorem lProd_of_loc {st st' : TermState} (h : st'.loc = st.loc) : st'.lProd = st.lProd :=
  congrArg fst h

theorem Conserved.congr (h : s.Conserved T) (hloc : ∀ n, (s'.get T n).loc = (s.get T n).loc)
    (hheld : s'.held = s.held) (hflight : s'.flight = s.flight) : s'.Conserved T := by
  have hcons : ∀ n, (s'.get T n).lCons = (s.get T n).lCons := fun n => congrArg snd (hloc n)
  simp only [Conserved, lProd_of_loc (hloc _), hcons, hheld, hflight]
  exact h

/-- The counters and the cut do not see a delivery. -/
theorem Balanced.deliver (h : s.Balanced T) (hloc : ∀ n, (s'.get T n).loc = (s.get T n).loc)
    (hsub : ∀ n, (s'.get T n).submittedWave = (s.get T n).submittedWave)
    (hcur : (s'.get T T.root).curWave = (s.get T T.root).curWave)
    (hacc : (s'.get T T.root).acc2 = (s.get T T.root).acc2)
    (hrest : s'.samples = s.samples ∧ s'.cut = s.cut ∧ s'.held = s.held ∧
      s'.flight = s.flight) : s'.Balanced T := by
  obtain ⟨h1, h2, h3, h4⟩ := hrest
  refine
    { conserved := h.conserved.congr hloc h3 h4, cut_le := ?_, sample_le := ?_, acc2_le := ?_
      quiet := ?_ }
  · simp only [hloc, h2]
    exact h.cut_le
  · simp only [hloc, hcur, h1, h2]
    exact h.sample_le
  · rw [hacc, h2]
    exact h.acc2_le
  · simp only [lProd_of_loc (hloc _), hsub, hcur, h1, h2]
    exact h.quiet

omit [Fintype N] in
theorem update_at {α : Type*} (f : N → α) (g : α → α) (n m : N) :
    update f n (g (f n)) m = if m = n then g (f m) else f m := by
  rw [update_apply]
  split
  · next hm => rw [hm]
  · rfl

/-- The delivery of a counter message as a change of the state. -/
theorem reception {src : N} {msg : ℤ × ℤ} (hmsg : msg ∈ s.toParent src) :
    Reception T src msg (s.get T) ((s.addCounters T src msg).get T) s.toParent
      (s.addCounters T src msg).toParent where
  mem := hmsg
  state m := by
    rw [get_of_update rfl]
    by_cases hm : m = T.parent src
    · rw [if_pos hm, if_pos hm, hm]
    · rw [if_neg hm, if_neg hm]
  message := update_at s.toParent (List.erase · msg) src

theorem Inv.addCounters (h : Inv T s) {src : N} {msg : ℤ × ℤ} (hmsg : msg ∈ s.toParent src) :
    Inv T (s.addCounters T src msg) := by
  have c := reception (T := T) hmsg
  rcases h.2 with ⟨hsh, hb⟩ | hf
  · refine ⟨h.1, .inl ⟨receive hsh c, hb.deliver ?_ ?_ ?_ ?_ ⟨rfl, rfl, rfl, rfl⟩⟩⟩
    all_goals
      intros
      rw [c.state]
      split <;> rfl
  · exact absurd hmsg ((hf.notMem src).1 msg)

/-- A continue signal is delivered; the node has a state, as it has submitted before. -/
theorem Inv.signalContinue (h : Inv T s) {n : N} {w : ℤ} (hw : w ∈ s.continues n) :
    Inv T (s.signalContinue n w) := by
  rcases h.2 with ⟨hsh, hb⟩ | hf
  · obtain ⟨hn, -, -, hcur, hsub⟩ := of_mem_continues hsh hw
    have hget : ∀ m, (s.signalContinue n w).get T m =
        if m = n then (s.get T m).receiveContinueSignal w else s.get T m := by
      intro m
      by_cases hm : m = n
      · subst hm
        rw [if_pos rfl]
        cases hst : s.states m with
        | none =>
          rw [get, findOrCreateState, hst] at hcur hsub
          simp only [getD_none, newState] at hcur hsub
          omega
        | some st =>
          simp only [get, findOrCreateState, WaveSys.signalContinue, update_self, hst,
            map_some, getD_some]
      · rw [if_neg hm]
        simp only [get, findOrCreateState, WaveSys.signalContinue, update_of_ne hm]
    refine ⟨h.1, .inl ⟨receiveContinue hsh hw hget (update_at s.continues (List.erase · w) n),
      hb.deliver ?_ ?_ ?_ ?_ ⟨rfl, rfl, rfl, rfl⟩⟩⟩
    rotate_left 2
    · rw [hget, if_neg (Ne.symm hn)]
    · rw [hget, if_neg (Ne.symm hn)]
    all_goals
      intro m
      rw [hget]
      split <;> rfl
  · exact absurd hw ((hf.notMem n).2 w)

/-! ## Submission and evaluation -/

/-- Recording a sample of the current wave keeps what was evaluated before. -/
theorem History.sample (h : s.History) (hsh : s.Shaped T) {n : N}
    (hcur : (s.get T n).curWave = (s.get T T.root).curWave) {e : ℤ × (ℤ × ℤ)} (he : e ∈ s.evals) :
    ∃ f : N → ℤ × ℤ, (∀ m, s.sample T n m e.1 = [f m]) ∧ e.2 = ∑ m, f m := by
  obtain ⟨f, hf, hsum⟩ := h e he
  refine ⟨f, ?_, hsum⟩
  intro m
  have := past hsh e he
  rw [sample_apply, if_neg (by omega)]
  exact hf m

section

variable {n : N} (hn : n ≠ T.root) (hready : (s.get T n).readySubmitParent = true)
include hn hready

theorem submission :
    Submission T n (s.get T)
      ((s.submit T n (s.get T n).afterSubmit (s.get T n).counted).get T) s.toParent
      (s.submit T n (s.get T n).afterSubmit (s.get T n).counted).toParent s.samples
      (s.sample T n) where
  ne_root := hn
  ready := hready
  state := get_of_update rfl
  message := update_at s.toParent ((s.get T n).counted :: ·) n
  sample m w := sample_apply s n m w

theorem Balanced.submit (hb : s.Balanced T) (hsh : s.Shaped T) :
    (s.submit T n (s.get T n).afterSubmit (s.get T n).counted).Balanced T := by
  have c := submission hn hready
  have hloc := loc_of_get c.state rfl
  refine
    { conserved := hb.conserved.congr hloc rfl rfl, cut_le := ?_, sample_le := ?_, acc2_le := ?_
      quiet := ?_ }
  · intro m
    rw [hloc]
    exact hb.cut_le m
  · intro m x hx
    rw [c.state_root] at hx
    rw [hloc]
    change x ∈ s.sample T n m _ at hx
    rw [c.sample_wave hsh] at hx
    by_cases hm : m = n
    · rw [if_pos hm, mem_singleton] at hx
      subst hx hm
      exact ⟨hb.cut_le m, le_rfl⟩
    · rw [if_neg hm] at hx
      exact hb.sample_le m x hx
  · rw [c.state_root]
    exact hb.acc2_le
  · intro hcut
    rw [c.state_root]
    rcases hb.quiet hcut with hall | ⟨m, hm⟩
    · exact .inl fun m => (lProd_of_loc (hloc m)).trans (hall m)
    · right
      refine ⟨m, ?_⟩
      change _ ∨ ∃ x ∈ s.sample T n m _, _
      rw [c.sample_wave hsh, lProd_of_loc (hloc m)]
      by_cases hmn : m = n
      · -- what the node had produced before its first wave is in the sample
        subst hmn
        rw [if_pos rfl]
        rcases hm with ⟨-, hlt⟩ | ⟨x, hx, -⟩
        · exact .inr ⟨_, mem_singleton.mpr rfl, hlt⟩
        · rw [(c.fresh hsh).2] at hx
          exact absurd hx not_mem_nil
      · rw [if_neg hmn, c.state_of_ne hmn]
        exact hm

theorem Inv.submit (h : Inv T s) (hsh : s.Shaped T) (hb : s.Balanced T) :
    Inv T (s.submit T n (s.get T n).afterSubmit (s.get T n).counted) := by
  have hcur := (ready_phase hsh hready).1
  refine ⟨fun e he => h.1.sample hsh hcur he, .inl ⟨?_, hb.submit hn hready hsh⟩⟩
  exact Shape.submit hsh (submission hn hready)

end

section

variable (hsh : s.Shaped T) (hb : s.Balanced T)
  (hready : (s.get T T.root).readySubmitParent = true)
include hsh hb hready

/-- What the root evaluates is the sum of one sample of its wave from each node, and each
sample was taken after the cut. -/
theorem evaluate :
    ∃ f : N → ℤ × ℤ, (∀ n, s.sample T T.root n (s.get T T.root).curWave = [f n]) ∧
      (s.get T T.root).counted = ∑ n, f n ∧
      ∀ n, s.cut n ≤ f n ∧ f n ≤ (s.get T n).loc := by
  obtain ⟨hone, hsum⟩ := evaluated hsh hready (fun m w => sample_apply s T.root m w)
  choose f hf using hone
  refine ⟨f, hf, ?_, ?_⟩
  · rw [← hsum]
    exact sum_congr rfl fun n _ => by rw [hf n, sum_singleton]
  · intro n
    have hmem : f n ∈ s.sample T T.root n (s.get T T.root).curWave := by
      rw [hf n]
      exact mem_singleton.mpr rfl
    rw [sample_apply] at hmem
    by_cases hn : n = T.root
    · rw [if_pos ⟨hn, rfl⟩, hn,
        unsampled hsh T.root (not_done_root hsh), mem_singleton] at hmem
      rw [hn, hmem]
      exact ⟨hb.cut_le T.root, le_rfl⟩
    · rw [if_neg fun hc => hn hc.1] at hmem
      exact hb.sample_le n _ hmem

theorem History.evaluate (h : s.History) :
    ∀ e ∈ ((s.get T T.root).curWave, (s.get T T.root).counted) :: s.evals,
      ∃ f : N → ℤ × ℤ, (∀ n, s.sample T T.root n e.1 = [f n]) ∧ e.2 = ∑ n, f n := by
  intro e he
  rcases mem_cons.mp he with rfl | he
  · obtain ⟨f, hf, hsum, -⟩ := WaveSys.evaluate hsh hb hready
    exact ⟨f, hf, hsum⟩
  · exact h.sample hsh rfl he

theorem Inv.continueWave (h : Inv T s) :
    Inv T (s.continueWave T T.root (s.get T T.root).afterContinue (s.get T T.root).counted
      ((s.get T T.root).curWave + 1)) := by
  have hget : ∀ m, (s.continueWave T T.root (s.get T T.root).afterContinue
      (s.get T T.root).counted ((s.get T T.root).curWave + 1)).get T m =
      if m = T.root then (s.get T T.root).afterContinue else s.get T m := get_of_update rfl
  have hloc := loc_of_get hget rfl
  obtain ⟨f, -, hsum, hle⟩ := evaluate hsh hb hready
  refine ⟨h.1.evaluate hsh hb hready, .inl ⟨?_, ?_⟩⟩
  · exact Shape.continueWave hsh hready (fun m w => sample_apply s T.root m w)
      (s.get T T.root).counted hget (fun m => rfl)
  refine
    { conserved := hb.conserved.congr hloc rfl rfl, cut_le := fun m => (hloc m).ge, sample_le := ?_
      acc2_le := ?_, quiet := ?_ }
  · intro m x hx
    rw [hget, if_pos rfl] at hx
    change x ∈ s.sample T T.root m ((s.get T T.root).curWave + 1) at hx
    rw [sample_apply, if_neg (by omega), future hsh m _ (by omega)] at hx
    exact absurd hx not_mem_nil
  · rw [hget, if_pos rfl]
    change (s.get T T.root).counted ≤ ∑ n, (s.get T n).loc
    rw [hsum]
    exact sum_le_sum fun n _ => (hle n).2
  · exact fun _ => .inl fun m => congrArg fst (hloc m)

/-- A successful test means that nothing was produced since the balanced cut. -/
theorem no_units_of_isTerm (hterm : (s.get T T.root).isTerm = true) :
    ∑ n, (s.get T n).lProd ≤ ∑ n, (s.get T n).lCons := by
  obtain ⟨f, hf, hsum, hle⟩ := evaluate hsh hb hready
  obtain ⟨heq, hbal⟩ := (s.get T T.root).isTerm_iff.mp hterm
  have hge : ∑ n, f n ≤ ∑ n, s.cut n := by
    rw [← hsum, heq]
    exact hb.acc2_le
  have hcut : ∀ n, s.cut n = f n := eq_of_sum_le (fun n => (hle n).1) hge
  have htotal : ∑ n, s.cut n = (s.get T T.root).acc2 := by
    rw [← heq, hsum]
    exact sum_congr rfl fun n _ => hcut n
  have hall : ∀ n, (s.get T n).lProd = (s.cut n).1 := by
    refine (hb.quiet (by rw [htotal]; exact hbal)).resolve_right ?_
    rintro ⟨n, ⟨hsub, hlt⟩ | ⟨x, hx, hlt⟩⟩
    · by_cases hn : n = T.root
      · -- the root samples its counters at this moment
        have hx := hf n
        rw [sample_apply, if_pos ⟨hn, rfl⟩, hn,
          unsampled hsh T.root (not_done_root hsh)] at hx
        have := congrArg fst ((hcut T.root).trans (List.cons.inj hx).1.symm)
        rw [hn] at hlt
        simp only [loc] at this
        omega
      · have h1 := ((ready_root hsh hready).2 n hn).2.2.2.2
        have h2 := nonneg hsh
        omega
    · have hn : n ≠ T.root := by
        rintro rfl
        rw [unsampled hsh T.root (not_done_root hsh)] at hx
        exact not_mem_nil hx
      have hx' := hf n
      rw [sample_apply, if_neg fun hc => hn hc.1] at hx'
      rw [hx', mem_singleton] at hx
      rw [hcut n, hx] at hlt
      exact lt_irrefl _ hlt
  calc ∑ n, (s.get T n).lProd
      = ∑ n, (s.cut n).1 := sum_congr rfl fun n _ => hall n
    _ = (∑ n, s.cut n).2 := by rw [← fst_sum, htotal]; exact hbal
    _ ≤ ∑ n, (s.get T n).lCons := hb.cut_le_cons

theorem Inv.detect (h : Inv T s) (hterm : (s.get T T.root).isTerm = true) :
    Inv T (s.detect T T.root (s.get T T.root).afterDetect (s.get T T.root).counted) := by
  have hget : ∀ m, (s.detect T T.root (s.get T T.root).afterDetect
      (s.get T T.root).counted).get T m =
      if m = T.root then (s.get T T.root).afterDetect else s.get T m := get_of_update rfl
  obtain ⟨hto, hrest⟩ := ready_root hsh hready
  have hnone := hb.conserved.no_units (no_units_of_isTerm hsh hb hready hterm)
  refine ⟨h.1.evaluate hsh hb hready, .inr ?_⟩
  refine
    { conserved := hb.conserved.congr (loc_of_get hget rfl) rfl rfl, held := hnone.1
      flight := hnone.2, toParent := hto, continues := ?_, detected := ?_, submitted := ?_
      recv := ?_ }
  · intro n
    by_cases hn : n = T.root
    · rw [hn]
      exact noneToRoot hsh
    · exact (hrest n hn).2.2.1
  · rw [hget, if_pos rfl]
    rfl
  · intro n hn
    have hnonneg := nonneg hsh
    obtain ⟨-, -, -, hcur, hsub⟩ := hrest n hn
    rw [hget, if_neg hn]
    omega
  · intro n
    rw [hget]
    by_cases hn : n = T.root
    · rw [if_pos hn]
      exact ((s.get T T.root).readySubmitParent_iff.mp hready).2.2.2.1.le
    · rw [if_neg hn, (hrest n hn).2.1]
      exact Nat.zero_le _

end

theorem Finished.not_ready (h : s.Finished T) (n : N) : (s.get T n).readySubmitParent = false := by
  rw [Bool.eq_false_iff, ne_eq, readySubmitParent_iff]
  rintro ⟨-, -, -, -, hsub, hdet⟩
  by_cases hn : n = T.root
  · rw [hn, h.detected] at hdet
    exact Bool.noConfusion hdet
  · have := (h.submitted n hn).1
    omega

theorem Inv.propagate (h : Inv T s) (n : N) : Inv T (s.propagate T n) := by
  rcases propagate_cases (T := T) s n with heq | ⟨hready, hn, heq⟩ | ⟨hready, rfl, hterm, heq⟩ |
    ⟨hready, rfl, heq⟩ <;> rw [heq]
  · exact h
  all_goals
    rcases h.2 with ⟨hsh, hb⟩ | hf
    rotate_left
    · exact absurd hready (by simp [hf.not_ready])
  · exact h.submit hn hready hsh hb
  · exact h.detect hsh hb hready hterm
  · exact h.continueWave hsh hb hready

/-! ## Every action -/

theorem sum_update (f : N → ℕ) (n : N) (k : ℕ) :
    ∑ m, (Function.update f n k m : ℤ) = ∑ m, (f m : ℤ) + (k - f n) := by
  rw [sum_change_at (f := fun m => (f m : ℤ)) (g := fun m => (Function.update f n k m : ℤ)) n,
    update_self]
  intro m hm
  rw [update_of_ne hm]

/-- Whether a state is created ready does not matter to the wave. -/
theorem findOrCreateState_eq (s : WaveSys N) (n : N) (isReady : Bool) :
    (s.findOrCreateState T n isReady).skeleton = (s.get T n).skeleton ∧
      (s.findOrCreateState T n isReady).loc = (s.get T n).loc := by
  rw [get, findOrCreateState, findOrCreateState]
  cases s.states n <;> exact ⟨rfl, rfl⟩

theorem Inv.touch (h : Inv T s) {n : N} {st : TermState}
    (hst : st.skeleton = (s.get T n).skeleton ∧ st.loc = (s.get T n).loc) :
    Inv T (s.setState n st) := by
  have hget : ∀ m, (s.setState n st).get T m = if m = n then st else s.get T m := get_of_update rfl
  have hloc := loc_of_get hget hst.2
  refine h.change
    { skeleton := ?_, prod := fun m => .inl (congrArg fst (hloc m))
      cons := fun m => (congrArg snd (hloc m)).ge, toParent := rfl, continues := rfl
      samples := rfl, evals := rfl, cut := rfl, conserved := fun hc => hc.congr hloc rfl rfl }
  intro m
  rw [hget]
  split
  · next hm => rw [hm, hst.1]
  · rfl

/-- Units are produced or consumed, before the node is tested for readiness. -/
theorem Inv.addUnits (h : Inv T s) {n : N} {k : ℕ} {produce : Bool} {held : N → ℕ}
    (hheld : ∑ m, (held m : ℤ) = ∑ m, (s.held m : ℤ) + if produce then (k : ℤ) else -k)
    (hok : produce = true → 0 < s.held n ∨
      ((s.get T n).submittedWave = -1 ∧ (s.get T n).termDetected = false)) :
    Inv T (({ s with held := held } : WaveSys N).setState n
      ((s.get T n).addUnits k produce)) := by
  have hget : ∀ m, (({ s with held := held } : WaveSys N).setState n
      ((s.get T n).addUnits k produce)).get T m =
      if m = n then (s.get T n).addUnits k produce else s.get T m := get_of_update rfl
  have hself := hget n
  have hne : ∀ m, m ≠ n → (({ s with held := held } : WaveSys N).setState n
      ((s.get T n).addUnits k produce)).get T m = s.get T m :=
    fun m hm => (hget m).trans (if_neg hm)
  rw [if_pos rfl] at hself
  have hp : ((s.get T n).addUnits k produce).lProd =
      (s.get T n).lProd + if produce then (k : ℤ) else 0 := by
    cases produce <;> simp [TermState.addUnits]
  have hc : ((s.get T n).addUnits k produce).lCons =
      (s.get T n).lCons + if produce then (0 : ℤ) else k := by
    cases produce <;> simp [TermState.addUnits]
  refine h.change
    { skeleton := ?_, prod := ?_, cons := ?_, toParent := rfl, continues := rfl, samples := rfl
      evals := rfl, cut := rfl, conserved := ?_ }
  · intro m
    by_cases hm : m = n
    · rw [hm, hself]
      cases produce <;> rfl
    · rw [hne m hm]
  · intro m
    by_cases hm : m = n
    · rw [hm, hself, hp]
      cases produce with
      | false => simp
      | true => exact .inr ⟨by simp, hok rfl⟩
    · rw [hne m hm]
      exact .inl rfl
  · intro m
    by_cases hm : m = n
    · rw [hm, hself, hc]
      cases produce <;> simp
    · rw [hne m hm]
  · intro hcons
    have h1 := sum_change_at n fun m hm => (congrArg lProd (hne m hm) :)
    have h2 := sum_change_at n fun m hm => (congrArg lCons (hne m hm) :)
    rw [Conserved] at hcons ⊢
    rw [h1, h2, hself, hp, hc, hcons]
    change _ = _ + ∑ m, (held m : ℤ) + ∑ m, (s.flight m : ℤ)
    rw [hheld]
    cases produce <;> simp only [if_true, Bool.false_eq_true, if_false] <;> omega

theorem Inv.move (h : Inv T s) {held flight : N → ℕ}
    (hsum : ∑ m, (held m : ℤ) + ∑ m, (flight m : ℤ) =
      ∑ m, (s.held m : ℤ) + ∑ m, (s.flight m : ℤ)) :
    Inv T { s with held := held, flight := flight } := by
  refine h.change
    { skeleton := fun _ => rfl, prod := fun _ => .inl rfl, cons := fun _ => le_rfl
      toParent := rfl, continues := rfl, samples := rfl, evals := rfl, cut := rfl
      conserved := ?_ }
  intro hc
  rw [Conserved, add_assoc] at hc ⊢
  exact hc.trans (congrArg _ hsum.symm)

theorem Inv.step (h : Inv T s) {a : WaveAct N} (hs : WaveSys.step T s a = some s') : Inv T s' := by
  cases a with
  | produce n k =>
    obtain ⟨hok, rfl⟩ := of_guard hs
    refine Inv.propagate (h.addUnits ?_ fun _ => hok) n
    rw [sum_update]
    simp
  | consume n k =>
    obtain ⟨hk, rfl⟩ := of_guard hs
    refine Inv.propagate (h.addUnits ?_ fun hp => Bool.noConfusion hp) n
    rw [sum_update]
    simp only [Bool.false_eq_true, if_false]
    omega
  | ship | arrive =>
    obtain ⟨hk, rfl⟩ := of_guard hs
    refine h.move ?_
    rw [sum_update, sum_update]
    omega
  | propagateEpochExternal src msg =>
    obtain ⟨hmsg, rfl⟩ := of_guard hs
    exact (h.addCounters hmsg).propagate _
  | epochContinue n w =>
    obtain ⟨hw, rfl⟩ := of_guard hs
    exact (h.signalContinue hw).propagate _
  | activateEpoch n =>
    obtain rfl := some.inj hs
    have ht : Inv T (s.setState n
        ((s.findOrCreateState T n true).activateEpoch.notifyLocalTerminated true)) :=
      h.touch (findOrCreateState_eq s n true)
    exact ht.propagate n
  | notifyLocalTerminated | enableTD =>
    obtain rfl := some.inj hs
    exact h.touch ⟨rfl, rfl⟩
  | incrementDependency n isReady =>
    obtain rfl := some.inj hs
    exact h.touch (findOrCreateState_eq s n isReady)
  | removeEpochStateDependency n =>
    obtain rfl := some.inj hs
    have ht : Inv T (s.setState n (s.findOrCreateState T n true).decrementDependency) :=
      h.touch (findOrCreateState_eq s n true)
    split
    · exact ht.propagate n
    · exact ht
  | maybePropagate n =>
    obtain rfl := some.inj hs
    exact h.propagate n

theorem Reachable.inv (h : Reachable T s) : Inv T s :=
  Reach.invariant (fun _ hs => inv_init hs) (fun _ _ _ hi _ hs => hi.step hs) h

/-! ## Safety and integrity -/

/-- When the root has detected termination, the units produced on all nodes are those
consumed: no unit is held by a node or in flight. -/
theorem four_counter_safe (h : Reachable T s) (hdet : (s.get T T.root).termDetected = true) :
    ∑ n, (s.get T n).lProd = ∑ n, (s.get T n).lCons ∧
      ∀ n, s.held n = 0 ∧ s.flight n = 0 := by
  rcases h.inv.2 with ⟨hsh, -⟩ | hf
  · rw [undetected hsh] at hdet
    exact Bool.noConfusion hdet
  · exact ⟨hf.sum_eq, fun n => ⟨hf.held n, hf.flight n⟩⟩

/-- No state, message or unit. -/
def start : WaveSys N where
  states := fun _ => none
  toParent := fun _ => []
  continues := fun _ => []
  held := fun _ => 0
  flight := fun _ => 0
  samples := fun _ _ => []
  evals := []
  cut := fun _ => 0

theorem init_start (T : SpanningTree N) : Init T start :=
  ⟨fun _ => .inl rfl, fun _ => rfl, fun _ => rfl, fun _ => rfl, fun _ => rfl, fun _ _ => rfl, rfl,
    fun _ => rfl⟩

/-- The root produces a unit, its child consumes it, and two waves pass. -/
def twoWaves (root child : N) : List (WaveAct N) :=
  [.produce root 1, .ship root child 1, .arrive child 1, .consume child 1, .activateEpoch child,
    .activateEpoch root, .propagateEpochExternal child (0, 1), .epochContinue child 1,
    .propagateEpochExternal child (0, 1)]

/-- The run of two waves ends in a detection. -/
theorem four_counter_safe_pair :
    ∃ s, Reachable (.star (0 : Fin 2)) s ∧ (s.get (.star 0) 0).termDetected = true ∧
      ∑ n, (s.get (.star 0) n).lProd = ∑ n, (s.get (.star 0) n).lCons ∧
      ∀ n, s.held n = 0 ∧ s.flight n = 0 := by
  obtain ⟨s, hs, hp⟩ := Reach.of_run (step (.star (0 : Fin 2))) (twoWaves 0 1)
    (fun s => (s.get (.star 0) 0).termDetected = true) (init_start _) (by decide +kernel)
  exact ⟨s, hs, hp, four_counter_safe hs hp⟩

/-- In every reachable state: no node has counted more children than it has, and a counter
message in flight will not make it do so; a continue signal in flight announces the wave
after the receiver's; and each pair the root has evaluated is the sum over all nodes of
the one sample the node took in that wave. -/
theorem wave_integrity (h : Reachable T s) :
    (∀ n, (s.get T n).recvChildCount ≤ (s.get T n).numChildren) ∧
      (∀ src, ∀ msg ∈ s.toParent src, (s.get T (T.parent src)).recvChildCount + 1 ≤
        (s.get T (T.parent src)).numChildren) ∧
      (∀ n, ∀ w ∈ s.continues n, (s.get T n).curWave = w - 1) ∧
      ∀ e ∈ s.evals, ∃ f : N → ℤ × ℤ, (∀ n, s.samples n e.1 = [f n]) ∧ e.2 = ∑ n, f n := by
  rcases h.inv.2 with ⟨hsh, -⟩ | hf
  · refine ⟨?_, fun _ _ hmsg => recv_lt hsh hmsg,
      fun _ _ hw => (of_mem_continues hsh hw).2.2.2.1, h.inv.1⟩
    intro n
    by_cases hd : Done T (s.get T) n
    · rw [(done hsh n hd).1]
      exact Nat.zero_le _
    · rw [recv hsh n hd, numChildren hsh n]
      exact card_le_card (filter_subset _ _)
  · exact ⟨hf.recv, fun src msg hmsg => absurd hmsg ((hf.notMem src).1 msg),
      fun n w hw => absurd hw ((hf.notMem n).2 w), h.inv.1⟩

/-- After the run of two waves both evaluated pairs are sums of samples. -/
theorem wave_integrity_pair :
    ∃ s, Reachable (.star (0 : Fin 2)) s ∧ s.evals.length = 2 ∧
      ∀ e ∈ s.evals, ∃ f : Fin 2 → ℤ × ℤ, (∀ n, s.samples n e.1 = [f n]) ∧ e.2 = ∑ n, f n := by
  obtain ⟨s, hs, hp⟩ := Reach.of_run (step (.star (0 : Fin 2))) (twoWaves 0 1)
    (·.evals.length = 2) (init_start _) (by decide +kernel)
  exact ⟨s, hs, hp, (wave_integrity hs).2.2.2⟩

end WaveSys
end VtRuntime.Termination
