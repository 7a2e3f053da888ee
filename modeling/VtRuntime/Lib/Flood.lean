import VtRuntime.Lib.Lists
import VtRuntime.Lib.Run

/-!
# Messages that cause further messages

Messages are in flight, and they are handled one by one in any order.  Handling a message sends
further messages, which depend on that message alone.  What a message causes in all, directly or
through the messages it leads to, is then the same for every order.
-/

namespace VtRuntime.Lib

open List

universe u v

/-- The messages in flight, and those handled so far. -/
structure Flood (M : Type u) where
  inflight : List M
  handled : List M := []

namespace Flood

variable {M : Type u} (fwd : M → List M)

/-- Handle the message number `i` of those in flight. -/
def step (s : Flood M) (i : ℕ) : Option (Flood M) :=
  s.inflight[i]?.map fun m => ⟨s.inflight.eraseIdx i ++ fwd m, s.handled ++ [m]⟩

/-- The states reached from the messages that are sent first. -/
def Reaches (sent : List M) : Flood M → Prop := Reach (· = ⟨sent, []⟩) (step fwd) anyStep

/-- The number of messages handled is bounded. -/
def Ends (sent : List M) : Prop := ∃ k, ∀ s, Reaches fwd sent s → s.handled.length ≤ k

variable {fwd} {sent : List M} {s : Flood M}

/-- What holds of the messages sent first and passes from a message to those it causes holds
of all messages. -/
theorem forall_mem {P : M → Prop} (hsent : ∀ m ∈ sent, P m) (hfwd : ∀ m, P m → ∀ c ∈ fwd m, P c)
    (h : Reaches fwd sent s) : (∀ m ∈ s.inflight, P m) ∧ ∀ m ∈ s.handled, P m := by
  refine Reach.invariant ?_ ?_ h
  · rintro s rfl
    exact ⟨hsent, by simp⟩
  · rintro s i s' ⟨hin, hdone⟩ - hstep
    obtain ⟨m, hm, rfl⟩ := Option.map_eq_some_iff.mp hstep
    have hPm := hin m (mem_of_getElem? hm)
    exact ⟨forall_mem_append.mpr ⟨fun c hc => hin c (mem_of_mem_eraseIdx hc), hfwd m hPm⟩,
      forall_mem_concat hdone hPm⟩

/-- The messages that a message causes are sent when it is handled. -/
theorem sent_mem (h : Reaches fwd sent s) :
    (∀ m ∈ sent, m ∈ s.inflight ∨ m ∈ s.handled) ∧
      ∀ m ∈ s.handled, ∀ c ∈ fwd m, c ∈ s.inflight ∨ c ∈ s.handled := by
  refine Reach.invariant ?_ ?_ h
  · rintro s rfl
    exact ⟨fun m hm => Or.inl hm, by simp⟩
  · rintro s i s' ⟨hsent, hdone⟩ - hstep
    obtain ⟨m, hm, rfl⟩ := Option.map_eq_some_iff.mp hstep
    have hkeep : ∀ c, c ∈ s.inflight ∨ c ∈ s.handled →
        c ∈ s.inflight.eraseIdx i ++ fwd m ∨ c ∈ s.handled ++ [m] := by
      intro c hc
      rw [(perm_eraseIdx hm).mem_iff] at hc
      simp only [mem_append, mem_cons, not_mem_nil, or_false] at hc ⊢
      tauto
    exact ⟨fun c hc => hkeep c (hsent c hc),
      forall_mem_concat (fun x hx c hc => hkeep c (hdone x hx c hc))
      fun c hc => Or.inl (mem_append_right _ hc)⟩

section Account

variable {A : Type v} [AddCommMonoid A] (v w : M → A) {P : M → Prop}

/-- If `v` is what handling a message causes at once, and `w` what it causes in all, then nothing
is lost on the way. -/
theorem account (hsent : ∀ m ∈ sent, P m) (hfwd : ∀ m, P m → ∀ c ∈ fwd m, P c)
    (hw : ∀ m, P m → w m = v m + ((fwd m).map w).sum) (h : Reaches fwd sent s) :
    (s.handled.map v).sum + (s.inflight.map w).sum = (sent.map w).sum := by
  induction h with
  | start hs =>
    subst hs
    simp
  | @next s s' i hr _ hstep ih =>
    obtain ⟨m, hm, rfl⟩ := Option.map_eq_some_iff.mp hstep
    have hPm := (forall_mem hsent hfwd hr).1 m (mem_of_getElem? hm)
    rw [← ih, ((perm_eraseIdx hm).map w).sum_eq]
    simp only [map_append, map_cons, map_nil, sum_append, sum_cons,
      sum_nil, add_zero, hw m hPm]
    -- the message leaves, what it caused is noted, and the messages it sent are added
    ac_rfl

end Account

/-- Messages that cause no others are handled, each of them once. -/
theorem perm_of_silent (h : Reaches (fun _ : M => []) sent s) :
    (s.handled ++ s.inflight).Perm sent := by
  induction h with
  | start hs =>
    subst hs
    exact .refl _
  | next _ _ hstep ih =>
    obtain ⟨m, hm, rfl⟩ := Option.map_eq_some_iff.mp hstep
    refine List.Perm.trans ?_ ih
    simpa using (perm_eraseIdx hm).symm.append_left _

/-- A flood ends if its messages come to some places, to each of them once at most. -/
theorem ends_of_count {B : Type v} [DecidableEq B] (place : M → B) (places : List B)
    (h : ∀ s, Reaches fwd sent s → ∀ b,
      (s.handled.map place).count b ≤ if b ∈ places then 1 else 0) : Ends fwd sent := by
  refine ⟨places.length, ?_⟩
  intro s hs
  have hnodup : (s.handled.map place).Nodup := by
    refine nodup_iff_count_le_one.mpr ?_
    intro b
    refine Nat.le_trans (h s hs b) ?_
    split <;> omega
  have hsub : s.handled.map place ⊆ places := by
    intro b hb
    by_contra hnot
    have hcount := h s hs b
    rw [if_neg hnot] at hcount
    exact absurd (count_pos_iff.mpr hb) (Nat.not_lt.mpr hcount)
  have hlen := (subperm_of_subset hnodup hsub).length_le
  rwa [length_map] at hlen

/-- A flood that ends reaches a state without messages in flight. -/
theorem Ends.exists_quiet (h : Ends fwd sent) : ∃ s, Reaches fwd sent s ∧ s.inflight = [] := by
  obtain ⟨k, hk⟩ := h
  by_contra hbusy
  -- otherwise there is always a message to handle, and any number of them is handled
  have hgrow : ∀ n, ∃ s, Reaches fwd sent s ∧ s.handled.length = n := by
    intro n
    induction n with
    | zero => exact ⟨⟨sent, []⟩, .start rfl, rfl⟩
    | succ n ih =>
      obtain ⟨s, hs, hlen⟩ := ih
      obtain ⟨m, ms, hms⟩ := exists_cons_of_ne_nil fun hquiet => hbusy ⟨s, hs, hquiet⟩
      have hnext : step fwd s 0 = some ⟨ms ++ fwd m, s.handled ++ [m]⟩ := by simp [step, hms]
      exact ⟨_, hs.next trivial hnext, by simp [hlen]⟩
  obtain ⟨s, hs, hlen⟩ := hgrow (k + 1)
  have hle := hk s hs
  omega

/-- The messages are handled in one order. -/
theorem exists_reaches (fwd : M → List M) (sent : List M) (order : List ℕ) (P : Flood M → Prop)
    [DecidablePred P] (h : (run (step fwd) ⟨sent, []⟩ order).any (P ·) = true) :
    ∃ s, Reaches fwd sent s ∧ P s :=
  Reach.of_run _ order P rfl h

/-- Messages each of which causes another one of their kind never end. -/
theorem not_ends {C : M → Prop} (hsent : ∃ m ∈ sent, C m) (hfwd : ∀ m, C m → ∃ c ∈ fwd m, C c) :
    ¬ Ends fwd sent := by
  intro hends
  obtain ⟨s, hs, hquiet⟩ := hends.exists_quiet
  have hbusy : ∃ m ∈ s.inflight, C m := by
    refine Reach.invariant ?_ ?_ hs
    · rintro s rfl
      exact hsent
    · rintro s i s' ⟨c, hc, hC⟩ - hstep
      obtain ⟨m, hm, rfl⟩ := Option.map_eq_some_iff.mp hstep
      rcases mem_cons.mp ((perm_eraseIdx hm).mem_iff.mp hc) with rfl | hc
      · obtain ⟨c', hc', hC'⟩ := hfwd c hC
        exact ⟨c', mem_append_right _ hc', hC'⟩
      · exact ⟨c, mem_append_left _ hc, hC⟩
  obtain ⟨m, hm, -⟩ := hbusy
  rw [hquiet] at hm
  simp at hm

end Flood
end VtRuntime.Lib
