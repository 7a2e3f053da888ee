import VtRuntime.Collection.Element

/-!
# The places of an index

A place of an index is an element on a node, an element on its way, or an insert that the home has
accepted and that is not constructed yet.  As long as a place is taken the home has a record,
because only a removal on the home deletes it.  So no second insert is accepted: there is at most
one place in every run.
-/

namespace VtRuntime.Collection

open Lib Function Msg List

variable {N E : Type} [DecidableEq N] [Fintype N]

namespace Msg

/-- The message is a place of its index. -/
def isClaim (m : Msg N E) : Bool := m.isMigrate || m.isPinged

omit [DecidableEq N] [Fintype N] in
theorem countP_isClaim (l : List (Msg N E)) :
    l.countP isClaim = l.countP isMigrate + l.countP isPinged := by
  induction l with
  | nil => rfl
  | cons m l ih =>
    rw [countP_cons, countP_cons, countP_cons, ih]
    cases m with
    | insert m =>
      cases h : m.pinged <;> simp [isClaim, isMigrate, isPinged, h]
      omega
    | _ =>
      simp [isClaim, isMigrate, isPinged]
      try omega

omit [DecidableEq N] [Fintype N] in
theorem isInsert_of_isPinged {m : Msg N E} (h : m.isPinged = true) : m.isInsert = true := by
  cases m <;> simp_all [isPinged, isInsert]

end Msg

namespace IndexState

variable (s : IndexState N E) (home n : N)

/-- The places of the index. -/
def claims : ℕ := s.residents + s.msgs.countP isClaim

omit [DecidableEq N] in
theorem claims_eq : s.claims = s.live + s.msgs.countP isPinged := by
  rw [claims, live, countP_isClaim, Nat.add_assoc]

theorem residents_set {t : IndexState N E} (h : s.existsAt n = false)
    (ht : t.existsAt = update s.existsAt n true) : t.residents = s.residents + 1 := by
  rw [residents, residents, Nat.add_comm, ht]
  exact sum_increase_at n (fun m hm => by rw [update_of_ne hm]) (by simp [h])

theorem residents_clear {t : IndexState N E} (h : s.existsAt n = true)
    (ht : t.existsAt = update s.existsAt n false) : s.residents = t.residents + 1 := by
  rw [residents, residents, Nat.add_comm, ht]
  exact sum_increase_at n (fun m hm => by rw [update_of_ne hm]) (by simp [h])

omit [DecidableEq N] in
theorem residents_pos {s : IndexState N E} {n : N} (h : s.existsAt n = true) : 0 < s.residents := by
  have hle := Finset.single_le_sum (f := fun n => (s.existsAt n).toNat)
    (fun _ _ => Nat.zero_le _) (Finset.mem_univ n)
  simp only [h, Bool.toNat_true] at hle
  exact hle

omit [DecidableEq N] in
theorem existsAt_of_vacant {s : IndexState N E} (h : s.claims = 0) (n : N) : s.existsAt n = false :=
  Bool.eq_false_iff.mpr fun hn => (residents_pos hn).ne' (Nat.add_eq_zero_iff.mp h).1

theorem claims_take {s : IndexState N E} [DecidableEq E] {m : Msg N E} (hm : m ∈ s.msgs) :
    (s.take m).claims + (if m.isClaim then 1 else 0) = s.claims := by
  have := (perm_cons_erase hm).countP_eq isClaim
  rw [countP_cons] at this
  simp only [claims, take, residents]
  omega

end IndexState

open IndexState

/-- What holds in every run, when `hand` places are held by the handler that is running. -/
structure Held (s : IndexState N E) (hand : ℕ) : Prop where
  one : s.claims + hand ≤ 1
  registered : ∀ n, s.registered n = s.existsAt n
  known : s.claims + hand = 1 → s.homeRec = true
  failed : s.failed = false

namespace Held

variable {s : IndexState N E} {home n : N} {hand : ℕ}

variable {t : IndexState N E} {m : Msg N E} {token : E}

omit [DecidableEq N] in
/-- A state with the same places, registrations and failures, and a record if there was one. -/
theorem congr (h : Held s hand) (hh : t.existsAt = s.existsAt)
    (hc : t.msgs.countP isClaim = s.msgs.countP isClaim) (hr : t.registered = s.registered)
    (hf : t.failed = s.failed) (hk : s.homeRec = true → t.homeRec = true) : Held t hand := by
  have hcl : t.claims = s.claims := by
    rw [claims, claims, hc]
    simp only [residents, hh]
  refine ⟨hcl ▸ h.one, ?_, ?_, hf ▸ h.failed⟩
  · intro m
    rw [hr, h.registered m, hh]
  · rw [hcl]
    exact fun h1 => hk (h.known h1)

omit [DecidableEq N] in
theorem send (h : Held s (hand + if m.isClaim then 1 else 0)) : Held (s.send m) hand := by
  have hcl : (s.send m).claims = s.claims + if m.isClaim then 1 else 0 := by
    rw [claims, claims, IndexState.send, countP_cons, Nat.add_assoc]
    rfl
  refine ⟨?_, h.registered, ?_, h.failed⟩
  · have := h.one
    omega
  · intro h1
    exact h.known (by omega)

/-- An element is constructed at a place in hand, or on the home if it has no record. -/
theorem insertCollectionElement {b : Bool} (h : Held s 0) (h0 : s.claims = 0)
    (hk : s.homeRec = true ∨ home = n) : Held (s.insertCollectionElement home n b) 0 := by
  have hn := existsAt_of_vacant h0 n
  have heq := insertCollectionElement_eq s home n b hn
  set t := s.insertCollectionElement home n b
  have hexists : t.existsAt = update s.existsAt n true := by rw [heq]
  have hreg : t.registered = update s.registered n true := by rw [heq]
  have hmsgs : t.msgs.countP isClaim = s.msgs.countP isClaim := by
    rw [heq]
    by_cases hhome : home = n <;> simp [hhome, isClaim, isMigrate, isPinged]
  have hfail : t.failed = false := by
    rw [heq, h.failed, h.registered n, hn]
    rfl
  have hrec : t.homeRec = true := by
    rw [heq]
    simpa using hk
  have hres := residents_set s n hn hexists
  refine ⟨?_, ?_, fun _ => hrec, hfail⟩
  · rw [claims] at h0 ⊢
    omega
  · intro m
    rw [hreg, hexists]
    by_cases hm : m = n
    · simp [hm]
    · rw [update_of_ne hm, update_of_ne hm]
      exact h.registered m

theorem construct {b : Bool} (h : Held s 1) :
    Held (s.insertCollectionElement home n b) 0 := by
  have h0 : s.claims = 0 := by
    have := h.one
    omega
  have hk : s.homeRec = true := h.known (by omega)
  have hs : Held s 0 := ⟨by omega, h.registered, fun _ => hk, h.failed⟩
  exact hs.insertCollectionElement h0 (.inl hk)

/-- The element of a node is taken from it, for removal or for migration. -/
theorem clear (h : Held s 0) (hn : s.existsAt n = true)
    (hh : t.existsAt = update s.existsAt n false) (hm : t.msgs = s.msgs)
    (hr : t.registered = update s.registered n false) (hf : t.failed = s.failed) :
    s.homeRec = true ∧ t.claims = 0 ∧ (∀ n, t.registered n = t.existsAt n) ∧ t.failed = false := by
  have hres := residents_clear s n hn hh
  have hone := h.one
  refine ⟨h.known ?_, ?_, ?_, hf ▸ h.failed⟩
  · rw [claims] at hone ⊢
    omega
  · rw [claims] at hone ⊢
    rw [hm]
    omega
  · intro m
    rw [hr, hh]
    by_cases hmn : m = n
    · simp [hmn]
    · rw [update_of_ne hmn, update_of_ne hmn]
      exact h.registered m

theorem removeElm (h : Held s 0) : Held (s.removeElm home n) 0 := by
  rw [IndexState.removeElm]
  split_ifs with hn
  · have hreg : s.registered n = true := (h.registered n).trans hn
    obtain ⟨-, h0, hr, hf⟩ := clear (t := (({ s with existsAt := update s.existsAt n false } :
      IndexState N E).unregisterEntity home n)) h hn rfl rfl rfl (by simp [unregisterEntity, hreg])
    refine ⟨by omega, hr, fun h1 => by omega, hf⟩
  · exact h

theorem migrateOut {dest : N} (h : Held s 0) (hs : s.migrateOut home n dest = some t) :
    Held t 0 := by
  obtain ⟨hn, rfl⟩ := of_guard hs
  set u : IndexState N E := ({ s with existsAt := update s.existsAt n false } :
    IndexState N E).entityEmigrated home n with hu
  obtain ⟨hk, h0, hr, hf⟩ := clear (t := u) h hn rfl rfl rfl rfl
  have hheld : Held u 1 :=
    ⟨by omega, hr, fun _ => by simp [hu, entityEmigrated, hk], hf⟩
  have hsent : Held (u.send (.migrate dest)) 0 := send (by simpa [isClaim, isMigrate])
  exact hsent.congr rfl rfl rfl rfl id

omit [DecidableEq N] in
/-- The home has no record, so no place is taken. -/
theorem claims_eq_zero (h : Held s 0) (hk : s.homeRec = false) : s.claims = 0 := by
  have := h.one
  by_contra hne
  have := h.known (by omega)
  simp_all

/-- `insert` with a place in hand if the home has accepted it. -/
theorem insert {node : Option N} {pinged : Bool} (hn : pinged = true → node = some n)
    (h : Held s (if pinged then 1 else 0)) : Held (s.insert home n node token pinged) 0 := by
  cases pinged with
  | true =>
    rw [hn rfl]
    simpa [IndexState.insert] using construct h
  | false =>
    have hsend : ∀ m : Msg N E, m.isClaim = false → Held (s.send m) 0 := fun m hm =>
      send (by simpa [hm] using h)
    simp only [IndexState.insert, Bool.false_eq_true, if_false]
    split_ifs with h1 h2 h3 h4
    · exact h
    · exact h
    · have h0 : s.claims = 0 := claims_eq_zero h (by simpa [isCached] using h4)
      exact insertCollectionElement h h0 (.inr h2)
    · exact hsend _ rfl
    · exact hsend _ rfl

theorem pingHomeHandler {m : InsertMsg N E} (h : Held s 0) : Held (s.pingHomeHandler home m) 0 := by
  rw [IndexState.pingHomeHandler]
  split_ifs with hk
  · exact h
  · have h0 : s.claims = 0 := claims_eq_zero h (by simpa [isCached] using hk)
    have hreg : s.registered home = false := by
      rw [h.registered]
      exact existsAt_of_vacant h0 home
    refine send ⟨?_, h.registered, ?_, ?_⟩
    · change s.claims + _ ≤ 1
      simp [h0, isClaim, isMigrate, isPinged]
    · intro _
      simp [registerEntityRemote]
    · simp [registerEntityRemote, h.failed, hreg]

theorem destroyElm (h : Held s 0) : Held (s.destroyElm n token) 0 := by
  rw [IndexState.destroyElm]
  split_ifs
  · exact h.congr rfl rfl rfl rfl id
  · exact send (by simpa [isClaim, isMigrate, isPinged] using h)

variable [DecidableEq E]

/-- A claim in a message that is taken from the network is in hand. -/
theorem take (h : Held s 0) (hm : m ∈ s.msgs) : Held (s.take m) (if m.isClaim then 1 else 0) := by
  have hcl := claims_take hm
  exact ⟨by have := h.one; omega, h.registered, fun h1 => h.known (by omega), h.failed⟩

omit [DecidableEq E] in
theorem receive (ha : s.arrivesAt home n m = true) (h : Held s (if m.isClaim then 1 else 0)) :
    Held (s.receive home n m) 0 := by
  cases m with
  | insert m =>
    refine insert ?_ (by simpa [isClaim, isMigrate, isPinged] using h)
    intro _
    simpa [arrivesAt] using ha
  | pingHome m => exact pingHomeHandler (by simpa [isClaim, isMigrate, isPinged] using h)
  | destroyElm token => exact destroyElm (by simpa [isClaim, isMigrate, isPinged] using h)
  | migrate dest =>
    simp only [isClaim, isMigrate, Bool.true_or, if_true] at h
    exact h.construct
  | updateLocation =>
    exact congr (s := s) (by simpa [isClaim, isMigrate, isPinged] using h) rfl rfl rfl rfl
      fun _ => rfl

theorem step {a : Act N E} (h : Held s 0) (hs : s.step home a = some t) : Held t 0 := by
  cases a with
  | insert n node token =>
    obtain rfl := Option.some.inj hs
    refine insert (by simp) ?_
    exact h.congr rfl rfl rfl rfl id
  | destroyElm n token =>
    obtain rfl := Option.some.inj hs
    exact h.destroyElm
  | migrateOut n dest => exact h.migrateOut hs
  | deliver n m =>
    obtain ⟨⟨hm, ha⟩, rfl⟩ := of_guard hs
    exact receive ha (h.take hm)
  | runUnit n token =>
    obtain ⟨-, rfl⟩ := of_guard hs
    exact removeElm (h.congr rfl rfl rfl rfl id)
  | handleEagerUpdate =>
    obtain rfl := Option.some.inj hs
    exact h.congr rfl rfl rfl rfl fun _ => rfl

omit [DecidableEq N] [DecidableEq E] in
theorem init : Held ({} : IndexState N E) 0 := by
  have h0 : ({} : IndexState N E).claims = 0 := by simp [claims, residents]
  exact ⟨by omega, fun _ => rfl, fun h => by omega, rfl⟩

/-! ## The only place of an index -/

omit [DecidableEq E] in
theorem eq_of_existsAt {m : N} (h : Held s 0) (hm : s.existsAt m = true)
    (hn : s.existsAt n = true) : m = n := by
  by_contra hne
  have hclear := residents_clear (t := { s with existsAt := update s.existsAt n false }) s n hn rfl
  have hpos := residents_pos (s := { s with existsAt := update s.existsAt n false }) (n := m)
    (by simpa [update_of_ne hne] using hm)
  have hone := h.one
  rw [claims] at hone
  omega

omit [DecidableEq N] [DecidableEq E] in
/-- No other place is taken if one is in hand. -/
theorem empty (h : Held s 1) : (∀ n, s.existsAt n = false) ∧ ∀ m ∈ s.msgs, m.isClaim = false := by
  have hone := h.one
  refine ⟨existsAt_of_vacant (by omega), fun m hm => Bool.eq_false_iff.mpr fun hc => ?_⟩
  have : 0 < s.msgs.countP isClaim := countP_pos_iff.mpr ⟨m, hm, hc⟩
  rw [claims] at hone
  omega

end Held

end VtRuntime.Collection
