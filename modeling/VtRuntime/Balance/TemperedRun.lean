import VtRuntime.Balance.Tempered

/-!
# The tempered load balancer conserves objects and loads

In each trial an object is in the copy of one rank or in one message.  The ranks run through the
iterations at different speeds, but each iteration has points that no rank passes before all ranks
have come to it.  So a rank does not send objects to one that has not taken its copy yet.
-/

namespace VtRuntime.Balance.Tempered

open Lib List Rank TemperedConfig Function Phase
open Option hiding mem_map map_map

variable {N : ℕ} {Id K : Type} [Field K] [LinearOrder K] [DecidableEq Id]
  {cfg : TemperedConfig K} {inp : Input N Id K} {x x' : Ranks N Id K}

/-! ## Steps -/

/-- A rank takes objects in. -/
def Rank.migrate (l : Rank N Id K) (objs : List (Entry N Id K)) : Rank N Id K :=
  { l with curObjs := l.curObjs ++ objs, newLoad := l.newLoad + (objs.map (·.2)).sum }

/-- What a step did. -/
inductive Stepped (cfg : TemperedConfig K) (inp : Input N Id K) (x x' : Ranks N Id K) : Prop
  | begin (r : Fin N) (hphase : (x.node r).phase = .start) (hiter : (x.node r).iter < cfg.total)
      (h : x' = update x r ((x.node r).begin cfg inp r) [])
  | abort (r : Fin N) (hphase : (x.node r).phase = .inform) (hrun : (x.node r).aborted = false)
      (h : x' = update x r { x.node r with aborted := true } [])
  | transfer (r : Fin N) (res : TransferResult N Id K) (hphase : (x.node r).phase = .inform)
      (hrun : (x.node r).aborted = false)
      (hall : ∀ m, 4 * (x.node r).iter + 1 ≤ (x.node m).pos)
      (hsplit : Splits (x.node r).curObjs (x.node r).newLoad res)
      (h : x' = update x r { x.node r with
        phase := .transfer, curObjs := res.kept, newLoad := res.newLoad } (lazyMessages res.moved))
  | contribute (r : Fin N) (hphase : (x.node r).phase = .transfer)
      (hsync : Synced x (4 * (x.node r).iter + 2) true) (hrec : cfg.records (x.node r).iter = true)
      (h : x' = update x r { x.node r with phase := .stats } (statsMessages x r))
  | next (r : Fin N) (hphase : (x.node r).phase = .transfer)
      (hsync : Synced x (4 * (x.node r).iter + 2) true) (hrec : cfg.records (x.node r).iter = false)
      (h : x' = update x r { x.node r with phase := .start, iter := (x.node r).iter + 1 } [])
  | record (r : Fin N) (hphase : (x.node r).phase = .stats)
      (hsync : Synced x (4 * (x.node r).iter + 3) false)
      (h : x' = update x r ((x.node r).record cfg inp r) [])
  | finish (r : Fin N) (hphase : (x.node r).phase = .start) (hiter : (x.node r).iter = cfg.total)
      (h : x' = update x r ((x.node r).finish cfg r) [])
  | migrate (r src : Fin N) (objs : List (Entry N Id K))
      (h : Network.Delivers handle x x' r (src, .lazyMigration objs) ((x.node r).migrate objs) [])
  | receive (r src : Fin N) (v : K)
      (h : Network.Delivers handle x x' r (src, .loadStats v)
        { x.node r with newImbalance := v } [])

omit [LinearOrder K] [DecidableEq Id] in
theorem Splits.of_perm {objs ordered : List (Entry N Id K)} {load : K} {res : TransferResult N Id K}
    (h : Splits ordered load res) (hp : ordered.Perm objs) : Splits objs load res :=
  ⟨h.perm.trans hp, h.load⟩

theorem stepped {a : Act N Id K} (hs : step cfg inp x a = some x') : Stepped cfg inp x x' := by
  cases a with
  | begin r =>
    obtain ⟨⟨hphase, hiter⟩, rfl⟩ := of_guard hs
    exact .begin r hphase hiter rfl
  | transfer r ordered info u =>
    obtain ⟨⟨hphase, hrun, hall, hperm, -⟩, hs⟩ := ite_none_right_eq_some.mp hs
    split at hs
    · obtain rfl := some.inj hs
      exact .abort r hphase hrun rfl
    · next res hres =>
      obtain rfl := some.inj hs
      exact .transfer r res hphase hrun hall ((splits_originalTransfer hres).of_perm hperm) rfl
  | endTransfer r =>
    obtain ⟨⟨hphase, hsync⟩, hs⟩ := ite_none_right_eq_some.mp hs
    split_ifs at hs with hrec
    · obtain rfl := some.inj hs
      exact .contribute r hphase hsync hrec rfl
    · obtain rfl := some.inj hs
      exact .next r hphase hsync (Bool.eq_false_iff.mpr hrec) rfl
  | record r =>
    obtain ⟨⟨hphase, hsync⟩, rfl⟩ := of_guard hs
    exact .record r hphase hsync rfl
  | finish r =>
    obtain ⟨⟨hphase, hiter⟩, rfl⟩ := of_guard hs
    exact .finish r hphase hiter rfl
  | deliver r i =>
    obtain ⟨⟨src, d⟩, l, out, -, hd⟩ := Network.delivers hs
    have hl := hd.handled
    cases d with
    | lazyMigration objs =>
      obtain ⟨-, hl⟩ := ite_none_right_eq_some.mp hl
      obtain ⟨rfl, rfl⟩ := Prod.mk.inj (some.inj hl)
      exact .migrate r src objs hd
    | loadStats v =>
      obtain ⟨rfl, rfl⟩ := Prod.mk.inj (some.inj hl)
      exact .receive r src v hd

/-! ## Positions -/

/-- A rank is where a rank can be. -/
structure Rank.Valid (cfg : TemperedConfig K) (l : Rank N Id K) : Prop where
  iter_le : l.iter ≤ cfg.total
  busy : l.phase ≠ .start → l.phase ≠ .finished → l.iter < cfg.total
  done : l.phase = .finished → l.iter = cfg.total
  stats : l.phase = .stats → cfg.records l.iter = true
  stopped : l.aborted = true → l.phase = .inform

/-- No rank passes this point before all ranks have come to it. -/
def TemperedConfig.Barrier (cfg : TemperedConfig K) (b : ℕ) : Prop :=
  ∃ k < cfg.total, b = 4 * k + 1 ∨ b = 4 * k + 2 ∨ b = 4 * k + 3 ∧ cfg.records k = true

/-- How far the ranks are from each other. -/
structure Ordered (cfg : TemperedConfig K) (x : Ranks N Id K) : Prop where
  valid : ∀ m, (x.node m).Valid cfg
  barrier : ∀ b, cfg.Barrier b → ∀ m m', b < (x.node m).pos → b ≤ (x.node m').pos

section Pos

variable {l : Rank N Id K} {k : ℕ}

omit [Field K] [LinearOrder K] [DecidableEq Id]

theorem pos_of_phase {p : Phase} (h : l.phase = p) : l.pos = 4 * l.iter + p.idx := by rw [pos, h]

theorem Rank.Valid.of_pos_inform (h : l.Valid cfg) (hk : k < cfg.total) (hpos : l.pos = 4 * k + 1) :
    l.iter = k ∧ l.phase = .inform := by
  have hdone := h.done
  cases hp : l.phase <;> simp only [pos, hp, idx, forall_const] at hpos hdone <;>
    simp only [and_true, and_false, reduceCtorEq] <;> omega

theorem of_pos {p : Phase} (hp : p = .transfer ∨ p = .stats) (hpos : l.pos = 4 * k + p.idx) :
    l.iter = k ∧ l.phase = p := by
  rcases hp with rfl | rfl <;> cases hp : l.phase <;> simp only [pos, hp, idx] at hpos <;>
    simp only [and_true, and_false, reduceCtorEq] <;> omega

theorem le_pos_iter (l : Rank N Id K) : 4 * l.iter ≤ l.pos := Nat.le_add_right ..

theorem pos_lt_iter (l : Rank N Id K) : l.pos < 4 * l.iter + 4 := by
  rw [pos]
  cases l.phase <;> simp [idx]

end Pos

section Fields

variable {l : Rank N Id K} {r : Fin N}

omit [DecidableEq Id]

theorem begin_at : (l.begin cfg inp r).iter = l.iter ∧ (l.begin cfg inp r).aborted = l.aborted := by
  rw [begin]
  split_ifs <;> exact ⟨rfl, rfl⟩

theorem record_at : (l.record cfg inp r).iter = l.iter + 1 ∧
    (l.record cfg inp r).aborted = l.aborted := by
  rw [record]
  split_ifs <;> exact ⟨rfl, rfl⟩

omit [Field K] in
theorem finish_at : (l.finish cfg r).iter = l.iter ∧ (l.finish cfg r).aborted = l.aborted := by
  rw [finish]
  split_ifs <;> exact ⟨rfl, rfl⟩

theorem begin_pos (h : l.phase = .start) : (l.begin cfg inp r).pos = l.pos + 1 := by
  rw [pos_of_phase h, pos, begin_at.1]
  rfl

theorem record_pos (h : l.phase = .stats) : (l.record cfg inp r).pos = l.pos + 1 := by
  rw [pos_of_phase h, pos, record_at.1]
  rfl

omit [Field K] in
theorem finish_pos (h : l.phase = .start) : (l.finish cfg r).pos = l.pos + 1 := by
  rw [pos_of_phase h, pos, finish_at.1]
  rfl

end Fields

section Barrier

variable {b k : ℕ}

omit [Field K] [LinearOrder K]

theorem TemperedConfig.Barrier.ne_start (h : cfg.Barrier b) (k : ℕ) : b ≠ 4 * k := by
  obtain ⟨j, -, h⟩ := h
  omega

theorem TemperedConfig.Barrier.lt_total (h : cfg.Barrier b) : b < 4 * cfg.total := by
  obtain ⟨j, hj, h⟩ := h
  omega

theorem TemperedConfig.Barrier.records (h : cfg.Barrier (4 * k + 3)) : cfg.records k = true := by
  obtain ⟨j, -, h | h | ⟨h, hrec⟩⟩ := h
  · omega
  · omega
  · obtain rfl : k = j := by omega
    exact hrec

end Barrier

/-- One rank moves, and only over points to which all have come. -/
structure Advances (cfg : TemperedConfig K) (x : Ranks N Id K) (r : Fin N) (l : Rank N Id K) :
    Prop where
  valid : l.Valid cfg
  le : (x.node r).pos ≤ l.pos
  sync : ∀ b, cfg.Barrier b → b < l.pos → b < (x.node r).pos ∨ ∀ m, b ≤ (x.node m).pos

section

omit [DecidableEq Id] [Field K] [LinearOrder K]

theorem Advances.of_eq {r : Fin N} {l : Rank N Id K} (h : (x.node r).Valid cfg)
    (hphase : l.phase = (x.node r).phase) (hiter : l.iter = (x.node r).iter)
    (hab : l.aborted = true → l.phase = .inform) : Advances cfg x r l := by
  have hpos : l.pos = (x.node r).pos := by rw [pos, pos, hphase, hiter]
  refine ⟨⟨?_, ?_, ?_, ?_, hab⟩, hpos.ge, fun b _ hb => .inl (hpos ▸ hb)⟩ <;>
    simp only [hphase, hiter]
  · exact h.iter_le
  · exact h.busy
  · exact h.done
  · exact h.stats

/-- A rank that has not stopped moves from one point to the next. -/
theorem Advances.of_move {r : Fin N} {l : Rank N Id K} (hrun : (x.node r).aborted = false)
    (hab : l.aborted = (x.node r).aborted) (hiter : l.iter ≤ cfg.total)
    (hphase : l.phase = .start ∨ l.phase = .finished ∧ l.iter = cfg.total ∨
      l.phase ≠ .finished ∧ l.iter < cfg.total ∧ (l.phase = .stats → cfg.records l.iter = true))
    (hle : (x.node r).pos ≤ l.pos)
    (hsync : ∀ b, cfg.Barrier b → (x.node r).pos ≤ b → b < l.pos → ∀ m, b ≤ (x.node m).pos) :
    Advances cfg x r l := by
  refine ⟨⟨hiter, ?_, ?_, ?_, ?_⟩, hle, ?_⟩
  · intro hs hf
    rcases hphase with hp | ⟨hp, -⟩ | ⟨-, hp, -⟩
    · exact absurd hp hs
    · exact absurd hp hf
    · exact hp
  · intro hf
    rcases hphase with hp | ⟨-, hp⟩ | ⟨hp, -⟩
    · exact absurd (hp.symm.trans hf) nofun
    · exact hp
    · exact absurd hf hp
  · intro hstats
    rcases hphase with hp | ⟨hp, -⟩ | ⟨-, -, hp⟩
    · exact absurd (hp.symm.trans hstats) nofun
    · exact absurd (hp.symm.trans hstats) nofun
    · exact hp hstats
  · intro h
    rw [hab, hrun] at h
    exact absurd h nofun
  · intro b hb hlt
    by_cases hpos : b < (x.node r).pos
    · exact .inl hpos
    · exact .inr (hsync b hb (not_lt.mp hpos) hlt)

theorem Rank.Valid.running {l : Rank N Id K} (h : l.Valid cfg) (hphase : l.phase ≠ .inform) :
    l.aborted = false :=
  Bool.eq_false_iff.mpr fun hab => hphase (h.stopped hab)

end

theorem Stepped.advances (h : Stepped cfg inp x x') (hx : Ordered cfg x) :
    ∃ r l, x'.node = Function.update x.node r l ∧ Advances cfg x r l := by
  cases h with
  | begin r hphase hiter h =>
    have hpos := pos_of_phase hphase
    have hpos' : ((x.node r).begin cfg inp r).pos = _ := begin_pos hphase
    simp only [idx] at hpos
    refine ⟨r, _, congrArg Network.node h, .of_move ((hx.valid r).running (by simp [hphase]))
      ?_ ?_ ?_ ?_ ?_⟩
    · exact begin_at.2
    · rw [begin_at.1]
      exact hiter.le
    · rw [begin_at.1]
      exact .inr (.inr ⟨nofun, hiter, nofun⟩)
    · omega
    · intro b hb hle hlt
      exact absurd (show b = 4 * (x.node r).iter by omega) (hb.ne_start _)
  | abort r hphase hrun h =>
    exact ⟨r, _, congrArg Network.node h, .of_eq (hx.valid r) rfl rfl fun _ => hphase⟩
  | transfer r res hphase hrun hall hsplit h =>
    have hiter := (hx.valid r).busy (by simp [hphase]) (by simp [hphase])
    have hpos := pos_of_phase hphase
    refine ⟨r, _, congrArg Network.node h, .of_move hrun rfl hiter.le
      (.inr (.inr ⟨nofun, hiter, nofun⟩)) ?_ ?_⟩
    · rw [hpos]
      exact Nat.le_succ _
    · intro b hb hle hlt m
      exact (Nat.le_of_lt_succ hlt).trans (hall m)
  | contribute r hphase hsync hrec h =>
    have hiter := (hx.valid r).busy (by simp [hphase]) (by simp [hphase])
    have hpos := pos_of_phase hphase
    refine ⟨r, _, congrArg Network.node h, .of_move ((hx.valid r).running (by simp [hphase])) rfl
      hiter.le (.inr (.inr ⟨nofun, hiter, fun _ => hrec⟩)) ?_ ?_⟩
    · rw [hpos]
      exact Nat.le_succ _
    · intro b hb hle hlt m
      exact (Nat.le_of_lt_succ hlt).trans (hsync m).1
  | next r hphase hsync hrec h =>
    have hiter := (hx.valid r).busy (by simp [hphase]) (by simp [hphase])
    have hpos := pos_of_phase hphase
    simp only [idx] at hpos
    refine ⟨r, _, congrArg Network.node h, .of_move ((hx.valid r).running (by simp [hphase])) rfl
      hiter (.inl rfl) ?_ ?_⟩
    · simp only [pos, idx] at hpos ⊢
      omega
    · intro b hb hle hlt m
      have hne : b ≠ 4 * (x.node r).iter + 3 := by
        rintro rfl
        exact absurd (hrec.symm.trans hb.records) nofun
      have hm := (hsync m).1
      simp only [pos, idx] at hlt hm ⊢
      omega
  | record r hphase hsync h =>
    have hiter := (hx.valid r).busy (by simp [hphase]) (by simp [hphase])
    have hpos := pos_of_phase hphase
    have hpos' : ((x.node r).record cfg inp r).pos = _ := record_pos hphase
    simp only [idx] at hpos
    refine ⟨r, _, congrArg Network.node h, .of_move ((hx.valid r).running (by simp [hphase])) ?_ ?_
      (.inl rfl) ?_ ?_⟩
    · exact record_at.2
    · rw [record_at.1]
      exact hiter
    · omega
    · intro b hb hle hlt m
      have hm := (hsync m).1
      omega
  | finish r hphase hiter h =>
    have hpos := pos_of_phase hphase
    have hpos' : ((x.node r).finish cfg r).pos = _ := finish_pos hphase
    simp only [idx] at hpos
    refine ⟨r, _, congrArg Network.node h, .of_move ((hx.valid r).running (by simp [hphase]))
      ?_ ?_ ?_ ?_ ?_⟩
    · exact finish_at.2
    · rw [finish_at.1]
      exact hiter.le
    · rw [finish_at.1]
      exact .inr (.inl ⟨rfl, hiter⟩)
    · omega
    · intro b hb hle hlt
      have := hb.lt_total
      omega
  | migrate r _ _ h | receive r _ _ h =>
    exact ⟨r, _, h.node, .of_eq (hx.valid r) rfl rfl (hx.valid r).stopped⟩

theorem Stepped.le_pos (h : Stepped cfg inp x x') (hx : Ordered cfg x) (m : Fin N) :
    (x.node m).pos ≤ (x'.node m).pos := by
  obtain ⟨r, l, hnode, hadv⟩ := h.advances hx
  revert m
  rw [hnode]
  exact (forall_update_iff _ fun m (l : Rank N Id K) => (x.node m).pos ≤ l.pos).mpr
    ⟨hadv.le, fun m _ => le_rfl⟩

theorem ordered_step (h : Stepped cfg inp x x') (hx : Ordered cfg x) : Ordered cfg x' := by
  obtain ⟨r, l, hnode, hadv⟩ := h.advances hx
  constructor
  · rw [hnode]
    exact (forall_update_iff _ fun _ (l : Rank N Id K) => l.Valid cfg).mpr
      ⟨hadv.valid, fun m _ => hx.valid m⟩
  · intro b hb m m' hlt
    refine le_trans ?_ (h.le_pos hx m')
    rw [hnode] at hlt
    by_cases hm : m = r
    · subst hm
      rw [update_self] at hlt
      rcases hadv.sync b hb hlt with hlt | hall
      · exact hx.barrier b hb m m' hlt
      · exact hall m'
    · rw [update_of_ne hm] at hlt
      exact hx.barrier b hb m m' hlt

section Together

omit [Field K] [LinearOrder K] [DecidableEq Id]

/-- All ranks are in the exchange or after it when one of them starts its transfers. -/
theorem Ordered.informed (hx : Ordered cfg x) {r : Fin N} (hphase : (x.node r).phase = .inform)
    (hall : ∀ m, 4 * (x.node r).iter + 1 ≤ (x.node m).pos) (m : Fin N) :
    (x.node m).iter = (x.node r).iter ∧
      ((x.node m).phase = .inform ∨ (x.node m).phase = .transfer) := by
  have hiter := (hx.valid r).busy (by simp [hphase]) (by simp [hphase])
  have hpos := pos_of_phase hphase
  have hbar := hx.barrier (4 * (x.node r).iter + 2) ⟨_, hiter, .inr (.inl rfl)⟩ m r
  have hm := hall m
  simp only [idx] at hpos
  obtain h1 | h2 : (x.node m).pos = 4 * (x.node r).iter + 1 ∨
      (x.node m).pos = 4 * (x.node r).iter + 2 := by
    omega
  · exact ((hx.valid m).of_pos_inform hiter h1).imp_right .inl
  · exact (of_pos (.inl rfl) h2).imp_right .inr

/-- All other ranks are in the reduction when the last one enters it. -/
theorem Ordered.reducing (hx : Ordered cfg x) {r m : Fin N} (hphase : (x.node r).phase = .transfer)
    (hrec : cfg.records (x.node r).iter = true) (hm : 4 * (x.node r).iter + 3 ≤ (x.node m).pos) :
    (x.node m).iter = (x.node r).iter ∧ (x.node m).phase = .stats := by
  have hiter := (hx.valid r).busy (by simp [hphase]) (by simp [hphase])
  have hpos := pos_of_phase hphase
  have hbar := hx.barrier (4 * (x.node r).iter + 3) ⟨_, hiter, .inr (.inr ⟨rfl, hrec⟩)⟩ m r
  simp only [idx] at hpos
  exact of_pos (.inr rfl) (by simp only [idx]; omega)

end Together

/-! ## Messages in flight -/

section Update

variable {r : Fin N} {l : Rank N Id K}

omit [Field K] [LinearOrder K] [DecidableEq Id]

variable {out : List (Fin N × Msg N Id K)}

theorem mem_inbox_update {y : Fin N} {e : Fin N × Msg N Id K} :
    e ∈ (update x r l out).inbox y ↔ e ∈ x.inbox y ∨ e.1 = r ∧ (y, e.2) ∈ out :=
  Network.mem_inbox_post

theorem inbox_update_nil : (update x r l []).inbox = x.inbox := by
  funext n
  exact append_nil _

theorem node_update_self : (update x r l out).node r = l :=
  update_self ..

theorem node_update_of_ne {m : Fin N} (h : m ≠ r) : (update x r l out).node m = x.node m :=
  update_of_ne h ..

/-- A rank that is in another phase is not the one that took the step. -/
theorem node_update_of_phase {m : Fin N} {p : Phase} (h : ((update x r l out).node m).phase = p)
    (hl : l.phase ≠ p) : (update x r l out).node m = x.node m := by
  refine node_update_of_ne ?_
  rintro rfl
  rw [node_update_self] at h
  exact hl h

/-- What a step leaves to its rank is left to all. -/
theorem forall_of_update {β : Type} (f : Rank N Id K → β) (h : f l = f (x.node r)) (m : Fin N) :
    f (Function.update x.node r l m) = f (x.node m) :=
  (forall_update_iff _ fun m (l : Rank N Id K) => f l = f (x.node m)).mpr
    ⟨h, fun _ _ => rfl⟩ m

theorem eq_lazyMigration {moved : List (Fin N × Entry N Id K)} {o : Fin N × Msg N Id K}
    (h : o ∈ lazyMessages moved) : ∃ objs, o.2 = .lazyMigration objs := by
  obtain ⟨g, -, rfl⟩ := mem_map.mp h
  exact ⟨_, rfl⟩

end Update

/-- Objects are on their way only in the epoch of the migrations.  When the result of the reduction
is on its way, no rank can do anything else. -/
structure Mail (x : Ranks N Id K) : Prop where
  migration : ∀ n src objs, (src, .lazyMigration objs) ∈ x.inbox n →
    ∃ k, ∀ m, (x.node m).iter = k ∧ ((x.node m).phase = .inform ∨ (x.node m).phase = .transfer)
  stats : ∀ n src v, (src, .loadStats v) ∈ x.inbox n →
    (∃ k, ∀ m, (x.node m).iter = k ∧ (x.node m).phase = .stats) ∧
      v = imbalance fun m => (x.node m).newLoad

section Mail

omit [DecidableEq Id]

theorem Mail.of_quiet (h : ∀ n, x.inbox n = []) : Mail x :=
  ⟨fun n src objs hmem => by simp [h n] at hmem, fun n src v hmem => by simp [h n] at hmem⟩

variable {r : Fin N} {p : Phase} {pos : ℕ}

theorem Mail.not_migration (h : Mail x) (hphase : (x.node r).phase = p) (hi : p ≠ .inform)
    (ht : p ≠ .transfer) (n src : Fin N) (objs : List (Entry N Id K)) :
    (src, .lazyMigration objs) ∉ x.inbox n := by
  subst hphase
  intro hmem
  obtain ⟨k, hk⟩ := h.migration n src objs hmem
  exact (hk r).2.elim hi ht

theorem Mail.not_stats (h : Mail x) (hphase : (x.node r).phase = p) (hr : p ≠ .stats)
    (n src : Fin N) (v : K) : (src, .loadStats v) ∉ x.inbox n := by
  subst hphase
  intro hmem
  obtain ⟨⟨k, hk⟩, -⟩ := h.stats n src v hmem
  exact hr (hk r).2

/-- No message is in flight when a rank is between two iterations. -/
theorem Mail.quiet (h : Mail x) (hphase : (x.node r).phase = .start) (n : Fin N) :
    x.inbox n = [] := by
  refine eq_nil_iff_forall_not_mem.mpr ?_
  rintro ⟨src, objs | v⟩
  · exact h.not_migration hphase nofun nofun n src objs
  · exact h.not_stats hphase nofun n src v

/-- No message is in flight when a rank leaves the epoch of the migrations. -/
theorem Mail.quiet_of_transfer (h : Mail x) (hphase : (x.node r).phase = .transfer)
    (hsync : Synced x pos true) (n : Fin N) : x.inbox n = [] := by
  refine eq_nil_iff_forall_not_mem.mpr ?_
  rintro ⟨src, objs | v⟩ hmem
  · exact (hsync n).2 _ hmem rfl
  · exact h.not_stats hphase nofun n src v hmem

/-- No message is in flight when a rank leaves the reduction. -/
theorem Mail.quiet_of_stats (h : Mail x) (hphase : (x.node r).phase = .stats)
    (hsync : Synced x pos false) (n : Fin N) : x.inbox n = [] := by
  refine eq_nil_iff_forall_not_mem.mpr ?_
  rintro ⟨src, objs | v⟩ hmem
  · exact h.not_migration hphase nofun nofun n src objs hmem
  · exact (hsync n).2 _ hmem rfl

/-- A step without new messages that leaves all ranks where they are. -/
theorem Mail.of_same (h : Mail x) (hinbox : ∀ n, ∀ d ∈ x'.inbox n, d ∈ x.inbox n)
    (hiter : ∀ m, (x'.node m).iter = (x.node m).iter)
    (hphase : ∀ m, (x'.node m).phase = (x.node m).phase)
    (hload : ∀ r, (x.node r).phase = .stats → ∀ m, (x'.node m).newLoad = (x.node m).newLoad) :
    Mail x' := by
  constructor
  · intro n src objs hmem
    simp only [hiter, hphase]
    exact h.migration n src objs (hinbox n _ hmem)
  · intro n src v hmem
    obtain ⟨⟨k, hk⟩, hv⟩ := h.stats n src v (hinbox n _ hmem)
    simp only [hiter, hphase, hload n (hk n).2]
    exact ⟨⟨k, hk⟩, hv⟩

theorem mem_statsMessages {o : Fin N × Msg N Id K} :
    o ∈ statsMessages x r ↔ (∀ m, m ≠ r → 4 * (x.node r).iter + 3 ≤ (x.node m).pos) ∧
      o.2 = .loadStats (imbalance fun m => (x.node m).newLoad) := by
  rw [statsMessages]
  split_ifs with hall
  · rw [and_iff_right hall, mem_map]
    constructor
    · rintro ⟨m, -, rfl⟩
      rfl
    · intro h
      exact ⟨o.1, mem_finRange _, Prod.ext rfl h.symm⟩
  · exact ⟨nofun, fun h => absurd h.1 hall⟩

end Mail

theorem mail_step (h : Stepped cfg inp x x') (hx : Ordered cfg x) (hmail : Mail x) : Mail x' := by
  cases h with
  | begin _ hphase _ h | finish _ hphase _ h =>
    subst h
    exact .of_quiet fun n => by rw [inbox_update_nil, hmail.quiet hphase]
  | abort r hphase hrun h =>
    subst h
    refine hmail.of_same (fun n d hd => ?_) ?_ ?_ fun _ _ => ?_
    · rwa [inbox_update_nil] at hd
    · exact forall_of_update iter rfl
    · exact forall_of_update phase rfl
    · exact forall_of_update newLoad rfl
  | transfer r res hphase hrun hall hsplit h =>
    subst h
    constructor
    · intro n src objs _
      refine ⟨(x.node r).iter, (forall_update_iff _ fun m (l : Rank N Id K) =>
        l.iter = (x.node r).iter ∧ (l.phase = .inform ∨ l.phase = .transfer)).mpr
          ⟨⟨rfl, .inr rfl⟩, fun m _ => hx.informed hphase hall m⟩⟩
    · intro n src v hmem
      rcases mem_inbox_update.mp hmem with hmem | ⟨-, hmem⟩
      · exact absurd hmem (hmail.not_stats hphase nofun n src v)
      · exact absurd (eq_lazyMigration hmem) nofun
  | contribute r hphase hsync hrec h =>
    subst h
    have hquiet := hmail.quiet_of_transfer hphase hsync
    constructor
    · intro n src objs hmem
      rcases mem_inbox_update.mp hmem with hmem | ⟨-, hmem⟩
      · rw [hquiet n] at hmem
        exact absurd hmem nofun
      · exact absurd (mem_statsMessages.mp hmem).2 nofun
    · intro n src v hmem
      rcases mem_inbox_update.mp hmem with hmem | ⟨-, hmem⟩
      · rw [hquiet n] at hmem
        exact absurd hmem nofun
      · obtain ⟨hall, hv⟩ := mem_statsMessages.mp hmem
        refine ⟨⟨(x.node r).iter, (forall_update_iff _ fun m (l : Rank N Id K) =>
          l.iter = (x.node r).iter ∧ l.phase = .stats).mpr
            ⟨⟨rfl, rfl⟩, fun m hm => hx.reducing hphase hrec (hall m hm)⟩⟩, ?_⟩
        rw [Msg.loadStats.inj hv]
        exact congrArg imbalance (funext fun m => (forall_of_update newLoad (by rfl) m).symm)
  | next r hphase hsync hrec h =>
    subst h
    exact .of_quiet fun n => by rw [inbox_update_nil, hmail.quiet_of_transfer hphase hsync]
  | record r hphase hsync h =>
    subst h
    exact .of_quiet fun n => by rw [inbox_update_nil, hmail.quiet_of_stats hphase hsync]
  | migrate r src objs h =>
    refine hmail.of_same (fun n d hd => (h.inflight n d hd).resolve_right nofun) ?_ ?_ ?_
    · rw [h.node]
      exact forall_of_update iter rfl
    · rw [h.node]
      exact forall_of_update phase rfl
    · intro q hq
      exact absurd h.mem (hmail.not_migration hq nofun nofun r src objs)
  | receive r src v h =>
    refine hmail.of_same (fun n d hd => (h.inflight n d hd).resolve_right nofun) ?_ ?_ fun _ _ => ?_
    · rw [h.node]
      exact forall_of_update iter rfl
    · rw [h.node]
      exact forall_of_update phase rfl
    · rw [h.node]
      exact forall_of_update newLoad rfl

/-! ## Objects and loads -/

namespace TemperedConfig

/-- The number of iterations before this one at whose end the imbalance is computed. -/
def recordings (cfg : TemperedConfig K) (k : ℕ) : ℕ := (List.range k).countP cfg.records

/-- The better one of two assignments.  One that is worse than the first assignment does not
count. -/
def better {β : Type} (cfg : TemperedConfig K) (best e : K × β) : K × β :=
  if e.1 < best.1 ∧ e.1 ≤ cfg.startImb then e else best

/-- The best assignment of those recorded. -/
def best {β : Type} (cfg : TemperedConfig K) (none : β) (recorded : List (K × β)) : K × β :=
  recorded.foldl cfg.better (cfg.firstBest, none)

end TemperedConfig

theorem best_concat {β : Type} (none : β) (l : List (K × β)) (e : K × β) :
    cfg.best none (l ++ [e]) = cfg.better (cfg.best none l) e := by
  rw [best, best, foldl_append]
  rfl

section Objects

variable {l : Rank N Id K} {r : Fin N}

omit [DecidableEq Id]

theorem begin_objs :
    (l.begin cfg inp r).curObjs = (if cfg.isFirst l.iter then inp.objs r else l.curObjs) ∧
      (l.begin cfg inp r).newLoad = if cfg.isFirst l.iter then inp.thisLoad r else l.newLoad := by
  rw [begin]
  split_ifs <;> exact ⟨rfl, rfl⟩

theorem record_objs : (l.record cfg inp r).curObjs = (if cfg.isLast l.iter then [] else l.curObjs) ∧
    (l.record cfg inp r).newLoad = if cfg.isLast l.iter then inp.thisLoad r else l.newLoad := by
  rw [record]
  split_ifs <;> exact ⟨rfl, rfl⟩

/-- The start of an iteration leaves what is remembered. -/
theorem begin_book : (l.begin cfg inp r).recorded = l.recorded ∧
    (l.begin cfg inp r).bestImb = l.bestImb ∧
    (l.begin cfg inp r).bestObjs = l.bestObjs ∧ (l.begin cfg inp r).transfers = l.transfers := by
  rw [begin]
  split_ifs <;> exact ⟨rfl, rfl, rfl, rfl⟩

theorem record_book : (l.record cfg inp r).recorded = l.recorded ++ [(l.newImbalance, l.curObjs)] ∧
    (l.record cfg inp r).transfers = l.transfers := by
  rw [record]
  split_ifs <;> exact ⟨rfl, rfl⟩

theorem record_best : ((l.record cfg inp r).bestImb, (l.record cfg inp r).bestObjs) =
    cfg.better (l.bestImb, l.bestObjs) (l.newImbalance, l.curObjs) := by
  rw [record, better]
  split_ifs <;> rfl

omit [Field K] in
theorem finish_book : (l.finish cfg r).recorded = l.recorded ∧
    (l.finish cfg r).bestImb = l.bestImb ∧
    (l.finish cfg r).bestObjs = l.bestObjs ∧ (l.finish cfg r).transfers =
      thunkMigrations r (if l.bestImb ≤ cfg.startImb then l.bestObjs else l.curObjs) := by
  rw [finish]
  split_ifs <;> exact ⟨rfl, rfl, rfl, rfl⟩

omit [Field K] [LinearOrder K] in
/-- The iteration after the last one of a trial is the first one of a trial. -/
theorem isLast_eq_isFirst {k : ℕ} (h : k < cfg.total) : cfg.isLast k = cfg.isFirst (k + 1) := by
  have hpos : 0 < cfg.numIters := by
    refine Nat.pos_of_ne_zero fun h0 => ?_
    rw [total, h0, Nat.mul_zero] at h
    exact absurd h (Nat.not_lt_zero _)
  have hlt := Nat.mod_lt k hpos
  rw [isLast, isFirst, decide_eq_decide]
  constructor
  · intro h
    have hk := Nat.div_add_mod k cfg.numIters
    rw [← hk, Nat.add_assoc, h, ← Nat.mul_succ, Nat.mul_mod_right]
  · intro h
    by_contra hne
    have hone : 1 % cfg.numIters = 1 := Nat.mod_eq_of_lt (by omega)
    rw [Nat.add_mod_of_add_mod_lt (by omega), hone] at h
    exact absurd h (Nat.succ_ne_zero _)

end Objects

/-- The weight of an object in a message. -/
def entryWeight (e : Entry N Id K) (_ : Fin N) (d : Fin N × Msg N Id K) : ℕ :=
  match d.2 with
  | .lazyMigration objs => objs.count e
  | .loadStats _ => 0

/-- How often an object is there, in the copies and in the messages. -/
def everywhere (x : Ranks N Id K) (e : Entry N Id K) : ℕ :=
  x.total (entryWeight e) fun _ l => l.curObjs.count e

/-- A rank is in the trial that starts with an iteration, and has its copy. -/
structure Rank.InTrial (cfg : TemperedConfig K) (k : ℕ) (l : Rank N Id K) : Prop where
  le : k ≤ l.iter
  same : ∀ j, k < j → j ≤ l.iter → cfg.isFirst j = false
  copied : l.phase = .start → k < l.iter
  busy : l.phase ≠ .finished

/-- The copy of a rank holds objects of a trial. -/
def Rank.Holding (cfg : TemperedConfig K) (l : Rank N Id K) : Prop :=
  l.phase ≠ .finished ∧ (l.phase = .start → cfg.isFirst l.iter = false)

/-- What a rank knows of its own objects, its load and its past. -/
structure Rank.Sound (cfg : TemperedConfig K) (inp : Input N Id K) (m : Fin N) (l : Rank N Id K) :
    Prop where
  load : l.Holding cfg → l.newLoad = inp.loadWith m l.curObjs
  cleared : l.phase = .start → cfg.isFirst l.iter = true → l.curObjs = []
  count : l.recorded.length = cfg.recordings l.iter
  best : (l.bestImb, l.bestObjs) = cfg.best [] l.recorded
  asked : l.transfers = if l.phase = .finished then
    thunkMigrations m (if l.bestImb ≤ cfg.startImb then l.bestObjs else []) else []

structure Holds (cfg : TemperedConfig K) (inp : Input N Id K) (x : Ranks N Id K) : Prop where
  conserved : ∀ k, cfg.isFirst k = true → (∀ m, (x.node m).InTrial cfg k) →
    ∀ e, everywhere x e = ∑ r, (inp.objs r).count e
  /-- A rank that is ahead of another one in the first iteration has what it had at the start. -/
  fresh : ∀ m m', (x.node m).phase = .inform → cfg.isFirst (x.node m).iter = true →
    (x.node m').pos < (x.node m).pos → (x.node m).curObjs = inp.objs m
  sound : ∀ m, (x.node m).Sound cfg inp m

omit [Field K] [LinearOrder K] [DecidableEq Id] in
theorem total_update {r : Fin N} {l : Rank N Id K} (out : List (Fin N × Msg N Id K))
    (w : Fin N → Fin N × Msg N Id K → ℕ) (f : Fin N → Rank N Id K → ℕ) :
    (update x r l out).total w f + f r (x.node r) =
      x.total w f + Network.outWeight w r out + f r l := by
  have hpost := Network.total_post (w := w) (f := f)
    (x := { x with node := Function.update x.node r l }) r out
  have hnode := Network.total_node (w := w) (f := f) (x := x) r l
  rw [update]
  omega

omit [Field K] in
theorem outWeight_lazyMessages (e : Entry N Id K) (r : Fin N)
    (moved : List (Fin N × Entry N Id K)) :
    Network.outWeight (entryWeight e) r (lazyMessages moved) = (moved.map (·.2)).count e := by
  have hcount : ∀ l : List (Fin N × Entry N Id K),
      (l.map (·.2)).count e = (l.map fun p => if p.2 = e then 1 else 0).sum := by
    intro l
    rw [← sum_map_eq_count, map_map]
    rfl
  rw [lazyMessages, Network.outWeight_map, hcount, ← sum_groupBy (·.1) _ moved]
  refine congrArg List.sum (map_congr_left fun g _ => ?_)
  exact hcount g.2

section Everywhere

variable {r : Fin N} {l : Rank N Id K} {out : List (Fin N × Msg N Id K)} {e : Entry N Id K}

omit [Field K]

theorem everywhere_update (out : List (Fin N × Msg N Id K)) : everywhere (update x r l out) e +
    (x.node r).curObjs.count e =
    everywhere x e + Network.outWeight (entryWeight e) r out + l.curObjs.count e :=
  total_update out (entryWeight e) fun _ l => l.curObjs.count e

/-- The copy stays as it is, and no object is sent. -/
theorem everywhere_of_same (hcur : l.curObjs = (x.node r).curObjs)
    (hout : Network.outWeight (entryWeight e) r out = 0) :
    everywhere (update x r l out) e = everywhere x e := by
  have h := everywhere_update (x := x) (r := r) (l := l) (e := e) out
  rw [hcur, hout] at h
  omega

theorem everywhere_of_quiet (h : ∀ n, x.inbox n = []) (e : Entry N Id K) :
    everywhere x e = ∑ m, (x.node m).curObjs.count e := by
  rw [everywhere, Network.total_eq, Network.flight_of_quiet h, Nat.zero_add]

end Everywhere

section

omit [Field K] [LinearOrder K] [DecidableEq Id]

/-- A rank that was at or after the start of the trial was in it. -/
theorem Rank.InTrial.before {k : ℕ} {l l' : Rank N Id K} (h : l'.InTrial cfg k) (hle : k ≤ l.iter)
    (hiter : l.iter ≤ l'.iter) (hcopied : l.phase = .start → k < l.iter)
    (hbusy : l.phase ≠ .finished) :
    l.InTrial cfg k :=
  ⟨hle, fun j hj hjl => h.same j hj (hjl.trans hiter), hcopied, hbusy⟩

theorem forall_inTrial {k : ℕ} {r : Fin N} {l : Rank N Id K}
    (h : ∀ m, (Function.update x.node r l m).InTrial cfg k)
    (hr : l.InTrial cfg k → (x.node r).InTrial cfg k) (m : Fin N) : (x.node m).InTrial cfg k := by
  obtain ⟨hself, hrest⟩ := (forall_update_iff _ fun _ (l : Rank N Id K) => l.InTrial cfg k).mp h
  by_cases hm : m = r
  · exact hm ▸ hr hself
  · exact hrest m hm

theorem Rank.InTrial.le_pos {k : ℕ} {l : Rank N Id K} (h : l.InTrial cfg k) :
    4 * k + 1 ≤ l.pos := by
  have hle := h.le
  have hcopied := h.copied
  rw [pos]
  cases hp : l.phase <;> simp only [hp, idx, forall_const] at hcopied ⊢ <;> omega

end

/-- The last rank takes its copy at the start of a trial. -/
theorem Holds.everywhere_begin (h : Holds cfg inp x) (hx : Ordered cfg x)
    (hmail : Mail x) {r : Fin N}
    (hphase : (x.node r).phase = .start) (hiter : (x.node r).iter < cfg.total)
    (hfirst : cfg.isFirst (x.node r).iter = true)
    (hothers : ∀ m, m ≠ r → (x.node m).InTrial cfg (x.node r).iter) (e : Entry N Id K) :
    everywhere (update x r ((x.node r).begin cfg inp r) []) e = ∑ m, (inp.objs m).count e := by
  have hpos := pos_of_phase hphase
  simp only [idx] at hpos
  rw [everywhere_of_quiet fun n => by rw [inbox_update_nil, hmail.quiet hphase]]
  refine Finset.sum_congr rfl fun m _ => congrArg (List.count e) ?_
  by_cases hm : m = r
  · subst hm
    rw [node_update_self, begin_objs.1, if_pos hfirst]
  · rw [node_update_of_ne hm]
    have hbar := hx.barrier (4 * (x.node r).iter + 1) ⟨_, hiter, .inl rfl⟩ m r
    have hle := (hothers m hm).le_pos
    obtain ⟨hit, hinf⟩ := (hx.valid m).of_pos_inform hiter (by omega)
    exact h.fresh m r hinf (by rw [hit]; exact hfirst) (by omega)

theorem conserved_step (h : Stepped cfg inp x x') (hx : Ordered cfg x) (hmail : Mail x)
    (hold : Holds cfg inp x) {k : ℕ} (hk : cfg.isFirst k = true)
    (hin : ∀ m, (x'.node m).InTrial cfg k) (e : Entry N Id K) :
    everywhere x' e = ∑ r, (inp.objs r).count e := by
  cases h with
  | begin r hphase hiter h =>
    subst h
    obtain ⟨hself, hothers⟩ :=
      (forall_update_iff _ fun _ (l : Rank N Id K) => l.InTrial cfg k).mp hin
    have hle := hself.le
    have hsame := hself.same (x.node r).iter
    rw [begin_at.1] at hle hsame
    by_cases hfirst : cfg.isFirst (x.node r).iter = true
    · obtain rfl : k = (x.node r).iter := by
        by_contra hne
        rw [hsame (by omega) le_rfl] at hfirst
        exact absurd hfirst nofun
      exact hold.everywhere_begin hx hmail hphase hiter hfirst hothers e
    · have hlt : k < (x.node r).iter := by
        refine lt_of_le_of_ne hle ?_
        rintro rfl
        exact hfirst hk
      rw [everywhere_of_same (by rw [begin_objs.1, if_neg hfirst]) rfl]
      exact hold.conserved k hk (forall_inTrial hin fun h => h.before hle begin_at.1.ge
        (fun _ => hlt) (by simp [hphase])) e
  | abort r hphase hrun h =>
    subst h
    rw [everywhere_of_same (by rfl) (by rfl)]
    exact hold.conserved k hk (forall_inTrial hin fun h => { h with }) e
  | transfer r res hphase hrun hall hsplit h =>
    subst h
    have hcount := hsplit.perm.count_eq e
    rw [count_append] at hcount
    have hbefore := hold.conserved k hk (forall_inTrial hin fun h =>
      h.before h.le le_rfl (by simp [hphase]) (by simp [hphase])) e
    refine Nat.add_right_cancel ((everywhere_update _).trans ?_)
    rw [outWeight_lazyMessages, hbefore, ← hcount, Nat.add_assoc]
    exact congrArg _ (Nat.add_comm ..)
  | contribute r hphase hsync hrec h =>
    subst h
    have hout : Network.outWeight (entryWeight e) r (statsMessages x r) = 0 := by
      refine Network.outWeight_eq_zero fun o ho => ?_
      rw [entryWeight, (mem_statsMessages.mp ho).2]
    rw [everywhere_of_same (by rfl) hout]
    exact hold.conserved k hk (forall_inTrial hin fun h =>
      h.before h.le le_rfl (by simp [hphase]) (by simp [hphase])) e
  | next r hphase hsync hrec h =>
    subst h
    rw [everywhere_of_same (by rfl) (by rfl)]
    exact hold.conserved k hk (forall_inTrial hin fun h => h.before
      (Nat.le_of_lt_succ (h.copied rfl)) (Nat.le_succ _) (by simp [hphase]) (by simp [hphase])) e
  | record r hphase hsync h =>
    subst h
    have hself := hin r
    rw [node_update_self] at hself
    have hlt := hself.copied rfl
    have hnot := hself.same _ hlt le_rfl
    have hiter := (hx.valid r).busy (by simp [hphase]) (by simp [hphase])
    rw [record_at.1] at hlt hnot
    rw [← isLast_eq_isFirst hiter] at hnot
    rw [everywhere_of_same (by rw [record_objs.1, if_neg (by simp [hnot])]) rfl]
    exact hold.conserved k hk (forall_inTrial hin fun h => h.before
      (Nat.le_of_lt_succ hlt) (by rw [record_at.1]; exact Nat.le_succ _) (by simp [hphase])
      (by simp [hphase])) e
  | finish r hphase hiter h =>
    subst h
    have hself := hin r
    rw [node_update_self] at hself
    exact absurd rfl hself.busy
  | migrate _ _ _ h | receive _ _ _ h =>
    have htotal := h.total (entryWeight e) fun _ l => l.curObjs.count e
    rw [h.node] at hin
    have hbefore := hold.conserved k hk (forall_inTrial hin fun h => { h with }) e
    simp only [entryWeight, migrate, count_append, Network.outWeight_nil] at htotal
    rw [everywhere] at hbefore ⊢
    omega

section Load

omit [LinearOrder K] [DecidableEq Id]

theorem loadWith_append (r : Fin N) (objs more : List (Entry N Id K)) :
    inp.loadWith r (objs ++ more) = inp.loadWith r objs + (more.map (·.2)).sum := by
  rw [Input.loadWith, Input.loadWith, map_append, sum_append, add_assoc]

theorem Splits.loadWith {objs : List (Entry N Id K)} {load : K}
    {res : TransferResult N Id K} {r : Fin N}
    (h : Splits objs load res) (hload : load = inp.loadWith r objs) :
    res.newLoad = inp.loadWith r res.kept := by
  have hsum : inp.loadWith r (res.kept ++ res.moved.map (·.2)) = inp.loadWith r objs :=
    congrArg (inp.fixed r + ·) (h.perm.map _).sum_eq
  rw [loadWith_append, ← hload, ← h.load] at hsum
  exact (add_right_cancel hsum).symm

end Load

omit [Field K] [LinearOrder K] in
theorem recordings_succ (k : ℕ) :
    cfg.recordings (k + 1) = cfg.recordings k + if cfg.records k then 1 else 0 := by
  rw [recordings, range_succ, countP_append, countP_singleton]
  rfl

section Sound

variable {m : Fin N} {l : Rank N Id K}

omit [DecidableEq Id]

variable (h : l.Sound cfg inp m)
include h

/-- A rank in an iteration goes on in it, with other objects. -/
theorem Rank.Sound.of_busy {l' : Rank N Id K} (hiter : l'.iter = l.iter) (hs : l'.phase ≠ .start)
    (hf : l'.phase ≠ .finished) (hbusy : l.phase ≠ .finished)
    (hbook : l'.recorded = l.recorded ∧ l'.bestImb = l.bestImb ∧ l'.bestObjs = l.bestObjs ∧
      l'.transfers = l.transfers)
    (hload : l'.newLoad = inp.loadWith m l'.curObjs) : l'.Sound cfg inp m := by
  obtain ⟨hrec, himb, hobjs, htrans⟩ := hbook
  refine ⟨fun _ => hload, fun h => absurd h hs, ?_, ?_, ?_⟩
  · rw [hrec, hiter, h.count]
  · rw [hrec, himb, hobjs, h.best]
  · rw [htrans, h.asked, if_neg hbusy, if_neg hf]

theorem Rank.Sound.load_of_phase {p : Phase} (hphase : l.phase = p) (hs : p ≠ .start)
    (hf : p ≠ .finished) : l.newLoad = inp.loadWith m l.curObjs :=
  h.load ⟨hphase ▸ hf, fun hp => absurd (hphase.symm.trans hp) hs⟩

theorem Rank.Sound.begin (hphase : l.phase = .start) : (l.begin cfg inp m).Sound cfg inp m := by
  refine h.of_busy begin_at.1 nofun nofun (by simp [hphase]) begin_book ?_
  rw [begin_objs.2, begin_objs.1]
  split_ifs with hfirst
  · rfl
  · exact h.load ⟨by simp [hphase], fun _ => Bool.eq_false_iff.mpr hfirst⟩

theorem Rank.Sound.next (hphase : l.phase = .transfer) (hiter : l.iter < cfg.total)
    (hrec : cfg.records l.iter = false) :
    { l with phase := .start, iter := l.iter + 1 }.Sound cfg inp m := by
  refine ⟨fun _ => h.load_of_phase hphase nofun nofun, fun _ hfirst => ?_, ?_, h.best, ?_⟩
  · rw [TemperedConfig.records, isLast_eq_isFirst hiter] at hrec
    exact absurd hfirst (by simp [(Bool.or_eq_false_iff.mp hrec).2])
  · rw [recordings_succ, hrec, if_neg Bool.false_ne_true]
    exact h.count
  · have hasked := h.asked
    rwa [if_neg (by simp [hphase])] at hasked

theorem Rank.Sound.record (hphase : l.phase = .stats) (hiter : l.iter < cfg.total)
    (hrec : cfg.records l.iter = true) : (l.record cfg inp m).Sound cfg inp m := by
  refine ⟨fun hh => ?_, fun _ hfirst => ?_, ?_, ?_, ?_⟩
  · have hlast := hh.2 rfl
    rw [record_at.1, ← isLast_eq_isFirst hiter] at hlast
    rw [record_objs.2, record_objs.1, hlast]
    exact h.load_of_phase hphase nofun nofun
  · rw [record_at.1, ← isLast_eq_isFirst hiter] at hfirst
    rw [record_objs.1, if_pos hfirst]
  · rw [record_book.1, length_append, h.count, record_at.1, recordings_succ, if_pos hrec]
    rfl
  · rw [record_best, record_book.1, h.best, best_concat]
  · rw [record_book.2, h.asked, if_neg (by simp [hphase]), if_neg nofun]

theorem Rank.Sound.finish (hphase : l.phase = .start) (hiter : l.iter = cfg.total) :
    (l.finish cfg m).Sound cfg inp m := by
  obtain ⟨hrec, himb, hobjs, htrans⟩ : (l.finish cfg m).recorded = l.recorded ∧ _ := finish_book
  refine ⟨fun hh => absurd rfl hh.1, nofun, ?_, ?_, ?_⟩
  · rw [hrec, finish_at.1, h.count]
  · rw [hrec, himb, hobjs, h.best]
  · have hfirst : cfg.isFirst l.iter = true := by
      rw [hiter, isFirst, total, Nat.mul_mod_left]
      rfl
    have hdone : (l.finish cfg m).phase = .finished := rfl
    rw [htrans, himb, hobjs, if_pos hdone, h.cleared hphase hfirst]

end Sound

theorem sound_step (h : Stepped cfg inp x x') (hx : Ordered cfg x) (hmail : Mail x)
    (hold : Holds cfg inp x) : ∀ m, (x'.node m).Sound cfg inp m := by
  have hlocal : ∀ {r : Fin N} {l : Rank N Id K}, l.Sound cfg inp r → ∀ m,
      (Function.update x.node r l m).Sound cfg inp m := by
    intro r l hl
    exact (forall_update_iff _ fun m (l : Rank N Id K) => l.Sound cfg inp m).mpr
      ⟨hl, fun m _ => hold.sound m⟩
  cases h with
  | begin r hphase hiter h =>
    subst h
    exact hlocal ((hold.sound r).begin hphase)
  | abort r hphase hrun h =>
    subst h
    exact hlocal { hold.sound r with }
  | transfer r res hphase hrun hall hsplit h =>
    subst h
    have hr := hold.sound r
    exact hlocal (hr.of_busy rfl nofun nofun (by simp [hphase]) ⟨rfl, rfl, rfl, rfl⟩
      (hsplit.loadWith (hr.load_of_phase hphase nofun nofun)))
  | contribute r hphase hsync hrec h =>
    subst h
    have hr := hold.sound r
    exact hlocal (hr.of_busy rfl nofun nofun (by simp [hphase]) ⟨rfl, rfl, rfl, rfl⟩
      (hr.load_of_phase hphase nofun nofun))
  | next r hphase hsync hrec h =>
    subst h
    exact hlocal ((hold.sound r).next hphase
      ((hx.valid r).busy (by simp [hphase]) (by simp [hphase])) hrec)
  | record r hphase hsync h =>
    subst h
    exact hlocal ((hold.sound r).record hphase
      ((hx.valid r).busy (by simp [hphase]) (by simp [hphase]))
      ((hx.valid r).stats hphase))
  | finish r hphase hiter h =>
    subst h
    exact hlocal ((hold.sound r).finish hphase hiter)
  | migrate r src objs h =>
    rw [h.node]
    have hr := hold.sound r
    obtain ⟨k, hk⟩ := hmail.migration r src objs h.mem
    refine hlocal ⟨fun hh => ?_, fun hs => ?_, hr.count, hr.best, hr.asked⟩
    · rw [migrate, loadWith_append, hr.load hh]
    · rcases (hk r).2 with hp | hp <;> exact absurd (hp.symm.trans hs) nofun
  | receive r src v h =>
    rw [h.node]
    exact hlocal { hold.sound r with }

theorem fresh_step (h : Stepped cfg inp x x') (hx : Ordered cfg x) (hmail : Mail x)
    (hold : Holds cfg inp x) (m m' : Fin N) (hphase : (x'.node m).phase = .inform)
    (hfirst : cfg.isFirst (x'.node m).iter = true) (hlt : (x'.node m').pos < (x'.node m).pos) :
    (x'.node m).curObjs = inp.objs m := by
  have hle := h.le_pos hx m'
  -- A rank that the step leaves alone was fresh before.
  have hrest : x'.node m = x.node m → (x'.node m).curObjs = inp.objs m := by
    intro hm
    rw [hm] at hphase hfirst hlt ⊢
    exact hold.fresh m m' hphase hfirst (hle.trans_lt hlt)
  cases h with
  | begin r hp hiter h =>
    subst h
    by_cases hm : m = r
    · subst hm
      rw [node_update_self, begin_at.1] at hfirst
      rw [node_update_self, begin_objs.1, if_pos hfirst]
    · exact hrest (node_update_of_ne hm)
  | abort r hp hrun h =>
    subst h
    by_cases hm : m = r
    · subst hm
      rw [node_update_self] at hphase hfirst hlt ⊢
      exact hold.fresh m m' hphase hfirst (hle.trans_lt hlt)
    · exact hrest (node_update_of_ne hm)
  | transfer _ _ _ _ _ _ h | contribute _ _ _ _ h | next _ _ _ _ h | record _ _ _ h
  | finish _ _ _ h =>
    subst h
    exact hrest (node_update_of_phase hphase nofun)
  | migrate r src objs h =>
    -- All ranks are in the epoch, so none is behind.
    obtain ⟨k, hk⟩ := hmail.migration r src objs h.mem
    have hiter : (x'.node m).iter = (x.node m).iter := by
      rw [h.node]
      exact forall_of_update iter (by rfl) m
    have hpos := pos_of_phase hphase
    have hpos' : 4 * k + 1 ≤ (x.node m').pos := by
      rw [pos, (hk m').1]
      rcases (hk m').2 with hp | hp <;> simp [hp, idx]
    rw [hiter, (hk m).1] at hpos
    simp only [idx] at hpos
    omega
  | receive r src v h =>
    by_cases hm : m = r
    · subst hm
      rw [h.node_self] at hphase hfirst hlt ⊢
      exact hold.fresh m m' hphase hfirst (hle.trans_lt hlt)
    · exact hrest (h.node_of_ne hm)

theorem holds_step (h : Stepped cfg inp x x') (hx : Ordered cfg x) (hmail : Mail x)
    (hold : Holds cfg inp x) : Holds cfg inp x' :=
  ⟨fun _ hk hin e => conserved_step h hx hmail hold hk hin e, fresh_step h hx hmail hold,
    sound_step h hx hmail hold⟩

end VtRuntime.Balance.Tempered
