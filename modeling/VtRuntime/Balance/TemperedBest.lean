import VtRuntime.Balance.TemperedRun

/-!
# The tempered load balancer asks for the best assignment

When a rank records its part of an assignment, the others are about to record theirs, or have done
so.  So the parts that are recorded under one number make up an assignment of all objects, and the
imbalance that all ranks record with it is the imbalance of this assignment.  Since all ranks
compare the same numbers, they remember the same assignment as the best one.
-/

namespace VtRuntime.Balance.Tempered

open Lib List Rank Network Nat
open Option hiding mem_map map_map

variable {N : ℕ} {Id K : Type} [Field K] [LinearOrder K] [DecidableEq Id]
  {cfg : TemperedConfig K} {inp : Input N Id K} {x x' : Ranks N Id K}

/-- The parts of all ranks are all objects, with their loads. -/
def Conserves (inp : Input N Id K) (objs : Fin N → List (Entry N Id K)) : Prop :=
  ((finRange N).flatMap objs).Perm ((finRange N).flatMap inp.objs)

omit [Field K] in
theorem conserves_iff {objs : Fin N → List (Entry N Id K)} :
    Conserves inp objs ↔ ∀ e, ∑ m, (objs m).count e = ∑ m, (inp.objs m).count e := by
  rw [Conserves, perm_iff_count]
  refine forall_congr' fun e => ?_
  rw [count_flatMap, count_flatMap, Fin.sum_univ_def, Fin.sum_univ_def]
  rfl

/-! ## Recording -/

section Recordings

variable {j k h : ℕ}

omit [Field K] [LinearOrder K]

theorem recordings_mono (hjk : j ≤ k) : cfg.recordings j ≤ cfg.recordings k := by
  induction hjk with
  | refl => exact le_rfl
  | step _ ih =>
    rw [recordings_succ]
    exact ih.trans (Nat.le_add_right ..)

theorem recordings_lt (hjk : j < k) (hrec : cfg.records j = true) :
    cfg.recordings j < cfg.recordings k := by
  refine lt_of_lt_of_le ?_ (recordings_mono (succ_le_of_lt hjk))
  rw [recordings_succ, if_pos hrec]
  exact lt_succ_self _

theorem recordings_lt_iff (hrec : cfg.records j = true) :
    cfg.recordings j < cfg.recordings k ↔ j < k :=
  ⟨fun h => lt_of_not_ge fun hkj => absurd h (recordings_mono hkj).not_gt,
    fun h => recordings_lt h hrec⟩

/-- Each number below the number of recordings is the number of an iteration. -/
theorem exists_recordings_eq (hh : h < cfg.recordings k) :
    ∃ j < k, cfg.records j = true ∧ cfg.recordings j = h := by
  induction k with
  | zero => exact absurd hh (not_lt_zero _)
  | succ k ih =>
    by_cases hlt : h < cfg.recordings k
    · obtain ⟨j, hj, hrec⟩ := ih hlt
      exact ⟨j, lt_succ_of_lt hj, hrec⟩
    · rw [recordings_succ] at hh
      split_ifs at hh with hrec
      · exact ⟨k, lt_succ_self k, hrec, by omega⟩
      · omega

theorem isFirst_zero (cfg : TemperedConfig K) : cfg.isFirst 0 = true := decide_eq_true (zero_mod _)

theorem exists_isFirst (cfg : TemperedConfig K) (k : ℕ) :
    ∃ j ≤ k, cfg.isFirst j = true ∧ ∀ i, j < i → i ≤ k → cfg.isFirst i = false := by
  induction k with
  | zero => exact ⟨0, le_rfl, isFirst_zero cfg, fun i hi hi' => absurd hi' hi.not_ge⟩
  | succ k ih =>
    by_cases hk : cfg.isFirst (k + 1) = true
    · exact ⟨k + 1, le_rfl, hk, fun i hi hi' => absurd hi' hi.not_ge⟩
    · obtain ⟨j, hj, hfirst, hrest⟩ := ih
      refine ⟨j, le_succ_of_le hj, hfirst, fun i hi hi' => ?_⟩
      rcases lt_or_eq_of_le hi' with hlt | rfl
      · exact hrest i hi (le_of_lt_succ hlt)
      · exact Bool.eq_false_iff.mpr hk

end Recordings

/-- The part of a rank in the assignment with this number.  Before the rank records it, it is its
copy. -/
def view (x : Ranks N Id K) (h : ℕ) (m : Fin N) : List (Entry N Id K) :=
  ((x.node m).recorded[h]?.map (·.2)).getD (x.node m).curObjs

/-- All ranks have come to the end of an iteration at which the imbalance is computed. -/
def Reached (x : Ranks N Id K) (k : ℕ) : Prop := ∀ m, 4 * k + 3 ≤ (x.node m).pos

/-- The imbalance of the assignment with a number. -/
def viewImbalance (inp : Input N Id K) (x : Ranks N Id K) (h : ℕ) : K :=
  imbalance fun m => inp.loadWith m (view x h m)

structure Remembers (cfg : TemperedConfig K) (inp : Input N Id K) (x : Ranks N Id K) : Prop where
  entries : ∀ m k e, k < cfg.total → cfg.records k = true →
    (x.node m).recorded[cfg.recordings k]? = some e →
    e.1 = viewImbalance inp x (cfg.recordings k) ∧ Conserves inp (view x (cfg.recordings k))
  reduced : ∀ m, (x.node m).phase = .stats → Reached x (x.node m).iter →
    (x.node m).newImbalance = viewImbalance inp x (cfg.recordings (x.node m).iter) ∨
      ∃ src v, (src, .loadStats v) ∈ x.inbox m

section View

variable {k : ℕ} {m : Fin N}

omit [DecidableEq Id]

omit [Field K] [LinearOrder K] in
theorem stats_or_lt (h : 4 * k + 3 ≤ (x.node m).pos) :
    (x.node m).iter = k ∧ (x.node m).phase = .stats ∨ k < (x.node m).iter := by
  have hlt := pos_lt_iter (x.node m)
  by_cases hk : k < (x.node m).iter
  · exact .inr hk
  · exact .inl (of_pos (.inr rfl) (by simp only [Phase.idx]; omega))

theorem recorded_isSome_iff (h : (x.node m).Sound cfg inp m) (hrec : cfg.records k = true) :
    (∃ e, (x.node m).recorded[cfg.recordings k]? = some e) ↔ k < (x.node m).iter := by
  rw [← recordings_lt_iff hrec, ← h.count]
  constructor
  · rintro ⟨e, he⟩
    exact (List.getElem?_eq_some_iff.mp he).1
  · intro hlt
    exact ⟨_, getElem?_eq_getElem hlt⟩

omit [Field K] [LinearOrder K] in
theorem Ordered.reached (hx : Ordered cfg x) (hrec : cfg.records k = true)
    (hlt : k < (x.node m).iter) :
    Reached x k := by
  intro m'
  have hpos := le_pos_iter (x.node m)
  have hk := hlt.trans_le (hx.valid m).iter_le
  exact hx.barrier _ ⟨k, hk, .inr (.inr ⟨rfl, hrec⟩)⟩ m m' (by omega)

/-- Before it records, the part of a rank is its copy. -/
theorem view_of_iter (h : (x.node m).Sound cfg inp m) (hiter : (x.node m).iter = k) :
    view x (cfg.recordings k) m = (x.node m).curObjs := by
  rw [view, getElem?_eq_none (by rw [h.count, hiter])]
  rfl

end View

/-- What a step does to what a rank has and has recorded. -/
inductive Memory (x : Ranks N Id K) (m : Fin N) (l : Rank N Id K) : Prop
  | same (hrec : l.recorded = (x.node m).recorded) (hcur : l.curObjs = (x.node m).curObjs)
  | other (hrec : l.recorded = (x.node m).recorded) (hphase : (x.node m).phase ≠ .stats)
  | record (hphase : (x.node m).phase = .stats) (hsync : Synced x (4 * (x.node m).iter + 3) false)
      (hrec : l.recorded = (x.node m).recorded ++ [((x.node m).newImbalance, (x.node m).curObjs)])

theorem Stepped.memory (h : Stepped cfg inp x x') (hmail : Mail x) (m : Fin N) :
    Memory x m (x'.node m) := by
  have hlocal : ∀ {r : Fin N} {l : Rank N Id K}, Memory x r l →
      ∀ m, Memory x m (Function.update x.node r l m) := by
    intro r l hl
    exact (Function.forall_update_iff _ fun m (l : Rank N Id K) => Memory x m l).mpr
      ⟨hl, fun m _ => .same rfl rfl⟩
  revert m
  cases h with
  | begin r hphase hiter h =>
    subst h
    exact hlocal (.other begin_book.1 (by simp [hphase]))
  | abort _ _ _ h | contribute _ _ _ _ h | next _ _ _ _ h =>
    subst h
    exact hlocal (.same rfl rfl)
  | transfer r res hphase hrun hall hsplit h =>
    subst h
    exact hlocal (.other rfl (by simp [hphase]))
  | record r hphase hsync h =>
    subst h
    exact hlocal (.record hphase hsync record_book.1)
  | finish r hphase hiter h =>
    subst h
    exact hlocal (.other finish_book.1 (by simp [hphase]))
  | migrate r src objs h =>
    rw [h.node]
    exact hlocal (.other rfl fun hp => hmail.not_migration hp nofun nofun r src objs h.mem)
  | receive r src v h =>
    rw [h.node]
    exact hlocal (.same rfl rfl)

variable {k : ℕ} {r n m : Fin N} {l : Rank N Id K} {out : List (Fin N × Msg N Id K)}
    {a : Act N Id K}

theorem view_step (h : Stepped cfg inp x x') (hmail : Mail x) (hold : Holds cfg inp x)
    (hrec : cfg.records k = true) (hk : Reached x k) :
    view x' (cfg.recordings k) = view x (cfg.recordings k) := by
  funext m
  have hm := hold.sound m
  -- What a rank has recorded stays.
  have hlt : k < (x.node m).iter → ∀ more, (x'.node m).recorded = (x.node m).recorded ++ more →
      view x' (cfg.recordings k) m = view x (cfg.recordings k) m := by
    intro hlt more hmore
    obtain ⟨e, he⟩ := (recorded_isSome_iff hm hrec).mpr hlt
    rw [view, view, hmore, getElem?_append_left (List.getElem?_eq_some_iff.mp he).1, he]
    rfl
  cases h.memory hmail m with
  | same hr hcur => rw [view, view, hr, hcur]
  | other hr hphase =>
    exact hlt ((stats_or_lt (hk m)).resolve_left fun h => hphase h.2) [] (by rw [hr, append_nil])
  | record hphase hsync hr =>
    rcases stats_or_lt (hk m) with ⟨hiter, -⟩ | hiter
    · rw [view_of_iter hm hiter, view, hr, ← hiter, ← hm.count, getElem?_concat_length]
      rfl
    · exact hlt hiter _ hr

/-- When no object is on its way, the copies of all ranks in a trial are an assignment. -/
theorem Holds.conserves (hold : Holds cfg inp x)
    (hall : ∀ m, (x.node m).iter = k ∧ (x.node m).phase ≠ .start ∧ (x.node m).phase ≠ .finished)
    (hquiet : ∀ n, ∀ d ∈ x.inbox n, d.2.isLazy = false) :
    Conserves inp fun m => (x.node m).curObjs := by
  rw [conserves_iff]
  intro e
  obtain ⟨j, hj, hfirst, hsame⟩ := exists_isFirst cfg k
  have hflight : x.flight (entryWeight e) = 0 := by
    refine flight_eq_zero ?_
    rintro n ⟨src, objs | v⟩ hd
    · exact absurd (hquiet n _ hd) nofun
    · rfl
  rw [← hold.conserved j hfirst ?_ e, everywhere, total_eq, hflight, zero_add]
  intro m
  obtain ⟨hiter, hs, hf⟩ := hall m
  exact ⟨hiter ▸ hj, fun i hi hi' => hsame i hi (hiter ▸ hi'), fun h => absurd h hs, hf⟩

theorem conserves_view (hmail : Mail x) (hold : Holds cfg inp x) (hrem : Remembers cfg inp x)
    (htotal : k < cfg.total) (hrec : cfg.records k = true) (hk : Reached x k)
    (hphase : (x.node r).phase = .stats) : Conserves inp (view x (cfg.recordings k)) := by
  by_cases hall : ∃ m, k < (x.node m).iter
  · obtain ⟨m, hm⟩ := hall
    obtain ⟨e, he⟩ := (recorded_isSome_iff (hold.sound m) hrec).mpr hm
    exact (hrem.entries m k e htotal hrec he).2
  · have hstats : ∀ m, (x.node m).iter = k ∧ (x.node m).phase = .stats :=
      fun m => (stats_or_lt (hk m)).resolve_right fun h => hall ⟨m, h⟩
    have hview : view x (cfg.recordings k) = fun m => (x.node m).curObjs :=
      funext fun m => view_of_iter (hold.sound m) (hstats m).1
    rw [hview]
    refine hold.conserves
      (fun m => ⟨(hstats m).1, by simp [(hstats m).2], by simp [(hstats m).2]⟩) ?_
    rintro n ⟨src, objs | v⟩ hd
    · exact absurd hd (hmail.not_migration hphase nofun nofun n src objs)
    · rfl

theorem entries_step (h : Stepped cfg inp x x') (hx : Ordered cfg x) (hmail : Mail x)
    (hold : Holds cfg inp x) (hrem : Remembers cfg inp x) (m : Fin N) (k : ℕ)
    (e : K × List (Entry N Id K)) (htotal : k < cfg.total) (hrec : cfg.records k = true)
    (he : (x'.node m).recorded[cfg.recordings k]? = some e) :
    e.1 = viewImbalance inp x' (cfg.recordings k) ∧ Conserves inp (view x' (cfg.recordings k)) := by
  have hold' : (x.node m).recorded[cfg.recordings k]? = some e →
      e.1 = viewImbalance inp x' (cfg.recordings k) ∧
        Conserves inp (view x' (cfg.recordings k)) := by
    intro he
    have hk := hx.reached hrec ((recorded_isSome_iff (hold.sound m) hrec).mp ⟨e, he⟩)
    rw [viewImbalance, view_step h hmail hold hrec hk]
    exact hrem.entries m k e htotal hrec he
  cases h.memory hmail m with
  | same hr hcur => exact hold' (hr ▸ he)
  | other hr hphase => exact hold' (hr ▸ he)
  | record hphase hsync hr =>
    rw [hr] at he
    by_cases hlt : cfg.recordings k < (x.node m).recorded.length
    · exact hold' (getElem?_append_left hlt ▸ he)
    · rw [getElem?_append_right (not_lt.mp hlt), getElem?_singleton] at he
      obtain ⟨hzero, he⟩ := ite_none_right_eq_some.mp he
      obtain rfl := some.inj he
      rw [(hold.sound m).count] at hlt hzero
      have hiter := (hx.valid m).stats hphase
      obtain rfl : k = (x.node m).iter := by
        have h1 : ¬k < (x.node m).iter := fun h => hlt (recordings_lt h hrec)
        have h2 : ¬(x.node m).iter < k := fun h => by
          have := recordings_lt h hiter
          omega
        omega
      have hk : Reached x (x.node m).iter := fun m' => (hsync m').1
      rw [viewImbalance, view_step h hmail hold hrec hk]
      refine ⟨(hrem.reduced m hphase hk).resolve_right ?_,
        conserves_view hmail hold hrem htotal hrec hk hphase⟩
      rintro ⟨src, v, hmem⟩
      exact (hsync m).2 _ hmem rfl

/-- When the result of the reduction is on its way, it is the imbalance of the assignment that the
ranks are about to record. -/
theorem Holds.stats_eq (hold : Holds cfg inp x) (hmail : Mail x) {src : Fin N} {v : K}
    (hmem : (src, .loadStats v) ∈ x.inbox n) :
    v = viewImbalance inp x (cfg.recordings (x.node m).iter) := by
  obtain ⟨⟨k, hk⟩, rfl⟩ := hmail.stats n src v hmem
  refine congrArg imbalance (funext fun m' => ?_)
  have hm' := hold.sound m'
  rw [(hk m).1, view_of_iter hm' (hk m').1, hm'.load_of_phase (hk m').2 nofun nofun]

/-- What a step does for a rank that is in the reduction afterwards, if all ranks have come to
it. -/
inductive Reducing (x x' : Ranks N Id K) (m : Fin N) : Prop
  | sent (src : Fin N) (v : K) (h : (src, .loadStats v) ∈ x'.inbox m)
  | received (src : Fin N) (v : K) (hmem : (src, .loadStats v) ∈ x.inbox m)
      (h : x'.node m = { x.node m with newImbalance := v })
  | same (h : x'.node m = x.node m) (hk : Reached x (x.node m).iter)
      (hkept : ∀ src v, (src, .loadStats v) ∈ x.inbox m → (src, .loadStats v) ∈ x'.inbox m)

omit [Field K] [LinearOrder K] [DecidableEq Id] in
/-- A rank that does not enter the reduction and does not come to this point takes a step. -/
theorem Reducing.of_update (hstats : ((update x r l out).node m).phase = .stats)
    (hk : Reached (update x r l out) ((update x r l out).node m).iter) (hl : l.phase ≠ .stats)
    (hpos : 4 * (x.node m).iter + 3 < l.pos → 4 * (x.node m).iter + 3 ≤ (x.node r).pos) :
    Reducing x (update x r l out) m := by
  have hm := node_update_of_phase hstats hl
  refine .same hm (fun m' => ?_) fun src v hmem => mem_inbox_update.mpr (.inl hmem)
  rw [hm] at hk
  have hm' := hk m'
  by_cases hmr : m' = r
  · subst hmr
    rw [node_update_self] at hm'
    exact hpos (lt_of_le_of_ne hm' fun h => hl (of_pos (.inr rfl) h.symm).2)
  · rwa [node_update_of_ne hmr] at hm'

omit [DecidableEq Id] in
/-- The last rank that enters the reduction sends the result. -/
theorem Reducing.of_contribute (hphase : (x.node r).phase = .transfer)
    (hsync : Synced x (4 * (x.node r).iter + 2) true)
    (hstats :
      ((update x r { x.node r with phase := .stats } (statsMessages x r)).node m).phase = .stats)
    (hk : Reached (update x r { x.node r with phase := .stats } (statsMessages x r))
      ((update x r { x.node r with phase := .stats } (statsMessages x r)).node m).iter) :
    Reducing x (update x r { x.node r with phase := .stats } (statsMessages x r)) m := by
  have hiter : ((update x r { x.node r with phase := .stats } (statsMessages x r)).node m).iter =
      (x.node r).iter := by
    by_cases hm : m = r
    · subst hm
      rw [node_update_self]
    · have hr := hk r
      rw [node_update_of_ne hm] at hstats hr ⊢
      have hpos := pos_of_phase hstats
      have hle := (hsync m).1
      rw [node_update_self] at hr
      simp only [pos, Phase.idx] at hr hpos hle
      omega
  rw [hiter] at hk
  refine .sent r _ (mem_inbox_update.mpr (.inr ⟨rfl, mem_statsMessages.mpr
    ⟨fun m' hm' => ?_, rfl⟩⟩))
  have := hk m'
  rwa [node_update_of_ne hm'] at this

theorem Stepped.reducing (h : Stepped cfg inp x x') (hx : Ordered cfg x) (hmail : Mail x)
    (hstats : (x'.node m).phase = .stats) (hk : Reached x' (x'.node m).iter) : Reducing x x' m := by
  cases h with
  | begin r hphase hiter h =>
    subst h
    exact .of_update hstats hk (by simp [Rank.begin]) fun hlt => le_of_lt_succ
      (hlt.trans_eq (begin_pos hphase))
  | abort r hphase hrun h =>
    subst h
    exact .of_update hstats hk (by simp [hphase]) le_of_lt
  | transfer r res hphase hrun hall hsplit h =>
    subst h
    exact .of_update hstats hk (by simp) fun hlt => le_of_lt_succ
      (hlt.trans_eq (by rw [pos_of_phase hphase]; rfl))
  | contribute r hphase hsync hrec h =>
    subst h
    exact .of_contribute hphase hsync hstats hk
  | next r hphase hsync hrec h =>
    subst h
    have hm := node_update_of_phase hstats (by simp)
    refine .of_update hstats hk (by simp) fun hle => ?_
    -- The imbalance is computed in the iteration of `m` and not in that of `r`.
    have hne : (x.node m).iter ≠ (x.node r).iter := by
      rw [hm] at hstats
      intro heq
      have hstored := (hx.valid m).stats hstats
      rw [heq, hrec] at hstored
      exact Bool.false_ne_true hstored
    have hpos := pos_of_phase hphase
    simp only [pos, Phase.idx] at hle hpos ⊢
    omega
  | record r hphase hsync h =>
    subst h
    exact .of_update hstats hk (by simp [Rank.record]) fun hlt => le_of_lt_succ
      (hlt.trans_eq (record_pos hphase))
  | finish r hphase hiter h =>
    subst h
    exact .of_update hstats hk (by simp [Rank.finish]) fun hlt => le_of_lt_succ
      (hlt.trans_eq (finish_pos hphase))
  | migrate r src objs h =>
    obtain ⟨k, hin⟩ := hmail.migration r src objs h.mem
    have hphase : (x'.node m).phase = (x.node m).phase := by
      rw [h.node]
      exact forall_of_update phase (by rfl) m
    rw [hphase] at hstats
    rcases (hin m).2 with hp | hp <;> simp [hp] at hstats
  | receive r src v h =>
    by_cases hm : m = r
    · subst hm
      exact .received src v h.mem h.node_self
    · have hiter : (x'.node m).iter = (x.node m).iter := by rw [h.node_of_ne hm]
      refine .same (h.node_of_ne hm) (fun m' => ?_) fun src v hmem => ?_
      · have hm' := hk m'
        rw [hiter] at hm'
        refine hm'.trans_eq ?_
        rw [h.node]
        exact forall_of_update pos (by rfl) m'
      · exact (h.kept m _ hmem).resolve_right fun hr => hm hr.1

theorem reduced_step (h : Stepped cfg inp x x') (hx : Ordered cfg x) (hmail : Mail x)
    (hold : Holds cfg inp x) (hrem : Remembers cfg inp x) (m : Fin N)
    (hstats : (x'.node m).phase = .stats) (hk : Reached x' (x'.node m).iter) :
    (x'.node m).newImbalance = viewImbalance inp x' (cfg.recordings (x'.node m).iter) ∨
      ∃ src v, (src, .loadStats v) ∈ x'.inbox m := by
  cases h.reducing hx hmail hstats hk with
  | sent src v hmem => exact .inr ⟨src, v, hmem⟩
  | received src v hmem hm =>
    obtain ⟨⟨k, hall⟩, -⟩ := hmail.stats m src v hmem
    have hx' : Reached x (x.node m).iter := by
      intro m'
      rw [pos_of_phase (hall m').2, (hall m').1, (hall m).1]
      rfl
    left
    rw [hm, viewImbalance, view_step h hmail hold ((hx.valid m).stats (hall m).2) hx']
    exact hold.stats_eq hmail hmem
  | same hm hx' hkept =>
    rw [hm] at hstats ⊢
    rw [viewImbalance, view_step h hmail hold ((hx.valid m).stats hstats) hx']
    exact (hrem.reduced m hstats hx').imp_right fun ⟨src, v, hmem⟩ => ⟨src, v, hkept src v hmem⟩

/-! ## Runs -/

structure Balancing (cfg : TemperedConfig K) (inp : Input N Id K) (x : Ranks N Id K) : Prop where
  ordered : Ordered cfg x
  mail : Mail x
  holds : Holds cfg inp x
  remembers : Remembers cfg inp x

theorem balancing_initial : Balancing cfg inp (initial cfg inp) where
  ordered :=
    { valid := fun _ => ⟨zero_le _, nofun, nofun, nofun, nofun⟩
      barrier := fun b _ _ _ h => absurd h (not_lt_zero b) }
  mail := .of_quiet fun _ => rfl
  holds :=
    { conserved := by
        intro k _ hin e
        rcases isEmpty_or_nonempty (Fin N) with hN | ⟨⟨m⟩⟩
        · simp [everywhere, total]
        · exact absurd ((hin m).copied rfl) (not_lt_zero k)
      fresh := nofun
      sound := fun _ => ⟨fun hh => absurd (hh.2 rfl) (by simp [initial, isFirst_zero]),
        fun _ _ => rfl, rfl, rfl, rfl⟩ }
  remembers := ⟨nofun, nofun⟩

theorem balancing_step (hs : step cfg inp x a = some x') (h : Balancing cfg inp x) :
    Balancing cfg inp x' := by
  have hst := stepped hs
  obtain ⟨hx, hmail, hold, hrem⟩ := h
  exact ⟨ordered_step hst hx, mail_step hst hx hmail, holds_step hst hx hmail hold,
    ⟨entries_step hst hx hmail hold hrem, reduced_step hst hx hmail hold hrem⟩⟩

/-! ## Ends of runs -/

/-- No two objects have the same id. -/
def Input.Distinct (inp : Input N Id K) : Prop :=
  (((finRange N).flatMap inp.objs).map (·.1.id)).Nodup

/-- In the transfers of this step every CMF is a list of numbers. -/
def CMFsDefined (cfg : TemperedConfig K) (x : Ranks N Id K) : Act N Id K → Prop
  | .transfer r ordered info u =>
      let under := (cfg.makeUnderloaded info).map (·.1)
      (x.node r).overloaded = true → under ≠ [] →
        ∀ loads ∈ cmfCalls cfg u under ordered (x.node r).newLoad info, cfg.CMFDefined loads
  | _ => True

omit [DecidableEq Id] in
theorem exists_originalTransfer {ordered : List (Entry N Id K)} {info : LoadInfo N K}
    {u : ObjID (Fin N) Id → K} (h : CMFsDefined cfg x (.transfer r ordered info u))
    (hu : ∀ obj ∈ ordered, u obj.1 < 1) :
    ∃ res, originalTransfer cfg u (x.node r).overloaded ordered (x.node r).newLoad info =
      some res := by
  rw [originalTransfer]
  split_ifs with hover
  · exact exists_transferLoop ordered hu _ _ (h hover.1 hover.2)
  · exact ⟨_, rfl⟩

omit [LinearOrder K] in
theorem handle_aborted {l' : Rank N Id K} {d : Fin N × Msg N Id K}
    (h : handle n l d = some (l', out)) : l'.aborted = l.aborted := by
  rw [handle] at h
  split at h
  · obtain ⟨-, h⟩ := ite_none_right_eq_some.mp h
    obtain ⟨rfl, -⟩ := Prod.mk.inj (some.inj h)
    rfl
  · obtain ⟨rfl, -⟩ := Prod.mk.inj (some.inj h)
    rfl

theorem running_step (hok : CMFsDefined cfg x a) (hs : step cfg inp x a = some x')
    (h : ∀ m, (x.node m).aborted = false) (m : Fin N) : (x'.node m).aborted = false := by
  have hlocal : ∀ {r : Fin N} {l : Rank N Id K}, l.aborted = (x.node r).aborted → ∀ m,
      (Function.update x.node r l m).aborted = false := by
    intro r l hl m
    rw [forall_of_update aborted hl m, h m]
  revert m
  cases a with
  | begin r =>
    obtain ⟨-, rfl⟩ := of_guard hs
    exact hlocal begin_at.2
  | transfer r ordered info u =>
    obtain ⟨⟨-, -, -, -, hu⟩, hs⟩ := ite_none_right_eq_some.mp hs
    obtain ⟨res, hres⟩ := exists_originalTransfer hok fun obj hobj => (hu obj hobj).2
    rw [hres] at hs
    obtain rfl := some.inj hs
    exact hlocal (by rfl)
  | endTransfer r =>
    obtain ⟨-, hs⟩ := ite_none_right_eq_some.mp hs
    split_ifs at hs <;>
    · obtain rfl := some.inj hs
      exact hlocal (by rfl)
  | record r =>
    obtain ⟨-, rfl⟩ := of_guard hs
    exact hlocal record_at.2
  | finish r =>
    obtain ⟨-, rfl⟩ := of_guard hs
    exact hlocal finish_at.2
  | deliver r i =>
    obtain ⟨d, l, out, -, hd⟩ := delivers hs
    rw [hd.node]
    exact hlocal (handle_aborted hd.handled)

/-- What a rank has still to do. -/
def Rank.rest (cfg : TemperedConfig K) (l : Rank N Id K) : ℕ :=
  4 * cfg.total + 2 - l.pos + if l.aborted then 0 else 1

/-- The steps that are left. -/
def effort (cfg : TemperedConfig K) (x : Ranks N Id K) : ℕ :=
  x.total (fun _ _ => 1) fun _ l => (N + 1) * l.rest cfg

section Effort

variable {r : Fin N} {l : Rank N Id K} {out : List (Fin N × Msg N Id K)}

omit [Field K] [LinearOrder K] [DecidableEq Id]

theorem Rank.Valid.pos_le (h : l.Valid cfg) : l.pos ≤ 4 * cfg.total + 1 := by
  have hle := h.iter_le
  have hbusy := h.busy
  rw [pos]
  cases hp : l.phase <;>
    simp only [hp, Phase.idx, ne_eq, reduceCtorEq, not_false_eq_true, forall_const,
      not_true_eq_false, false_imp_iff] at hbusy ⊢ <;> omega

theorem rest_lt_of_pos (h : l.Valid cfg) (hab : l.aborted = (x.node r).aborted)
    (hlt : (x.node r).pos < l.pos) : l.rest cfg < (x.node r).rest cfg := by
  have hle := h.pos_le
  rw [rest, rest, hab]
  omega

theorem effort_update (hout : out.length ≤ N) (hlt : l.rest cfg < (x.node r).rest cfg) :
    effort cfg (update x r l out) < effort cfg x := by
  have htotal := total_update (x := x) (r := r) (l := l) out (fun _ _ => 1)
    fun _ l => (N + 1) * l.rest cfg
  have hlen : outWeight (fun _ _ => 1) r out = out.length := by
    rw [outWeight, map_const', sum_replicate, smul_eq_mul, mul_one]
  have hmul := mul_le_mul_left (N + 1) (succ_le_of_lt hlt)
  rw [hlen] at htotal
  rw [mul_succ] at hmul
  rw [effort, effort]
  omega

end Effort

theorem effort_step (h : Stepped cfg inp x x') (hx : Ordered cfg x) :
    effort cfg x' < effort cfg x := by
  have hvalid := (ordered_step h hx).valid
  -- A rank goes on, and sends at most one message to each rank.
  have hmove : ∀ {r : Fin N} {l : Rank N Id K} {out : List (Fin N × Msg N Id K)},
      x' = update x r l out → out.length ≤ N → l.aborted = (x.node r).aborted →
      (x.node r).pos < l.pos → effort cfg x' < effort cfg x := by
    rintro r l out rfl hout hab hlt
    have hv := hvalid r
    rw [node_update_self] at hv
    exact effort_update hout (rest_lt_of_pos hv hab hlt)
  have hdeliver : ∀ {r : Fin N} {d : Fin N × Msg N Id K} {l : Rank N Id K},
      Network.Delivers handle x x' r d l [] → l.rest cfg = (x.node r).rest cfg →
      effort cfg x' < effort cfg x := by
    intro r d l hd hrest
    have htotal := hd.total (fun _ _ => 1) fun _ l => (N + 1) * l.rest cfg
    rw [hrest, outWeight_nil] at htotal
    rw [effort, effort]
    omega
  cases h with
  | begin r hphase hiter h =>
    exact hmove h (zero_le _) begin_at.2 (begin_pos hphase).ge
  | abort r hphase hrun h =>
    subst h
    refine effort_update (zero_le _) ?_
    rw [rest, rest, hrun]
    exact lt_succ_self _
  | transfer r res hphase hrun hall hsplit h =>
    refine hmove h ?_ rfl ?_
    · rw [lazyMessages, length_map]
      exact length_groupBy _ _
    · rw [pos_of_phase hphase]
      exact lt_succ_self _
  | contribute r hphase hsync hrec h =>
    refine hmove h ?_ rfl ?_
    · rw [statsMessages]
      split_ifs
      · rw [length_map, length_finRange]
      · exact zero_le _
    · rw [pos_of_phase hphase]
      exact lt_succ_self _
  | next r hphase hsync hrec h =>
    refine hmove h (zero_le _) rfl ?_
    rw [pos_of_phase hphase]
    simp only [pos, Phase.idx]
    omega
  | record r hphase hsync h =>
    exact hmove h (zero_le _) record_at.2 (record_pos hphase).ge
  | finish r hphase hiter h =>
    exact hmove h (zero_le _) finish_at.2 (finish_pos hphase).ge
  | migrate r src objs h => exact hdeliver h rfl
  | receive r src v h => exact hdeliver h rfl

section Stopped

variable (hdist : inp.Distinct) (h : Balancing cfg inp x)

omit [Field K] in
include hdist in
theorem Input.Distinct.count_le (e : Entry N Id K) : ∑ m, (inp.objs m).count e ≤ 1 := by
  have hcount := nodup_iff_count_le_one.mp (Nodup.of_map _ hdist) e
  rwa [count_flatMap, ← Fin.sum_univ_def] at hcount

include hdist h in
/-- An object that comes in is not there already. -/
theorem Balancing.accepts {n src : Fin N} {objs : List (Entry N Id K)}
    (hmem : (src, .lazyMigration objs) ∈ x.inbox n) :
    ∀ obj ∈ objs, obj.1.id ∉ (x.node n).curObjs.map (·.1.id) := by
  intro obj hobj hid
  obtain ⟨other, hother, hid⟩ := mem_map.mp hid
  obtain ⟨k, hk⟩ := h.mail.migration n src objs hmem
  obtain ⟨j, hj, hfirst, hsame⟩ := exists_isFirst cfg k
  have hcons : ∀ e, everywhere x e = ∑ m, (inp.objs m).count e := by
    refine h.holds.conserved j hfirst fun m => ?_
    obtain ⟨hiter, hphase⟩ := hk m
    refine ⟨hiter ▸ hj, fun i hi hi' => hsame i hi (hiter ▸ hi'), ?_, ?_⟩
    · rcases hphase with hp | hp <;> simp [hp]
    · rcases hphase with hp | hp <;> simp [hp]
  -- Both are objects of the input, so they are the same one, and it is there twice.
  have hplace : ∀ e, objs.count e + (x.node n).curObjs.count e ≤ everywhere x e := by
    intro e
    exact (le_place_of_mem (w := entryWeight e) (f := fun _ l => l.curObjs.count e) hmem).trans
      (place_le_total n)
  have hinput : ∀ e, 0 < everywhere x e → e ∈ (finRange N).flatMap inp.objs := by
    intro e he
    rw [hcons e, Fin.sum_univ_def] at he
    rw [← count_pos_iff, count_flatMap]
    exact he
  have hobjcount := count_pos_iff.mpr hobj
  have hothercount := count_pos_iff.mpr hother
  have heq : other = obj := by
    have h1 := hplace obj
    have h2 := hplace other
    exact inj_on_of_nodup_map hdist (hinput other (by omega)) (hinput obj (by omega)) hid
  subst heq
  have h1 := hplace other
  have h2 := hdist.count_le other
  rw [← hcons other] at h2
  omega

include hdist h in
theorem Balancing.quiet_of_stopped (hstop : ∀ a, step cfg inp x a = none) (n : Fin N) :
    x.inbox n = [] := by
  refine eq_nil_iff_forall_not_mem.mpr ?_
  intro d hmem
  obtain ⟨i, y, hy⟩ : ∃ i y, deliver handle x (n, i) = some y := by
    obtain ⟨src, objs | v⟩ := d
    · exact exists_deliver hmem (if_pos (h.accepts hdist hmem))
    · exact exists_deliver hmem rfl
  exact absurd ((hstop (.deliver n i)).symm.trans hy) nofun

/-- A rank that no other rank is behind can take a step, unless it has finished. -/
theorem exists_step_of_min [IsStrictOrderedRing K] {r : Fin N} (hx : Ordered cfg x)
    (hrun : (x.node r).aborted = false) (hfin : (x.node r).phase ≠ .finished)
    (hsync : ∀ isLazy, Synced x (x.node r).pos isLazy) : ∃ a y, step cfg inp x a = some y := by
  cases hp : (x.node r).phase with
  | start =>
    rcases lt_or_eq_of_le (hx.valid r).iter_le with hiter | hiter
    · exact ⟨.begin r, _, if_pos ⟨hp, hiter⟩⟩
    · exact ⟨.finish r, _, if_pos ⟨hp, hiter⟩⟩
  | inform =>
    rw [pos_of_phase hp] at hsync
    refine ⟨.transfer r (x.node r).curObjs [] fun _ => 0, ?_⟩
    rw [step, if_pos ⟨hp, hrun, fun m => (hsync true m).1, .refl _,
      fun _ _ => ⟨le_rfl, zero_lt_one⟩⟩]
    split <;> exact ⟨_, rfl⟩
  | transfer =>
    rw [pos_of_phase hp] at hsync
    refine ⟨.endTransfer r, ?_⟩
    rw [step, if_pos ⟨hp, hsync true⟩]
    split <;> exact ⟨_, rfl⟩
  | stats =>
    rw [pos_of_phase hp] at hsync
    exact ⟨.record r, _, if_pos ⟨hp, hsync false⟩⟩
  | finished => exact absurd hp hfin

include hdist h in
/-- When nothing can be done and no rank has failed, all ranks have finished. -/
theorem Balancing.finished_of_stopped [IsStrictOrderedRing K]
    (hrun : ∀ m, (x.node m).aborted = false)
    (hstop : ∀ a, step cfg inp x a = none) (m : Fin N) : (x.node m).phase = .finished := by
  have hquiet := h.quiet_of_stopped hdist hstop
  obtain ⟨r, -, hmin⟩ :=
    Finset.exists_min_image Finset.univ (fun r => (x.node r).pos) ⟨m, Finset.mem_univ m⟩
  have hsync : ∀ isLazy, Synced x (x.node r).pos isLazy := by
    intro isLazy m'
    refine ⟨hmin m' (Finset.mem_univ m'), fun d hd => ?_⟩
    rw [hquiet m'] at hd
    exact absurd hd nofun
  have hr : (x.node r).phase = .finished := by
    by_contra hfin
    obtain ⟨a, y, hy⟩ : ∃ a y, step cfg inp x a = some y :=
      exists_step_of_min h.ordered (hrun r) hfin hsync
    exact absurd ((hstop a).symm.trans hy) nofun
  have hpos := hmin m (Finset.mem_univ m)
  rw [pos_of_phase hr, (h.ordered.valid r).done hr] at hpos
  have hm := h.ordered.valid m
  have hiter := hm.iter_le
  have hbusy := hm.busy
  cases hp : (x.node m).phase <;> simp only [pos, hp, Phase.idx, ne_eq, reduceCtorEq,
    not_false_eq_true, forall_const, not_true_eq_false, false_imp_iff] at hpos hbusy ⊢ <;> omega

end Stopped

/-! ## The best assignment -/

section Best

variable {β γ : Type}

omit [DecidableEq Id]

theorem lt_firstBest [IsStrictOrderedRing K] (cfg : TemperedConfig K) :
    cfg.startImb < cfg.firstBest :=
  lt_add_of_pos_right _ (by norm_num)

/-- Only the imbalances are compared. -/
theorem best_map (none : β) (f : β → γ) (l : List (K × β)) :
    cfg.best (f none) (l.map fun e => (e.1, f e.2)) =
      ((cfg.best none l).1, f (cfg.best none l).2) := by
  induction l using reverseRecOn with
  | nil => rfl
  | append_singleton l a ih =>
    rw [map_append, map_singleton, best_concat, best_concat, ih, TemperedConfig.better,
      TemperedConfig.better]
    split_ifs <;> rfl

/-- The best assignment is a smallest one of those that are not worse than the first one. -/
theorem best_spec [IsStrictOrderedRing K] (cfg : TemperedConfig K) (none : β) (l : List (K × β)) :
    (cfg.best none l ∈ l ∧ (cfg.best none l).1 ≤ cfg.startImb ∧
      ∀ e ∈ l, (cfg.best none l).1 ≤ e.1) ∨
      (∀ e ∈ l, cfg.startImb < e.1) ∧ cfg.best none l = (cfg.firstBest, none) := by
  induction l using reverseRecOn with
  | nil => exact .inr ⟨nofun, rfl⟩
  | append_singleton l a ih =>
    rw [best_concat, TemperedConfig.better]
    simp only [forall_mem_append, forall_mem_singleton]
    rcases ih with ⟨hmem, hle, hmin⟩ | ⟨hall, heq⟩
    · left
      split_ifs with ha
      · exact ⟨by simp, ha.2, fun e he => ha.1.le.trans (hmin e he), le_rfl⟩
      · refine ⟨mem_append_left _ hmem, hle, hmin, ?_⟩
        exact not_lt.mp fun hlt => ha ⟨hlt, hlt.le.trans hle⟩
    · rw [heq]
      split_ifs with ha
      · exact .inl ⟨by simp, ha.2, fun e he => ha.2.trans (hall e he).le, le_rfl⟩
      · refine .inr ⟨⟨hall, ?_⟩, rfl⟩
        exact not_le.mp fun hle => ha ⟨hle.trans_lt (lt_firstBest cfg), hle⟩

end Best

/-! ## Requests -/

/-- What all ranks ask for. -/
def requests (x : Ranks N Id K) : List (Transfer (Fin N) Id) :=
  (finRange N).flatMap fun m => (x.node m).transfers

/-- Where an object is after the migrations that are asked for. -/
def destination (x : Ranks N Id K) (o : ObjID (Fin N) Id) : Fin N :=
  (((requests x).find? (·.obj.id = o.id)).map (·.newNode)).getD o.currNode

/-- The requests move each object at most once, and lead to an assignment. -/
structure Leads (x : Ranks N Id K) (objs : Fin N → List (Entry N Id K)) : Prop where
  once : ((requests x).map (·.obj.id)).Nodup
  only : ∀ t ∈ requests x, ∃ e ∈ objs t.newNode, e.1 = t.obj
  leads : ∀ m, ∀ e ∈ objs m, destination x e.1 = m

section Requests

variable {objs : Fin N → List (Entry N Id K)}
  (hreq : ∀ m, (x.node m).transfers = thunkMigrations m (objs m))
  (honce : ((finRange N).flatMap fun m => (objs m).map (·.1.id)).Nodup)

omit [Field K] [LinearOrder K]

omit [DecidableEq Id] in
theorem thunkMigrations_eq (m : Fin N) (l : List (Entry N Id K)) : thunkMigrations m l =
    (l.map fun e => (⟨e.1, m⟩ : Transfer (Fin N) Id)).filter fun t =>
      t.obj.currNode ≠ t.newNode := by
  rw [thunkMigrations, Reassign.foldl_migrateObjectTo, nil_append]

omit [DecidableEq Id] in
include hreq in
theorem mem_requests {t : Transfer (Fin N) Id} :
    t ∈ requests x ↔ t.obj.currNode ≠ t.newNode ∧ ∃ e ∈ objs t.newNode, e.1 = t.obj := by
  simp only [requests, hreq, thunkMigrations_eq, mem_flatMap, mem_finRange, true_and,
    mem_filter, mem_map, decide_eq_true_eq]
  constructor
  · rintro ⟨m, ⟨e, he, rfl⟩, hne⟩
    exact ⟨hne, e, he, rfl⟩
  · rintro ⟨hne, e, he, heq⟩
    exact ⟨t.newNode, ⟨e, he, by rw [heq]⟩, hne⟩

include hreq honce in
theorem leads_of_transfers : Leads x objs where
  once := by
    refine Nodup.sublist ?_ honce
    rw [requests, map_flatMap]
    refine Sublist.flatMap_right _ fun m _ => ?_
    rw [hreq, thunkMigrations_eq]
    refine (filter_sublist.map _).trans ?_
    rw [map_map]
    exact Sublist.refl _
  only := fun t ht => ((mem_requests hreq).mp ht).2
  leads := by
    intro m e he
    -- A request for this object is one of rank `m`.
    have huniq : ∀ t ∈ requests x, t.obj.id = e.1.id → t.newNode = m := by
      intro t ht hid
      obtain ⟨-, e', he', heq⟩ := (mem_requests hreq).mp ht
      refine eq_of_mem_flatMap honce (mem_finRange _) (mem_finRange _) ?_
        (mem_map_of_mem he)
      rw [← hid, ← heq]
      exact mem_map_of_mem he'
    rw [destination]
    cases hfind : (requests x).find? (·.obj.id = e.1.id) with
    | some t => exact huniq t (mem_of_find?_eq_some hfind) (by simpa using find?_some hfind)
    | none =>
      by_contra hne
      have hmem : (⟨e.1, m⟩ : Transfer (Fin N) Id) ∈ requests x :=
        (mem_requests hreq).mpr ⟨hne, e, he, rfl⟩
      exact absurd (decide_eq_true rfl) (find?_eq_none.mp hfind _ hmem)

end Requests

/-- The end of a run in which the assignments `hist` have been recorded, with their imbalances. -/
structure Final (cfg : TemperedConfig K) (inp : Input N Id K) (x : Ranks N Id K)
    (hist : List (K × (Fin N → List (Entry N Id K)))) : Prop where
  finished : ∀ m, (x.node m).phase = .finished
  length : hist.length = cfg.recordings cfg.total
  recorded : ∀ m, (x.node m).recorded = hist.map fun a => (a.1, a.2 m)
  sound : ∀ a ∈ hist, a.1 = imbalance (fun m => inp.loadWith m (a.2 m)) ∧ Conserves inp a.2
  best : (∃ a ∈ hist, a.1 ≤ cfg.startImb ∧ (∀ b ∈ hist, a.1 ≤ b.1) ∧ Leads x a.2) ∨
    (∀ a ∈ hist, cfg.startImb < a.1) ∧ requests x = []

section Final

variable (h : Balancing cfg inp x) (hfin : ∀ m, (x.node m).phase = .finished)

include h hfin in
theorem Balancing.recorded_eq (m : Fin N) : (x.node m).recorded =
    (range (cfg.recordings cfg.total)).map fun i => (viewImbalance inp x i, view x i m) := by
  have hm := h.holds.sound m
  have hlen : (x.node m).recorded.length = cfg.recordings cfg.total := by
    rw [hm.count, (h.ordered.valid m).done (hfin m)]
  refine ext_getElem? fun i => ?_
  rw [getElem?_map]
  by_cases hi : i < cfg.recordings cfg.total
  · obtain ⟨k, hk, hrec, rfl⟩ := exists_recordings_eq hi
    obtain ⟨e, he⟩ : ∃ e, (x.node m).recorded[cfg.recordings k]? = some e :=
      ⟨_, getElem?_eq_getElem (hlen ▸ hi)⟩
    have hview : view x (cfg.recordings k) m = e.2 := by
      rw [view, he]
      rfl
    rw [he, getElem?_range hi, map_some, ← (h.remembers.entries m k e hk hrec he).1, hview]
  · rw [getElem?_eq_none (by omega), getElem?_eq_none (by simp; omega)]
    rfl

include h hfin in
theorem Balancing.conserves_recorded {i : ℕ} (hi : i < cfg.recordings cfg.total) :
    Conserves inp (view x i) := by
  rcases isEmpty_or_nonempty (Fin N) with hN | ⟨⟨m⟩⟩
  · rw [conserves_iff]
    intro e
    rw [Finset.univ_eq_empty, Finset.sum_empty, Finset.sum_empty]
  · obtain ⟨k, hk, hrec, rfl⟩ := exists_recordings_eq hi
    have hlt : k < (x.node m).iter := hk.trans_eq ((h.ordered.valid m).done (hfin m)).symm
    obtain ⟨e, he⟩ := (recorded_isSome_iff (h.holds.sound m) hrec).mpr hlt
    exact (h.remembers.entries m k e hk hrec he).2

include h hfin in
/-- Each rank asks for its part of the assignment that is the best one of the history. -/
theorem Balancing.transfers_eq {hist : List (K × (Fin N → List (Entry N Id K)))}
    (hrec : ∀ m, (x.node m).recorded = hist.map fun a => (a.1, a.2 m)) (m : Fin N) :
    (x.node m).transfers = thunkMigrations m
      (if (cfg.best (fun _ => []) hist).1 ≤ cfg.startImb then (cfg.best (fun _ => []) hist).2 m
        else []) := by
  have hm := h.holds.sound m
  have hbest := hm.best
  rw [hrec m, best_map (fun _ => []) fun a => a m] at hbest
  obtain ⟨himb, hobjs⟩ := Prod.mk.inj hbest
  rw [hm.asked, if_pos (hfin m), himb, hobjs]

omit [Field K] [LinearOrder K] [DecidableEq Id] in
theorem Input.Distinct.nodup_ids (hdist : inp.Distinct) {objs : Fin N → List (Entry N Id K)}
    (hcons : Conserves inp objs) :
    ((finRange N).flatMap fun m => (objs m).map (·.1.id)).Nodup := by
  rw [← map_flatMap]
  exact (hcons.map _).nodup_iff.mpr hdist

include h hfin in
theorem Balancing.final [IsStrictOrderedRing K] (hdist : inp.Distinct) :
    ∃ hist, Final cfg inp x hist := by
  obtain ⟨hist, hhist⟩ : ∃ hist, hist =
      (range (cfg.recordings cfg.total)).map fun i => (viewImbalance inp x i, view x i) := ⟨_, rfl⟩
  have hrec : ∀ m, (x.node m).recorded = hist.map fun a => (a.1, a.2 m) := by
    intro m
    rw [h.recorded_eq hfin m, hhist, map_map]
    rfl
  have hsound : ∀ a ∈ hist, a.1 = imbalance (fun m => inp.loadWith m (a.2 m)) ∧
      Conserves inp a.2 := by
    intro a ha
    rw [hhist, mem_map] at ha
    obtain ⟨i, hi, rfl⟩ := ha
    exact ⟨rfl, h.conserves_recorded hfin (mem_range.mp hi)⟩
  refine ⟨hist, hfin, by simp [hhist], hrec, hsound, ?_⟩
  have htransfers := h.transfers_eq hfin hrec
  rcases best_spec cfg (fun _ => []) hist with ⟨hmem, hle, hmin⟩ | ⟨hall, heq⟩
  · refine .inl ⟨_, hmem, hle, hmin, leads_of_transfers (fun m => ?_)
      (hdist.nodup_ids (hsound _ hmem).2)⟩
    rw [htransfers m, if_pos hle]
  · refine .inr ⟨hall, flatMap_eq_nil_iff.mpr fun m _ => ?_⟩
    rw [htransfers m, heq, if_neg (lt_firstBest cfg).not_ge]
    rfl

end Final

/-- All ranks are in the epoch of the migrations of an iteration or just after it, and no object is
on its way. -/
def TransferDone (x : Ranks N Id K) (k : ℕ) : Prop :=
  (∀ m, (x.node m).iter = k ∧ ((x.node m).phase = .transfer ∨ (x.node m).phase = .stats)) ∧
    ∀ m, ∀ d ∈ x.inbox m, d.2.isLazy = false

theorem balancing_reach {ok : Ranks N Id K → Act N Id K → Prop}
    (h : Reach (· = initial cfg inp) (step cfg inp) ok x) : Balancing cfg inp x :=
  h.invariant (fun _ hx => hx ▸ balancing_initial) fun _ _ _ hb _ hs => balancing_step hs hb

/-- If no rank fails, objects and loads are conserved by the transfers, and in the end the ranks
ask for the best assignment. -/
theorem tempered_conserves [IsStrictOrderedRing K] (cfg : TemperedConfig K) (inp : Input N Id K)
    (hdist : inp.Distinct) :
    (∀ x, Reach (· = initial cfg inp) (step cfg inp) (CMFsDefined cfg) x →
      (∀ k, TransferDone x k → Conserves inp (fun m => (x.node m).curObjs) ∧
        ∀ m, (x.node m).newLoad = inp.loadWith m (x.node m).curObjs) ∧
      (∀ m, (x.node m).aborted = false) ∧
      ((∀ a, step cfg inp x a = none) → ∃ hist, Final cfg inp x hist)) ∧
    Ends (step cfg inp) (fun _ => True) (initial cfg inp) := by
  constructor
  · intro x hr
    have hb := balancing_reach hr
    have hrun : ∀ m, (x.node m).aborted = false :=
      hr.invariant (fun _ hx m => hx ▸ rfl)
        fun _ _ _ h hok hs => running_step hok hs h
    refine ⟨fun k hdone => ⟨?_, fun m => ?_⟩, hrun, fun hstop => ?_⟩
    · refine hb.holds.conserves (k := k) (fun m => ⟨(hdone.1 m).1, ?_⟩) hdone.2
      rcases (hdone.1 m).2 with hp | hp <;> simp [hp]
    · rcases (hdone.1 m).2 with hp | hp <;> exact (hb.holds.sound m).load_of_phase hp nofun nofun
    · exact hb.final (hb.finished_of_stopped hdist hrun hstop) hdist
  · refine Ends.of_measure (Q := Balancing cfg inp) (effort cfg) ?_ (fun _ _ _ => trivial)
      balancing_initial
    intro x a x' hb hs
    exact ⟨balancing_step hs hb, effort_step (stepped hs) hb.ordered⟩

/-! ## Four ranks -/

instance (cfg : TemperedConfig K) (loads : List K) : Decidable (cfg.CMFDefined loads) :=
  inferInstanceAs (Decidable (_ ∨ _ ≠ _ ∧ _ ≠ _))

instance (cfg : TemperedConfig K) (x : Ranks N Id K) (a : Act N Id K) :
    Decidable (CMFsDefined cfg x a) :=
  match a with
  | .transfer .. => inferInstanceAs (Decidable (_ → _ → ∀ loads ∈ _, _))
  | .begin _ | .endTransfer _ | .record _ | .finish _ | .deliver .. => .isTrue trivial

/-- Each rank has finished, has failed or waits for another one, and no message is in flight. -/
def stuck (x : Ranks N Id K) : Bool :=
  decide (∀ r, (x.inbox r).isEmpty = true ∧ ((x.node r).phase = .finished ∨
    (x.node r).phase = .inform ∧ (x.node r).aborted = true ∨
    (x.node r).phase = .transfer ∧ ∃ m, (x.node m).pos < 4 * (x.node r).iter + 2))

theorem step_eq_none_of_stuck (h : stuck x = true) (a : Act N Id K) : step cfg inp x a = none := by
  have hr := of_decide_eq_true h
  cases a with
  | begin r | record r | finish r =>
    refine if_neg fun hg => ?_
    rcases (hr r).2 with hp | ⟨hp, -⟩ | ⟨hp, -⟩ <;> exact absurd (hp.symm.trans hg.1) nofun
  | transfer r ordered info u =>
    refine if_neg fun hg => ?_
    rcases (hr r).2 with hp | ⟨-, hab⟩ | ⟨hp, -⟩
    · exact absurd (hp.symm.trans hg.1) nofun
    · exact absurd (hab.symm.trans hg.2.1) nofun
    · exact absurd (hp.symm.trans hg.1) nofun
  | endTransfer r =>
    refine if_neg fun hg => ?_
    rcases (hr r).2 with hp | ⟨hp, -⟩ | ⟨-, m, hm⟩
    · exact absurd (hp.symm.trans hg.1) nofun
    · exact absurd (hp.symm.trans hg.1) nofun
    · exact absurd (hg.2 m).1 hm.not_ge
  | deliver r i =>
    have hempty := isEmpty_iff.mp (hr r).1
    rw [step, deliver, hempty]
    rfl

/-- One rank has four objects, the others have none. -/
private def fourInput : Input 4 ℕ ℚ where
  objs r := if r.val = 0 then [1, 2, 3, 4].map fun i => (⟨i, r⟩, 10) else []
  fixed _ := 0

private def fourConfig (numTrials : ℕ) : TemperedConfig ℚ :=
  ⟨numTrials, 1, false, .modifiedGrapevine, .normByMax, 10, 1, 3⟩

private def fourDraws (o : ObjID (Fin 4) ℕ) : ℚ := [0, 0, 1 / 2, 9 / 10, 9 / 10].getD o.id 0

/-- All ranks start, rank `r` sends objects to those that it knows of, and the others keep
theirs. -/
private def fourTransfer (r : Fin 4) (known : List (Fin 4)) : List (Act 4 ℕ ℚ) :=
  (finRange 4).map .begin ++ .transfer r (fourInput.objs r) (known.map fun m => (m, 0)) fourDraws ::
    ((finRange 4).filter (· ≠ r)).map fun m => .transfer m [] [] fun _ => 0

/-- Each of the other ranks is sent an object, and the assignment is recorded. -/
private def fourTrial (r : Fin 4) : List (Act 4 ℕ ℚ) :=
  let others := (finRange 4).filter (· ≠ r)
  fourTransfer r others ++ others.map (.deliver · 0) ++ (finRange 4).map .endTransfer ++
    (finRange 4).map (.deliver · 0) ++ (finRange 4).map .record

theorem tempered_conserves_four : ∃ x,
    Reach (· = initial (fourConfig 1) fourInput) (step (fourConfig 1) fourInput)
      (CMFsDefined (fourConfig 1)) x ∧
    ∃ hist, Final (fourConfig 1) fourInput x hist ∧ (requests x).length = 3 := by
  obtain ⟨x, hx, hstuck, hlen⟩ := @Reach.of_guarded_run _ _ (· = initial (fourConfig 1) fourInput)
    (CMFsDefined (fourConfig 1)) _ (step (fourConfig 1) fourInput)
    (fourTrial 0 ++ (finRange 4).map .finish) (fun x => stuck x ∧ (requests x).length = 3)
    _ _ rfl (by decide +kernel)
  have hdist : fourInput.Distinct := show Nodup _ by decide +kernel
  obtain ⟨-, -, hfinal⟩ := (tempered_conserves (fourConfig 1) fourInput hdist).1 x hx
  obtain ⟨hist, hfinal⟩ := hfinal (step_eq_none_of_stuck hstuck)
  exact ⟨x, hx, hist, hfinal, hlen⟩

/-- In a second trial rank 0 knows two other ranks only.  When they have the load of the target the
sum of the CMF is zero, so no node is selected and the assertion fails.  The balanced assignment of
the first trial is not asked for. -/
theorem tempered_selects_no_node : ∃ x,
    Reach (· = initial (fourConfig 2) fourInput) (step (fourConfig 2) fourInput) anyStep x ∧
    (∀ a, step (fourConfig 2) fourInput x a = none) ∧ (x.node 0).aborted = true ∧
    (∃ e ∈ (x.node 0).recorded, e.1 = 0) ∧ requests x = [] := by
  obtain ⟨x, hx, hstuck, hab, hbest, hnone⟩ :=
    @Reach.of_run _ _ (· = initial (fourConfig 2) fourInput)
    (step (fourConfig 2) fourInput) (fourTrial 0 ++ fourTransfer 0 [1, 2])
    (fun x => stuck x ∧ (x.node 0).aborted = true ∧ (∃ e ∈ (x.node 0).recorded, e.1 = 0) ∧
      (requests x).isEmpty) _ _ rfl (by decide +kernel)
  exact ⟨x, hx, step_eq_none_of_stuck hstuck, hab, hbest, isEmpty_iff.mp hnone⟩

end VtRuntime.Balance.Tempered
