import VtRuntime.Messaging.ChainSet
import VtRuntime.Collection.Change

/-!
# Chain sets track every element once

With the layout `Local` the listener is told of everything that happens to an element, except that a
unit of `destroyElm` removes it.  With the layout `Home` there are races besides: a message to add a
chain may be in flight when the element comes home, where the listener adds one as well, or when the
element is destroyed, and the message to remove the chain may then come first.

Without these the chains of an index are in one of three phases: they are as expected, or a message
is in flight to add the chain, or to remove it.  While some nodes have constructed the chain set and
others have not, the elements that count are those on the nodes that have.
-/

namespace VtRuntime.ChainSet

open Lib Collection IndexState List IndexChains Option Function

variable {I E : Type} {P : ℕ}

/-- Some nodes have constructed the chain set, and others have not. -/
def CollectionChainSet.Constructing (s : CollectionChainSet I (Fin P) E) : Prop :=
  (∃ n, s.built n = true) ∧ ∃ n, s.built n = false

instance (s : CollectionChainSet I (Fin P) E) : Decidable s.Constructing :=
  inferInstanceAs (Decidable (_ ∧ _))

/-- Once a node has constructed the chain set no element is removed by a unit of `destroyElm`.
With the layout `Home` no element is on its way when a node constructs it, nothing happens to the
elements between the first constructor and the last, and an element neither comes home nor is
destroyed with its collection while its `addIndexHan` message is in flight. -/
def ChainsKept (layout : ChainSetLayout) (home : I → Fin P) (s : CollectionChainSet I (Fin P) E) :
    ChainAct I (Fin P) E → Prop
  | .element i (.runUnit n _) => (layout = .home → ¬ s.Constructing) ∧
      ((∃ m, s.built m = true) → (s.index i).elem.existsAt n = false)
  | .element i (.deliver n (.migrate _)) => layout = .home →
      ¬ s.Constructing ∧ (n = home i → IdxMsg.addIndex ∉ (s.index i).msgs)
  | .element _ _ => layout = .home → ¬ s.Constructing
  | .construct _ => layout = .home → ∀ i, (s.index i).elem.msgs.countP Msg.isMigrate = 0
  | .destroyMatching n => layout = .home → ¬ s.Constructing ∧
      ∀ i, (s.index i).elem.existsAt n = true → IdxMsg.addIndex ∉ (s.index i).msgs
  | .deliver .. => True

instance [Fintype I] (layout : ChainSetLayout) (home : I → Fin P)
    (s : CollectionChainSet I (Fin P) E) (a : ChainAct I (Fin P) E) :
    Decidable (ChainsKept layout home s a) :=
  match a with
  | .element _ (.runUnit ..) => inferInstanceAs (Decidable (_ ∧ (_ → _ = false)))
  | .element _ (.deliver _ (.migrate _)) => inferInstanceAs (Decidable (_ → _ ∧ (_ → _ ∉ _)))
  | .construct _ => inferInstanceAs (Decidable (_ → ∀ _, _ = 0))
  | .destroyMatching _ => inferInstanceAs (Decidable (_ → _ ∧ ∀ _, _ → _ ∉ _))
  | .deliver .. => inferInstanceAs (Decidable True)
  | .element _ (.insert ..) | .element _ (.destroyElm ..) | .element _ (.migrateOut ..)
  | .element _ .handleEagerUpdate | .element _ (.deliver _ (.insert _))
  | .element _ (.deliver _ (.pingHome _)) | .element _ (.deliver _ (.destroyElm _))
  | .element _ (.deliver _ .updateLocation) => inferInstanceAs (Decidable (_ → ¬ _))

theorem ChainsKept.not_constructing {layout : ChainSetLayout} {home : I → Fin P}
    {s : CollectionChainSet I (Fin P) E} {i : I} {a : Act (Fin P) E}
    (h : ChainsKept layout home s (.element i a)) (hl : layout = .home) : ¬ s.Constructing := by
  cases a with
  | runUnit n u => exact h.1 hl
  | deliver n m =>
    cases m with
    | migrate dest => exact (h hl).1
    | insert _ | pingHome _ | destroyElm _ | updateLocation => exact h hl
  | insert n node token | destroyElm n token | migrateOut n dest | handleEagerUpdate => exact h hl

namespace IndexChains

variable {N : Type} [DecidableEq N] (x : IndexChains N E) (layout : ChainSetLayout) (home n : N)

@[simp]
theorem elem_listener (event : ElementEvent) : (x.listener layout home n event).elem = x.elem := by
  cases event <;> rw [listener] <;> split_ifs <;> rfl

@[simp]
theorem elem_listenAll (events : List (ElementEvent × N)) :
    (x.listenAll layout home events).elem = x.elem := by
  induction events generalizing x with
  | nil => rfl
  | cons e events ih =>
    rw [listenAll, foldl_cons]
    exact (ih _).trans (elem_listener x layout home e.2 e.1)

theorem listenAll_some (e : ElementEvent × N) :
    x.listenAll layout home (some e).toList = x.listener layout home e.2 e.1 := rfl

/-- An element is on a node that has constructed the chain set, or all nodes have and it is on its
way. -/
def known (built : Fin P → Bool) (x : IndexChains (Fin P) E) : Bool :=
  decide ((∃ n, built n = true ∧ x.elem.existsAt n = true) ∨
    (∀ n, built n = true) ∧ 0 < x.elem.live)

theorem known_of_built {built : Fin P → Bool} {x : IndexChains (Fin P) E}
    (hb : ∀ n, built n = true) : x.known built = decide (0 < x.elem.live) := by
  refine decide_eq_decide.mpr ⟨?_, fun h => .inr ⟨hb, h⟩⟩
  rintro (⟨n, -, hn⟩ | ⟨-, h⟩)
  · have := residents_pos hn
    rw [live]
    omega
  · exact h

theorem known_of_not_built {built : Fin P → Bool} {x : IndexChains (Fin P) E} (n : Fin P)
    (hb : ∀ n, built n = false) : x.known built = false := by
  simp only [known, hb]
  simpa using fun h => (h n).elim

/-- The phases of the chain of an index on its home. -/
inductive HomePhase (x : IndexChains (Fin P) E) (home : Fin P) (known : Bool) : Prop
  | settled : x.msgs = [] → x.chains home = known → HomePhase x home known
  | adding : x.msgs = [.addIndex] → x.chains home = false → known = true → HomePhase x home known
  /-- The home keeps its location record, so no element is made meanwhile. -/
  | removing : x.msgs = [.removeIndex] → x.chains home = true → x.elem.claims = 0 →
      known = false → x.elem.homeRec = true → HomePhase x home known

/-- An index that has an element has a chain on the home, or is about to be added there. -/
theorem HomePhase.of_known {x : IndexChains (Fin P) E} {home : Fin P} (h : x.HomePhase home true) :
    x.msgs = [] ∧ x.chains home = true ∨ x.msgs = [.addIndex] ∧ x.chains home = false := by
  cases h with
  | settled hm hc => exact .inl ⟨hm, hc⟩
  | adding hm hc => exact .inr ⟨hm, hc⟩
  | removing _ _ _ hk => cases hk

/-- The chains of an index, with each layout. -/
def Kept (x : IndexChains (Fin P) E) (home : Fin P) (built : Fin P → Bool) : ChainSetLayout → Prop
  | .onNode => x.msgs = [] ∧ x.chains = fun n => built n && x.elem.existsAt n
  | .home => (∀ n, n ≠ home → x.chains n = false) ∧ x.HomePhase home (x.known built)

end IndexChains

/-- What holds of an index. -/
structure ChainInv (layout : ChainSetLayout) (home : Fin P) (built : Fin P → Bool)
    (x : IndexChains (Fin P) E) : Prop where
  held : Held x.elem 0
  failed : x.failed = false
  before : (∀ n, built n = false) → x.msgs = []
  kept : x.Kept home built layout

namespace ChainInv

variable {layout : ChainSetLayout} {home n : Fin P} {built : Fin P → Bool}
  {x : IndexChains (Fin P) E} {t : IndexState (Fin P) E}

/-! ## Steps of the element -/

variable {e : Option (ElementEvent × Fin P)}

/-- The chains with the layout `Local` after the element of a node has changed. -/
theorem built_and_update (f : Fin P → Bool) (b : Bool) :
    (fun m => built m && update f n b m) =
      if built n then update (fun m => built m && f m) n b else fun m => built m && f m := by
  funext m
  by_cases hm : m = n
  · subst hm
    cases hb : built m <;> simp [hb]
  · cases hb : built n <;> simp [hm]

/-- The listener after an event, with the layout `Local`. -/
theorem listener_onNode (hf : x.failed = false) (hk : x.Kept home built .onNode)
    (hc : Change home x.elem t e) {y : IndexChains (Fin P) E}
    (hy : y = { x with elem := t }.listenAll .onNode home (e.toList.filter fun e => built e.2)) :
    y.failed = false ∧ y.Kept home built .onNode := by
  subst hy
  obtain ⟨hm, hch⟩ := hk
  cases hc with
  | quiet hx hl hk => exact ⟨hf, hm, hx ▸ hch⟩
  | created n hn hx hl ht hnew | migratedIn n hn hx hl ht =>
    cases hb : built n <;>
      simp [listenAll, listener, isHere, addIndex, hf, Kept, hm, hx, hch, hn, hb, built_and_update]
  | migratedOut n hn hx hl ht | destroyed n hn hx hl ht hk =>
    cases hb : built n <;>
      simp [listenAll, listener, removeIndex, hf, Kept, hm, hx, hch, hn, hb, built_and_update]

/-- The listener after an event, with the layout `Home`, when all nodes have one. -/
theorem listener_home (hf : x.failed = false) (haway : ∀ n, n ≠ home → x.chains n = false)
    (hphase : x.HomePhase home (decide (0 < x.elem.live))) (hc : Change home x.elem t e)
    (hadd : ∀ n, e = some (.migratedIn, home) ∨ e = some (.destroyed, n) →
      IdxMsg.addIndex ∉ x.msgs) {y : IndexChains (Fin P) E}
    (hy : y = { x with elem := t }.listenAll .home home e.toList) :
    y.failed = false ∧ (∀ n, n ≠ home → y.chains n = false) ∧
      y.HomePhase home (decide (0 < t.live)) := by
  subst hy
  -- an element that is there or on its way has a chain, or a message that adds it is in flight
  have hlive (hl : x.elem.live = 1) := HomePhase.of_known (show x.HomePhase home true by
    simpa [hl] using hphase)
  cases hc with
  | quiet hx hl hk =>
    refine ⟨hf, haway, ?_⟩
    rw [hl]
    cases hphase with
    | settled hm hc => exact .settled hm hc
    | adding hm hc h1 => exact .adding hm hc h1
    | removing hm hc h0 hl h1 => exact .removing hm hc (hk h0 h1).1 hl (hk h0 h1).2
  | created n hn hx hl ht hnew =>
    -- there was no element, so there is no chain and no message
    obtain ⟨hm, hch⟩ : x.msgs = [] ∧ x.chains home = false := by
      cases hphase with
      | settled hm hc => exact ⟨hm, by rw [hc, hl]; rfl⟩
      | adding hm hc h1 => simp [hl] at h1
      | removing hm hc h0 _ h1 => simp [hnew h0] at h1
    by_cases hh : home = n
    · subst hh
      simp only [listenAll_some, listener, isHere, addIndex, hch, hf]
      refine ⟨by simp, fun m hmn => ?_, .settled (by simp [hm]) (by simp [ht])⟩
      simpa [update_of_ne hmn] using haway m hmn
    · simp only [listenAll_some, listener, isHere, assert, IndexChains.send, hf]
      simp only [reduceCtorEq, decide_false, Bool.false_or, hh, Bool.and_false, Bool.false_eq_true,
        if_false, hm]
      exact ⟨by simp, haway, .adding rfl hch (by simp [ht])⟩
  | migratedIn n hn hx hl ht =>
    by_cases hh : home = n
    · subst hh
      have hadd := hadd home (.inl rfl)
      obtain ⟨hm, hch⟩ := (hlive hl).resolve_right fun h => hadd (by simp [h.1])
      simp only [listenAll_some, listener, isHere, assert, hch, hf]
      exact ⟨by simp, haway, .settled (by simp [hm]) (by simp [hch, ht])⟩
    · simp only [listenAll_some, listener, isHere]
      simp only [reduceCtorEq, decide_false, Bool.false_or, hh, Bool.and_false, Bool.false_eq_true,
        if_false]
      refine ⟨hf, haway, ?_⟩
      rcases hlive hl with ⟨hm, hc⟩ | ⟨hm, hc⟩
      · exact .settled hm (hc.trans (by simp [ht]))
      · exact .adding hm hc (by simp [ht])
  | migratedOut n hn hx hl ht =>
    refine ⟨hf, haway, ?_⟩
    rcases hlive hl with ⟨hm, hc⟩ | ⟨hm, hc⟩
    · exact .settled hm (hc.trans (by simp [ht]))
    · exact .adding hm hc (by simp [ht])
  | destroyed n hn hx hl ht hk =>
    have hadd := hadd n (.inr rfl)
    -- there is an element, and its chain is on the home
    obtain ⟨hm, hch⟩ := (hlive hl).resolve_right fun h => hadd (by simp [h.1])
    have hl' : t.live = 0 := by
      rw [claims_eq] at ht
      omega
    by_cases hh : n = home
    · subst hh
      simp only [listenAll_some, listener, removeIndex, hch, hf]
      refine ⟨by simp, fun m hmn => ?_, .settled (by simp [hm]) (by simp [hl'])⟩
      simpa [update_of_ne hmn] using haway m hmn
    · simp only [listenAll_some, listener, assert, IndexChains.send, haway n hh, hf, hm]
      exact ⟨by simp, by simpa using haway, .removing rfl hch ht (by simp [hl']) (hk hh)⟩

/-- Before any node has constructed the chain set only the element changes. -/
theorem react_of_not_built (h : ChainInv layout home built x) (ht : Held t 0)
    (hb : ∀ n, built n = false) : ChainInv layout home built (x.react layout home built t) := by
  have hsame : x.react layout home built t = { x with elem := t } := by
    simp [IndexChains.react, listenAll, hb]
  rw [hsame]
  refine ⟨ht, h.failed, h.before, ?_⟩
  cases layout with
  | onNode => exact ⟨h.kept.1, by simpa [hb] using h.kept.2⟩
  | home =>
    obtain ⟨haway, hphase⟩ := h.kept
    refine ⟨haway, ?_⟩
    rw [known_of_not_built home hb] at hphase ⊢
    cases hphase with
    | settled hm hc => exact .settled hm hc
    | adding hm | removing hm => simp [h.before hb] at hm

/-- A step of the element of which the listeners are told. -/
theorem react (h : ChainInv layout home built x) (ht : Held t 0) (hc : Change home x.elem t e)
    (he : t.events = x.elem.events ++ e.toList)
    (hhome : layout = .home → (∀ n, built n = true) ∧ ∀ n, e = some (.migratedIn, home) ∨
      e = some (.destroyed, n) → IdxMsg.addIndex ∉ x.msgs)
    (hb : built n = true) : ChainInv layout home built (x.react layout home built t) := by
  have helem : (x.react layout home built t).elem = t := by simp [IndexChains.react]
  have hdrop : t.events.drop x.elem.events.length = e.toList := by rw [he, drop_left]
  have hbefore : ¬ ∀ n, built n = false := fun h => by simp [h] at hb
  cases layout with
  | onNode =>
    obtain ⟨hf, hk⟩ := listener_onNode h.failed h.kept hc (congrArg _ (congrArg _ hdrop))
    exact ⟨helem.symm ▸ ht, hf, fun h => absurd h hbefore, hk⟩
  | home =>
    obtain ⟨hall, hadd⟩ := hhome rfl
    obtain ⟨haway, hphase⟩ := h.kept
    rw [known_of_built hall] at hphase
    have hfilter : (t.events.drop x.elem.events.length).filter (fun e => built e.2) = e.toList := by
      rw [hdrop, filter_eq_self]
      exact fun e _ => hall e.2
    obtain ⟨hf, haway, hphase⟩ := listener_home h.failed haway hphase hc hadd (congrArg _ hfilter)
    refine ⟨helem.symm ▸ ht, hf, fun h => absurd h hbefore, haway, ?_⟩
    rw [known_of_built hall, helem]
    exact hphase

/-! ## The chain set -/

/-- `addIndexHan` and `removeIndexHan`. -/
theorem deliver {m : IdxMsg} (h : ChainInv layout home built x) (hm : m ∈ x.msgs) :
    ChainInv layout home built ({ x with msgs := x.msgs.erase m }.receive home m) := by
  have hbefore : ¬ ∀ n, built n = false := fun hb => by simp [h.before hb] at hm
  cases layout with
  | onNode => simp [h.kept.1] at hm
  | home =>
    obtain ⟨haway, hphase⟩ := h.kept
    generalize hk : x.known built = known at hphase
    cases hphase with
    | settled hx hc => simp [hx] at hm
    | adding hx hc h1 =>
      obtain rfl : m = .addIndex := by simpa [hx] using hm
      refine ⟨h.held, ?_, fun h => absurd h hbefore, fun n hn => ?_, .settled ?_ ?_⟩
      · simp [IndexChains.receive, addIndex, h.failed, hc]
      · simpa [IndexChains.receive, addIndex, update_of_ne hn] using haway n hn
      · simp [IndexChains.receive, addIndex, hx]
      · exact (update_self ..).trans (hk.trans h1).symm
    | removing hx hc h0 hl h1 =>
      obtain rfl : m = .removeIndex := by simpa [hx] using hm
      refine ⟨h.held, ?_, fun h => absurd h hbefore, fun n hn => ?_, .settled ?_ ?_⟩
      · simp [IndexChains.receive, removeIndex, h.failed, hc]
      · simpa [IndexChains.receive, removeIndex, update_of_ne hn] using haway n hn
      · simp [IndexChains.receive, removeIndex, hx]
      · exact (update_self ..).trans (hk.trans hl).symm

/-- The loop of the constructor, with the layout `Local`. -/
theorem construct_onNode (h : ChainInv .onNode home built x) (hn : built n = false) :
    ChainInv .onNode home (update built n true) (x.addLocal .onNode home n) := by
  obtain ⟨hm, hc⟩ := h.kept
  have hchain : x.chains n = false := by simp [hc, hn]
  have hhere : isHere .onNode home n = true := rfl
  rw [addLocal, hhere]
  cases hx : x.elem.existsAt n with
  | true =>
    refine ⟨h.held, ?_, fun _ => hm, hm, ?_⟩
    · simp [addIndex, h.failed, hchain]
    · funext m
      by_cases hmn : m = n
      · subst hmn
        simp [addIndex, hx]
      · simp [addIndex, update_of_ne hmn, hc]
  | false =>
    refine ⟨h.held, h.failed, fun _ => hm, hm, ?_⟩
    funext m
    by_cases hmn : m = n
    · subst hmn
      simp [hx, hchain]
    · simp [update_of_ne hmn, hc]

/-- What is known when one more node has constructed the chain set, and no element is on its way. -/
theorem known_update (hn : built n = false) (hmig : x.elem.msgs.countP Msg.isMigrate = 0) :
    x.known (update built n true) = (x.known built || x.elem.existsAt n) := by
  have hnot : ¬ ∀ m, built m = true := fun hb => by simp [hb n] at hn
  have hlive : 0 < x.elem.live → ∃ m, x.elem.existsAt m = true := by
    intro hl
    by_contra hno
    push Not at hno
    simp [live, residents, hno, hmig] at hl
  rw [Bool.eq_iff_iff, Bool.or_eq_true, known, known, decide_eq_true_iff, decide_eq_true_iff]
  constructor
  · rintro (⟨m, hb, hm⟩ | ⟨hb, hl⟩)
    · by_cases hmn : m = n
      · exact .inr (hmn ▸ hm)
      · exact .inl (.inl ⟨m, by rwa [update_of_ne hmn] at hb, hm⟩)
    · obtain ⟨m, hm⟩ := hlive hl
      by_cases hmn : m = n
      · exact .inr (hmn ▸ hm)
      · exact .inl (.inl ⟨m, by rw [← hb m, update_of_ne hmn], hm⟩)
  · rintro ((⟨m, hb, hm⟩ | ⟨hb, -⟩) | hm)
    · have hmn : m ≠ n := fun h => by simp [← h, hb] at hn
      exact .inl ⟨m, by rwa [update_of_ne hmn], hm⟩
    · exact absurd hb hnot
    · exact .inl ⟨n, update_self .., hm⟩

/-- The loop of the constructor, with the layout `Home`. -/
theorem construct_home (h : ChainInv .home home built x) (hn : built n = false)
    (hmig : x.elem.msgs.countP Msg.isMigrate = 0) :
    ChainInv .home home (update built n true) (x.addLocal .home home n) := by
  have hbefore : ¬ ∀ m, update built n true m = false := fun h => by simpa using h n
  obtain ⟨haway, hphase⟩ := h.kept
  have hknown := known_update hn hmig
  rw [addLocal]
  cases hx : x.elem.existsAt n with
  | false =>
    rw [hx, Bool.or_false] at hknown
    exact ⟨h.held, h.failed, fun h => absurd h hbefore, haway, hknown ▸ hphase⟩
  | true =>
    -- the element is on a node where the chain set was not constructed
    have hnot : x.known built = false := by
      refine decide_eq_false ?_
      rintro (⟨m, hb, hm⟩ | ⟨hb, -⟩)
      · simp [h.held.eq_of_existsAt hm hx, hn] at hb
      · simp [hb] at hn
    rw [hnot] at hphase
    rw [hx, Bool.or_true] at hknown
    obtain ⟨hm, hc⟩ : x.msgs = [] ∧ x.chains home = false := by
      cases hphase with
      | settled hm hc => exact ⟨hm, hc⟩
      | adding _ _ hk => cases hk
      | removing hm hc h0 => simp [existsAt_of_vacant h0] at hx
    by_cases hh : home = n
    · subst hh
      have hhere : isHere .home home home = true := by simp [isHere]
      rw [hhere]
      refine ⟨h.held, ?_, fun h => absurd h hbefore, fun m hmn => ?_, .settled hm ?_⟩
      · simp [addIndex, h.failed, hc]
      · simpa [addIndex, update_of_ne hmn] using haway m hmn
      · exact (update_self ..).trans hknown.symm
    · have hhere : isHere .home home n = false := by simp [isHere, hh]
      rw [hhere]
      exact ⟨h.held, h.failed, fun h => absurd h hbefore, haway, .adding (congrArg _ hm) hc hknown⟩

theorem destroyMatching (h : ChainInv layout home built x)
    (hok : layout = .home → ((∀ m, built m = true) ∨ ∀ m, built m = false) ∧
      (x.elem.existsAt n = true → IdxMsg.addIndex ∉ x.msgs)) :
    ChainInv layout home built (x.destroyMatching layout home n built) := by
  cases hn : x.elem.existsAt n with
  | true =>
    obtain ⟨hc, hheld, hev⟩ := destroyMatching_change home h.held hn
    by_cases hb : ∃ m, built m = true
    · obtain ⟨m, hb⟩ := hb
      refine h.react hheld hc hev (fun hl => ⟨?_, fun _ _ => (hok hl).2 hn⟩) hb
      exact (hok hl).1.resolve_right fun h => by simp [h] at hb
    · exact h.react_of_not_built hheld fun m => Bool.eq_false_iff.mpr fun h => hb ⟨m, h⟩
  | false =>
    have hsame : x.destroyMatching layout home n built = x := by
      simp [IndexChains.destroyMatching, IndexState.destroyMatching, hn,
        IndexChains.react, listenAll]
    exact hsame.symm ▸ h

end ChainInv

/-! ## Whole runs -/

variable [DecidableEq I] [DecidableEq E] {layout : ChainSetLayout} {home : I → Fin P}
  {s : CollectionChainSet I (Fin P) E}

omit [DecidableEq I] [DecidableEq E] in
theorem built_or_of_not_constructing (h : ¬ s.Constructing) :
    (∀ n, s.built n = true) ∨ ∀ n, s.built n = false := by
  by_contra hno
  push Not at hno
  obtain ⟨⟨m, hm⟩, n, hn⟩ := hno
  exact h ⟨⟨n, by simpa using hn⟩, m, by simpa using hm⟩

theorem chainInv_step {t : CollectionChainSet I (Fin P) E} {a : ChainAct I (Fin P) E}
    (h : ∀ i, ChainInv layout (home i) s.built (s.index i)) (hok : ChainsKept layout home s a)
    (hs : step layout home s a = some t) : ∀ i, ChainInv layout (home i) t.built (t.index i) := by
  cases a with
  | element i a =>
    obtain ⟨-, hs⟩ := ite_none_right_eq_some.mp hs
    obtain ⟨u, hu, rfl⟩ := map_eq_some_iff.mp hs
    refine (forall_update_iff _ fun j x => ChainInv layout (home j) s.built x).mpr
      ⟨?_, fun j _ => h j⟩
    have hheld := (h i).held.step hu
    by_cases hb : ∃ m, s.built m = true
    · obtain ⟨e, hc, hev, hmig, hne⟩ := exists_change (h i).held hu
        (by rintro n u rfl; exact hok.2 hb)
      obtain ⟨m, hm⟩ := hb
      refine (h i).react hheld hc hev (fun hl => ⟨?_, fun n he => ?_⟩) hm
      · refine (built_or_of_not_constructing (hok.not_constructing hl)).resolve_right fun h => ?_
        simp [h] at hm
      · obtain ⟨dest, rfl⟩ := hmig _ (he.resolve_right (hne n))
        exact (hok hl).2 rfl
    · exact (h i).react_of_not_built hheld fun n => Bool.eq_false_iff.mpr fun h => hb ⟨n, h⟩
  | construct n =>
    obtain ⟨⟨hb, -⟩, rfl⟩ := of_guard hs
    intro i
    cases layout with
    | onNode => exact (h i).construct_onNode hb
    | home => exact (h i).construct_home hb (hok rfl i)
  | deliver i m =>
    obtain ⟨⟨hm, -⟩, rfl⟩ := of_guard hs
    exact (forall_update_iff _ fun j x => ChainInv layout (home j) s.built x).mpr
      ⟨(h i).deliver hm, fun j _ => h j⟩
  | destroyMatching n =>
    obtain ⟨-, rfl⟩ := of_guard hs
    exact fun i => (h i).destroyMatching fun hl =>
      ⟨built_or_of_not_constructing (hok hl).1, (hok hl).2 i⟩

/-- An insert on a node `n` that is not the home of the index. -/
private def createdAway (h n : Fin P) : List (ChainAct (Fin 1) (Fin P) ℕ) :=
  [.element 0 (.insert n (some n) 0), .element 0 (.deliver h (.pingHome ⟨n, 0, false⟩)),
    .element 0 (.deliver n (.insert ⟨n, 0, true⟩))]

end VtRuntime.ChainSet
