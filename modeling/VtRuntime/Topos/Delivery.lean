import VtRuntime.Topos.Routing
import VtRuntime.Lib.Lists

/-!
# Every routed message is in one place

A message is on its way to a node, waits in a pending action, or has been delivered.  Each
function of the location manager moves the messages of a node between these places and
neither loses nor copies one, and it produces a unit for each pending action with a message
and for each delivery, which is consumed when the action or the handler has run.

A handler runs where the entity is registered, except that a pending action of `routeMsgNode`
runs the handler whenever it is resolved to its own node: it does not look whether the entity
has been registered there.
-/

namespace VtRuntime.Topos

open Lib Epoch List Option Topos.Frame Coord

universe u

variable {E N : Type u}

variable {T : Multiset ℕ} {U : Multiset (ℕ × EpochType)} {c c' c'' : Coord E N} {m : EntityMsg E N}
  {id : E} {n home : N} {cur e : EpochType} {t : ℕ} {p : Pending E N}

variable [DecidableEq E] [DecidableEq N]

/-! ## Registration, location updates and what is left to do -/

namespace Coord

omit [DecidableEq N] in
/-- The pending actions that are extracted and those that stay. -/
theorem sum_lookups {M : Type} [AddCommMonoid M] (c : Coord E N) (id : E) (f : Pending E N → M) :
    ((c.lookups id).map f).sum + ((c.pendingLookups.filter fun x => x.1 ≠ id).map
      fun x => f x.2).sum = (c.pendingLookups.map fun x => f x.2).sum := by
  have h := (filter_append_perm (fun x => decide (x.1 = id)) c.pendingLookups).map
    fun x => f x.2
  simpa [lookups, Function.comp_def] using h.sum_eq

omit [DecidableEq N] in
theorem moves_resolve (c : Coord E N) (id : E) (n : N) : Moves 0 0 c (c.resolve id n) where
  here := rfl
  held := by
    simp only [held, buffered, inFlight, handled, resolve, map_cons, sum_cons,
      ← sum_lookups c id Pending.tokens, tokens]
    abel
  balanced hb := by
    simp only [Balanced, owed, resolve, map_cons, sum_cons, units] at hb ⊢
    rw [hb, ← sum_lookups c id Pending.units]
    abel

theorem moves_registerEntity {act : Bool} (h : c.registerEntity id home act = some c') :
    Moves 0 0 c c' := by
  obtain ⟨-, rfl⟩ := of_guard h
  refine Moves.trans ?_ (moves_resolve _ id c.here)
  have hpush (hb : c.Balanced 0) :
      c.Balanced (([.tell id home].map units).sum + 0) := by simpa [units] using hb
  cases act <;> exact ⟨rfl, held_push _, fun hb => Balanced.push (hpush hb)⟩

theorem moves_receive {msg : LocMsg E N} (h : c.receive cur msg = some c') :
    Moves msg.tokens 0 c c' := by
  cases msg with
  | routed m => exact (routes_routePreparedMsg h).moves
  | getLocationRequest id home cb =>
    exact (routes_getLocation (p := .request cb home) h).moves
  | updateLocation id answer home =>
    obtain rfl := some.inj h
    obtain ⟨hh, ht, hb⟩ := moves_resolve (c.insertRec id home .remote answer) id answer
    exact ⟨hh, ht, hb⟩
  | eagerUpdate id home n =>
    obtain ⟨-, rfl⟩ := of_guard h
    obtain ⟨hh, ht, hb⟩ := (routes_answerAsks (c.insertRec id home .remote n) id home n).moves
    exact ⟨hh, ht, hb⟩

theorem moves_resumeFrame {f : Frame E N} (h : c.resumeFrame f = some c') :
    Moves f.tokens f.units c c' := by
  cases f with
  | code =>
    obtain rfl := some.inj h
    exact Moves.refl c
  | eagerUpdate id home ask =>
    cases ask with
    | none =>
      obtain rfl := some.inj h
      exact Moves.refl c
    | some ask =>
      obtain rfl := some.inj h
      exact (routes_sendEagerUpdate c ask).moves
  | consume t e =>
    obtain rfl := some.inj h
    exact ⟨rfl, (zero_add _).symm, fun hb => hb.consume⟩
  | actions id resolved rest =>
    cases rest with
    | nil =>
      obtain rfl := some.inj h
      exact Moves.refl c
    | cons p rest =>
      obtain ⟨hh, ht, hb⟩ := (routes_runAction h).moves
      refine ⟨hh, ?_, fun hc => hb (Balanced.push ?_)⟩
      · rw [ht, held_push]
        simp [tokens, add_assoc]
      · simpa [units, add_comm] using hc
  | tell id home =>
    obtain rfl := some.inj h
    split_ifs
    · exact (routes_send c home (.updateLocation id c.here home)).moves
    · exact Moves.refl c

theorem moves_resume (h : c.resume = some c') : Moves 0 0 c c' := by
  rw [resume] at h
  cases hf : c.frames with
  | nil => simp [hf] at h
  | cons f fs =>
    rw [hf] at h
    obtain ⟨hh, ht, hb⟩ := moves_resumeFrame h
    -- the frame on top is what `push` would put back
    have hc : c = { c with frames := fs }.push [f] := by
      cases c
      cases hf
      rfl
    refine ⟨hh, ?_, fun hbal => hb ?_⟩
    · rw [ht, zero_add]
      simpa using (congrArg held hc).symm
    · simp only [Balanced, owed, hf, map_cons, sum_cons] at hbal ⊢
      rw [hbal]
      abel

theorem moves_invoke {k : Call E N} (h : c.invoke t k = some c') :
    Moves (Multiset.replicate k.messages t) 0 c c' := by
  cases k with
  | registerEntity id home act | entityImmigrated id home act => exact moves_registerEntity h
  | registerEntityRemote id home n act =>
    obtain ⟨-, rfl⟩ := of_guard h
    cases act <;> exact ⟨rfl, (zero_add _).symm, fun hb => hb⟩
  | unregisterEntity id =>
    obtain ⟨-, rfl⟩ := of_guard h
    exact ⟨rfl, (zero_add _).symm, fun hb => hb⟩
  | entityEmigrated | clearCache =>
    obtain rfl := some.inj h
    exact ⟨rfl, (zero_add _).symm, fun hb => hb⟩
  | routeNonEagerAction id home => exact (routes_getLocation (p := .action) h).moves
  | routeMsg id home m source cur => exact (routes_routePreparedMsg h).moves
  | routeMsgHandler id home han m cur => exact (routes_routePreparedMsgHandler h).moves

end Coord

/-! ## Handlers run where the entity is registered -/

namespace Coord

section

variable (h : c.Safe)
include h

omit [DecidableEq N] in
/-- The loop over the pending actions of an entity is safe if the entity is registered, if they
are resolved to another node, or if there are none of `routeMsgNode` among them. -/
theorem Safe.resolve
    (hid : n = c.here → id ∈ c.localRegistered ∨ ∀ p ∈ c.lookups id, p.isRouted = false) :
    (c.resolve id n).Safe where
  delivered := h.delivered
  frames := by
    intro f hf
    cases mem_cons.mp hf with
    | inl hnew =>
      subst hnew
      intro hn hp
      obtain ⟨p, hp, hr⟩ := hp
      cases hid hn with
      | inl hreg => exact hreg
      | inr hnone => simp [hnone p hp] at hr
    | inr hold => exact h.frames f hold

theorem Safe.registerEntity {act : Bool} (hs : c.registerEntity id home act = some c') :
    c'.Safe := by
  obtain ⟨-, rfl⟩ := of_guard hs
  have hreg : (c.setRegistered (insert id c.localRegistered)).Safe := by
    refine ⟨h.delivered, ?_⟩
    intro f hf
    have hold := h.frames f hf
    cases f with
    | actions id' r rest => exact fun hr hp => Finset.mem_insert_of_mem (hold hr hp)
    | _ => trivial
  have hbase : (((c.setRegistered (insert id c.localRegistered)).insertRec id home .localTo
      c.here).emplaceHandler id act).Safe := by
    cases act <;> exact ⟨hreg.delivered, hreg.frames⟩
  refine (hbase.push (by simp [Frame.SafeIn])).resolve fun _ => .inl ?_
  cases act <;> exact Finset.mem_insert_self id _

end

/-- The node is running a loop over actions for an entity, resolved to the node itself, and an
action of `routeMsgNode` is still to be run. -/
def Running (c : Coord E N) (id : E) : Prop :=
  ∃ rest, .actions id c.here rest ∈ c.frames ∧ ∃ p ∈ rest, p.isRouted = true

omit [DecidableEq N] in
theorem Safe.eraseRegistered (h : c.Safe) (hid : ¬ c.Running id) :
    (c.setRegistered (c.localRegistered.erase id)).Safe where
  delivered := h.delivered
  frames := by
    intro f hf
    have hold := h.frames f hf
    cases f with
    | actions id' r rest =>
      intro hr hp
      have hr' : r = c.here := hr
      subst hr'
      refine Finset.mem_erase.mpr ⟨?_, hold rfl hp⟩
      intro heq
      exact hid ⟨rest, heq ▸ hf, hp⟩
    | _ => trivial

theorem Safe.receive {msg : LocMsg E N} (h : c.Safe) (hs : c.receive cur msg = some c')
    (hmsg : ∀ id home, msg = .updateLocation id c.here home →
      id ∈ c.localRegistered ∨ ∀ p ∈ c.lookups id, p.isRouted = false) : c'.Safe := by
  cases msg with
  | routed m => exact (routes_routePreparedMsg hs).safe trivial h
  | getLocationRequest id home cb => exact (routes_getLocation hs).safe rfl h
  | updateLocation id answer home =>
    obtain rfl := some.inj hs
    refine Safe.resolve (c := c.insertRec id home .remote answer) ⟨h.delivered, h.frames⟩ ?_
    intro hn
    have hn' : answer = c.here := hn
    exact hmsg id home (by rw [hn'])
  | eagerUpdate id home n =>
    obtain ⟨-, rfl⟩ := of_guard hs
    exact (routes_answerAsks (c.insertRec id home .remote n) id home n).safe trivial
      ⟨h.delivered, h.frames⟩

theorem Safe.resume (h : c.Safe) (hs : c.resume = some c') : c'.Safe := by
  rw [Coord.resume] at hs
  cases hf : c.frames with
  | nil => simp [hf] at hs
  | cons f fs =>
    rw [hf] at hs
    have hrest : { c with frames := fs }.Safe :=
      ⟨h.delivered, fun f' hf' => h.frames f' (hf ▸ mem_cons_of_mem f hf')⟩
    have htop := h.frames f (hf ▸ mem_cons_self)
    cases f with
    | actions id r rest =>
      cases rest with
      | nil =>
        obtain rfl := some.inj hs
        exact hrest
      | cons p rest =>
        refine (routes_runAction hs).safe (fun hr hp => htop hr ⟨p, by simp, hp⟩) (hrest.push ?_)
        intro f' hf'
        rw [mem_singleton.mp hf']
        intro hr hp
        obtain ⟨q, hq, hrouted⟩ := hp
        exact htop hr ⟨q, mem_cons_of_mem p hq, hrouted⟩
    | eagerUpdate id home ask =>
      cases ask with
      | none =>
        obtain rfl := some.inj hs
        exact hrest
      | some ask =>
        obtain rfl := some.inj hs
        exact (routes_sendEagerUpdate _ ask).safe trivial hrest
    | tell id home =>
      obtain rfl := some.inj hs
      split_ifs
      · exact ⟨hrest.delivered, hrest.frames⟩
      · exact hrest
    | _ =>
      obtain rfl := some.inj hs
      exact ⟨hrest.delivered, hrest.frames⟩

theorem Safe.invoke {k : Call E N} (h : c.Safe) (hs : c.invoke t k = some c')
    (hun : ∀ id, k = .unregisterEntity id → ¬ c.Running id)
    (hem : ∀ id n, k = .entityEmigrated id n → ¬ c.Running id) : c'.Safe := by
  cases k with
  | registerEntity id home act | entityImmigrated id home act => exact h.registerEntity hs
  | registerEntityRemote id home n act =>
    obtain ⟨-, rfl⟩ := of_guard hs
    cases act <;> exact ⟨h.delivered, h.frames⟩
  | unregisterEntity id =>
    obtain ⟨-, rfl⟩ := of_guard hs
    obtain ⟨hd, hf⟩ := h.eraseRegistered (hun id rfl)
    exact ⟨hd, hf⟩
  | entityEmigrated id n =>
    obtain rfl := some.inj hs
    obtain ⟨hd, hf⟩ := h.eraseRegistered (hem id n rfl)
    exact ⟨hd, hf⟩
  | clearCache =>
    obtain rfl := some.inj hs
    exact ⟨h.delivered, h.frames⟩
  | routeNonEagerAction id home => exact (routes_getLocation hs).safe rfl h
  | routeMsg id home m source cur => exact (routes_routePreparedMsg hs).safe trivial h
  | routeMsgHandler id home han m cur =>
    exact (routes_routePreparedMsgHandler hs).safe trivial h

end Coord

/-! ## Runs -/

namespace LocSys

/-- An entity is not taken from a node that is in the middle of running actions for it, and no
update names the node that receives it as the location of an entity that is not registered
there while messages for the entity wait there. -/
def Clean (s : LocSys E N) : LocAct E N → Prop
  | .call n (.unregisterEntity id) => ¬ (s.coords n).Running id
  | .call n (.entityEmigrated id _) => ¬ (s.coords n).Running id
  | .deliver sender i _ => ∀ n id home,
      (s.coords sender).outbox[i]? = some (n, .updateLocation id n home) →
      id ∈ (s.coords n).localRegistered ∨ ∀ p ∈ (s.coords n).lookups id, p.isRouted = false
  | _ => True

variable {s s' : LocSys E N} {a : LocAct E N}

omit [DecidableEq E] in
theorem forall_setCoord (P : N → Coord E N → Prop) (hc : P n c) (h : ∀ k, P k (s.coords k)) :
    ∀ k, P k ((s.setCoord n c).coords k) :=
  (Function.forall_update_iff s.coords (p := P)).mpr ⟨hc, fun k _ => h k⟩

theorem safe_step (h : ∀ n, (s.coords n).Safe) (hhere : ∀ n, (s.coords n).here = n)
    (hok : Clean s a) (hs : s.step a = some s') : ∀ n, (s'.coords n).Safe := by
  cases a with
  | call n k =>
    obtain ⟨-, hs⟩ := ite_none_right_eq_some.mp hs
    obtain ⟨c, hc, rfl⟩ := map_eq_some_iff.mp hs
    refine forall_setCoord (fun _ c => c.Safe) ((h n).invoke hc ?_ ?_) h
    · rintro id rfl
      exact hok
    · rintro id n' rfl
      exact hok
  | resume n =>
    obtain ⟨c, hc, rfl⟩ := map_eq_some_iff.mp hs
    exact forall_setCoord (fun _ c => c.Safe) ((h n).resume hc) h
  | deliver sender i cur =>
    obtain ⟨⟨n, msg⟩, hx, hs⟩ := bind_eq_some_iff.mp hs
    obtain ⟨-, hs⟩ := ite_none_right_eq_some.mp hs
    obtain ⟨c, hc, rfl⟩ := map_eq_some_iff.mp hs
    have htake : ∀ k, ((s.take sender i).coords k).Safe :=
      forall_setCoord (fun _ c => c.Safe) ⟨(h sender).delivered, (h sender).frames⟩ h
    -- only the outbox of the sender differs
    have hsame : ∀ k, ((s.take sender i).coords k).here = k ∧
        ((s.take sender i).coords k).localRegistered = (s.coords k).localRegistered ∧
        ((s.take sender i).coords k).pendingLookups = (s.coords k).pendingLookups :=
      forall_setCoord (fun k c => c.here = k ∧
        c.localRegistered = (s.coords k).localRegistered ∧
        c.pendingLookups = (s.coords k).pendingLookups) ⟨hhere sender, rfl, rfl⟩
        fun k => ⟨hhere k, rfl, rfl⟩
    refine forall_setCoord (fun _ c => c.Safe) ((htake n).receive hc ?_) htake
    rintro id home rfl
    obtain ⟨hn, hreg, hpend⟩ := hsame n
    rw [hn] at hx
    rw [hreg, lookups, hpend]
    exact hok n id home hx

/-- The node is the one it should be, and its units are accounted for. -/
structure Books (n : N) (c : Coord E N) : Prop where
  here : c.here = n
  balanced : c.Balanced 0

omit [DecidableEq E] [DecidableEq N] in
theorem Books.moves (h : Books n c) (hm : Moves T 0 c c') : Books n c' :=
  ⟨hm.here.trans h.here, hm.balanced h.balanced⟩

variable [Fintype N]

/-- Every message is in one place, and every unit is accounted for. -/
structure Inv (s : LocSys E N) : Prop where
  books : ∀ n, Books n (s.coords n)
  places : ∑ n, (s.coords n).held = Multiset.range s.routed

omit [DecidableEq E] [DecidableEq N] in
theorem inv_start : Inv (start : LocSys E N) where
  books n := ⟨rfl, by simp [start, init, Coord.Balanced, owed]⟩
  places := by simp [start, init, held, inFlight, buffered, handled]

omit [DecidableEq E] in
/-- What a node does changes the messages of the system by what it changes on the node. -/
theorem sum_setCoord (h : Moves T 0 (s.coords n) c) :
    ∑ k, ((s.setCoord n c).coords k).held = T + ∑ k, (s.coords k).held := by
  refine sum_increase_at n ?_ ?_
  · intro k hk
    simp [setCoord, hk]
  · simpa [setCoord] using h.held

omit [DecidableEq E] in
/-- The message taken from an outbox is the only one that the system loses. -/
theorem sum_take {sender : N} {i : ℕ} {x : N × LocMsg E N}
    (hx : (s.coords sender).outbox[i]? = some x) :
    ∑ k, (s.coords k).held = x.2.tokens + ∑ k, ((s.take sender i).coords k).held := by
  refine sum_increase_at sender ?_ ?_
  · intro k hk
    simp [take, setCoord, hk]
  · have hperm := ((perm_eraseIdx hx).map fun x => x.2.tokens).sum_eq
    simp only [take, setCoord, Function.update_self, held, inFlight, buffered,
      handled]
    rw [hperm, map_cons, sum_cons]
    abel

theorem Inv.step (h : Inv s) (hs : s.step a = some s') : Inv s' := by
  cases a with
  | call n k =>
    obtain ⟨-, hs⟩ := ite_none_right_eq_some.mp hs
    obtain ⟨c, hc, rfl⟩ := map_eq_some_iff.mp hs
    have hm := moves_invoke hc
    refine ⟨forall_setCoord Books ((h.books n).moves hm) h.books, ?_⟩
    refine (sum_setCoord hm).trans ?_
    rw [h.places]
    cases k <;> simp [Call.messages, Multiset.range_succ]
  | resume n =>
    obtain ⟨c, hc, rfl⟩ := map_eq_some_iff.mp hs
    have hm := moves_resume hc
    refine ⟨forall_setCoord Books ((h.books n).moves hm) h.books, ?_⟩
    rw [sum_setCoord hm, zero_add, h.places]
    rfl
  | deliver sender i cur =>
    obtain ⟨⟨n, msg⟩, hx, hs⟩ := bind_eq_some_iff.mp hs
    obtain ⟨-, hs⟩ := ite_none_right_eq_some.mp hs
    obtain ⟨c, hc, rfl⟩ := map_eq_some_iff.mp hs
    have hm := moves_receive hc
    have htake : ∀ k, Books k ((s.take sender i).coords k) :=
      forall_setCoord Books ⟨(h.books sender).here, (h.books sender).balanced⟩ h.books
    refine ⟨forall_setCoord Books ((htake n).moves hm) htake, ?_⟩
    rw [sum_setCoord hm, ← sum_take hx, h.places]
    rfl

theorem Reachable.inv {ok : LocSys E N → LocAct E N → Prop} (h : Reachable ok s) : Inv s := by
  refine Reach.invariant ?_ (fun s a s' hi _ hs => hi.step hs) h
  rintro s rfl
  exact inv_start

theorem Reachable.safe (h : Reachable Clean s) : ∀ n, (s.coords n).Safe := by
  have hinv : ∀ s : LocSys E N, Reachable Clean s → Inv s := fun _ hr => Reachable.inv hr
  refine Reach.invariant_of hinv ?_ ?_ h
  · rintro s rfl n
    exact ⟨by simp [start, init], by simp [start, init]⟩
  · intro s a s' hi hsafe hok hs
    exact safe_step hsafe (fun n => (hi.books n).here) hok hs

/-- In the runs of clean steps, each routed message is in flight, buffered or delivered, and it
is so once on all nodes together; handlers run where the entity is registered; and on every
node the units produced for a message are those consumed for it and those of its actions that
are waiting or being run. -/
theorem routed_exactly_once (h : Reachable Clean s) :
    (∀ t < s.routed, (∑ n, ((s.coords n).inFlight + (s.coords n).buffered +
      (s.coords n).handled)).count t = 1) ∧
    (∀ n, ∀ d ∈ (s.coords n).delivered, d.registered = true) ∧
    (∀ n, ((s.coords n).produced : Multiset (ℕ × EpochType)) =
      (s.coords n).consumed + (s.coords n).owed) := by
  have hinv := Reachable.inv h
  refine ⟨?_, fun n => (Reachable.safe h n).delivered, ?_⟩
  · intro t ht
    have hplaces : ∑ n, ((s.coords n).inFlight + (s.coords n).buffered + (s.coords n).handled) =
        Multiset.range s.routed := hinv.places
    rw [hplaces, Multiset.count_eq_one_of_mem (Multiset.nodup_range _) (Multiset.mem_range.mpr ht)]
  · intro n
    exact (hinv.books n).balanced.trans (add_zero _)

/-- A message with a handler that is too large for the eager protocol. -/
def largeMsg (id : E) (home : N) : EntityMsg E N where
  token := 0
  entity := id
  homeNode := home
  locFromNode := none
  handler := some 1
  askNode := none
  isEpochType := true
  epoch := noEpoch
  isSer := false
  size := 512

/-- Two messages wait on the home for the registration of their entity; the first of them is
delivered. -/
def registerRun (id : E) (home : N) : List (LocAct E N) :=
  [.call home (.routeMsg id home (largeMsg id home) none 7),
    .call home (.routeMsg id home (largeMsg id home) none 7),
    .call home (.registerEntity id home false), .resume home, .resume home, .resume home]

theorem routed_exactly_once_registered : ∃ s : LocSys Unit (Fin 2), Reachable Clean s ∧
    (s.coords 0).delivered = [⟨0, true⟩] ∧
    (∑ n, ((s.coords n).inFlight + (s.coords n).buffered + (s.coords n).handled)).count 1 = 1 := by
  have hok : ∀ a ∈ registerRun () 0, ∀ s : LocSys Unit (Fin 2), Clean s a := by
    simp [registerRun, Clean]
  obtain ⟨s, hs, hd, hr⟩ := Reach.of_run_ok step (registerRun () 0)
    (fun s => (s.coords 0).delivered = [⟨0, true⟩] ∧ s.routed = 2) (show Init start from rfl) hok
    (by decide +kernel)
  exact ⟨s, hs, hd, (routed_exactly_once hs).1 1 (by omega)⟩

/-- The home has reserved the place of an entity that is being created on the node `n`, and two
messages are routed on `n`, which asks the home twice.  On the first answer the messages are
buffered there; on the second one their handlers run. -/
def askTwiceRun (id : E) (home n : N) : List (LocAct E N) :=
  [.call home (.registerEntityRemote id home n false),
    .call n (.routeMsg id home (largeMsg id home) none 7),
    .call n (.routeMsg id home (largeMsg id home) none 7),
    .deliver n 0 7, .deliver n 0 7, .deliver home 0 7,
    .resume n, .resume n, .resume n, .resume n, .resume n, .deliver home 0 7, .resume n]

/-- A handler has been run on a node where its entity is not registered, and never has been. -/
theorem delivered_unregistered : ∃ s : LocSys Unit (Fin 2), Reachable anyStep s ∧
    (s.coords 1).localRegistered = ∅ ∧ ⟨0, false⟩ ∈ (s.coords 1).delivered :=
  Reach.of_run step (askTwiceRun () (0 : Fin 2) 1) _ (show Init start from rfl) (by decide +kernel)

end LocSys

end VtRuntime.Topos
