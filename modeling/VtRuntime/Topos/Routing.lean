import VtRuntime.Lib.Sum
import VtRuntime.Topos.Location
import Mathlib.Tactic.Abel

/-!
# What the routing functions do

Routing is done by functions that call each other, and by the loops over pending actions that call
them again.  What is to be known about them is said here once: where they put the message and the
units that are in hand, that they leave registrations and the directory alone, and when the handlers
they run are those of registered entities.
-/

namespace VtRuntime.Topos

open Lib Epoch List Option Topos.Frame List.Subset

universe u

variable {E N : Type u}

/-- The unit that the action consumes after it has run, with the message it is for. -/
def Pending.units : Pending E N → Multiset (ℕ × EpochType)
  | .routed _ m epoch => {(m.token, epoch)}
  | .lookup m epoch => {(m.token, epoch)}
  | .request .. => 0
  | .action => 0

/-- The message that waits in the action. -/
def Pending.tokens : Pending E N → Multiset ℕ
  | .routed _ m _ => {m.token}
  | .lookup m _ => {m.token}
  | .request .. => 0
  | .action => 0

/-- The action is one of `routeMsgNode`. -/
def Pending.isRouted : Pending E N → Bool
  | .routed .. => true
  | _ => false

def Frame.tokens : Frame E N → Multiset ℕ
  | .actions _ _ rest => (rest.map Pending.tokens).sum
  | _ => 0

def Frame.units : Frame E N → Multiset (ℕ × EpochType)
  | .consume token epoch => {(token, epoch)}
  | .actions _ _ rest => (rest.map Pending.units).sum
  | _ => 0

def LocMsg.tokens : LocMsg E N → Multiset ℕ
  | .routed m => {m.token}
  | _ => 0

namespace Coord

variable (c : Coord E N)

/-- The messages that the node has sent and that have not arrived. -/
def inFlight : Multiset ℕ := (c.outbox.map fun x => x.2.tokens).sum

/-- The messages in pending actions, those of a loop that is being run included. -/
def buffered : Multiset ℕ :=
  (c.pendingLookups.map fun x => x.2.tokens).sum + (c.frames.map tokens).sum

/-- The messages whose handler has been run on the node. -/
def handled : Multiset ℕ := (c.delivered.map Delivery.token : List ℕ)

def held : Multiset ℕ := c.inFlight + c.buffered + c.handled

/-- The units of the pending actions and of the actions and handlers being run. -/
def owed : Multiset (ℕ × EpochType) :=
  (c.pendingLookups.map fun x => x.2.units).sum + (c.frames.map units).sum

/-- The units produced are those consumed and owed, apart from `U`. -/
def Balanced (U : Multiset (ℕ × EpochType)) (c : Coord E N) : Prop :=
  (c.produced : Multiset (ℕ × EpochType)) = c.consumed + c.owed + U

end Coord

/-- A function adds the messages `T` to those of the node, and settles the units `U`. -/
structure Moves (T : Multiset ℕ) (U : Multiset (ℕ × EpochType)) (c c' : Coord E N) : Prop where
  here : c'.here = c.here
  held : c'.held = T + c.held
  balanced : c.Balanced U → c'.Balanced 0

/-- A loop over actions resolved to the node itself that still has an action of `routeMsgNode`
to run is one for an entity that is registered. -/
def Frame.SafeIn (here : N) (ids : Finset E) : Frame E N → Prop
  | .actions id resolved rest => resolved = here → (∃ p ∈ rest, p.isRouted = true) → id ∈ ids
  | _ => True

namespace Coord

/-- The entry of the directory. -/
def entry (c : Coord E N) (id : E) : Option N := (c.recs.directory id).map LocRecord.curNode

/-- A function has neither registered the entity nor taken it away, and it has not touched the
record of an entity that is not here.  What was to be sent still is. -/
structure Keeps (id : E) (home : N) (c c' : Coord E N) : Prop where
  here : c'.here = c.here
  node : c'.recs.thisNode = c.recs.thisNode
  registered : id ∈ c'.localRegistered ↔ id ∈ c.localRegistered
  entry : c.recs.thisNode = home → id ∉ c.localRegistered → c'.entry id = c.entry id
  outbox : c.outbox ⊆ c'.outbox
  frames : c.frames ⊆ c'.frames

structure Safe (c : Coord E N) : Prop where
  delivered : ∀ d ∈ c.delivered, d.registered = true
  frames : ∀ f ∈ c.frames, f.SafeIn c.here c.localRegistered

end Coord

variable {T : Multiset ℕ} {U : Multiset (ℕ × EpochType)} {c c' c'' : Coord E N} {m : EntityMsg E N}
  {id id' : E} {n home homeNode : N} {cur e : EpochType} {t : ℕ} {p : Pending E N}
  {msg : LocMsg E N} {P Q : Prop}

theorem Moves.refl (c : Coord E N) : Moves 0 0 c c :=
  ⟨rfl, (zero_add _).symm, fun h => h⟩

theorem Moves.trans (h : Moves 0 0 c c') (h' : Moves T 0 c' c'') : Moves T 0 c c'' where
  here := h'.here.trans h.here
  held := by rw [h'.held, h.held, zero_add]
  balanced hb := h'.balanced (h.balanced hb)

/-! ## The effect of the elementary changes -/

namespace Coord

theorem Keeps.refl (id : E) (home : N) (c : Coord E N) : Keeps id home c c :=
  ⟨rfl, rfl, Iff.rfl, fun _ _ => rfl, Subset.refl _, Subset.refl _⟩

theorem Keeps.trans (h : Keeps id home c c') (h' : Keeps id home c' c'') : Keeps id home c c'' where
  here := h'.here.trans h.here
  node := h'.node.trans h.node
  registered := h'.registered.trans h.registered
  entry hn hid := (h'.entry (h.node.trans hn) fun hc => hid (h.registered.mp hc)).trans
    (h.entry hn hid)
  outbox := Subset.trans h.outbox h'.outbox
  frames := Subset.trans h.frames h'.frames

@[simp] theorem held_push (fs : List (Frame E N)) :
    (c.push fs).held = (fs.map tokens).sum + c.held := by
  simp only [held, buffered, inFlight, handled, push, map_append, sum_append]
  abel

@[simp] theorem held_send (msg : LocMsg E N) : (c.send n msg).held = msg.tokens + c.held := by
  simp only [held, buffered, inFlight, handled, send, map_append, sum_append,
    map_cons, map_nil, sum_singleton]
  abel

@[simp] theorem held_insertPendingEntityAction :
    (c.insertPendingEntityAction id p).held = p.tokens + c.held := by
  simp only [held, buffered, inFlight, handled, insertPendingEntityAction, map_append,
    sum_append, map_cons, map_nil, sum_singleton]
  abel

theorem Balanced.produce (h : c.Balanced U) : (c.produce t e).Balanced ({(t, e)} + U) := by
  have hc : (c.produced : Multiset (ℕ × EpochType)) = c.consumed + c.owed + U := h
  change (t, e) ::ₘ (c.produced : Multiset (ℕ × EpochType)) = c.consumed + c.owed + ({(t, e)} + U)
  rw [hc, ← Multiset.singleton_add]
  abel

theorem Balanced.consume (h : c.Balanced {(t, e)}) : (c.consume t e).Balanced 0 := by
  have hc : (c.produced : Multiset (ℕ × EpochType)) = c.consumed + c.owed + {(t, e)} := h
  change (c.produced : Multiset (ℕ × EpochType)) = (t, e) ::ₘ c.consumed + c.owed + 0
  rw [hc, ← Multiset.singleton_add]
  abel

/-- Units are settled by what will consume them. -/
theorem Balanced.push {fs : List (Frame E N)} (h : c.Balanced ((fs.map units).sum + U)) :
    (c.push fs).Balanced U := by
  have hc : (c.produced : Multiset (ℕ × EpochType)) =
    c.consumed + c.owed + ((fs.map units).sum + U) := h
  simp only [Balanced, owed, Coord.push, map_append, sum_append] at hc ⊢
  rw [hc]
  abel

theorem Balanced.insertPendingEntityAction (h : c.Balanced p.units) :
    (c.insertPendingEntityAction id p).Balanced 0 := by
  have hc : (c.produced : Multiset (ℕ × EpochType)) = c.consumed + c.owed + p.units := h
  simp only [Balanced, owed, Coord.insertPendingEntityAction, map_append, sum_append,
    map_cons, map_nil, sum_singleton] at hc ⊢
  rw [hc]
  abel

theorem keeps_push (c : Coord E N) (fs : List (Frame E N)) : Keeps id home c (c.push fs) :=
  ⟨rfl, rfl, Iff.rfl, fun _ _ => rfl, refl _, subset_append_right _ _⟩

theorem Safe.push {fs : List (Frame E N)} (h : c.Safe)
    (hfs : ∀ f ∈ fs, f.SafeIn c.here c.localRegistered) : (c.push fs).Safe where
  delivered := h.delivered
  frames := by
    intro f hf
    cases mem_append.mp hf with
    | inl hnew => exact hfs f hnew
    | inr hold => exact h.frames f hold

end Coord

/-- A function disposes of the messages `T` and the units `U`, leaves what the directory knows of
entities that are not here, and runs handlers for registered entities only, given `P`. -/
structure Routes (T : Multiset ℕ) (U : Multiset (ℕ × EpochType)) (P : Prop) (c c' : Coord E N) :
    Prop where
  moves : Moves T U c c'
  keeps : ∀ id home, Coord.Keeps id home c c'
  safe : P → c.Safe → c'.Safe

namespace Routes

theorem refl (c : Coord E N) : Routes 0 0 True c c :=
  ⟨Moves.refl c, fun id home => Coord.Keeps.refl id home c, fun _ hs => hs⟩

theorem trans (h : Routes 0 0 True c c') (h' : Routes T 0 P c' c'') : Routes T 0 P c c'' where
  moves := h.moves.trans h'.moves
  keeps id home := (h.keeps id home).trans (h'.keeps id home)
  safe hP hs := h'.safe hP (h.safe trivial hs)

theorem imp (h : Routes T U P c c') (hP : Q → P) : Routes T U Q c c' :=
  ⟨h.moves, h.keeps, fun hQ => h.safe (hP hQ)⟩

/-- The records are changed before. -/
theorem of_recs {recs : LocLookup E (LocRecord E N) N} (h : Routes T U P { c with recs := recs } c')
    (hk : ∀ id home, Coord.Keeps id home c { c with recs := recs }) : Routes T U P c c' where
  moves := ⟨h.moves.here, h.moves.held, h.moves.balanced⟩
  keeps id home := (hk id home).trans (h.keeps id home)
  safe hP hs := h.safe hP ⟨hs.delivered, hs.frames⟩

/-- The rest of an action with a message: the unit of the message is left to a frame. -/
theorem of_consume (h : Routes T 0 P (c.push [.consume t e]) c') : Routes T {(t, e)} P c c' where
  moves :=
    { here := h.moves.here
      held := by simpa [tokens] using h.moves.held
      balanced hb := h.moves.balanced (Coord.Balanced.push (by simpa [units] using hb)) }
  keeps id home := (Coord.keeps_push c _).trans (h.keeps id home)
  safe hP hs := h.safe hP (hs.push (by simp [Frame.SafeIn]))

theorem of_produce (h : Routes T {(t, e)} P (c.produce t e) c') : Routes T 0 P c c' where
  moves := ⟨h.moves.here, h.moves.held, fun hb => h.moves.balanced (by simpa using hb.produce)⟩
  keeps id home := by
    obtain ⟨hh, hn, hr, he, ho, hf⟩ := h.keeps id home
    exact ⟨hh, hn, hr, he, ho, hf⟩
  safe hP hs := h.safe hP ⟨hs.delivered, hs.frames⟩

end Routes

namespace Coord

theorem keeps_send (c : Coord E N) (n : N) (msg : LocMsg E N) : Keeps id home c (c.send n msg) :=
  ⟨rfl, rfl, Iff.rfl, fun _ _ => rfl, subset_append_left _ _, refl _⟩

theorem routes_send (c : Coord E N) (n : N) (msg : LocMsg E N) :
    Routes msg.tokens 0 True c (c.send n msg) where
  moves := ⟨rfl, held_send msg, fun h => h⟩
  keeps _ _ := keeps_send c n msg
  safe _ hs := ⟨hs.delivered, hs.frames⟩

/-- A pending action takes over its message and its unit. -/
theorem routes_insertPendingEntityAction :
    Routes p.tokens p.units True c (c.insertPendingEntityAction id p) where
  moves := ⟨rfl, held_insertPendingEntityAction, fun h => h.insertPendingEntityAction⟩
  keeps _ _ := ⟨rfl, rfl, Iff.rfl, fun _ _ => rfl, refl _, refl _⟩
  safe _ hs := ⟨hs.delivered, hs.frames⟩

theorem token_setupEpochMsg : (m.setupEpochMsg cur).token = m.token := by
  rw [EntityMsg.setupEpochMsg]
  split <;> rfl

variable [DecidableEq E] [DecidableEq N]

theorem routes_insertAsk (ask : Option N) : Routes 0 0 True c (c.insertAsk id ask) := by
  cases ask with
  | none => exact Routes.refl c
  | some n =>
    exact ⟨⟨rfl, (zero_add _).symm, fun h => h⟩, fun _ _ => ⟨rfl, rfl, Iff.rfl, fun _ _ => rfl,
      refl _, refl _⟩, fun _ hs => ⟨hs.delivered, hs.frames⟩⟩

theorem thisNode_insertRec (c : Coord E N) (id' : E) (homeNode n : N) (st : LocState) :
    (c.insertRec id' homeNode st n).recs.thisNode = c.recs.thisNode := by
  simp only [insertRec, LocLookup.insert]
  split_ifs <;> rfl

/-- A record of another entity, or one for the cache, leaves the directory alone. -/
theorem keeps_insertRec {st : LocState}
    (h : id' = id → homeNode = home → c.recs.thisNode = home → id ∈ c.localRegistered) :
    Keeps id home c (c.insertRec id' homeNode st n) where
  here := rfl
  node := thisNode_insertRec c id' homeNode n st
  registered := Iff.rfl
  entry hn hid := by
    simp only [entry, insertRec, LocLookup.insert]
    split_ifs with hhome
    · have hne : id ≠ id' := fun heq => hid (h heq.symm (hhome.symm.trans hn) hn)
      simp [hne]
    · rfl
  outbox := refl _
  frames := refl _

omit [DecidableEq N] in
/-- Reading a record may reorder the cache. -/
theorem keeps_get {r : LocRecord E N} {recs : LocLookup E (LocRecord E N) N}
    (h : c.recs.get id' = some (r, recs)) : Keeps id home c { c with recs := recs } := by
  have hrecs : recs.thisNode = c.recs.thisNode ∧ recs.directory = c.recs.directory := by
    rw [LocLookup.get] at h
    split at h
    · obtain ⟨-, rfl⟩ := Prod.mk.inj (Option.some.inj h)
      exact ⟨rfl, rfl⟩
    · obtain ⟨x, -, hx⟩ := map_eq_some_iff.mp h
      obtain ⟨-, rfl⟩ := Prod.mk.inj hx
      exact ⟨rfl, rfl⟩
  exact ⟨rfl, hrecs.1, Iff.rfl, fun _ _ => by simp [entry, hrecs.2], refl _,
    refl _⟩

/-! ## Routing -/

section

omit [DecidableEq N]

theorem held_deliver : (c.deliver id t).held = {t} + c.held := by
  simp only [held, handled, deliver, map_cons, ← Multiset.cons_coe, ← Multiset.singleton_add]
  exact add_left_comm _ _ _

theorem routes_code {fs : List (Frame E N)} (ht : (fs.map tokens).sum = 0)
    (hu : (fs.map units).sum = 0) (hfs : ∀ f ∈ fs, f.SafeIn c.here c.localRegistered) :
    Routes {t} 0 (id ∈ c.localRegistered) c ((c.deliver id t).push fs) where
  moves :=
    { here := rfl
      held := by rw [held_push, held_deliver, ht, zero_add]
      balanced hb := Balanced.push (show (c.deliver id t).Balanced _ by rwa [hu]) }
  keeps _ _ := ⟨rfl, rfl, Iff.rfl, fun _ _ => rfl, refl _, subset_append_right _ _⟩
  safe hid hs := by
    refine Safe.push (c := c.deliver id t) ⟨?_, hs.frames⟩ hfs
    intro d hd
    cases mem_cons.mp hd with
    | inl hnew => simpa [hnew] using hid
    | inr hold => exact hs.delivered d hold

theorem routes_triggerMsgHandlerAction (h : c.triggerMsgHandlerAction home m id = some c') :
    Routes {m.token} 0 (id ∈ c.localRegistered) c c' := by
  obtain ⟨-, rfl⟩ := of_guard h
  exact routes_code (by simp [tokens]) (by simp [units]) (by simp [Frame.SafeIn])

end

theorem routes_routeMsgNode (h : c.routeMsgNode id home n m cur = some c') :
    Routes {m.token} 0 True c c' := by
  simp only [routeMsgNode] at h
  split_ifs at h with hn hreg
  · -- sent on, with another node to ask
    obtain rfl := Option.some.inj h
    have hs := routes_send (c.insertAsk id m.askNode) n
      (.routed ({ m with askNode := some c.here }.setupEpochMsg cur))
    rw [LocMsg.tokens, token_setupEpochMsg] at hs
    exact (routes_insertAsk m.askNode).trans hs
  · exact ((routes_triggerMsgHandlerAction h).imp fun _ => hreg).of_consume.of_produce
  · obtain rfl := Option.some.inj h
    exact (routes_insertPendingEntityAction
      (p := .routed home m (m.getEpochContextMsg cur))).of_produce

/-- An action of `routeMsgNode` that is resolved to the node itself runs the handler. -/
theorem routes_runAction (h : c.runAction id n p = some c') : Routes p.tokens p.units
    (n = c.here → p.isRouted = true → id ∈ c.localRegistered) c c' := by
  cases p with
  | routed home m epoch =>
    rw [runAction] at h
    split_ifs at h with hn
    · exact ((routes_triggerMsgHandlerAction h).imp fun hP => hP hn rfl).of_consume
    · exact ((routes_routeMsgNode h).imp fun _ => trivial).of_consume
  | lookup m epoch => exact ((routes_routeMsgNode h).imp fun _ => trivial).of_consume
  | request cb home =>
    obtain rfl := Option.some.inj h
    exact (routes_send c cb (.updateLocation id n home)).imp fun _ => trivial
  | action =>
    obtain rfl := Option.some.inj h
    exact ⟨⟨rfl, by simp [Pending.tokens, tokens], fun hb => Balanced.push (by
      simpa [units, Pending.units] using hb)⟩, fun _ _ => keeps_push c _,
      fun _ hs => hs.push (by simp [Frame.SafeIn])⟩

theorem routes_getLocation (h : c.getLocation id home p = some c') :
    Routes p.tokens p.units (p.isRouted = false) c c' := by
  simp only [getLocation] at h
  split_ifs at h with hreg hex hn
  · exact ((routes_runAction h).imp fun _ _ _ => hreg).of_recs fun _ _ =>
      keeps_insertRec fun heq _ _ => heq ▸ hreg
  · obtain ⟨⟨r, recs⟩, hget, h⟩ := bind_eq_some_iff.mp h
    obtain ⟨-, h⟩ := ite_none_left_eq_some.mp h
    exact ((routes_runAction h).imp fun hp _ hr => by simp [hp] at hr).of_recs fun _ _ =>
      keeps_get hget
  · obtain rfl := Option.some.inj h
    have hp : Routes p.tokens p.units True _ ((c.send home (.getLocationRequest id home
      c.here)).insertPendingEntityAction id p) := routes_insertPendingEntityAction
    refine ⟨⟨rfl, by simp [LocMsg.tokens], fun hb => Balanced.insertPendingEntityAction hb⟩, ?_,
      fun _ hs => ⟨hs.delivered, hs.frames⟩⟩
    exact fun id' home' => (keeps_send c home _).trans (hp.keeps id' home')
  · obtain rfl := Option.some.inj h
    exact routes_insertPendingEntityAction.imp fun _ => trivial

theorem routes_routeMsgEager (h : c.routeMsgEager id home m cur = some c') :
    Routes {m.token} 0 True c c' := by
  simp only [routeMsgEager] at h
  split_ifs at h with hreg hex hn
  · exact (routes_routeMsgNode h).of_recs fun _ _ => keeps_insertRec fun heq _ _ => heq ▸ hreg
  · obtain ⟨⟨r, recs⟩, hget, h⟩ := bind_eq_some_iff.mp h
    exact (routes_routeMsgNode h).of_recs fun _ _ => keeps_get hget
  · exact routes_routeMsgNode h
  · exact routes_routeMsgNode h

theorem routes_routePreparedMsg (h : c.routePreparedMsg m cur = some c') :
    Routes {m.token} 0 True c c' := by
  simp only [routePreparedMsg] at h
  split_ifs at h with heager
  · exact routes_routeMsgEager h
  · exact ((routes_getLocation h).imp fun _ => rfl).of_produce

theorem routes_routePreparedMsgHandler (h : c.routePreparedMsgHandler m cur = some c') :
    Routes {m.token} 0 True c c' := by
  rw [routePreparedMsgHandler] at h
  split_ifs at h with hreg
  · obtain rfl := Option.some.inj h
    exact (routes_code (by simp [tokens]) (by simp [units]) (by simp [Frame.SafeIn])).imp
      fun _ => hreg
  · exact routes_routePreparedMsg h

omit [DecidableEq E] in
theorem routes_sendEagerUpdate (c : Coord E N) (ask : N) :
    Routes 0 0 True c (c.sendEagerUpdate id ask home n) := by
  rw [sendEagerUpdate]
  split_ifs
  · exact routes_send c ask (.eagerUpdate id home n)
  · exact Routes.refl c

theorem routes_answerAsks (c : Coord E N) (id : E) (home n : N) :
    Routes 0 0 True c (c.answerAsks id home n) := by
  have htold : ∀ (l : List N) (c : Coord E N),
      Routes 0 0 True c (l.foldl (fun c ask => c.sendEagerUpdate id ask home n) c) := by
    intro l
    induction l with
    | nil => exact Routes.refl
    | cons ask l ih => exact fun c => (routes_sendEagerUpdate c ask).trans (ih _)
  obtain ⟨⟨hh, ht, hb⟩, hk, hs⟩ := htold ((c.locAsks.filter fun x => x.1 = id).map Prod.snd) c
  refine ⟨⟨hh, ht, hb⟩, fun id' home' => ?_, fun _ hc => ⟨(hs trivial hc).1, (hs trivial hc).2⟩⟩
  obtain ⟨hh', hn, hr, he, ho, hf⟩ := hk id' home'
  exact ⟨hh', hn, hr, he, ho, hf⟩

end Coord

end VtRuntime.Topos
