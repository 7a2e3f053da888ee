import VtRuntime.Topos.Routing
import Mathlib.Data.Fintype.Basic

/-!
# What the home of an entity knows

The home of an entity is told by `updateLocation` where the entity has been registered, and by
`handleEagerUpdate` where a message to it has been delivered.  Either one overwrites the entry of
the directory, and neither says when it was sent: an update that names a node the entity has
left overwrites the entry for good when it is handled after the update of the present node.

As long as this does not happen, the entry names the node of the entity, or an update that names
it is still to come.
-/

namespace VtRuntime.Topos

open Lib Epoch Option Coord List List.Subset LocLookup

universe u

variable {E N : Type u}

/-- The entity, its home and its node, as a location message names them. -/
def LocMsg.location : LocMsg E N → Option (E × N × N)
  | .updateLocation id answer homeNode => some (id, homeNode, answer)
  | .eagerUpdate id homeNode deliverNode => some (id, homeNode, deliverNode)
  | .routed _ => none
  | .getLocationRequest .. => none

/-- The entity whose registration has yet to be told to its home. -/
def Frame.told : Frame E N → Option (E × N)
  | .tell id home => some (id, home)
  | _ => none

namespace Coord

/-- The location message has been sent to the node `n` and has not arrived. -/
def Sent (c : Coord E N) (n : N) (loc : E × N × N) : Prop :=
  ∃ x ∈ c.outbox, x.1 = n ∧ x.2.location = some loc

/-- The node is in the middle of the registration of the entity. -/
def Tells (c : Coord E N) (id : E) (home : N) : Prop :=
  ∃ f ∈ c.frames, f.told = some (id, home)

/-- The node that a home has on record for an entity. -/
def homeRecord [DecidableEq E] (c : Coord E N) (id : E) : Option N :=
  if id ∈ c.localRegistered then some c.here else c.entry id

variable {c c' c'' : Coord E N} {id id' : E} {n home homeNode : N} {m : EntityMsg E N} {t : ℕ}
  {cur e : EpochType} {p : Pending E N}

theorem Keeps.sent (h : Keeps id home c c') {loc : E × N × N} (hs : c.Sent n loc) :
    c'.Sent n loc := by
  obtain ⟨x, hx, hloc⟩ := hs
  exact ⟨x, h.outbox hx, hloc⟩

theorem Keeps.tells (h : Keeps id home c c') (hs : c.Tells id' homeNode) :
    c'.Tells id' homeNode := by
  obtain ⟨f, hf, htold⟩ := hs
  exact ⟨f, h.frames hf, htold⟩

/-! ## What the functions keep -/

variable [DecidableEq E] [DecidableEq N]

omit [DecidableEq N] in
theorem keeps_resolve (c : Coord E N) (id' : E) (n : N) : Keeps id home c (c.resolve id' n) :=
  ⟨rfl, rfl, Iff.rfl, fun _ _ => rfl, refl _, subset_cons_self _ _⟩

theorem entry_insertRec_self (c : Coord E N) (id : E) (n : N) (st : LocState) :
    (c.insertRec id c.recs.thisNode st n).entry id = some n := by
  simp [entry, insertRec, LocLookup.insert]

/-! ## Updates and registrations -/

theorem keeps_learn {msg : LocMsg E N} (h : c.receive cur msg = some c')
    (hloc : msg.location = some (id', homeNode, n)) :
    Keeps id home (c.insertRec id' homeNode .remote n) c' := by
  cases msg with
  | updateLocation a answer b =>
    obtain rfl := some.inj h
    obtain ⟨rfl, rfl, rfl⟩ : a = id' ∧ b = homeNode ∧ answer = n := by
      simpa [LocMsg.location] using hloc
    exact keeps_resolve _ a answer
  | eagerUpdate a b deliverNode =>
    obtain ⟨-, rfl⟩ := of_guard h
    obtain ⟨rfl, rfl, rfl⟩ : a = id' ∧ b = homeNode ∧ deliverNode = n := by
      simpa [LocMsg.location] using hloc
    exact (routes_answerAsks _ _ _ _).keeps id home
  | routed | getLocationRequest => simp [LocMsg.location] at hloc

/-- A message that is not an update for the home. -/
theorem keeps_receive {msg : LocMsg E N} (h : c.receive cur msg = some c')
    (hloc : c.recs.thisNode = home → ∀ n, msg.location ≠ some (id, home, n)) :
    Keeps id home c c' := by
  have hlearn : ∀ id' homeNode n, msg.location = some (id', homeNode, n) →
      Keeps id home c (c.insertRec id' homeNode .remote n) := by
    intro id' homeNode n heq
    refine keeps_insertRec ?_
    rintro rfl rfl hnode
    exact absurd heq (hloc hnode n)
  cases msg with
  | routed m => exact (routes_routePreparedMsg h).keeps id home
  | getLocationRequest a b cb =>
    exact (routes_getLocation (p := .request cb b) h).keeps id home
  | updateLocation | eagerUpdate => exact (hlearn _ _ _ rfl).trans (keeps_learn h rfl)

theorem keeps_resumeFrame {f : Frame E N} (h : c.resumeFrame f = some c') : Keeps id home c c' := by
  cases f with
  | code =>
    obtain rfl := some.inj h
    exact Keeps.refl id home c
  | eagerUpdate id' homeNode ask =>
    cases ask with
    | none =>
      obtain rfl := some.inj h
      exact Keeps.refl id home c
    | some ask =>
      obtain rfl := some.inj h
      exact (routes_sendEagerUpdate c ask).keeps id home
  | consume t e =>
    obtain rfl := some.inj h
    exact ⟨rfl, rfl, Iff.rfl, fun _ _ => rfl, refl _, refl _⟩
  | actions id' resolved rest =>
    cases rest with
    | nil =>
      obtain rfl := some.inj h
      exact Keeps.refl id home c
    | cons p rest => exact (keeps_push c _).trans ((routes_runAction h).keeps id home)
  | tell id' homeNode =>
    obtain rfl := some.inj h
    split_ifs
    · exact keeps_send c homeNode _
    · exact Keeps.refl id home c

omit [DecidableEq N] in
theorem keeps_emplaceHandler (c : Coord E N) (act : Bool) :
    Keeps id home c (c.emplaceHandler id' act) := by
  cases act <;> exact ⟨rfl, rfl, Iff.rfl, fun _ _ => rfl, refl _, refl _⟩

/-- After its registration an entity is here, and its homeNode is going to be told. -/
theorem registerEntity_spec {act : Bool} (h : c.registerEntity id homeNode act = some c') :
    c'.here = c.here ∧ c'.recs.thisNode = c.recs.thisNode ∧ c'.Tells id homeNode := by
  obtain ⟨-, rfl⟩ := of_guard h
  set d := ((c.setRegistered (insert id c.localRegistered)).insertRec id homeNode .localTo
    c.here).emplaceHandler id act with hd
  have hkeep : Keeps id homeNode (d.push [.tell id homeNode])
      ((d.push [.tell id homeNode]).resolve id c.here) :=
    keeps_resolve _ id c.here
  have hact : Keeps id homeNode
      ((c.setRegistered (insert id c.localRegistered)).insertRec id homeNode .localTo c.here) d :=
    keeps_emplaceHandler _ act
  refine ⟨hkeep.here.trans hact.here, ?_, hkeep.tells ⟨.tell id homeNode, by simp [push], rfl⟩⟩
  exact hkeep.node.trans (hact.node.trans (thisNode_insertRec _ _ _ _ _))

theorem keeps_registerEntity {act : Bool} (hne : id' ≠ id)
    (h : c.registerEntity id' homeNode act = some c') : Keeps id home c c' := by
  obtain ⟨-, rfl⟩ := of_guard h
  have hreg : Keeps id home c (c.setRegistered (insert id' c.localRegistered)) :=
    ⟨rfl, rfl, by simp [setRegistered, hne.symm], fun _ _ => rfl, refl _,
      refl _⟩
  have hrec : Keeps id home (c.setRegistered (insert id' c.localRegistered))
      ((c.setRegistered (insert id' c.localRegistered)).insertRec id' homeNode .localTo c.here) :=
    keeps_insertRec fun heq _ _ => absurd heq hne
  exact hreg.trans (hrec.trans ((keeps_emplaceHandler _ act).trans ((keeps_push _ _).trans
    (keeps_resolve _ id' c.here))))

omit [DecidableEq N] in
theorem keeps_unregisterEntity (hne : id' ≠ id) (h : c.unregisterEntity id' = some c') :
    Keeps id home c c' := by
  obtain ⟨-, rfl⟩ := of_guard h
  refine ⟨rfl, ?_, by simp [setRegistered, hne.symm], fun _ => ?_, refl _,
    refl _⟩
  · by_cases hex : c.recs.existsKey id' <;> simp [hex, remove]
  · by_cases hex : c.recs.existsKey id' <;> simp [entry, hex, remove, hne.symm]

omit [DecidableEq N] in
theorem keeps_entityEmigrated (hne : id' ≠ id) : Keeps id home c (c.entityEmigrated id' n) := by
  refine ⟨rfl, ?_, by simp [entityEmigrated, setRegistered, hne.symm], fun _ => ?_,
    refl _, refl _⟩
  · simp only [entityEmigrated, update]
    split_ifs <;> rfl
  · simp only [entityEmigrated, update, entry]
    split_ifs <;> simp [hne.symm]

end Coord

/-! ## Runs -/

namespace LocSys

variable (id : E) (home : N) (s : LocSys E N)

/-- An update that names the node `m` is on its way to the home, or about to be sent. -/
def Coming (id : E) (home m : N) : Prop :=
  (s.coords m).Tells id home ∨ ∃ n, (s.coords n).Sent home (id, home, m)

/-- No location message about the entity is in flight, and no registration of it is going on
that has yet to send one. -/
def Quiet (id : E) : Prop :=
  ∀ n, (∀ home, ¬ (s.coords n).Tells id home) ∧
    ∀ n' home m, ¬ (s.coords n).Sent n' (id, home, m)

/-- The entity is not registered, as before its creation and while it migrates. -/
def Nowhere (id : E) : Prop := ∀ n, id ∉ (s.coords n).localRegistered

/-- An entity is on one node at a time and has one home: it is registered when it is nowhere,
and it leaves the node where it is. -/
def Migrates : LocAct E N → Prop
  | .call _ (.registerEntity id' home' _) => id' = id → home' = home ∧ s.Nowhere id
  | .call _ (.entityImmigrated id' home' _) => id' = id → home' = home ∧ s.Nowhere id
  | .call _ (.registerEntityRemote id' _ _ _) => id' = id → s.Nowhere id
  | .call n (.entityEmigrated id' _) => id' = id → id ∈ (s.coords n).localRegistered
  | _ => True

/-- The message with the number `i` in the outbox of the sender tells the home that the entity is
on the node `x`. -/
def Updates (sender : N) (i : ℕ) (x : N) : Prop :=
  (s.coords sender).outbox[i]?.map (fun y => (y.1, y.2.location)) =
    some (home, some (id, home, x))

/-- The home handles no update that names another node than that of the entity, unless one that
names it is still to come. -/
def Timely : LocAct E N → Prop
  | .deliver sender i _ => ∀ x, Updates id home s sender i x →
      ∀ m, m ≠ home → id ∈ (s.coords m).localRegistered → x = m ∨ s.Coming id home m
  | _ => True

def Orderly (a : LocAct E N) : Prop :=
  Migrates id home s a ∧ Timely id home s a

/-- The entity is on one node at most.  Unless that is the home, the directory of the home names
it or is going to. -/
structure HomeInv : Prop where
  here : ∀ n, (s.coords n).here = n
  node : ∀ n, (s.coords n).recs.thisNode = n
  one : ∀ n n', id ∈ (s.coords n).localRegistered → id ∈ (s.coords n').localRegistered → n = n'
  known : ∀ m, id ∈ (s.coords m).localRegistered → m ≠ home →
    (s.coords home).entry id = some m ∨ s.Coming id home m

variable {s s' : LocSys E N} {a : LocAct E N} {id : E} {home n m : N} {c : Coord E N}

variable [DecidableEq N]

@[simp] theorem coords_setCoord_self : (s.setCoord n c).coords n = c := by
  simp [setCoord]

theorem coords_setCoord_of_ne (h : m ≠ n) : (s.setCoord n c).coords m = s.coords m := by
  simp [setCoord, h]

/-- What holds of the changed node and of all nodes before holds of all nodes. -/
theorem forall_coords (P : N → Coord E N → Prop) (hc : P n c) (h : ∀ k, k ≠ n → P k (s.coords k))
    (k : N) : P k ((s.setCoord n c).coords k) := by
  by_cases hk : k = n
  · rw [hk, coords_setCoord_self]
    exact hc
  · rw [coords_setCoord_of_ne hk]
    exact h k hk

theorem sent_setCoord {loc : E × N × N} (h : (s.coords n).Sent home loc → c.Sent home loc) :
    ∀ k, (s.coords k).Sent home loc → ((s.setCoord n c).coords k).Sent home loc :=
  forall_coords (fun k d => (s.coords k).Sent home loc → d.Sent home loc) h fun _ _ hs => hs

theorem Coming.setCoord (h : s.Coming id home m)
    (hsent : ∀ loc, (s.coords n).Sent home loc → c.Sent home loc)
    (htell : (s.coords n).Tells id home → c.Tells id home) : (s.setCoord n c).Coming id home m := by
  rcases h with ht | ⟨k, hk⟩
  · exact .inl (forall_coords (fun k d => (s.coords k).Tells id home → d.Tells id home) htell
      (fun _ _ hs => hs) m ht)
  · exact .inr ⟨k, sent_setCoord (hsent _) k hk⟩

/-- A change of a node that leaves the entity where it is. -/
theorem HomeInv.change (h : HomeInv id home s) (hhere : c.here = n) (hnode : c.recs.thisNode = n)
    (hreg : id ∈ c.localRegistered → id ∈ (s.coords n).localRegistered)
    (hknown : ∀ m, id ∈ (s.coords m).localRegistered → m ≠ home →
      ((s.setCoord n c).coords home).entry id = some m ∨ (s.setCoord n c).Coming id home m) :
    HomeInv id home (s.setCoord n c) := by
  have hr := forall_coords (fun k d => id ∈ d.localRegistered →
    id ∈ (s.coords k).localRegistered) hreg fun _ _ hk => hk
  refine ⟨forall_coords (fun k d => d.here = k) hhere fun k _ => h.here k,
    forall_coords (fun k d => d.recs.thisNode = k) hnode fun k _ => h.node k, ?_, ?_⟩
  · intro k k' hk hk'
    exact h.one k k' (hr k hk) (hr k' hk')
  · intro m hm hne
    exact hknown m (hr m hm) hne

/-- The directory of the home changes only if the home handles an update. -/
theorem entry_setCoord (hk : Keeps id home (s.coords n) c)
    (hnode : (s.coords n).recs.thisNode = n) (hhome : id ∉ (s.coords home).localRegistered) :
    ((s.setCoord n c).coords home).entry id = (s.coords home).entry id := by
  by_cases hn : home = n
  · subst hn
    rw [coords_setCoord_self]
    exact hk.entry hnode hhome
  · rw [coords_setCoord_of_ne hn]

theorem HomeInv.keeps (h : HomeInv id home s) (hk : Keeps id home (s.coords n) c) :
    HomeInv id home (s.setCoord n c) := by
  refine h.change (hk.here.trans (h.here n)) (hk.node.trans (h.node n)) hk.registered.mp ?_
  intro m hm hne
  have hhome : id ∉ (s.coords home).localRegistered := fun hr => hne (h.one m home hm hr)
  rw [entry_setCoord hk (h.node n) hhome]
  exact (h.known m hm hne).imp_right fun hcoming => hcoming.setCoord (fun _ => hk.sent) hk.tells

/-- While the entity is registered nowhere, the home need not know anything. -/
theorem HomeInv.nowhere (h : HomeInv id home s) (hhere : c.here = n)
    (hnode : c.recs.thisNode = n) (hc : id ∉ c.localRegistered)
    (hrest : ∀ k, k ≠ n → id ∉ (s.coords k).localRegistered) :
    HomeInv id home (s.setCoord n c) := by
  have hno := forall_coords (fun _ d => id ∉ d.localRegistered) hc hrest
  exact ⟨forall_coords (fun k d => d.here = k) hhere fun k _ => h.here k,
    forall_coords (fun k d => d.recs.thisNode = k) hnode fun k _ => h.node k,
    fun k _ hk => absurd hk (hno k), fun k hk => absurd hk (hno k)⟩

variable [DecidableEq E]

/-- The registration of the entity on a node: the node is going to tell the home. -/
theorem HomeInv.register {act : Bool} (h : HomeInv id home s) (hno : s.Nowhere id)
    (hc : (s.coords n).registerEntity id home act = some c) : HomeInv id home (s.setCoord n c) := by
  obtain ⟨hhere, hnode, htell⟩ := registerEntity_spec hc
  have hat := forall_coords (c := c) (fun k d => id ∈ d.localRegistered → k = n) (fun _ => rfl)
    fun k _ hk => absurd hk (hno k)
  refine ⟨forall_coords (fun k d => d.here = k) (hhere.trans (h.here n)) fun k _ => h.here k,
    forall_coords (fun k d => d.recs.thisNode = k) (hnode.trans (h.node n)) fun k _ => h.node k,
    fun k k' hk hk' => (hat k hk).trans (hat k' hk').symm, ?_⟩
  intro k hk _
  refine .inr (.inl ?_)
  rw [hat k hk, coords_setCoord_self]
  exact htell

theorem HomeInv.call {k : Call E N} {t : ℕ} (h : HomeInv id home s)
    (hok : Migrates id home s (.call n k)) (hc : (s.coords n).invoke t k = some c) :
    HomeInv id home (s.setCoord n c) := by
  have hleft (hr : id ∈ (s.coords n).localRegistered) :
      ∀ k, k ≠ n → id ∉ (s.coords k).localRegistered := fun k hk hr' => hk (h.one k n hr' hr)
  cases k with
  | registerEntity id' home' act | entityImmigrated id' home' act =>
    by_cases hid : id' = id
    · subst hid
      obtain ⟨rfl, hno⟩ := hok rfl
      exact h.register hno hc
    · exact h.keeps (keeps_registerEntity hid hc)
  | registerEntityRemote id' home' create act =>
    obtain ⟨⟨hreg, rfl⟩, rfl⟩ := of_guard hc
    have hact : Keeps id home ((s.coords n).insertRec id' (s.coords n).here .remote create)
      (((s.coords n).insertRec id' (s.coords n).here .remote create).emplaceHandler id' act) :=
      keeps_emplaceHandler _ act
    by_cases hid : id' = id
    · subst hid
      have hno := hok rfl
      refine h.nowhere (hact.here.trans (h.here n)) ?_ (fun hr => hno n (hact.registered.mp hr))
        fun k _ => hno k
      exact hact.node.trans ((thisNode_insertRec _ _ _ _ _).trans (h.node n))
    · exact h.keeps ((keeps_insertRec fun heq _ _ => absurd heq hid).trans hact)
  | unregisterEntity id' =>
    by_cases hid : id' = id
    · subst hid
      obtain ⟨hreg, rfl⟩ := of_guard hc
      refine h.nowhere (h.here n) ?_ (by simp [setRegistered]) (hleft hreg)
      by_cases hex : (s.coords n).recs.existsKey id' <;> simp [hex, remove, h.node n]
    · exact h.keeps (keeps_unregisterEntity hid hc)
  | entityEmigrated id' new =>
    obtain rfl := some.inj hc
    by_cases hid : id' = id
    · subst hid
      refine h.nowhere (h.here n) ?_ (by simp [entityEmigrated, setRegistered])
        (hleft (hok rfl))
      simp only [entityEmigrated, update]
      split_ifs <;> exact h.node n
    · exact h.keeps (keeps_entityEmigrated hid)
  | clearCache =>
    obtain rfl := some.inj hc
    exact h.keeps ⟨rfl, rfl, Iff.rfl, fun _ _ => rfl, refl _, refl _⟩
  | routeNonEagerAction id' home' =>
    exact h.keeps ((routes_getLocation (p := .action) hc).keeps id home)
  | routeMsg id' home' msg source cur =>
    exact h.keeps ((routes_routePreparedMsg hc).keeps id home)
  | routeMsgHandler id' home' han msg cur =>
    exact h.keeps ((routes_routePreparedMsgHandler hc).keeps id home)

/-- A registration that ends sends the update that was to come. -/
theorem Coming.resume (h : s.Coming id home m) (hne : m ≠ home)
    (hhere : (s.coords n).here = n) {f : Frame E N} {fs : List (Frame E N)}
    (hf : (s.coords n).frames = f :: fs)
    (hc : ({ s.coords n with frames := fs } : Coord E N).resumeFrame f = some c) :
    (s.setCoord n c).Coming id home m := by
  have hk : Keeps id home { s.coords n with frames := fs } c := keeps_resumeFrame hc
  cases h with
  | inr hs =>
    obtain ⟨k, hks⟩ := hs
    exact .inr ⟨k, sent_setCoord hk.sent k hks⟩
  | inl ht =>
    by_cases hmn : m = n
    · subst hmn
      obtain ⟨g, hg, htold⟩ := ht
      rw [hf] at hg
      cases mem_cons.mp hg with
      | inl htop =>
        -- the update is sent now
        subst htop
        obtain rfl : g = .tell id home := by
          cases g <;> simp_all [Frame.told]
        obtain rfl := some.inj hc
        refine .inr ⟨m, ?_⟩
        rw [coords_setCoord_self, if_pos (by simpa [hhere] using hne.symm)]
        refine ⟨_, mem_append_right _ mem_cons_self, rfl, ?_⟩
        simp [LocMsg.location, hhere]
      | inr hrest =>
        refine .inl ?_
        rw [coords_setCoord_self]
        exact hk.tells ⟨g, hrest, htold⟩
    · refine .inl ?_
      rwa [coords_setCoord_of_ne hmn]

theorem HomeInv.resume (h : HomeInv id home s) (hc : (s.coords n).resume = some c) :
    HomeInv id home (s.setCoord n c) := by
  rw [Coord.resume] at hc
  cases hf : (s.coords n).frames with
  | nil => simp [hf] at hc
  | cons f fs =>
    rw [hf] at hc
    have hk : Keeps id home { s.coords n with frames := fs } c := keeps_resumeFrame hc
    refine h.change (hk.here.trans (h.here n)) (hk.node.trans (h.node n)) hk.registered.mp ?_
    intro m hm hne
    have hhome : id ∉ (s.coords home).localRegistered := fun hr => hne (h.one m home hm hr)
    refine (h.known m hm hne).imp (fun hentry => ?_) fun hcoming =>
      hcoming.resume hne (h.here n) hf hc
    by_cases hn : home = n
    · subst hn
      rw [coords_setCoord_self]
      exact (hk.entry (h.node home) hhome).trans hentry
    · rwa [coords_setCoord_of_ne hn]

omit [DecidableEq E] in
theorem coords_take (s : LocSys E N) (sender : N) (i : ℕ) (k : N) :
    ∃ o, (s.take sender i).coords k = { s.coords k with outbox := o } :=
  forall_coords (fun k d => ∃ o, d = { s.coords k with outbox := o }) ⟨_, rfl⟩
    (fun _ _ => ⟨_, rfl⟩) k

variable {sender : N} {i : ℕ} {cur : EpochType} {msg : LocMsg E N}

omit [DecidableEq E] in
/-- An update stays on its way when another message is delivered. -/
theorem Coming.take (h : s.Coming id home m) {y : N × LocMsg E N}
    (hy : (s.coords sender).outbox[i]? = some y)
    (hne : y.1 = home → y.2.location ≠ some (id, home, m)) :
    (s.take sender i).Coming id home m := by
  cases h with
  | inl ht =>
    obtain ⟨o, ho⟩ := coords_take s sender i m
    refine .inl ?_
    rw [ho]
    exact ht
  | inr hs =>
    obtain ⟨k, hks⟩ := hs
    refine .inr ⟨k, ?_⟩
    by_cases hk : k = sender
    · subst hk
      obtain ⟨x, hx, hx1, hx2⟩ := hks
      rw [LocSys.take, coords_setCoord_self]
      refine ⟨x, mem_eraseIdx_iff_getElem?.mpr ?_, hx1, hx2⟩
      obtain ⟨l, hl⟩ := mem_iff_getElem?.mp hx
      refine ⟨l, ?_, hl⟩
      rintro rfl
      rw [hy, some.injEq] at hl
      subst hl
      exact hne hx1 hx2
    · rw [LocSys.take, coords_setCoord_of_ne hk]
      exact hks

/-- A message that is not an update for the home. -/
theorem HomeInv.pass (h : HomeInv id home s) (hx : (s.coords sender).outbox[i]? = some (n, msg))
    (hc : ((s.take sender i).coords n).receive cur msg = some c)
    (hloc : n = home → ∀ x, msg.location ≠ some (id, home, x)) :
    HomeInv id home ((s.take sender i).setCoord n c) := by
  have htake : HomeInv id home (s.take sender i) := by
    refine h.change (h.here sender) (h.node sender) (fun hr => hr) ?_
    intro m hm hne
    refine (h.known m hm hne).imp (fun hentry => ?_) fun hcoming =>
      hcoming.take hx fun hn => hloc hn m
    obtain ⟨o, ho⟩ := coords_take s sender i home
    exact (congrArg (entry · id) ho).trans hentry
  exact htake.keeps (keeps_receive hc fun hnode => hloc ((htake.node n).symm.trans hnode))

/-- An update for the home: it names the node of the entity, or one that does is still to come. -/
theorem HomeInv.learn (h : HomeInv id home s) {x : N}
    (hx : (s.coords sender).outbox[i]? = some (home, msg))
    (hloc : msg.location = some (id, home, x))
    (hc : ((s.take sender i).coords home).receive cur msg = some c)
    (hok : ∀ m, m ≠ home → id ∈ (s.coords m).localRegistered → x = m ∨ s.Coming id home m) :
    HomeInv id home ((s.take sender i).setCoord home c) := by
  set t := s.take sender i with ht
  have hk : Keeps id home ((t.coords home).insertRec id home .remote x) c :=
    keeps_learn hc hloc
  have htake : ∀ k, (t.coords k).here = k ∧ (t.coords k).recs.thisNode = k ∧
      (t.coords k).localRegistered = (s.coords k).localRegistered := by
    intro k
    obtain ⟨o, ho⟩ := coords_take s sender i k
    rw [ht, ho]
    exact ⟨h.here k, h.node k, rfl⟩
  have hreg := forall_coords (s := t) (c := c) (n := home) (fun k d => id ∈ d.localRegistered →
    id ∈ (s.coords k).localRegistered) (fun hr => (htake home).2.2 ▸ hk.registered.mp hr)
    fun k _ hr => (htake k).2.2 ▸ hr
  refine ⟨forall_coords (fun k d => d.here = k) (hk.here.trans (htake home).1) fun k _ =>
    (htake k).1, forall_coords (fun k d => d.recs.thisNode = k) (hk.node.trans
    ((thisNode_insertRec _ _ _ _ _).trans (htake home).2.1)) fun k _ => (htake k).2.1,
    fun k k' hr hr' => h.one k k' (hreg k hr) (hreg k' hr'), ?_⟩
  intro m hm hne
  have hhome : id ∉ (t.coords home).localRegistered := by
    rw [(htake home).2.2]
    exact fun hr => hne (h.one m home (hreg m hm) hr)
  have hentry : c.entry id = some x := by
    refine (hk.entry ((thisNode_insertRec _ _ _ _ _).trans (htake home).2.1) hhome).trans ?_
    nth_rewrite 2 [← (htake home).2.1]
    exact entry_insertRec_self _ id x .remote
  rw [coords_setCoord_self, hentry]
  by_cases hxm : x = m
  · exact .inl (congrArg some hxm)
  · have hcoming := ((hok m hne (hreg m hm)).resolve_left hxm).take hx fun _ heq => hxm (by
      simpa [hloc] using heq)
    exact .inr (hcoming.setCoord (fun _ => hk.sent) hk.tells)

theorem HomeInv.step (h : HomeInv id home s) (hok : Orderly id home s a)
    (hs : s.step a = some s') : HomeInv id home s' := by
  obtain ⟨hmig, htimely⟩ := hok
  cases a with
  | call n k =>
    obtain ⟨-, hs⟩ := ite_none_right_eq_some.mp hs
    obtain ⟨c, hc, rfl⟩ := map_eq_some_iff.mp hs
    obtain ⟨hh, hn, ho, hk⟩ := h.call hmig hc
    exact ⟨hh, hn, ho, hk⟩
  | resume n =>
    obtain ⟨c, hc, rfl⟩ := map_eq_some_iff.mp hs
    exact h.resume hc
  | deliver sender i cur =>
    obtain ⟨⟨n, msg⟩, hx, hs⟩ := bind_eq_some_iff.mp hs
    obtain ⟨-, hs⟩ := ite_none_right_eq_some.mp hs
    obtain ⟨c, hc, rfl⟩ := map_eq_some_iff.mp hs
    by_cases hloc : n = home → ∀ x, msg.location ≠ some (id, home, x)
    · exact h.pass hx hc hloc
    · push Not at hloc
      obtain ⟨rfl, x, hmsg⟩ := hloc
      refine h.learn hx hmsg hc (htimely x ?_)
      rw [Updates, hx, map_some, hmsg]

theorem Reachable.homeInv (h : Reachable (Orderly id home) s) : HomeInv id home s := by
  refine Reach.invariant ?_ (fun s a s' hi hok hs => hi.step hok hs) h
  rintro s rfl
  exact ⟨fun _ => rfl, fun _ => rfl, fun _ _ hr => by simp [start, init] at hr,
    fun _ hr => by simp [start, init] at hr⟩

/-- In the runs of orderly steps, whenever no location message about the entity is on its way,
the home has the node on record where the entity is registered. -/
theorem home_converges (h : Reachable (Orderly id home) s) (hq : s.Quiet id)
    (hn : id ∈ (s.coords n).localRegistered) : (s.coords home).homeRecord id = some n := by
  have hinv := h.homeInv
  rw [homeRecord]
  split_ifs with hhome
  · rw [hinv.here home, hinv.one n home hn hhome]
  · have hne : n ≠ home := by
      rintro rfl
      exact hhome hn
    refine (hinv.known n hn hne).resolve_right ?_
    rintro (htell | ⟨k, hsent⟩)
    · exact (hq n).1 home htell
    · exact (hq k).2 home home n hsent

instance (c : Coord E N) (n : N) (loc : E × N × N) : Decidable (c.Sent n loc) :=
  inferInstanceAs (Decidable (∃ x ∈ c.outbox, _ ∧ _))

instance (c : Coord E N) (id : E) (home : N) : Decidable (c.Tells id home) :=
  inferInstanceAs (Decidable (∃ f ∈ c.frames, f.told = some (id, home)))

instance (id : E) (home : N) (s : LocSys E N) (sender : N) (i : ℕ) (x : N) :
    Decidable (Updates id home s sender i x) :=
  inferInstanceAs (Decidable (Option.map _ _ = some _))

variable [Fintype N]

instance (s : LocSys E N) (id : E) : Decidable (s.Nowhere id) :=
  inferInstanceAs (Decidable (∀ n, id ∉ (s.coords n).localRegistered))

instance (s : LocSys E N) (id : E) (home m : N) : Decidable (s.Coming id home m) :=
  inferInstanceAs (Decidable (_ ∨ ∃ n, (s.coords n).Sent home (id, home, m)))

instance (s : LocSys E N) (id : E) : Decidable (s.Quiet id) :=
  inferInstanceAs (Decidable (∀ _, (∀ _, ¬ _) ∧ ∀ _ _ _, ¬ _))

instance decidableMigrates (id : E) (home : N) (s : LocSys E N) :
    (a : LocAct E N) → Decidable (Migrates id home s a)
  | .call _ (.registerEntity ..) | .call _ (.entityImmigrated ..) =>
      inferInstanceAs (Decidable (_ → _ ∧ s.Nowhere id))
  | .call _ (.registerEntityRemote ..) => inferInstanceAs (Decidable (_ → s.Nowhere id))
  | .call _ (.entityEmigrated ..) => inferInstanceAs (Decidable (_ → id ∈ _))
  | .call _ (.unregisterEntity _) | .call _ .clearCache | .call _ (.routeNonEagerAction ..)
  | .call _ (.routeMsg ..) | .call _ (.routeMsgHandler ..) | .resume _ | .deliver .. =>
      isTrue trivial

instance decidableTimely (id : E) (home : N) (s : LocSys E N) :
    (a : LocAct E N) → Decidable (Timely id home s a)
  | .deliver sender i _ => inferInstanceAs (Decidable (∀ x, Updates id home s sender i x →
      ∀ m, _ ≠ _ → id ∈ _ → _ ∨ s.Coming id home m))
  | .call .. | .resume _ => isTrue trivial

instance (id : E) (home : N) (s : LocSys E N) (a : LocAct E N) :
    Decidable (Orderly id home s a) :=
  inferInstanceAs (Decidable (_ ∧ _))

/-- An entity is registered on the node `a` and migrates to the node `b`. -/
def migrateRun (id : E) (home a b : N) : List (LocAct E N) :=
  [.call a (.registerEntity id home false), .resume a, .resume a, .call a (.entityEmigrated id b),
    .call b (.entityImmigrated id home false), .resume b, .resume b]

/-- When the updates of two registrations are handled in their order, the home knows the node
of the second one. -/
theorem home_converges_migrated : ∃ s : LocSys Unit (Fin 3), Reachable (Orderly () 0) s ∧
    s.Quiet () ∧ () ∈ (s.coords 2).localRegistered ∧ (s.coords 0).homeRecord () = some 2 := by
  obtain ⟨s, hs, hq, hreg⟩ := Reach.of_guarded_run (Orderly () 0) step
    (migrateRun () (0 : Fin 3) 1 2 ++ [.deliver 1 0 7, .resume 0, .deliver 2 0 7, .resume 0])
    (fun s => s.Quiet () ∧ () ∈ (s.coords 2).localRegistered) (show Init start from rfl)
    (by decide +kernel)
  exact ⟨s, hs, hq, hreg, home_converges hs hq hreg⟩

/-- When they are handled in the other order, the home has the node on record that the entity has
left, and nothing is on its way that would correct it. -/
theorem home_misled : ∃ s : LocSys Unit (Fin 3), Reachable (Migrates () 0) s ∧
    s.Quiet () ∧ () ∈ (s.coords 2).localRegistered ∧ (s.coords 0).homeRecord () = some 1 :=
  Reach.of_guarded_run (Migrates () 0) step
    (migrateRun () (0 : Fin 3) 1 2 ++ [.deliver 2 0 7, .resume 0, .deliver 1 0 7, .resume 0]) _
    (show Init start from rfl) (by decide +kernel)

end LocSys
end VtRuntime.Topos
