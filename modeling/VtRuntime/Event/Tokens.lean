import VtRuntime.Event.Records
import VtRuntime.Lib.Ledger
import VtRuntime.Lib.Lists

/-!
# Where actions are

An action of a user is kept with an event, or it was run.  A proxy is owed an answer: the owner of
the event is still to be asked, it keeps a `send_back_fun` with the event, or the answer is in
flight.  Nothing is lost and nothing is there twice.
-/

namespace VtRuntime.Event

open Lib Records List EventSys Option Function

/-- The number of an action of a user, or the proxy that is owed an answer. -/
abbrev Token (N : Type) := ℕ ⊕ EventId N

def Action.token {N : Type} : Action N → Token N
  | .user id _ => .inl id
  | .sendBack _ eventBack _ => .inr eventBack

/-- The event that an action waits for. -/
def Action.event {N : Type} : Action N → EventId N
  | .user _ e => e
  | .sendBack e _ _ => e

def EventMsg.token {N : Type} : EventMsg N → Token N
  | .checkFinished _ _ eventBack => .inr eventBack
  | .finished _ eventBack => .inr eventBack

/-- Where a token can be.  What is in hand is being dealt with in a step. -/
inductive Place (N : Type)
  | holder (e : EventId N)
  | inbox (n : N)
  | log
  | hand

variable {N : Type} {s s' : EventSys N} {e : EventId N} {n : N} {i : ℕ} {a : Action N}
  {hand : Option (Action N)}

/-! ## The actions kept with an event -/

namespace EventNode

variable {x : EventNode N}

theorem stored_of_not_executing (h : ¬ x.Executing i) :
    x.stored i = (x.lookup i).elim [] (·.actions) := by
  have hfind : x.frames.find? (·.event = i) = none := by
    rw [List.find?_eq_none]
    intro frame hframe heq
    exact h (mem_map.mpr ⟨frame, hframe, of_decide_eq_true heq⟩)
  rw [stored, hfind]

theorem stored_cons {frame : Frame N} {frames : List (Frame N)} (hx : x.frames = frame :: frames) :
    x.stored i = if frame.event = i then frame.rest else { x with frames := frames }.stored i := by
  rw [stored, hx, List.find?_cons]
  by_cases h : frame.event = i
  · simp [h]
  · simp [h, stored]

/-- A change that a look at event `i` does not see. -/
theorem stored_congr {y : EventNode N} (hframes : y.frames = x.frames)
    (hlookup : y.lookup i = x.lookup i) : y.stored i = x.stored i := by
  rw [stored, stored, hframes, hlookup]

end EventNode

namespace EventSys

def stored (s : EventSys N) (e : EventId N) : List (Action N) := (s.node e.1).stored e.2

theorem stored_of_not_executing (h : ¬ s.Executing e) :
    s.stored e = (s.holder e).elim [] (·.actions) := EventNode.stored_of_not_executing h

theorem stored_setNode_of_ne [DecidableEq N] {x : EventNode N} (h : e.1 ≠ n) :
    (s.setNode n x).stored e = s.stored e := by
  simp [stored, setNode, h]

/-- What is at a place. -/
def held (hand : Option (Action N)) (s : EventSys N) : Place N → List (Token N)
  | .holder e => (s.stored e).map (·.token)
  | .inbox n => (s.inbox n).map (·.token)
  | .log => s.log.map (.inl ·.id)
  | .hand => hand.toList.map (·.token)

/-- The proxy `p` stands for the event `e` and was not triggered yet. -/
def LiveProxy (s : EventSys N) (p e : EventId N) : Prop :=
  ∃ r, s.record p = some r ∧ r.proxyFor = some e ∧ ¬ s.Executing p

/-- An action that is around was attached, or its proxy is owed the answer. -/
def Known (s : EventSys N) : Action N → Prop
  | .user id e => s.attached[id]? = some e
  | .sendBack e eventBack _ => s.LiveProxy eventBack e

/-- What a token stands for. -/
def Meant (s : EventSys N) : Token N → Prop
  | .inl id => ∃ e, s.attached[id]? = some e
  | .inr p => ∃ e, s.LiveProxy p e

theorem Known.meant (h : s.Known a) : s.Meant a.token := by
  cases a with
  | user id e => exact ⟨e, h⟩
  | sendBack e eventBack slot => exact ⟨e, h⟩

theorem Known.mono (h : s.Known a)
    (hattached : ∀ (id : ℕ) e, s.attached[id]? = some e → s'.attached[id]? = some e)
    (hlive : ∀ p e, a.token = .inr p → s.LiveProxy p e → s'.LiveProxy p e) : s'.Known a := by
  cases a with
  | user id e => exact hattached id e h
  | sendBack e eventBack slot => exact hlive eventBack e rfl h

/-- The event `e` keeps the actions for itself and, if it is a proxy, for the other event. -/
def Fits (s : EventSys N) (e : EventId N) : Action N → Prop
  | .user _ e' => e' = e ∨ ∃ r, s.record e = some r ∧ r.proxyFor = some e'
  | .sendBack e' _ _ => e' = e

/-- The message that an action points to is still in its slot. -/
def Reads (s : EventSys N) : Action N → Prop
  | .user .. => True
  | .sendBack e eventBack slot =>
    ∃ e', s.memory e.1 slot = some (.checkFinished e' eventBack.1 eventBack)

theorem Reads.congr (h : s.Reads a) (hmemory : s'.memory = s.memory) : s'.Reads a := by
  cases a with
  | user id e => trivial
  | sendBack e eventBack slot => rwa [Reads, hmemory]

/-- A message in flight to a node. -/
def InFlight (s : EventSys N) (n : N) : EventMsg N → Prop
  | .checkFinished e sentFromNode eventBack => n = e.1 ∧ sentFromNode = eventBack.1 ∧ s.Issued e ∧
      s.LiveProxy eventBack e
  | .finished e eventBack => n = eventBack.1 ∧ s.facts.Done e ∧ s.LiveProxy eventBack e

theorem InFlight.mono {msg : EventMsg N} (h : s.InFlight n msg) (hgrows : Grows s.facts s'.facts)
    (hissued : ∀ e, s.Issued e → s'.Issued e)
    (hlive : ∀ p e, msg.token = .inr p → s.LiveProxy p e → s'.LiveProxy p e) :
    s'.InFlight n msg := by
  cases msg with
  | checkFinished e sentFromNode eventBack =>
    exact ⟨h.1, h.2.1, hissued e h.2.2.1, hlive eventBack e rfl h.2.2.2⟩
  | finished e eventBack => exact ⟨h.1, hgrows.done h.2.1, hlive eventBack e rfl h.2.2⟩

end EventSys

/-- Every action and every answer that is owed is at one place. -/
structure Tokens (hand : Option (Action N)) (s : EventSys N) : Prop where
  ledger : Ledger (s.held hand)
  kept : ∀ id e, s.attached[id]? = some e → ∃ q, .inl id ∈ s.held hand q
  owed : ∀ p e, s.LiveProxy p e → ∃ q, .inr p ∈ s.held hand q
  stored : ∀ e, ∀ a ∈ s.stored e, s.Known a ∧ s.Fits e a
  inHand : ∀ a, hand = some a → s.Known a
  inbox : ∀ n, ∀ msg ∈ s.inbox n, s.InFlight n msg
  log : ∀ r ∈ s.log, s.attached[r.id]? = some r.event ∧ r.facts.Done r.event

namespace Tokens

/-- A token of a user is around because the action was attached, and one of a proxy because the
proxy waits. -/
theorem meant (h : Tokens hand s) {t : Token N} {q : Place N} (ht : t ∈ s.held hand q) :
    s.Meant t := by
  cases q with
  | holder e =>
    obtain ⟨a, ha, rfl⟩ := mem_map.mp ht
    exact (h.stored e a ha).1.meant
  | inbox n =>
    obtain ⟨msg, hmsg, rfl⟩ := mem_map.mp ht
    cases msg with
    | checkFinished e from' eventBack => exact ⟨e, (h.inbox n _ hmsg).2.2.2⟩
    | finished e eventBack => exact ⟨e, (h.inbox n _ hmsg).2.2⟩
  | log =>
    obtain ⟨r, hr, rfl⟩ := mem_map.mp ht
    exact ⟨r.event, (h.log r hr).1⟩
  | hand =>
    obtain ⟨a, ha, rfl⟩ := mem_map.mp ht
    exact (h.inHand a (by simpa using ha)).meant

end Tokens

/-! ## Steps that leave the records alone -/

structure Calm (s s' : EventSys N) : Prop where
  record : ∀ e, s'.record e = s.record e
  cur : ∀ n, (s'.node n).curEvent = (s.node n).curEvent
  running : ∀ n, s'.running n = s.running n
  facts : s'.facts = s.facts
  attached : s'.attached = s.attached

namespace Calm

theorem records (h : Calm s s') (hr : Records s) : Records s' :=
  hr.congr h.record h.cur h.facts h.running

theorem executing (h : Calm s s') : s'.Executing e ↔ s.Executing e := executing_congr h.running e

theorem live (h : Calm s s') {p : EventId N} : s'.LiveProxy p e ↔ s.LiveProxy p e := by
  simp only [LiveProxy, h.record, h.executing]

theorem known (h : Calm s s') : s'.Known a ↔ s.Known a := by
  cases a with
  | user id e => rw [Known, h.attached, Known]
  | sendBack e eventBack slot => exact h.live

theorem fits (h : Calm s s') : s'.Fits e a ↔ s.Fits e a := by
  cases a with
  | user id e' => simp only [Fits, h.record]
  | sendBack e' eventBack slot => exact Iff.rfl

theorem inFlight (h : Calm s s') {msg : EventMsg N} : s'.InFlight n msg ↔ s.InFlight n msg := by
  cases msg with
  | checkFinished e sentFromNode eventBack =>
    simp only [InFlight, Issued, h.cur, h.live]
  | finished e eventBack => simp only [InFlight, h.facts, h.live]

end Calm

namespace EventSys

theorem held_of_ne {q : Place N} (hq : q ≠ .hand) : s.held hand q = s.held none q := by
  cases q with
  | hand => exact absurd rfl hq
  | _ => rfl

end EventSys

namespace Tokens

theorem put (h : Tokens (some a) s) (hc : Calm s s') {q : Place N}
    (hplace : (s'.held none q).Perm (a.token :: s.held none q))
    (hrest : ∀ p, p ≠ q → (s'.held none p).Perm (s.held none p))
    (hstored : ∀ e, ∀ b ∈ s'.stored e, b ∈ s.stored e ∨ b = a ∧ s.Fits e a)
    (hinbox : ∀ n, ∀ msg ∈ s'.inbox n, msg ∈ s.inbox n ∨ s.InFlight n msg)
    (hlog : ∀ r ∈ s'.log, r ∈ s.log ∨ s.attached[r.id]? = some r.event ∧ r.facts.Done r.event) :
    Tokens none s' := by
  have htaken : Ledger (s.held none) ∧ ∀ p, a.token ∉ s.held none p :=
    h.ledger.take (q := .hand) (.refl _) fun _ hp => .of_eq (held_of_ne hp).symm
  have hmem : ∀ p t, t ∈ s.held (some a) p → ∃ p', t ∈ s'.held none p' := by
    intro p t ht
    by_cases hp : p = .hand
    · subst hp
      obtain rfl : t = a.token := by simpa [held] using ht
      exact ⟨q, hplace.mem_iff.mpr mem_cons_self⟩
    · rw [held_of_ne hp] at ht
      by_cases hpq : p = q
      · subst hpq
        exact ⟨p, hplace.mem_iff.mpr (mem_cons_of_mem _ ht)⟩
      · exact ⟨p, (hrest p hpq).mem_iff.mpr ht⟩
  refine ⟨htaken.1.put htaken.2 hplace hrest, ?_, ?_, ?_, ?_, ?_, ?_⟩
  · intro id e hid
    obtain ⟨p, hp⟩ := h.kept id e (hc.attached ▸ hid)
    exact hmem p _ hp
  · intro p e hlive
    obtain ⟨p', hp'⟩ := h.owed p e (hc.live.mp hlive)
    exact hmem p' _ hp'
  · intro e b hb
    rw [hc.known, hc.fits]
    rcases hstored e b hb with hb | ⟨rfl, hfits⟩
    · exact h.stored e b hb
    · exact ⟨h.inHand b rfl, hfits⟩
  · exact fun b hb => absurd hb.symm (some_ne_none b)
  · intro n msg hmsg
    rw [hc.inFlight]
    exact (hinbox n msg hmsg).elim (h.inbox n msg) id
  · intro r hr
    rw [hc.attached]
    exact (hlog r hr).elim (h.log r) id

theorem take (h : Tokens none s) (hc : Calm s s') {q : Place N} (hq : q ≠ .hand)
    (hplace : (s.held none q).Perm (a.token :: s'.held none q))
    (hrest : ∀ p, p ≠ q → (s'.held none p).Perm (s.held none p)) (hknown : s.Known a)
    (hstored : ∀ e, ∀ b ∈ s'.stored e, b ∈ s.stored e)
    (hinbox : ∀ n, ∀ msg ∈ s'.inbox n, msg ∈ s.inbox n) (hlog : s'.log = s.log) :
    Tokens (some a) s' := by
  obtain ⟨hledger, hfree⟩ := h.ledger.take hplace hrest
  have hput : Ledger (s'.held (some a)) :=
    hledger.put hfree (q := .hand) (.refl _) fun _ hp => .of_eq (held_of_ne hp)
  have hmem : ∀ p t, t ∈ s.held none p → ∃ p', t ∈ s'.held (some a) p' := by
    intro p t ht
    by_cases hpq : p = q
    · subst hpq
      rcases mem_cons.mp (hplace.mem_iff.mp ht) with rfl | ht
      · exact ⟨.hand, by simp [held]⟩
      · exact ⟨p, by rwa [held_of_ne hq]⟩
    · refine ⟨p, ?_⟩
      have hp : p ≠ .hand := by
        rintro rfl
        simp [held] at ht
      rw [held_of_ne hp]
      exact (hrest p hpq).mem_iff.mpr ht
  refine ⟨hput, ?_, ?_, ?_, ?_, ?_, ?_⟩
  · intro id e hid
    obtain ⟨p, hp⟩ := h.kept id e (hc.attached ▸ hid)
    exact hmem p _ hp
  · intro p e hlive
    obtain ⟨p', hp'⟩ := h.owed p e (hc.live.mp hlive)
    exact hmem p' _ hp'
  · intro e b hb
    rw [hc.known, hc.fits]
    exact h.stored e b (hstored e b hb)
  · intro b hb
    obtain rfl := Option.some.inj hb
    exact hc.known.mpr hknown
  · exact fun n msg hmsg => hc.inFlight.mpr (h.inbox n msg (hinbox n msg hmsg))
  · rw [hlog, hc.attached]
    exact h.log

/-- A step that leaves everything at its place. -/
theorem grow (h : Tokens hand s) (hstored : ∀ e, s'.stored e = s.stored e)
    (hinbox : s'.inbox = s.inbox) (hlog : s'.log = s.log) (hattached : s'.attached = s.attached)
    (hgrows : Grows s.facts s'.facts) (hissued : ∀ e, s.Issued e → s'.Issued e)
    (hrecord : ∀ e, s.stored e ≠ [] → s'.record e = s.record e)
    (hlive : ∀ p e, s'.LiveProxy p e ↔ s.LiveProxy p e) : Tokens hand s' := by
  have hheld : s'.held hand = s.held hand := by
    funext q
    cases q <;> simp only [held, hstored, hinbox, hlog]
  have hknown : ∀ b, s.Known b → s'.Known b := fun b hb =>
    hb.mono (fun _ _ => hattached ▸ id) fun p e _ => (hlive p e).mpr
  refine ⟨hheld ▸ h.ledger, ?_, ?_, ?_, fun b hb => hknown b (h.inHand b hb), ?_, ?_⟩
  · rw [hattached, hheld]
    exact h.kept
  · intro p e hp
    rw [hheld]
    exact h.owed p e ((hlive p e).mp hp)
  · intro e b hb
    rw [hstored] at hb
    obtain ⟨hold, hfits⟩ := h.stored e b hb
    refine ⟨hknown b hold, ?_⟩
    cases b with
    | user id e' => rwa [Fits, hrecord e (ne_nil_of_mem hb)]
    | sendBack e' eventBack slot => exact hfits
  · intro n msg hmsg
    rw [hinbox] at hmsg
    exact (h.inbox n msg hmsg).mono hgrows hissued fun p e _ => (hlive p e).mpr
  · rw [hlog, hattached]
    exact h.log

/-- The actions of an event begin to be run.  If it is a proxy, the answer is in hand. -/
theorem start (h : Tokens hand s) (hstored : ∀ e', s'.stored e' = s.stored e')
    (hinbox : s'.inbox = s.inbox) (hlog : s'.log = s.log) (hattached : s'.attached = s.attached)
    (hgrows : Grows s.facts s'.facts) (hissued : ∀ e', s.Issued e' → s'.Issued e')
    (hrecord : ∀ e', s'.record e' = s.record e')
    (hexecuting : ∀ e', s'.Executing e' ↔ s.Executing e' ∨ e' = e)
    (hhand : ∀ a, hand = some a → a.token = .inr e)
    (hfree : ∀ q, .inr e ∈ s.held hand q → q = .hand) : Tokens none s' := by
  have hheld : ∀ q, q ≠ .hand → s'.held none q = s.held hand q := by
    intro q hq
    cases q with
    | hand => exact absurd rfl hq
    | _ => simp only [held, hstored, hinbox, hlog]
  have hsub : ∀ q t, t ∈ s'.held none q → q ≠ .hand ∧ t ∈ s.held hand q := by
    intro q t ht
    have hq : q ≠ .hand := by
      rintro rfl
      simp [held] at ht
    exact ⟨hq, hheld q hq ▸ ht⟩
  have hkeep : ∀ q t, t ∈ s.held hand q → t ≠ .inr e → t ∈ s'.held none q := by
    intro q t ht hne
    by_cases hq : q = .hand
    · subst hq
      obtain ⟨a, ha, rfl⟩ := mem_map.mp ht
      exact absurd (hhand a (by simpa using ha)) hne
    · exact (hheld q hq).symm ▸ ht
  have hlive : ∀ p e', s'.LiveProxy p e' ↔ s.LiveProxy p e' ∧ p ≠ e := by
    intro p e'
    simp only [LiveProxy, hrecord, hexecuting, not_or]
    constructor
    · rintro ⟨r, hr, hp, hx, hne⟩
      exact ⟨⟨r, hr, hp, hx⟩, hne⟩
    · rintro ⟨⟨r, hr, hp, hx⟩, hne⟩
      exact ⟨r, hr, hp, hx, hne⟩
  have hother : ∀ q p, q ≠ .hand → .inr p ∈ s.held hand q → p ≠ e := by
    rintro q p hq hp rfl
    exact hq (hfree q hp)
  refine ⟨⟨?_, ?_⟩, ?_, ?_, ?_, fun b hb => absurd hb.symm (some_ne_none b), ?_, ?_⟩
  · intro q
    by_cases hq : q = .hand
    · subst hq
      exact nodup_nil
    · rw [hheld q hq]
      exact h.ledger.nodup q
  · exact fun p q t hp hq => h.ledger.unique p q t (hsub p t hp).2 (hsub q t hq).2
  · intro id e' hid
    obtain ⟨q, hq⟩ := h.kept id e' (hattached ▸ hid)
    exact ⟨q, hkeep q _ hq (by simp)⟩
  · intro p e' hp
    obtain ⟨hold, hne⟩ := (hlive p e').mp hp
    obtain ⟨q, hq⟩ := h.owed p e' hold
    exact ⟨q, hkeep q _ hq (by simpa using hne)⟩
  · intro e' b hb
    rw [hstored] at hb
    obtain ⟨hknown, hfits⟩ := h.stored e' b hb
    cases b with
    | user id e₂ =>
      rw [Known, hattached, Fits, hrecord]
      exact ⟨hknown, hfits⟩
    | sendBack e₂ eventBack slot =>
      refine ⟨(hlive _ _).mpr ⟨hknown, ?_⟩, hfits⟩
      exact hother (.holder e') eventBack (by simp) (mem_map.mpr ⟨_, hb, rfl⟩)
  · intro m msg hmsg
    rw [hinbox] at hmsg
    refine (h.inbox m msg hmsg).mono hgrows hissued fun p e' hp hold => (hlive p e').mpr ⟨hold, ?_⟩
    exact hother (.inbox m) p (by simp) (mem_map.mpr ⟨msg, hmsg, hp⟩)
  · rw [hlog, hattached]
    exact h.log

theorem attach (h : Tokens none s) (e : EventId N) :
    Tokens (some (.user s.attached.length e)) { s with attached := s.attached ++ [e] } := by
  have hold : ∀ (id : ℕ) (e' : EventId N), s.attached[id]? = some e' →
      (s.attached ++ [e])[id]? = some e' := by
    intro id e' hid
    obtain ⟨hlt, -⟩ := List.getElem?_eq_some_iff.mp hid
    rw [List.getElem?_append_left hlt, hid]
  have hfree : ∀ q, .inl s.attached.length ∉ s.held none q := by
    intro q hq
    obtain ⟨e', he'⟩ := h.meant hq
    exact absurd (List.getElem?_eq_some_iff.mp he').1 (Nat.lt_irrefl _)
  have hkeep : ∀ q t, t ∈ s.held none q →
      t ∈ held (some (.user s.attached.length e))
        { s with attached := s.attached ++ [e] } q := by
    intro q t ht
    cases q with
    | hand => simp [held] at ht
    | _ => exact ht
  refine ⟨?_, ?_, ?_, ?_, ?_, h.inbox, ?_⟩
  · refine h.ledger.put hfree (q := .hand) (.refl _) fun p hp => ?_
    cases p with
    | hand => exact absurd rfl hp
    | _ => exact .refl _
  · intro id e' hid
    by_cases hlt : id < s.attached.length
    · rw [List.getElem?_append_left hlt] at hid
      obtain ⟨q, hq⟩ := h.kept id e' hid
      exact ⟨q, hkeep q _ hq⟩
    · have hlast : id = s.attached.length := by
        obtain ⟨hlt', -⟩ := List.getElem?_eq_some_iff.mp hid
        rw [length_append, length_singleton] at hlt'
        omega
      exact ⟨.hand, by simp [held, Action.token, hlast]⟩
  · intro p e' hp
    obtain ⟨q, hq⟩ := h.owed p e' hp
    exact ⟨q, hkeep q _ hq⟩
  · intro e' b hb
    obtain ⟨hknown, hfits⟩ := h.stored e' b hb
    exact ⟨hknown.mono hold fun _ _ _ => id, hfits⟩
  · intro b hb
    obtain rfl := Option.some.inj hb
    simp [Known]
  · intro r hr
    exact ⟨hold _ _ (h.log r hr).1, (h.log r hr).2⟩

end Tokens

/-! ## The steps -/

variable [DecidableEq N]

namespace EventSys

theorem calm_send (n : N) (msg : EventMsg N) : Calm s (s.send n msg) :=
  ⟨fun _ => rfl, fun _ => rfl, fun _ => rfl, rfl, rfl⟩

/-- The message is read where it is. -/
theorem perform_sendBack {eventBack : EventId N} {slot : ℕ}
    (h : s.Reads (.sendBack e eventBack slot)) :
    s.perform (.sendBack e eventBack slot) = s.send eventBack.1 (.finished e eventBack) := by
  obtain ⟨e', hread⟩ := h
  simp only [perform, hread, if_true]

variable {h : Option (EventHolder N)} {rest : List (Action N)} {frames : List (Frame N)}

theorem holder_setHolder (e' : EventId N) :
    (s.setHolder e h).holder e' = if e' = e then h else s.holder e' := by
  by_cases hn : e'.1 = e.1
  · by_cases hi : e'.2 = e.2
    · simp [holder, setHolder, setNode, hn, hi, Prod.ext_iff]
    · simp [holder, setHolder, setNode, hn, hi, Prod.ext_iff]
  · simp [holder, setHolder, setNode, hn, Prod.ext_iff]

/-- A change of the node that the look at its counter and its frames does not see. -/
theorem node_setHolder (m : N) :
    ((s.setHolder e h).node m).curEvent = (s.node m).curEvent ∧
      ((s.setHolder e h).node m).frames = (s.node m).frames := by
  by_cases hm : m = e.1
  · subst hm
    simp [setHolder, setNode]
  · simp [setHolder, setNode, hm]

theorem calm_setHolder {h h' : EventHolder N} (hh : s.holder e = some h)
    (hevent : h'.event = h.event) : Calm s (s.setHolder e (some h')) := by
  refine ⟨?_, fun m => (node_setHolder m).1, ?_, rfl, rfl⟩
  · intro e'
    rw [record, record, holder_setHolder]
    split
    · next he => rw [he, hh, map_some, map_some, hevent]
    · rfl
  · intro m
    rw [running, (node_setHolder m).2]
    rfl

theorem stored_setHolder (hidle : ¬ s.Executing e) (e' : EventId N) :
    (s.setHolder e h).stored e' = if e' = e then h.elim [] (·.actions) else s.stored e' := by
  split
  · next he =>
    subst he
    have hidle' : ¬ (s.setHolder e' h).Executing e' := by
      rwa [executing_iff, running, (node_setHolder e'.1).2]
    rw [stored_of_not_executing hidle', holder_setHolder, if_pos rfl]
  · next he =>
    refine EventNode.stored_congr (node_setHolder e'.1).2 ?_
    exact (holder_setHolder e').trans (if_neg he)

omit [DecidableEq N] in
/-- The actions that are still to be run are those of the frame. -/
theorem stored_top (hframes : (s.node n).frames = ⟨i, rest⟩ :: frames) : s.stored (n, i) = rest :=
  (EventNode.stored_cons hframes).trans (if_pos rfl)

theorem stored_pop (hframes : (s.node n).frames = ⟨i, a :: rest⟩ :: frames) (e : EventId N) :
    (s.setNode n { s.node n with frames := ⟨i, rest⟩ :: frames }).stored e =
      if e = (n, i) then rest else s.stored e := by
  have hold : ∀ j, (s.node n).stored j =
      if i = j then a :: rest else { s.node n with frames := frames }.stored j :=
    fun j => EventNode.stored_cons hframes
  have hnew : ∀ j, { s.node n with frames := ⟨i, rest⟩ :: frames }.stored j =
      if i = j then rest else { s.node n with frames := frames }.stored j :=
    fun j => EventNode.stored_cons (x := { s.node n with frames := ⟨i, rest⟩ :: frames }) rfl
  obtain ⟨m, j⟩ := e
  by_cases hm : m = n
  · subst hm
    simp only [stored, setNode, update_self, hnew, hold, Prod.mk.injEq, true_and]
    by_cases hj : i = j
    · simp [hj]
    · simp [hj, Ne.symm hj]
  · rw [stored_setNode_of_ne hm, if_neg fun he => hm (congrArg Prod.fst he)]

theorem calm_pop (hframes : (s.node n).frames = ⟨i, a :: rest⟩ :: frames) :
    Calm s (s.setNode n { s.node n with frames := ⟨i, rest⟩ :: frames }) := by
  have hnode : ∀ m, ((s.setNode n { s.node n with frames := ⟨i, rest⟩ :: frames }).node m).lookup =
      (s.node m).lookup ∧
      ((s.setNode n { s.node n with frames := ⟨i, rest⟩ :: frames }).node m).curEvent =
        (s.node m).curEvent ∧
      ((s.setNode n { s.node n with frames := ⟨i, rest⟩ :: frames }).node m).frames.map (·.event) =
        (s.node m).frames.map (·.event) := by
    intro m
    by_cases hm : m = n
    · subst hm
      simp [setNode, hframes]
    · simp [setNode, hm]
  refine ⟨?_, fun m => (hnode m).2.1, fun m => (hnode m).2.2, rfl, rfl⟩
  intro e
  rw [record, holder, (hnode e.1).1]
  rfl

end EventSys

namespace Tokens

theorem send {msg : EventMsg N} (h : Tokens (some a) s) (hmsg : msg.token = a.token)
    (hflight : s.InFlight n msg) : Tokens none (s.send n msg) := by
  refine h.put (calm_send n msg) (q := .inbox n) ?_ ?_ (fun e b hb => .inl hb) ?_
    fun r hr => .inl hr
  · simp [held, EventSys.send, hmsg]
  · intro p hp
    cases p with
    | inbox m =>
      have hm : m ≠ n := fun hm => hp (hm ▸ rfl)
      simp [held, EventSys.send, hm]
    | _ => exact .refl _
  · intro m msg' hmsg'
    by_cases hm : m = n
    · subst hm
      simp only [EventSys.send, update_self] at hmsg'
      rcases mem_append.mp hmsg' with hmsg' | hmsg'
      · exact .inl hmsg'
      · exact .inr (mem_singleton.mp hmsg' ▸ hflight)
    · left
      simpa [EventSys.send, hm] using hmsg'

/-- The action in hand is called, and its event is ready. -/
theorem perform (h : Tokens (some a) s) (hdone : s.facts.Done a.event) (hreads : s.Reads a) :
    Calm s (s.perform a) ∧ Tokens none (s.perform a) := by
  cases a with
  | user id e =>
    have hc : Calm s (s.perform (.user id e)) :=
      ⟨fun _ => rfl, fun _ => rfl, fun _ => rfl, rfl, rfl⟩
    refine ⟨hc, h.put hc (q := .log) ?_ ?_ ?_ ?_ ?_⟩
    · simp [held, perform, Action.token]
    · intro p hp
      cases p with
      | log => exact absurd rfl hp
      | _ => exact .refl _
    · exact fun e b hb => .inl hb
    · exact fun n msg hmsg => .inl hmsg
    · exact forall_mem_concat (fun r hr => .inl hr) (.inr ⟨h.inHand _ rfl, hdone⟩)
  | sendBack e eventBack slot =>
    rw [perform_sendBack hreads]
    exact ⟨calm_send _ _, h.send rfl ⟨rfl, hdone, h.inHand _ rfl⟩⟩

theorem store (h : Tokens (some a) s) {holder : EventHolder N} (hholder : s.holder e = some holder)
    (hidle : ¬ s.Executing e) (hfits : s.Fits e a) :
    Calm s (s.setHolder e (some { holder with actions := holder.actions ++ [a] })) ∧
      Tokens none (s.setHolder e (some { holder with actions := holder.actions ++ [a] })) := by
  have hstored : s.stored e = holder.actions := by
    rw [stored_of_not_executing hidle, hholder, elim_some]
  have hc : Calm s (s.setHolder e (some { holder with actions := holder.actions ++ [a] })) :=
    calm_setHolder hholder rfl
  refine ⟨hc, h.put hc (q := .holder e) ?_ ?_ ?_ ?_ ?_⟩
  · rw [held, stored_setHolder hidle, if_pos rfl, held, hstored]
    simp
  · intro p hp
    cases p with
    | holder e' =>
      have he : e' ≠ e := fun he => hp (he ▸ rfl)
      rw [held, stored_setHolder hidle, if_neg he]
      exact .refl _
    | _ => exact .refl _
  · intro e' b hb
    rw [stored_setHolder hidle] at hb
    split at hb
    · next he =>
      subst he
      rcases mem_append.mp hb with hb | hb
      · exact .inl (hstored ▸ hb)
      · exact .inr ⟨mem_singleton.mp hb, hfits⟩
    · exact .inl hb
  · exact fun n msg hmsg => .inl hmsg
  · exact fun r hr => .inl hr

theorem act (h : Tokens none s) {rest : List (Action N)} {frames : List (Frame N)}
    (hframes : (s.node n).frames = ⟨i, a :: rest⟩ :: frames) :
    Tokens (some a) (s.setNode n { s.node n with frames := ⟨i, rest⟩ :: frames }) ∧
      s.Fits (n, i) a := by
  have hhead := stored_top hframes
  obtain ⟨hknown, hfits⟩ := h.stored (n, i) a (hhead ▸ mem_cons_self)
  refine ⟨h.take (calm_pop hframes) (q := .holder (n, i)) (by simp) ?_ ?_ hknown ?_ ?_ rfl,
    hfits⟩
  · rw [held, held, stored_pop hframes, if_pos rfl, hhead, map_cons]
  · intro p hp
    cases p with
    | holder e =>
      have he : e ≠ (n, i) := fun he => hp (he ▸ rfl)
      rw [held, stored_pop hframes, if_neg he]
      exact .refl _
    | _ => exact .refl _
  · intro e b hb
    rw [stored_pop hframes] at hb
    split at hb
    · next he => exact he ▸ hhead ▸ mem_cons_of_mem a hb
    · exact hb
  · exact fun m msg hmsg => hmsg

theorem receive (h : Tokens none s) {msg : EventMsg N} {k : ℕ} (hmsg : (s.inbox n)[k]? = some msg)
    (ha : a.token = msg.token) (hknown : s.Known a) :
    Calm s { s with inbox := update s.inbox n ((s.inbox n).eraseIdx k) } ∧
      Tokens (some a) { s with inbox := update s.inbox n ((s.inbox n).eraseIdx k) } := by
  have hc : Calm s { s with inbox := update s.inbox n ((s.inbox n).eraseIdx k) } :=
    ⟨fun _ => rfl, fun _ => rfl, fun _ => rfl, rfl, rfl⟩
  refine ⟨hc, h.take hc (q := .inbox n) (by simp) ?_ ?_ hknown
    (fun _ _ hb => hb) ?_ rfl⟩
  · simp only [held, ha, update_self]
    exact (perm_eraseIdx hmsg).map _
  · intro p hp
    cases p with
    | inbox m =>
      have hm : m ≠ n := fun hm => hp (hm ▸ rfl)
      simp [held, hm]
    | _ => exact .refl _
  · intro m msg' hmsg'
    by_cases hm : m = n
    · subst hm
      simp only [update_self] at hmsg'
      exact mem_of_mem_eraseIdx hmsg'
    · simpa [hm] using hmsg'

end Tokens

namespace EventSys

variable {holder : EventHolder N}

theorem node_createEvent (m : N) :
    ((s.createEvent n holder).node m).curEvent = (s.node m).curEvent + (if m = n then 1 else 0) ∧
      ((s.createEvent n holder).node m).frames = (s.node m).frames := by
  by_cases hm : m = n
  · subst hm
    simp [createEvent, setNode]
  · simp [createEvent, setNode, hm]

theorem holder_createEvent (e' : EventId N) :
    (s.createEvent n holder).holder e' =
      if e' = (n, (s.node n).curEvent) then some holder else s.holder e' := by
  obtain ⟨m, j⟩ := e'
  by_cases hm : m = n
  · subst hm
    by_cases hj : j = (s.node m).curEvent
    · simp [EventSys.holder, createEvent, setNode, hj]
    · simp [EventSys.holder, createEvent, setNode, hj]
  · simp [EventSys.holder, createEvent, setNode, hm]

theorem record_createEvent (e' : EventId N) :
    (s.createEvent n holder).record e' =
      if e' = (n, (s.node n).curEvent) then some holder.event else s.record e' := by
  rw [record, holder_createEvent]
  split <;> rfl

theorem running_createEvent (m : N) : (s.createEvent n holder).running m = s.running m := by
  rw [running, (node_createEvent m).2]
  rfl

section

omit [DecidableEq N]

theorem not_executing_new (hr : Records s) (n : N) : ¬ s.Executing (n, (s.node n).curEvent) := by
  intro hx
  obtain ⟨-, r, hrecord, -⟩ := hr.executing _ hx
  exact not_issued s n (hr.issued _ r hrecord)

theorem record_new (hr : Records s) (n : N) : s.record (n, (s.node n).curEvent) = none := by
  by_contra hne
  obtain ⟨r, hrecord⟩ := ne_none_iff_exists'.mp hne
  exact not_issued s n (hr.issued _ r hrecord)

theorem stored_new (hr : Records s) (n : N) : s.stored (n, (s.node n).curEvent) = [] := by
  rw [stored_of_not_executing (not_executing_new hr n), record_eq_none.mp (record_new hr n),
    elim_none]

end

theorem stored_createEvent (hr : Records s) (e' : EventId N) :
    (s.createEvent n holder).stored e' =
      if e' = (n, (s.node n).curEvent) then holder.actions else s.stored e' := by
  split
  · next he =>
    subst he
    have hidle : ¬ (s.createEvent n holder).Executing (n, (s.node n).curEvent) :=
      (executing_congr running_createEvent _).not.mpr (not_executing_new hr n)
    rw [stored_of_not_executing hidle, holder_createEvent, if_pos rfl, elim_some]
  · next he =>
    exact EventNode.stored_congr (node_createEvent e'.1).2
      ((holder_createEvent e').trans (if_neg he))

theorem issued_createEvent {e' : EventId N} (h : s.Issued e') :
    (s.createEvent n holder).Issued e' := by
  rw [Issued, (node_createEvent e'.1).1]
  exact Nat.lt_add_right _ h

theorem live_createEvent (hr : Records s) {p e' : EventId N} :
    (s.createEvent n holder).LiveProxy p e' ↔ s.LiveProxy p e' ∨
      p = (n, (s.node n).curEvent) ∧ holder.event.proxyFor = some e' := by
  simp only [LiveProxy, record_createEvent, executing_congr running_createEvent]
  by_cases hp : p = (n, (s.node n).curEvent)
  · subst hp
    simp [record_new hr, not_executing_new hr]
  · simp [hp]

end EventSys

namespace Tokens

variable {id : ℕ}

/-- An action of a user is put with a new proxy, and the answer that the proxy is owed is in
hand. -/
theorem shelve_ledger (h : Tokens (some (.user id e)) s) (hr : Records s) :
    Ledger ((s.createEvent n (proxy e (.user id e))).held
      (some (.sendBack e (n, (s.node n).curEvent) 0))) := by
  set new : EventId N := (n, (s.node n).curEvent) with hnew
  have hstored : ∀ e', (s.createEvent n (proxy e (.user id e))).stored e' =
      if e' = new then [.user id e] else s.stored e' := stored_createEvent hr
  have htaken : Ledger (s.held none) ∧ ∀ p, .inl id ∉ s.held none p :=
    h.ledger.take (q := .hand) (.refl _) fun _ hp => .of_eq (held_of_ne hp).symm
  have hput : Ledger ((s.createEvent n (proxy e (.user id e))).held none) := by
    refine htaken.1.put htaken.2 (q := .holder new) ?_ ?_
    · rw [held, hstored, if_pos rfl, held, stored_new hr]
      exact .refl _
    · intro p hp
      cases p with
      | holder e' =>
        have he : e' ≠ new := fun he => hp (he ▸ rfl)
        rw [held, hstored, if_neg he]
        exact .refl _
      | _ => exact .refl _
  -- nobody owes the new proxy an answer
  refine hput.put (fun p hp => ?_) (q := .hand) (.refl _) fun _ hp => .of_eq (held_of_ne hp)
  have hold : ∃ q, .inr new ∈ s.held (some (.user id e)) q := by
    cases p with
    | holder e' =>
      rw [held, hstored] at hp
      split at hp
      · simp [Action.token] at hp
      · exact ⟨.holder e', hp⟩
    | hand => simp [held] at hp
    | inbox m => exact ⟨.inbox m, hp⟩
    | log => exact ⟨.log, hp⟩
  obtain ⟨q, hq⟩ := hold
  obtain ⟨e', r, hrnew, -⟩ := h.meant hq
  exact absurd (record_new hr n) (hrnew ▸ some_ne_none r)

/-- Nothing gets lost when the action is put with the proxy. -/
theorem mem_shelve (hr : Records s) {t : Token N} {q : Place N}
    (ht : t ∈ s.held (some (.user id e)) q) (b : Action N) :
    ∃ q', t ∈ (s.createEvent n (proxy e (.user id e))).held (some b) q' := by
  cases q with
  | holder e' =>
    have he : e' ≠ (n, (s.node n).curEvent) := by
      intro he
      rw [he, held, stored_new hr] at ht
      exact absurd ht not_mem_nil
    refine ⟨.holder e', ?_⟩
    rw [held, stored_createEvent hr, if_neg he]
    exact ht
  | hand =>
    refine ⟨.holder (n, (s.node n).curEvent), ?_⟩
    rw [held, stored_createEvent hr, if_pos rfl]
    exact ht
  | inbox m => exact ⟨.inbox m, ht⟩
  | log => exact ⟨.log, ht⟩

theorem shelve (h : Tokens (some (.user id e)) s) (hr : Records s) :
    Tokens (some (.sendBack e (n, (s.node n).curEvent) 0))
      (s.createEvent n (proxy e (.user id e))) := by
  have hlive : ∀ p e', (s.createEvent n (proxy e (.user id e))).LiveProxy p e' ↔
      s.LiveProxy p e' ∨ p = (n, (s.node n).curEvent) ∧ some e = some e' :=
    fun p e' => live_createEvent hr
  refine ⟨h.shelve_ledger hr, ?_, ?_, ?_, ?_, ?_, h.log⟩
  · intro id' e' hid
    obtain ⟨q, hq⟩ := h.kept id' e' hid
    exact mem_shelve hr hq _
  · intro p e' hp
    rcases (hlive p e').mp hp with hp | ⟨rfl, -⟩
    · obtain ⟨q, hq⟩ := h.owed p e' hp
      exact mem_shelve hr hq _
    · exact ⟨.hand, mem_singleton_self _⟩
  · intro e' b hb
    rw [stored_createEvent hr] at hb
    split at hb
    · next he =>
      obtain rfl := mem_singleton.mp hb
      refine ⟨h.inHand _ rfl, .inr ⟨(proxy e (.user id e)).event, ?_, rfl⟩⟩
      exact (record_createEvent e').trans (if_pos he)
    · next he =>
      obtain ⟨hknown, hfits⟩ := h.stored e' b hb
      cases b with
      | user id' e₂ =>
        refine ⟨hknown, hfits.imp_right fun hp => ?_⟩
        rwa [record_createEvent, if_neg he]
      | sendBack e₂ eventBack slot => exact ⟨(hlive _ _).mpr (.inl hknown), hfits⟩
  · intro b hb
    obtain rfl := Option.some.inj hb
    exact (hlive _ _).mpr (.inr ⟨rfl, rfl⟩)
  · intro m msg hmsg
    exact (h.inbox m msg hmsg).mono ⟨fun _ hc => hc, fun _ _ hc => hc⟩
      (fun _ => issued_createEvent) fun p e' _ hold => (hlive p e').mpr (.inl hold)

/-- An action for an event of another node is kept with a new proxy, and the owner is asked. -/
theorem ask (h : Tokens (some (.user id e)) s) (hr : Records s) (hissued : s.Issued e) :
    Tokens none ((s.createEvent n (proxy e (.user id e))).send e.1
      (.checkFinished e n (n, (s.node n).curEvent))) := by
  have hshelved := h.shelve (n := n) hr
  exact hshelved.send rfl ⟨rfl, rfl, issued_createEvent hissued, hshelved.inHand _ rfl⟩

theorem create (h : Tokens hand s) (hr : Records s) {r : EventRecord N} (hproxy : r.proxyFor = none)
    {f : Facts N} (hgrows : Grows s.facts f) :
    Tokens hand ({ s with facts := f }.createEvent n { event := r }) := by
  have hlive : ∀ p e', ({ s with facts := f }.createEvent n { event := r }).LiveProxy p e' ↔
      s.LiveProxy p e' ∨ p = (n, (s.node n).curEvent) ∧ r.proxyFor = some e' :=
    fun p e' => live_createEvent hr
  refine h.grow ?_ rfl rfl rfl hgrows (fun e' he' => issued_createEvent he') ?_ ?_
  · intro e'
    refine (stored_createEvent hr e').trans ?_
    split
    · next he => rw [he, stored_new hr]
    · rfl
  · intro e' hne
    refine (record_createEvent e').trans (if_neg ?_)
    rintro rfl
    exact hne (stored_new hr n)
  · intro p e'
    rw [hlive, hproxy]
    simp

end Tokens

end VtRuntime.Event
