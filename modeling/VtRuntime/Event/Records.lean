import VtRuntime.Event.Async
import Mathlib.Data.List.Nodup

/-!
# The records of events

The records of a node agree with what has happened to the events: an event that is gone was ready,
a normal event is triggered when its actions are being run, and a test that says an event is ready
is right.
-/

namespace VtRuntime.Event

open Option EventSys

variable {N : Type} {s s' : EventSys N} {e : EventId N} {n : N} {i : ℕ}

theorem Facts.Done.mono {f f' : Facts N}
    (hcomplete : ∀ e, f.complete e = true → f'.complete e = true)
    (hchildren : ∀ e cs, f.children e = some cs → f'.children e = some cs) (h : f.Done e) :
    f'.Done e := by
  induction h with
  | complete h => exact .complete (hcomplete _ h)
  | parent h _ ih => exact .parent (hchildren _ _ h) ih

namespace EventSys

def record (s : EventSys N) (e : EventId N) : Option (EventRecord N) := (s.holder e).map (·.event)

/-- The actions of an event are being run. -/
def Executing (s : EventSys N) (e : EventId N) : Prop := (s.node e.1).Executing e.2

/-- The events whose actions a node is running. -/
def running (s : EventSys N) (n : N) : List ℕ := (s.node n).frames.map (·.event)

/-- The event was created. -/
def Issued (s : EventSys N) (e : EventId N) : Prop := e.2 < (s.node e.1).curEvent

theorem executing_iff : s.Executing e ↔ e.2 ∈ s.running e.1 := Iff.rfl

theorem executing_congr (h : ∀ n, s'.running n = s.running n) (e : EventId N) :
    s'.Executing e ↔ s.Executing e := by
  rw [executing_iff, h]
  rfl

theorem issued_congr (h : ∀ n, (s'.node n).curEvent = (s.node n).curEvent) (e : EventId N) :
    s'.Issued e ↔ s.Issued e := by
  rw [Issued, h]
  rfl

/-- A test says that the event is ready, and it will always do so. -/
inductive Settled (s : EventSys N) : EventId N → Prop
  | gone {e : EventId N} : s.Issued e → s.record e = none → s.Settled e
  | mpi {e : EventId N} {r : EventRecord N} : s.record e = some r → r.type = .mpi →
      s.facts.complete e = true → s.Settled e
  | parent {e : EventId N} {r : EventRecord N} : s.record e = some r → r.type = .parent →
      (∀ c ∈ r.eventList, s.Settled c) → s.Settled e

theorem Settled.mono (hissued : ∀ e, s.Issued e → s'.Issued e)
    (hrecord : ∀ e, s.Issued e → s'.record e = s.record e ∨ s'.record e = none)
    (hold : ∀ e r, s.record e = some r → s.Issued e)
    (hcomplete : ∀ e, s.facts.complete e = true → s'.facts.complete e = true) (h : s.Settled e) :
    s'.Settled e := by
  induction h with
  | @gone e hi hr =>
    refine .gone (hissued e hi) ?_
    rcases hrecord e hi with h | h
    · exact h.trans hr
    · exact h
  | @mpi e r hr htype hc =>
    rcases hrecord e (hold e r hr) with h | h
    · exact .mpi (h.trans hr) htype (hcomplete e hc)
    · exact .gone (hissued e (hold e r hr)) h
  | @parent e r hr htype _ ih =>
    rcases hrecord e (hold e r hr) with h | h
    · exact .parent (h.trans hr) htype ih
    · exact .gone (hissued e (hold e r hr)) h

theorem record_eq_none : s.record e = none ↔ s.holder e = none := map_eq_none_iff

end EventSys

/-- The actions of an event may be run: it is ready, and so is what it is a proxy for. -/
def EventSys.Runs (s : EventSys N) (e : EventId N) : Prop :=
  s.facts.Done e ∧ ∃ r, s.record e = some r ∧ (∀ e', r.proxyFor = some e' → s.facts.Done e') ∧
    (r.type ≠ .normal → s.Settled e)

/-- The records agree with the facts. -/
structure Records (s : EventSys N) : Prop where
  issued : ∀ e r, s.record e = some r → s.Issued e
  children : ∀ e r, s.record e = some r →
    s.facts.children e = if r.type = .parent then some r.eventList else none
  older : ∀ e cs, s.facts.children e = some cs → s.Issued e ∧ ∀ c ∈ cs, c.1 = e.1 ∧ c.2 < e.2
  complete : ∀ e, s.facts.complete e = true → s.Issued e ∧ s.facts.children e = none
  gone : ∀ e, s.Issued e → s.record e = none → s.facts.Done e
  /-- A normal event that is triggered is gone after its actions. -/
  normal : ∀ e r, s.record e = some r → r.type = .normal →
    (s.facts.complete e = true ↔ s.Executing e)
  proxy : ∀ e r e', s.record e = some r → r.proxyFor = some e' → r.type = .normal
  executing : ∀ e, s.Executing e → s.Runs e
  nodup : ∀ n, (s.running n).Nodup

/-! ## The test -/

section Test

variable [DecidableEq N] {f : Facts N} {x : EventNode N} {depth : ℕ}

theorem testEventComplete_remote : testEventComplete f n x depth e = .remote ↔ e.1 ≠ n := by
  unfold testEventComplete
  repeat' split
  all_goals simp_all

theorem testEventComplete_ready (h : testEventComplete f n x depth e = .ready) :
    e.1 = n ∧ ∀ holder, x.lookup e.2 = some holder →
      holder.event.type = .mpi ∧ f.complete e = true ∨
      holder.event.type = .parent ∧ ∃ k, depth = k + 1 ∧
        ∀ c ∈ holder.event.eventList, testEventComplete f n x k c = .ready := by
  have hn : e.1 = n := by
    by_contra hne
    rw [testEventComplete_remote.mpr hne] at h
    exact EventState.noConfusion h
  refine ⟨hn, ?_⟩
  intro holder hholder
  unfold testEventComplete at h
  simp only [hn, ne_eq, not_true_eq_false, if_false, hholder] at h
  cases htype : holder.event.type with
  | mpi => exact .inl ⟨rfl, by simpa [htype] using h⟩
  | normal => simp [htype] at h
  | parent =>
    cases depth with
    | zero => simp [htype] at h
    | succ k => exact .inr ⟨rfl, k, rfl, by simpa [htype] using h⟩

theorem testEventComplete_waiting (h : testEventComplete f n x depth e = .waiting) :
    e.1 = n ∧ ∃ holder, x.lookup e.2 = some holder := by
  unfold testEventComplete at h
  by_cases hn : e.1 = n
  · cases hlookup : x.lookup e.2 with
    | none => simp [hn, hlookup] at h
    | some holder => exact ⟨hn, holder, rfl⟩
  · simp [hn] at h

theorem testEventComplete_of_none (hn : e.1 = n) (h : x.lookup e.2 = none) :
    testEventComplete f n x depth e = .ready := by
  unfold testEventComplete
  simp [hn, h]

theorem testEventComplete_of_mpi (hn : e.1 = n) {holder : EventHolder N}
    (h : x.lookup e.2 = some holder) (htype : holder.event.type = .mpi) (hc : f.complete e = true) :
    testEventComplete f n x depth e = .ready := by
  unfold testEventComplete
  simp [hn, h, htype, hc]

theorem testEventComplete_of_parent (hn : e.1 = n) {holder : EventHolder N}
    (h : x.lookup e.2 = some holder) (htype : holder.event.type = .parent)
    (hc : ∀ c ∈ holder.event.eventList, testEventComplete f n x depth c = .ready) :
    testEventComplete f n x (depth + 1) e = .ready := by
  unfold testEventComplete
  simpa [hn, h, htype] using hc

theorem testEventComplete_of_normal (hn : e.1 = n) {holder : EventHolder N}
    (h : x.lookup e.2 = some holder) (htype : holder.event.type = .normal) :
    testEventComplete f n x depth e = .waiting := by
  unfold testEventComplete
  simp [hn, h, htype]

end Test

/-! ## The invariant -/

namespace Records

/-- The facts grow when an event is created or triggered, or a request is complete. -/
structure Grows (f f' : Facts N) : Prop where
  complete : ∀ e, f.complete e = true → f'.complete e = true
  children : ∀ e cs, f.children e = some cs → f'.children e = some cs

theorem Grows.done {f f' : Facts N} (h : Grows f f') (hdone : f.Done e) : f'.Done e :=
  hdone.mono h.complete h.children

theorem Grows.of_eq {f f' : Facts N} (h : f' = f) : Grows f f' :=
  h ▸ ⟨fun _ => id, fun _ _ => id⟩

theorem runs_mono (h : Records s) (hgrows : Grows s.facts s'.facts)
    (hissued : ∀ e, s.Issued e → s'.Issued e)
    (hrecord : ∀ e, s.Issued e → s'.record e = s.record e ∨ s'.record e = none)
    (hkept : s'.record e = s.record e) (hruns : s.Runs e) : s'.Runs e := by
  obtain ⟨hdone, r, hr, hp, hs⟩ := hruns
  exact ⟨hgrows.done hdone, r, hkept.trans hr, fun e' he' => hgrows.done (hp e' he'),
    fun htype => (hs htype).mono hissued hrecord h.issued hgrows.complete⟩

/-- A step that leaves the records alone. -/
theorem congr (h : Records s) (hrecord : ∀ e, s'.record e = s.record e)
    (hcur : ∀ n, (s'.node n).curEvent = (s.node n).curEvent) (hfacts : s'.facts = s.facts)
    (hrunning : ∀ n, s'.running n = s.running n) : Records s' := by
  have hissued := issued_congr hcur
  have hexecuting := executing_congr hrunning
  constructor
  · simpa only [hrecord, hissued] using h.issued
  · simpa only [hrecord, hfacts] using h.children
  · simpa only [hissued, hfacts] using h.older
  · simpa only [hissued, hfacts] using h.complete
  · simpa only [hissued, hrecord, hfacts] using h.gone
  · simpa only [hrecord, hfacts, hexecuting] using h.normal
  · simpa only [hrecord] using h.proxy
  · intro e hx
    exact h.runs_mono (.of_eq hfacts) (fun e => (hissued e).mpr) (fun e _ => .inl (hrecord e))
      (hrecord e) (h.executing e ((hexecuting e).mp hx))
  · simpa only [hrunning] using h.nodup

/-- The next identifier of a node is not in use. -/
theorem not_issued (s : EventSys N) (n : N) : ¬ s.Issued (n, (s.node n).curEvent) :=
  Nat.lt_irrefl _

variable [DecidableEq N]

variable {r : EventRecord N} {depth : ℕ}

theorem issued_create
    (hcur : ∀ m, (s'.node m).curEvent = (s.node m).curEvent + if m = n then 1 else 0)
    (e : EventId N) : s'.Issued e ↔ s.Issued e ∨ e = (n, (s.node n).curEvent) := by
  obtain ⟨m, i⟩ := e
  simp only [EventSys.Issued, hcur, Prod.mk.injEq]
  by_cases hm : m = n
  · subst hm
    simp
    omega
  · simp [hm]

omit [DecidableEq N] in
theorem children_of_not_issued (h : Records s) (he : ¬ s.Issued e) : s.facts.children e = none := by
  by_contra hne
  obtain ⟨cs, hcs⟩ := ne_none_iff_exists'.mp hne
  exact he (h.older e cs hcs).1

theorem create (s' : EventSys N) (h : Records s)
    (hrecord : ∀ e, s'.record e = if e = (n, (s.node n).curEvent) then some r else s.record e)
    (hcur : ∀ m, (s'.node m).curEvent = (s.node m).curEvent + if m = n then 1 else 0)
    (hrunning : ∀ m, s'.running m = s.running m) (hcomplete : s'.facts.complete = s.facts.complete)
    (hchildren : ∀ e, s'.facts.children e =
      if e = (n, (s.node n).curEvent) ∧ r.type = .parent then some r.eventList
        else s.facts.children e)
    (hlist : r.type = .parent → ∀ c ∈ r.eventList, c.1 = n ∧ c.2 < (s.node n).curEvent)
    (hproxy : ∀ e', r.proxyFor = some e' → r.type = .normal) :
    Records s' ∧ Grows s.facts s'.facts := by
  set new : EventId N := (n, (s.node n).curEvent) with hnew
  have hfresh : ¬ s.Issued new := not_issued s n
  have hissued : ∀ e, s'.Issued e ↔ s.Issued e ∨ e = new := issued_create hcur
  have hexecuting := executing_congr hrunning
  have hgrows : Grows s.facts s'.facts := by
    refine ⟨fun e he => hcomplete ▸ he, ?_⟩
    intro e cs hcs
    have hne : e ≠ new := fun he => hfresh (he ▸ (h.older e cs hcs).1)
    rw [hchildren, if_neg fun hand => hne hand.1, hcs]
  refine ⟨⟨?_, ?_, ?_, ?_, ?_, ?_, ?_, ?_, ?_⟩, hgrows⟩
  · intro e r' hr'
    rw [hrecord] at hr'
    split at hr'
    · next he => exact (hissued e).mpr (.inr he)
    · exact (hissued e).mpr (.inl (h.issued e r' hr'))
  · intro e r' hr'
    rw [hrecord] at hr'
    rw [hchildren]
    split at hr'
    · next he =>
      obtain rfl := Option.some.inj hr'
      by_cases htype : r.type = .parent
      · rw [if_pos ⟨he, htype⟩, if_pos htype]
      · rw [if_neg fun hand => htype hand.2, if_neg htype, he,
          h.children_of_not_issued hfresh]
    · next he =>
      rw [if_neg fun hand => he hand.1]
      exact h.children e r' hr'
  · intro e cs hcs
    rw [hchildren] at hcs
    split at hcs
    · next he =>
      obtain rfl := Option.some.inj hcs
      rw [he.1]
      exact ⟨(hissued _).mpr (.inr rfl), hlist he.2⟩
    · obtain ⟨hold, hcs⟩ := h.older e cs hcs
      exact ⟨(hissued e).mpr (.inl hold), hcs⟩
  · intro e he
    rw [hcomplete] at he
    obtain ⟨hold, hnochild⟩ := h.complete e he
    have hne : e ≠ new := fun he => hfresh (he ▸ hold)
    rw [hchildren, if_neg fun hand => hne hand.1]
    exact ⟨(hissued e).mpr (.inl hold), hnochild⟩
  · intro e he hgone
    rw [hrecord] at hgone
    split at hgone
    · exact absurd hgone (some_ne_none r)
    · next hne => exact hgrows.done (h.gone e (((hissued e).mp he).resolve_right hne) hgone)
  · intro e r' hr' htype
    rw [hrecord] at hr'
    rw [hcomplete, hexecuting]
    split at hr'
    · next he =>
      refine iff_of_false ?_ ?_
      · exact fun hc => hfresh (he ▸ (h.complete e hc).1)
      · intro hx
        obtain ⟨-, r₀, hr₀, -⟩ := h.executing e hx
        exact hfresh (he ▸ h.issued e r₀ hr₀)
    · exact h.normal e r' hr' htype
  · intro e r' e' hr' hp
    rw [hrecord] at hr'
    split at hr'
    · obtain rfl := Option.some.inj hr'
      exact hproxy e' hp
    · exact h.proxy e r' e' hr' hp
  · intro e hx
    have hruns := h.executing e ((hexecuting e).mp hx)
    obtain ⟨r₀, hr₀, -⟩ := hruns.2
    have hkept : ∀ e, s.Issued e → s'.record e = s.record e :=
      fun e he => (hrecord e).trans (if_neg fun heq : e = new => hfresh (heq ▸ he))
    exact h.runs_mono hgrows (fun e he => (hissued e).mpr (.inl he))
      (fun e he => .inl (hkept e he)) (hkept e (h.issued e r₀ hr₀)) hruns
  · exact fun m => hrunning m ▸ h.nodup m

section

variable (s') (h : Records s) (hr : s.record e = some r) (hrecord : ∀ e, s'.record e = s.record e)
  (hcur : ∀ m, (s'.node m).curEvent = (s.node m).curEvent)
  (hchildren : s'.facts.children = s.facts.children)
include h hr hrecord hcur hchildren

omit [DecidableEq N] in
/-- An event is completed, its actions begin to be run, or both. -/
theorem advance {completes begins : Prop}
    (hcomplete : ∀ e', s'.facts.complete e' = true ↔
      s.facts.complete e' = true ∨ e' = e ∧ completes)
    (hexecuting : ∀ e', s'.Executing e' ↔ s.Executing e' ∨ e' = e ∧ begins)
    (hnodup : ∀ m, (s'.running m).Nodup) (hparent : completes → r.type ≠ .parent)
    (hnormal : r.type = .normal → (completes ↔ begins))
    (hbegins : begins → s'.facts.Done e ∧ (∀ e', r.proxyFor = some e' → s'.facts.Done e') ∧
      (r.type ≠ .normal → s.Settled e))
    : Records s' ∧ Grows s.facts s'.facts := by
  have hgrows : Grows s.facts s'.facts :=
    ⟨fun e' he' => (hcomplete e').mpr (.inl he'), fun e' cs hcs => hchildren ▸ hcs⟩
  have hissued := issued_congr hcur
  refine ⟨⟨?_, ?_, ?_, ?_, ?_, ?_, ?_, ?_, hnodup⟩, hgrows⟩
  · simpa only [hrecord, hissued] using h.issued
  · simpa only [hrecord, hchildren] using h.children
  · simpa only [hissued, hchildren] using h.older
  · intro e' he'
    rw [hissued, hchildren]
    rcases (hcomplete e').mp he' with he' | ⟨rfl, hc⟩
    · exact h.complete e' he'
    · refine ⟨h.issued e' r hr, ?_⟩
      rw [h.children e' r hr, if_neg (hparent hc)]
  · intro e' he' hgone
    rw [hissued] at he'
    rw [hrecord] at hgone
    exact hgrows.done (h.gone e' he' hgone)
  · intro e' r' hr' htype
    rw [hrecord] at hr'
    rw [hcomplete, hexecuting, h.normal e' r' hr' htype]
    refine or_congr_right (and_congr_right ?_)
    rintro rfl
    exact hnormal (Option.some.inj (hr.symm.trans hr') ▸ htype)
  · simpa only [hrecord] using h.proxy
  · intro e' hx
    have hissued' : ∀ e, s.Issued e → s'.Issued e := fun e => (hissued e).mpr
    have hkept : ∀ e, s.Issued e → s'.record e = s.record e ∨ s'.record e = none :=
      fun e _ => .inl (hrecord e)
    rcases (hexecuting e').mp hx with hx | ⟨rfl, hb⟩
    · exact h.runs_mono hgrows hissued' hkept (hrecord e') (h.executing e' hx)
    · obtain ⟨hdone, hproxy, hsettled⟩ := hbegins hb
      exact ⟨hdone, r, (hrecord e').trans hr, hproxy,
        fun htype => (hsettled htype).mono hissued' hkept h.issued hgrows.complete⟩

theorem start (hidle : ¬ s.Executing e)
    (hrunning : ∀ m, s'.running m = if m = e.1 then e.2 :: s.running m else s.running m)
    (hcomplete : ∀ e', s'.facts.complete e' = true ↔
      s.facts.complete e' = true ∨ e' = e ∧ r.type = .normal)
    (hdone : s'.facts.Done e) (hproxy : ∀ e', r.proxyFor = some e' → s'.facts.Done e')
    (hsettled : r.type ≠ .normal → s.Settled e) : Records s' ∧ Grows s.facts s'.facts := by
  have hexecuting : ∀ e', s'.Executing e' ↔ s.Executing e' ∨ e' = e ∧ True := by
    intro e'
    rw [executing_iff, executing_iff, hrunning]
    by_cases hm : e'.1 = e.1
    · simp [hm, Prod.ext_iff, or_comm]
    · simp [hm, Prod.ext_iff]
  refine h.advance s' hr hrecord hcur hchildren hcomplete hexecuting ?_ ?_ ?_
    fun _ => ⟨hdone, hproxy, hsettled⟩
  · intro m
    rw [hrunning]
    split
    · next hm =>
      subst hm
      exact List.nodup_cons.mpr ⟨hidle, h.nodup e.1⟩
    · exact h.nodup m
  · intro htype
    simp [htype]
  · exact fun htype => iff_true_intro htype

omit [DecidableEq N] in
theorem mpi (htype : r.type = .mpi) (hrunning : ∀ m, s'.running m = s.running m)
    (hcomplete : ∀ e', s'.facts.complete e' = true ↔
      s.facts.complete e' = true ∨ e' = e) :
    Records s' ∧ Grows s.facts s'.facts := by
  have hexecuting : ∀ e', s'.Executing e' ↔ s.Executing e' ∨ e' = e ∧ False := by
    intro e'
    rw [executing_iff, hrunning]
    simp [executing_iff]
  have hcomplete' : ∀ e', s'.facts.complete e' = true ↔
      s.facts.complete e' = true ∨ e' = e ∧ True := by
    simpa only [and_true] using hcomplete
  refine h.advance s' hr hrecord hcur hchildren hcomplete' hexecuting ?_ ?_ ?_ False.elim
  · exact fun m => hrunning m ▸ h.nodup m
  · simp [htype]
  · simp [htype]

end

theorem finish (h : Records s) (hrunning : ∀ m, s.running m =
      if m = e.1 then e.2 :: s'.running m else s'.running m)
    (hrecord : ∀ e', s'.record e' = if e' = e then none else s.record e')
    (hcur : ∀ m, (s'.node m).curEvent = (s.node m).curEvent) (hfacts : s'.facts = s.facts) :
    Records s' := by
  have hissued := issued_congr hcur
  have hhead : s.running e.1 = e.2 :: s'.running e.1 := by
    rw [hrunning, if_pos rfl]
  have hnot : ¬ s'.Executing e := (List.nodup_cons.mp (hhead ▸ h.nodup e.1)).1
  have hexecuting : ∀ e', s.Executing e' ↔ e' = e ∨ s'.Executing e' := by
    intro e'
    rw [executing_iff, executing_iff, hrunning]
    by_cases hm : e'.1 = e.1
    · simp [hm, Prod.ext_iff]
    · simp [hm, Prod.ext_iff]
  have hkept : ∀ e' r, s'.record e' = some r → e' ≠ e ∧ s.record e' = some r := by
    intro e' r hr
    rw [hrecord] at hr
    split at hr
    · exact absurd hr.symm (some_ne_none r)
    · next hne => exact ⟨hne, hr⟩
  constructor
  · exact fun e' r hr => (hissued e').mpr (h.issued e' r (hkept e' r hr).2)
  · exact fun e' r hr => hfacts ▸ h.children e' r (hkept e' r hr).2
  · simpa only [hissued, hfacts] using h.older
  · simpa only [hissued, hfacts] using h.complete
  · intro e' he' hgone
    rw [hissued] at he'
    rw [hfacts]
    rw [hrecord] at hgone
    split at hgone
    · next heq => exact heq ▸ (h.executing e ((hexecuting e).mpr (.inl rfl))).1
    · exact h.gone e' he' hgone
  · intro e' r hr htype
    obtain ⟨hne, hr⟩ := hkept e' r hr
    rw [hfacts, h.normal e' r hr htype, hexecuting]
    exact or_iff_right hne
  · exact fun e' r e₂ hr => h.proxy e' r e₂ (hkept e' r hr).2
  · intro e' hx
    have hne : e' ≠ e := fun heq => hnot (heq ▸ hx)
    refine h.runs_mono (.of_eq hfacts) (fun e => (hissued e).mpr) ?_
      ((hrecord e').trans (if_neg hne)) (h.executing e' ((hexecuting e').mpr (.inr hx)))
    intro e₂ _
    rw [hrecord]
    split
    · exact .inr rfl
    · exact .inl rfl
  · intro m
    have hn := h.nodup m
    rw [hrunning] at hn
    split at hn
    · exact (List.nodup_cons.mp hn).2
    · exact hn

theorem settled_of_ready (h : Records s) (hissued : s.Issued e)
    (hready : testEventComplete s.facts n (s.node n) depth e = .ready) : s.Settled e := by
  induction depth using Nat.strong_induction_on generalizing e with
  | _ depth ih =>
    obtain ⟨hn, hholder⟩ := testEventComplete_ready hready
    subst hn
    cases hr : s.holder e with
    | none => exact .gone hissued (record_eq_none.mpr hr)
    | some holder =>
      have hrecord : s.record e = some holder.event := congrArg (Option.map _) hr
      rcases hholder holder hr with ⟨htype, hc⟩ | ⟨htype, k, rfl, hcs⟩
      · exact .mpi hrecord htype hc
      · have hchildren := h.children e holder.event hrecord
        rw [if_pos htype] at hchildren
        refine .parent hrecord htype fun c hc => ?_
        obtain ⟨hnode, hlt⟩ := (h.older e _ hchildren).2 c hc
        refine ih k (Nat.lt_succ_self k) ?_ (hcs c hc)
        rw [EventSys.Issued, hnode]
        exact Nat.lt_trans hlt hissued

theorem ready_of_settled (h : Records s) (hs : s.Settled e) (hdepth : e.2 < depth) :
    testEventComplete s.facts e.1 (s.node e.1) depth e = .ready := by
  induction hs generalizing depth with
  | gone _ hr => exact testEventComplete_of_none rfl (record_eq_none.mp hr)
  | mpi hr htype hc =>
    obtain ⟨holder, hholder, rfl⟩ := map_eq_some_iff.mp hr
    exact testEventComplete_of_mpi rfl hholder htype hc
  | @parent e r hr htype _ ih =>
    obtain ⟨holder, hholder, rfl⟩ := map_eq_some_iff.mp hr
    have hchildren := h.children e _ hr
    rw [if_pos htype] at hchildren
    obtain ⟨k, rfl⟩ := Nat.exists_eq_succ_of_ne_zero (Nat.ne_of_gt (Nat.zero_lt_of_lt hdepth))
    refine testEventComplete_of_parent rfl hholder htype fun c hc => ?_
    obtain ⟨hnode, hlt⟩ := (h.older e _ hchildren).2 c hc
    rw [← hnode]
    exact ih c hc (by omega)

omit [DecidableEq N] in
theorem done_of_settled (h : Records s) (hs : s.Settled e) : s.facts.Done e := by
  induction hs with
  | gone hi hr => exact h.gone _ hi hr
  | mpi _ _ hc => exact .complete hc
  | @parent e r hr htype _ ih =>
    have hchildren := h.children e r hr
    rw [if_pos htype] at hchildren
    exact .parent hchildren ih

/-- In a state in which nothing is running and no test would succeed, the events that are ready are
gone. -/
theorem gone_of_done (h : Records s) (hidle : ∀ e, ¬ s.Executing e)
    (hpoll : ∀ e r, s.record e = some r → r.type ≠ .normal → s.testEventComplete e.1 e ≠ .ready)
    (hdone : s.facts.Done e) : s.record e = none := by
  induction hdone with
  | @complete e hc =>
    by_contra hne
    obtain ⟨r, hr⟩ := ne_none_iff_exists'.mp hne
    obtain ⟨holder, hholder, rfl⟩ := map_eq_some_iff.mp hr
    cases htype : holder.event.type with
    | mpi => exact hpoll e _ hr (by simp [htype]) (testEventComplete_of_mpi rfl hholder htype hc)
    | normal => exact hidle e ((h.normal e _ hr htype).mp hc)
    | parent =>
      have hchildren := h.children e _ hr
      rw [if_pos htype, (h.complete e hc).2] at hchildren
      exact absurd hchildren.symm (some_ne_none _)
  | @parent e cs hcs _ ih =>
    by_contra hne
    obtain ⟨r, hr⟩ := ne_none_iff_exists'.mp hne
    obtain ⟨holder, hholder, rfl⟩ := map_eq_some_iff.mp hr
    have hchildren := h.children e _ hr
    rw [hcs] at hchildren
    split at hchildren
    · next htype =>
      obtain rfl := Option.some.inj hchildren
      refine hpoll e _ hr (by simp [htype]) ?_
      obtain ⟨k, hk⟩ := Nat.exists_eq_succ_of_ne_zero
        (Nat.ne_of_gt (Nat.zero_lt_of_lt (h.issued e _ hr)))
      rw [EventSys.testEventComplete, hk]
      refine testEventComplete_of_parent rfl hholder htype fun c hc => ?_
      obtain ⟨hnode, -⟩ := (h.older e _ hcs).2 c hc
      refine testEventComplete_of_none hnode ?_
      rw [← hnode]
      exact record_eq_none.mp (ih c hc)
    · exact absurd hchildren (some_ne_none cs)

end Records

end VtRuntime.Event
