import VtRuntime.Rdma.State
import Mathlib.Data.List.Range
import Mathlib.Data.List.Perm.Basic

/-!
# The requests on an RDMA handle

`Service` says what a registry is for.  A request is passed to the function that is registered for
its tag, and waits if there is none; the requests that wait are served as soon as a function is
registered for them.  The services of the gets and of the puts do not know each other.

`rdma::State` never goes back to the requests that it has parked, and the test for a put reads the
flag of the gets.  As long as this makes no difference, its registries are services.
-/

namespace VtRuntime.Rdma

open Lib List Option Function State

variable {F M A : Type}

/-! ## Services -/

/-- The service for one kind of requests. -/
structure Service (F A : Type) where
  fn : Option F := none
  anyTag : Bool := false
  own : Tag → Option F := fun _ => none
  waiting : List (ℕ × Info A) := []
  requests : ℕ := 0
  served : List (ℕ × Info A × F) := []

namespace Service

variable (t : Service F A)

/-- The function for a tag. -/
def registered (tag : Tag) : Option F :=
  if tag = noTag ∨ t.anyTag = true then t.fn else t.own tag

def request (info : Info A) : Service F A :=
  match t.registered info.tag with
  | some f => { t with served := t.served ++ [(t.requests, info, f)], requests := t.requests + 1 }
  | none => { t with waiting := t.waiting ++ [(t.requests, info)], requests := t.requests + 1 }

/-- The requests that wait for a function that is registered now are served. -/
def wake : Service F A :=
  { t with
    waiting := t.waiting.filter fun p => (t.registered p.2.tag).isNone
    served := t.served ++
      t.waiting.filterMap fun p => (t.registered p.2.tag).map fun f => (p.1, p.2, f) }

/-- A function is registered, or there is none any more. -/
def assign (f : Option F) (anyTag : Bool) (tag : Tag) : Service F A :=
  if tag = noTag then wake { t with fn := f, anyTag := anyTag }
  else wake { t with own := update t.own tag f }

/-- What a call is for the service of a kind. -/
def step (k : Kind) (t : Service F A) : Act F M A → Service F A
  | .getData info => if k = .get then t.request info else t
  | .putData info => if k = .put then t.request info else t
  | .setRDMAGetFn _ f anyTag tag => if k = .get then t.assign (some f) anyTag tag else t
  | .setRDMAPutFn _ f anyTag tag => if k = .put then t.assign (some f) anyTag tag else t
  | .unregisterRdmaType type tag useDefault =>
    if k = type then t.assign none false (if useDefault then noTag else tag) else t
  | .unregisterRdmaHandler .. => t

/-- The service after some calls. -/
def after (k : Kind) (as : List (Act F M A)) : Service F A := as.foldl (step k) {}

/-- Every request is served once or waits, and waits only if no function is registered for it. -/
structure Once : Prop where
  perm : (t.waiting.map (·.1) ++ t.served.map (·.1)).Perm (List.range t.requests)
  waits : ∀ p ∈ t.waiting, t.registered p.2.tag = none

variable {t}

theorem Once.request (h : t.Once) (info : Info A) : (t.request info).Once := by
  cases hf : t.registered info.tag with
  | some f =>
    simp only [Service.request, hf]
    refine ⟨?_, h.waits⟩
    rw [map_append, ← append_assoc, range_succ]
    exact h.perm.append_right _
  | none =>
    simp only [Service.request, hf]
    refine ⟨?_, ?_⟩
    · rw [map_append, append_assoc, range_succ]
      exact (perm_append_comm.append_left _).trans
        (append_assoc _ _ _ ▸ h.perm.append_right _)
    · exact forall_mem_append.mpr ⟨h.waits, forall_mem_singleton.mpr hf⟩

theorem once_wake (h : (t.waiting.map (·.1) ++ t.served.map (·.1)).Perm (List.range t.requests)) :
    t.wake.Once := by
  have hsplit : ∀ l : List (ℕ × Info A), (l.map (·.1)).Perm
      ((l.filter fun p => (t.registered p.2.tag).isNone).map (·.1) ++
        (l.filterMap fun p => (t.registered p.2.tag).map fun f => (p.1, p.2, f)).map (·.1)) := by
    intro l
    induction l with
    | nil => exact .refl _
    | cons p l ih =>
      cases hf : t.registered p.2.tag with
      | none => simpa [hf] using ih
      | some f => simpa [hf] using (ih.cons p.1).trans perm_middle.symm
  refine ⟨?_, ?_⟩
  · simp only [wake, map_append]
    refine (perm_append_comm.append_left _).trans ?_
    rw [← append_assoc]
    exact ((hsplit t.waiting).symm.append_right _).trans h
  · intro p hp
    exact isNone_iff_eq_none.mp (mem_filter.mp hp).2

theorem Once.assign (h : t.Once) (f : Option F) (anyTag : Bool) (tag : Tag) :
    (t.assign f anyTag tag).Once := by
  rw [Service.assign]
  split <;> exact once_wake h.perm

theorem Once.ite {p : Prop} [Decidable p] {t' : Service F A} (h' : t'.Once) (h : t.Once) :
    (if p then t' else t).Once := by
  split
  · exact h'
  · exact h

/-- Whatever is called, a request is not lost and not served twice. -/
theorem once_after (k : Kind) (as : List (Act F M A)) : (after k as).Once := by
  induction as using List.reverseRecOn with
  | nil => exact ⟨.refl _, fun _ hp => absurd hp not_mem_nil⟩
  | append_singleton as a ih =>
    rw [after, foldl_append]
    cases a with
    | getData info | putData info => exact (ih.request info).ite ih
    | setRDMAGetFn msg f anyTag tag | setRDMAPutFn msg f anyTag tag =>
      exact (ih.assign (some f) anyTag tag).ite ih
    | unregisterRdmaType type tag useDefault => exact (ih.assign none false _).ite ih
    | unregisterRdmaHandler handler tag => exact ih

end Service

/-! ## The registries are services -/

/-- A registry has called the functions that the service calls, and holds the requests that wait. -/
structure Serves (r : Registry F M A) (t : Service F A) : Prop where
  fn : r.rdmaFn = t.fn
  anyTag : r.anyTag = t.anyTag
  own : ∀ tag, (r.tagHolder tag).map (·.1) = t.own tag
  waiting : r.pendingTag = t.waiting
  requests : r.requests = t.requests
  served : r.calls.map (fun c => (c.id, c.info, c.fn)) = t.served

/-- What is expected of the requests on a handle. -/
structure ServedOnce (s : State F M A) : Prop where
  /-- No missing entry was dereferenced. -/
  valid : s.invalid = false
  /-- The functions are called as the calls for this kind of requests ask for. -/
  serves : ∀ k, Serves (s.registry k) (Service.after k s.history)
  once : ∀ k, (Service.after k s.history).Once

namespace State

/-- The test of a put is that of the puts, a get has a place for its data, no request is parked for
which a function is registered, no function for any tag is unregistered, and none by its handler and
a tag for which the puts have a function. -/
def Plain (s : State F M A) : Act F M A → Prop
  | .getData info => info.cont.isSome ∨ info.dataPtr.isSome
  | .putData info => info.tag = noTag ∨ ((s.registry .put).tagHolder info.tag).isSome ∨
      (s.registry .put).anyTag = (s.registry .get).anyTag
  | .setRDMAGetFn _ _ anyTag tag =>
    ∀ p ∈ (s.registry .get).pendingTag, p.2.tag ≠ tag ∧ anyTag = false
  | .setRDMAPutFn _ _ anyTag tag =>
    ∀ p ∈ (s.registry .put).pendingTag, p.2.tag ≠ tag ∧ anyTag = false
  | .unregisterRdmaType k tag useDefault =>
    tag = noTag ∨ useDefault = true → (s.registry k).anyTag = false
  | .unregisterRdmaHandler _ tag =>
    (tag = noTag → (s.registry .get).anyTag = false ∧ (s.registry .put).anyTag = false) ∧
      (tag ≠ noTag → ((s.registry .put).tagHolder tag).isNone)

instance (s : State F M A) : (a : Act F M A) → Decidable (s.Plain a)
  | .getData _ => inferInstanceAs (Decidable (_ ∨ _))
  | .putData _ => inferInstanceAs (Decidable (_ ∨ _ ∨ _))
  | .setRDMAGetFn .. => inferInstanceAs (Decidable (∀ p ∈ (s.registry .get).pendingTag, _ ∧ _))
  | .setRDMAPutFn .. => inferInstanceAs (Decidable (∀ p ∈ (s.registry .put).pendingTag, _ ∧ _))
  | .unregisterRdmaType .. => inferInstanceAs (Decidable (_ ∨ _ → _))
  | .unregisterRdmaHandler .. => inferInstanceAs (Decidable ((_ → _ ∧ _) ∧ (_ → _)))

variable {s s' : State F M A}

variable (r : Registry F M A)

theorem isNone_lookup (tag : Tag) : r.lookup tag = none ↔
    ((tag = noTag ∨ r.anyTag = true) ∧ r.rdmaFn.isNone) ∨
      (tag ≠ noTag ∧ ¬ r.anyTag = true ∧ (r.tagHolder tag).isNone) := by
  by_cases hfn : tag = noTag ∨ r.anyTag = true
  · have hnot : ¬ (tag ≠ noTag ∧ ¬ r.anyTag = true ∧ (r.tagHolder tag).isNone) :=
      fun h => hfn.elim h.1 h.2.1
    rw [Registry.lookup, if_pos hfn, or_iff_left hnot, and_iff_right hfn,
      isNone_iff_eq_none]
  · simp [Registry.lookup, not_or.mp hfn]

theorem testReadyGetData_iff (tag : Tag) :
    s.testReadyGetData tag = true ↔ (s.registry .get).lookup tag ≠ none := by
  rw [ne_eq, isNone_lookup, testReadyGetData, decide_eq_true_iff]

theorem testReadyPutData_iff {info : Info A} (h : s.Plain (.putData info)) :
    s.testReadyPutData info.tag = true ↔ (s.registry .put).lookup info.tag ≠ none := by
  rw [ne_eq, isNone_lookup, testReadyPutData, decide_eq_true_iff]
  rcases h with htag | hholder | hany
  · simp [htag]
  · obtain ⟨e, he⟩ := isSome_iff_exists.mp hholder
    simp [he]
  · rw [hany]

/-- A request is served, or parked. -/
def request (info : Info A) : Registry F M A :=
  match r.lookup info.tag with
  | some fn => r.serve fn info
  | none => r.park info

theorem getData_eq {info : Info A} (h : s.Plain (.getData info)) :
    s.getData info = s.setRegistry .get (request (s.registry .get) info) := by
  simp only [getData, testReadyGetData_iff, request]
  cases hf : (s.registry .get).lookup info.tag with
  | none => simp
  | some fn => simpa using fun hc hp => absurd h (by simp [Plain, hc, hp])

theorem putData_eq {info : Info A} (h : s.Plain (.putData info)) :
    s.putData info = s.setRegistry .put (request (s.registry .put) info) := by
  simp only [putData, testReadyPutData_iff h, request]
  cases hf : (s.registry .put).lookup info.tag <;> simp

theorem setRDMAFn_eq (k : Kind) (msg : Option M) (fn : F) (anyTag : Bool) (tag : Tag) :
    ∃ handler cur, s.setRDMAFn k msg fn anyTag tag =
      { s.setRegistry k (Registry.assign
          { s.registry k with thisRdmaHandler := some handler, userStateMsg := msg }
          (some (fn, handler)) anyTag tag) with
        curRdmaHandler := cur } := by
  simp only [setRDMAFn, makeRdmaHandler]
  cases (s.registry k).thisRdmaHandler with
  | none => exact ⟨s.curRdmaHandler, s.curRdmaHandler + 1, rfl⟩
  | some handler => exact ⟨handler, s.curRdmaHandler, rfl⟩

end State

namespace Serves

variable {r : Registry F M A} {t : Service F A}

theorem registered (h : Serves r t) (tag : Tag) : r.lookup tag = t.registered tag := by
  rw [Registry.lookup, Service.registered, h.fn, h.anyTag, h.own]

theorem request (h : Serves r t) (info : Info A) : Serves (request r info) (t.request info) := by
  cases hf : t.registered info.tag with
  | some f =>
    rw [State.request, Service.request, h.registered, hf]
    refine ⟨h.fn, h.anyTag, h.own, h.waiting, congrArg (· + 1) h.requests, ?_⟩
    simp [Registry.serve, h.served, h.requests]
  | none =>
    rw [State.request, Service.request, h.registered, hf]
    refine ⟨h.fn, h.anyTag, h.own, ?_, congrArg (· + 1) h.requests, h.served⟩
    simp [Registry.park, h.waiting, h.requests]

theorem wake (h : Serves r t) (hwaits : ∀ p ∈ t.waiting, t.registered p.2.tag = none) :
    Serves r t.wake := by
  refine ⟨h.fn, h.anyTag, h.own, ?_, h.requests, ?_⟩
  · have hall : t.waiting.filter (fun p => (t.registered p.2.tag).isNone) = t.waiting :=
      filter_eq_self.mpr fun p hp => isNone_iff_eq_none.mpr (hwaits p hp)
    exact h.waiting.trans hall.symm
  · have hnone : t.waiting.filterMap
        (fun p => (t.registered p.2.tag).map fun f => (p.1, p.2, f)) = [] :=
      filterMap_eq_nil_iff.mpr fun p hp => by rw [hwaits p hp, map_none]
    rw [Service.wake, hnone, append_nil]
    exact h.served

/-- A function is registered for which no request waits, or one is unregistered. -/
theorem assign (h : Serves r t) (honce : t.Once) (hany : r.anyTag = true → r.rdmaFn ≠ none)
    {f : Option (F × ℕ)} {anyTag : Bool} {tag : Tag} (hplain : ∀ p ∈ r.pendingTag,
      (f ≠ none → p.2.tag ≠ tag) ∧ (tag = noTag → anyTag = false))
    (handler : Option ℕ) (msg : Option M) :
    Serves (Registry.assign { r with thisRdmaHandler := handler, userStateMsg := msg } f anyTag tag)
      (t.assign (f.map (·.1)) anyTag tag) := by
  -- the function for a tag was none, and it is its own one
  have hown : ∀ p ∈ t.waiting, p.2.tag ≠ noTag → t.anyTag = false ∧ t.own p.2.tag = none := by
    intro p hp hne
    have hnone := honce.waits p hp
    have hfalse : t.anyTag = false := by
      by_contra htrue
      rw [Bool.not_eq_false] at htrue
      rw [Service.registered, if_pos (.inr htrue)] at hnone
      exact hany (h.anyTag.trans htrue) (h.fn.trans hnone)
    rw [Service.registered, if_neg (by simp [hne, hfalse])] at hnone
    exact ⟨hfalse, hnone⟩
  rw [h.waiting] at hplain
  rw [Registry.assign, Service.assign]
  split
  · next htag =>
    refine wake ⟨rfl, rfl, h.own, h.waiting, h.requests, h.served⟩ ?_
    intro p hp
    obtain ⟨hne, hfalse⟩ := hplain p hp
    by_cases hp' : p.2.tag = noTag
    · have hf : f = none := by_contra fun hf => hne hf (hp'.trans htag.symm)
      simp [Service.registered, hp', hf]
    · rw [Service.registered, if_neg (by simp [hp', hfalse htag])]
      exact (hown p hp hp').2
  · next htag =>
    refine wake ⟨h.fn, h.anyTag, ?_, h.waiting, h.requests, h.served⟩ ?_
    · intro tag'
      by_cases heq : tag' = tag
      · subst heq
        simp
      · simpa [heq] using h.own tag'
    · intro p hp
      have hnone := honce.waits p hp
      rw [Service.registered] at hnone ⊢
      by_cases heq : p.2.tag = tag
      · have hf : f = none := by_contra fun hf => (hplain p hp).1 hf heq
        simp only [heq, hf, map_none, update_self] at hnone ⊢
        split at hnone
        · next hfn => rwa [if_pos hfn]
        · next hfn => rw [if_neg hfn]
      · simpa [heq] using hnone

end Serves

/-! ## The result -/

/-- The invariant: a function for any tag is there. -/
structure Inv (s : State F M A) : Prop extends ServedOnce s where
  anyFn : ∀ k, (s.registry k).anyTag = true → (s.registry k).rdmaFn ≠ none

variable {s s' : State F M A}

theorem Inv.next (h : Inv s) {k : Kind} {a : Act F M A} {r : Registry F M A}
    (hregistry : s'.registry = update s.registry k r)
    (hhistory : s'.history = s.history ++ [a]) (hinvalid : s'.invalid = s.invalid)
    (hserves : Serves r (Service.step k (Service.after k s.history) a))
    (hother : ∀ k', k' ≠ k → ∀ t : Service F A, t.step k' a = t)
    (hany : r.anyTag = true → r.rdmaFn ≠ none) : Inv s' := by
  have hafter : ∀ k', Service.after k' s'.history =
      Service.step k' (Service.after k' s.history) a := by
    intro k'
    rw [hhistory, Service.after, foldl_append]
    rfl
  refine ⟨⟨hinvalid.trans h.valid, ?_, fun k' => Service.once_after k' _⟩, ?_⟩
  · simp only [hafter, hregistry]
    refine (forall_update_iff _ fun k' r => Serves r (Service.step k' _ a)).mpr ⟨hserves, ?_⟩
    intro k' hk
    rw [hother k' hk]
    exact h.serves k'
  · rw [hregistry]
    exact (forall_update_iff _ fun _ (r : Registry F M A) => r.anyTag = true → r.rdmaFn ≠ none).mpr
      ⟨hany, fun k' _ => h.anyFn k'⟩

theorem anyFn_request {r : Registry F M A} (h : r.anyTag = true → r.rdmaFn ≠ none) (info : Info A) :
    (request r info).anyTag = true → (request r info).rdmaFn ≠ none := by
  rw [request]
  split <;> exact h

/-- A function is registered for which no request waits, or one is unregistered. -/
theorem Inv.assign (h : Inv s) {k : Kind} {a : Act F M A} {f : Option (F × ℕ)} {anyTag : Bool}
    {tag : Tag} {handler : Option ℕ} {msg : Option M}
    (hregistry : s'.registry = update s.registry k (Registry.assign { s.registry k with
      thisRdmaHandler := handler, userStateMsg := msg } f anyTag tag))
    (hhistory : s'.history = s.history ++ [a]) (hinvalid : s'.invalid = s.invalid)
    (ha : ∀ k' (t : Service F A),
      t.step k' a = if k' = k then t.assign (f.map (·.1)) anyTag tag else t)
    (hplain : ∀ p ∈ (s.registry k).pendingTag,
      (f ≠ none → p.2.tag ≠ tag) ∧ (tag = noTag → anyTag = false))
    (hany : anyTag = true → f ≠ none) : Inv s' := by
  refine h.next hregistry hhistory hinvalid ?_ (fun k' hk t => (ha k' t).trans (if_neg hk)) ?_
  · rw [ha, if_pos rfl]
    exact (h.serves k).assign (h.once k) (h.anyFn k) hplain handler msg
  · rw [Registry.assign]
    split
    · simpa using hany
    · exact h.anyFn k

/-- A function that is not for any tag is unregistered. -/
theorem Inv.unregister (h : Inv s) {k : Kind} {tag : Tag}
    (hplain : tag = noTag → (s.registry k).anyTag = false) : Inv (s.unregister k tag) := by
  have hflag : (s.registry k).unregister tag = Registry.assign { s.registry k with
      thisRdmaHandler := if tag = noTag then none else (s.registry k).thisRdmaHandler
      userStateMsg := (s.registry k).userStateMsg } none false tag := by
    simp only [Registry.unregister, Registry.assign]
    split
    · next htag => rw [hplain htag]
    · rfl
  exact h.assign (congrArg (update s.registry k) hflag) rfl rfl (fun _ _ => rfl)
    (fun _ _ => ⟨absurd rfl, fun _ => rfl⟩) fun h => absurd h Bool.false_ne_true

theorem Inv.unregisterRdmaHandler (h : Inv s) {handler : ℕ} {tag : Tag}
    (hplain : s.Plain (.unregisterRdmaHandler handler tag)) :
    Inv (s.unregisterRdmaHandler handler tag) := by
  have hget : Inv (if (s.registry .get).handlerOf tag = some handler then s.unregister .get tag
      else s) := by
    split
    · exact h.unregister fun htag => (hplain.1 htag).1
    · exact h
  rw [State.unregisterRdmaHandler]
  split
  · next htag =>
    split
    · refine hget.unregister fun _ => ?_
      split <;> exact (hplain.1 htag).2
    · exact hget
  · next htag =>
    rw [if_neg (by simp [isNone_iff_eq_none.mp (hplain.2 htag)])]
    exact hget

theorem Inv.call (h : Inv s) {a : Act F M A} (hplain : s.Plain a) (hcall : s.call a = some s') :
    Inv { s' with history := s.history ++ [a] } := by
  cases a with
  | getData info =>
    obtain rfl := Option.some.inj hcall
    rw [getData_eq hplain]
    exact h.next rfl rfl rfl ((h.serves .get).request info)
      (fun k' hk t => if_neg hk) (anyFn_request (h.anyFn .get) info)
  | putData info =>
    obtain ⟨-, rfl⟩ := of_guard hcall
    rw [putData_eq hplain]
    exact h.next rfl rfl rfl ((h.serves .put).request info)
      (fun k' hk t => if_neg hk) (anyFn_request (h.anyFn .put) info)
  | setRDMAGetFn msg f anyTag tag =>
    obtain ⟨-, rfl⟩ := of_guard hcall
    obtain ⟨handler, cur, heq⟩ := setRDMAFn_eq (s := s) .get msg f anyTag tag
    rw [setRDMAGetFn, heq]
    exact h.assign rfl rfl rfl (fun _ _ => rfl)
      (fun p hp => ⟨fun _ => (hplain p hp).1, fun _ => (hplain p hp).2⟩) fun _ => some_ne_none _
  | setRDMAPutFn msg f anyTag tag =>
    obtain ⟨-, rfl⟩ := of_guard hcall
    obtain ⟨handler, cur, heq⟩ := setRDMAFn_eq (s := s) .put msg f anyTag tag
    rw [setRDMAPutFn, heq]
    exact h.assign rfl rfl rfl (fun _ _ => rfl)
      (fun p hp => ⟨fun _ => (hplain p hp).1, fun _ => (hplain p hp).2⟩) fun _ => some_ne_none _
  | unregisterRdmaType | unregisterRdmaHandler => cases hcall

theorem Inv.step (h : Inv s) {a : Act F M A} (hplain : s.Plain a) (hstep : s.step a = some s') :
    Inv s' := by
  cases a with
  | unregisterRdmaType k tag useDefault =>
    obtain rfl := some.inj hstep
    refine h.unregister fun htag => hplain ?_
    cases useDefault with
    | true => exact .inr rfl
    | false => exact .inl htag
  | unregisterRdmaHandler handler tag =>
    obtain rfl := some.inj hstep
    exact h.unregisterRdmaHandler hplain
  | _ =>
    simp only [State.step, map_eq_some_iff] at hstep
    obtain ⟨_, hcall, rfl⟩ := hstep
    exact h.call hplain hcall

/-- Requests that come after their function, in runs where the two flags do not differ on a put, are
served once each. -/
theorem requests_served_once (h : Reach (· = ({} : State F M A)) step State.Plain s) :
    ServedOnce s := by
  have hinv : Inv s := by
    refine h.invariant ?_ fun _ _ _ hs hplain hstep => hs.step hplain hstep
    rintro _ rfl
    refine ⟨⟨rfl, ?_, fun k => Service.once_after k _⟩, fun _ hany =>
      absurd hany Bool.false_ne_true⟩
    exact fun _ => ⟨rfl, rfl, fun _ => rfl, rfl, rfl, rfl⟩
  exact hinv.toServedOnce

/-- A get with tag 7 for which there is a function, and a put that is parked. -/
theorem requests_served_once_two : ∃ s : State ℕ Unit Unit, ServedOnce s ∧
    decide ((s.registry .get).calls.map (fun c => (c.id, c.fn)) = [(0, 3)] ∧
      (s.registry .put).pendingTag.length = 1) = true := by
  obtain ⟨s, hs, htest⟩ := @Reach.of_guarded_run (State ℕ Unit Unit) _ (· = {}) State.Plain _ step
    [.setRDMAGetFn none 3 false 7, .getData ⟨8, 7, some 0, none, none, 0, true⟩,
      .putData ⟨8, 7, some 0, none, none, 0, true⟩, .unregisterRdmaType .get 7 false]
    (fun s => (s.registry .get).calls.map (fun c => (c.id, c.fn)) = [(0, 3)] ∧
      (s.registry .put).pendingTag.length = 1) _ _ rfl (by decide +kernel)
  exact ⟨s, requests_served_once hs, decide_eq_true htest⟩

/-- A get that came before its function is never served.  A put for which the function for any tag
is registered is parked, and a put for which there is no function reads a missing entry if the gets
have a function for any tag.  So does a call to unregister a function of the puts by its handler. -/
theorem requests_not_served :
    (∃ s : State ℕ Unit Unit, run step {}
        [.getData ⟨8, 7, some 0, none, none, 0, true⟩, .setRDMAGetFn none 3 false 7] = some s ∧
      (s.registry .get).calls.length = 0 ∧ (Service.after .get s.history).served.length = 1) ∧
    (∃ s : State ℕ Unit Unit, run step {}
        [.setRDMAPutFn none 3 true noTag, .putData ⟨8, 7, some 0, none, none, 0, true⟩] = some s ∧
      (s.registry .put).calls.length = 0 ∧ (Service.after .put s.history).served.length = 1) ∧
    (∃ s : State ℕ Unit Unit, run step {}
        [.setRDMAGetFn none 3 true noTag, .putData ⟨8, 7, some 0, none, none, 0, true⟩] = some s ∧
      s.invalid = true) ∧
    ∃ s : State ℕ Unit Unit, run step {}
        [.setRDMAPutFn none 3 false 7, .unregisterRdmaHandler 1 7] = some s ∧ s.invalid = true := by
  refine ⟨⟨_, rfl, ?_, ?_⟩, ⟨_, rfl, ?_, ?_⟩, ⟨_, rfl, ?_⟩, ⟨_, rfl, ?_⟩⟩
  all_goals decide +kernel

end VtRuntime.Rdma
