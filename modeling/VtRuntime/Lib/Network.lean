import VtRuntime.Lib.Lists
import VtRuntime.Lib.Run
import VtRuntime.Lib.Sum

/-!
# Nodes that exchange messages

Each node has a local state, and messages are in flight to it.  A step hands one of these
messages, in any order, to the handler of the node.  The handler sees the local state, the message
and its sender.  It gives the next local state and the messages that the node sends.

The invariants of such a system are mostly accounts.  Each message in flight and each local state
is given a weight, and the total changes in a step by what the handler does to one message and one
local state.

## Main definitions

* `Network N L M` — local states `L` and messages `M` at the nodes `N`.
* `Network.deliver handle` — hand over one message.
* `Network.Delivers` — what a step did, as far as an invariant can see it.
* `Network.total w f` — the weights `w` of the messages in flight and `f` of the local states.
* `Network.Delivers.balance` — the rule for two totals that stay equal.
-/

namespace VtRuntime.Lib

open List Function
open Finset hiding mem_map map_map sum_eq_zero_iff mem_cons map_cons sum_cons

universe u v w

/-- The local states, and the messages in flight to each node with their senders. -/
structure Network (N : Type u) (L : Type v) (M : Type w) where
  node : N → L
  inbox : N → List (N × M)

namespace Network

variable {N : Type u} {L : Type v} {M : Type w}

/-- What a node in a local state does with a message from a sender.  A message that is not accepted
yet stays in flight. -/
abbrev Handler (N : Type u) (L : Type v) (M : Type w) :=
  N → L → N × M → Option (L × List (N × M))

variable [DecidableEq N]

/-- Node `src` sends messages to the nodes that stand before them. -/
def post (src : N) (out : List (N × M)) (x : Network N L M) : Network N L M :=
  { x with inbox := fun y => x.inbox y ++ (out.filter (·.1 = y)).map fun d => (src, d.2) }

theorem mem_inbox_post {src y : N} {out : List (N × M)} {x : Network N L M} {e : N × M} :
    e ∈ (x.post src out).inbox y ↔ e ∈ x.inbox y ∨ e.1 = src ∧ (y, e.2) ∈ out := by
  rw [post, mem_append, mem_map]
  refine or_congr_right ⟨?_, ?_⟩
  · rintro ⟨o, ho, rfl⟩
    obtain ⟨hmem, hy⟩ := mem_filter.mp ho
    obtain rfl : o.1 = y := of_decide_eq_true hy
    exact ⟨rfl, hmem⟩
  · rintro ⟨rfl, hmem⟩
    exact ⟨(y, e.2), mem_filter.mpr ⟨hmem, decide_eq_true rfl⟩, rfl⟩

/-- The node takes a message out of those in flight to it. -/
def take (n : N) (i : ℕ) (l : L) (x : Network N L M) : Network N L M :=
  ⟨Function.update x.node n l, Function.update x.inbox n ((x.inbox n).eraseIdx i)⟩

/-- Hand the message number `i` of those in flight to node `n` to the handler. -/
def deliver (handle : Handler N L M) (x : Network N L M) (a : N × ℕ) : Option (Network N L M) :=
  (x.inbox a.1)[a.2]?.bind fun d => (handle a.1 (x.node a.1) d).map fun r =>
    (x.take a.1 a.2 r.1).post a.1 r.2

/-- The weight of the messages in flight to a node and of its local state. -/
def place (w : N → N × M → ℕ) (f : N → L → ℕ) (x : Network N L M) (n : N) : ℕ :=
  ((x.inbox n).map (w n)).sum + f n (x.node n)

/-- The weight of the messages that node `n` sends. -/
def outWeight (w : N → N × M → ℕ) (n : N) (out : List (N × M)) : ℕ :=
  (out.map fun o => w o.1 (n, o.2)).sum

section OutWeight

variable {w : N → N × M → ℕ} {n : N}

omit [DecidableEq N]

@[simp] theorem outWeight_nil : outWeight w n [] = 0 := rfl

@[simp] theorem outWeight_zero {out : List (N × M)} : outWeight (fun _ _ => 0) n out = 0 := by
  simp [outWeight]

@[simp] theorem outWeight_cons {o : N × M} {out : List (N × M)} :
    outWeight w n (o :: out) = w o.1 (n, o.2) + outWeight w n out := by
  simp [outWeight]

@[simp] theorem outWeight_append {out out' : List (N × M)} :
    outWeight w n (out ++ out') = outWeight w n out + outWeight w n out' := by
  simp [outWeight]

theorem outWeight_map {α : Type u} {l : List α} {f : α → N × M} :
    outWeight w n (l.map f) = (l.map fun a => w (f a).1 (n, (f a).2)).sum := by
  rw [outWeight, map_map]
  rfl

theorem outWeight_eq_zero {out : List (N × M)} (h : ∀ o ∈ out, w o.1 (n, o.2) = 0) :
    outWeight w n out = 0 := by
  rw [outWeight, sum_eq_zero_iff]
  intro k hk
  obtain ⟨o, ho, rfl⟩ := mem_map.mp hk
  exact h o ho

end OutWeight

variable [Fintype N] {w w' : N → N × M → ℕ} {f f' : N → L → ℕ} {x x' : Network N L M}
  {handle : Handler N L M}

/-- The weight of all messages in flight and all local states. -/
def total (w : N → N × M → ℕ) (f : N → L → ℕ) (x : Network N L M) : ℕ := ∑ n, x.place w f n

/-- The weight of the messages in flight. -/
def flight (w : N → N × M → ℕ) (x : Network N L M) : ℕ := x.total w fun _ _ => 0

omit [DecidableEq N] in
theorem total_eq (w : N → N × M → ℕ) (f : N → L → ℕ) (x : Network N L M) :
    x.total w f = x.flight w + ∑ n, f n (x.node n) := by
  simp only [flight, total, place, sum_add_distrib, Nat.add_zero]

/-- The local state of one node only has weight. -/
theorem total_at (w : N → N × M → ℕ) (p : N) (g : L → ℕ) (x : Network N L M) :
    x.total w (fun n l => if n = p then g l else 0) = x.flight w + g (x.node p) := by
  rw [total_eq, sum_ite_eq' univ p, if_pos (mem_univ p)]

section

omit [DecidableEq N]

theorem flight_zero : x.flight (fun _ _ => 0) = 0 := by
  simp [flight, total, place]

theorem le_flight {n : N} {d : N × M} (h : d ∈ x.inbox n) : w n d ≤ x.flight w := by
  have hd : w n d ≤ ((x.inbox n).map (w n)).sum :=
    single_le_sum (fun _ _ => Nat.zero_le _) _ (mem_map_of_mem h)
  have hn : x.place w (fun _ _ => 0) n ≤ x.flight w :=
    single_le_sum (f := x.place w fun _ _ => 0) (fun _ _ => Nat.zero_le _)
      (mem_univ n)
  exact hd.trans hn

theorem flight_eq_zero (h : ∀ n, ∀ d ∈ x.inbox n, w n d = 0) : x.flight w = 0 := by
  refine sum_eq_zero ?_
  intro n _
  rw [place, Nat.add_zero, sum_eq_zero_iff]
  intro k hk
  obtain ⟨d, hd, rfl⟩ := mem_map.mp hk
  exact h n d hd

theorem flight_of_quiet (h : ∀ n, x.inbox n = []) (w : N → N × M → ℕ) : x.flight w = 0 :=
  flight_eq_zero fun n d hd => by simp [h n] at hd

theorem place_le_total (n : N) : x.place w f n ≤ x.total w f :=
  single_le_sum (f := x.place w f) (fun _ _ => Nat.zero_le _) (mem_univ n)

end

section

omit [DecidableEq N] [Fintype N]

theorem le_place_of_mem {n : N} {d : N × M} (h : d ∈ x.inbox n) :
    w n d + f n (x.node n) ≤ x.place w f n :=
  Nat.add_le_add_right (single_le_sum (fun _ _ => Nat.zero_le _) _
    (mem_map_of_mem h)) _

/-- Two messages in flight to the same node. -/
theorem le_place_of_mem_of_mem {n : N} {d e : N × M} (hd : d ∈ x.inbox n) (he : e ∈ x.inbox n)
    (hne : d ≠ e) : w n d + w n e + f n (x.node n) ≤ x.place w f n := by
  obtain ⟨pre, suf, hpre⟩ := append_of_mem hd
  have hmem : e ∈ pre ++ suf := by
    rw [hpre] at he
    simp only [mem_append, mem_cons] at he ⊢
    rcases he with he | rfl | he
    · exact .inl he
    · exact absurd rfl hne
    · exact .inr he
  have hle : w n e ≤ ((pre ++ suf).map (w n)).sum :=
    single_le_sum (fun _ _ => Nat.zero_le _) _ (mem_map_of_mem hmem)
  rw [place, hpre]
  simp only [map_append, sum_append, map_cons, sum_cons] at hle ⊢
  omega

theorem le_place_of_node (n : N) : f n (x.node n) ≤ x.place w f n := Nat.le_add_left ..

end

omit [DecidableEq N] in
theorem total_le {w' : N → N × M → ℕ} (h : ∀ n, ∀ d ∈ x.inbox n, w n d ≤ w' n d) :
    x.total w f ≤ x.total w' f := by
  refine sum_le_sum ?_
  intro n _
  exact Nat.add_le_add_right (sum_le_sum (h n)) _

/-- A thing that is at one place at most is not at two. -/
theorem place_unique (h : x.total w f ≤ 1) {m n : N} (hm : 0 < x.place w f m)
    (hn : 0 < x.place w f n) : m = n := by
  by_contra hne
  have hpair : x.place w f m + x.place w f n ≤ x.total w f := by
    rw [← sum_pair hne]
    exact sum_le_sum_of_subset (subset_univ _)
  omega

omit [Fintype N] in
theorem place_post (n : N) (out : List (N × M)) (m : N) :
    (x.post n out).place w f m =
      ((out.filter (·.1 = m)).map fun o => w o.1 (n, o.2)).sum + x.place w f m := by
  have hcong : (out.filter (·.1 = m)).map (fun o => w o.1 (n, o.2)) =
      (out.filter (·.1 = m)).map fun o => w m (n, o.2) := by
    refine map_congr_left ?_
    intro o ho
    rw [of_decide_eq_true (mem_filter.mp ho).2]
  rw [hcong]
  simp only [place, post, map_append, sum_append, map_map]
  have hcomp : (w m ∘ fun d : N × M => (n, d.2)) = fun o => w m (n, o.2) := rfl
  rw [hcomp]
  omega

theorem total_post (n : N) (out : List (N × M)) :
    (x.post n out).total w f = x.total w f + outWeight w n out := by
  rw [total, sum_congr rfl fun m _ => place_post n out m, sum_add_distrib,
    sum_map_filter, outWeight, total, Nat.add_comm]

theorem total_node (n : N) (l : L) :
    total w f { x with node := Function.update x.node n l } + f n (x.node n) =
      x.total w f + f n l := by
  have hrest : ∑ m ∈ univ.erase n, f m (Function.update x.node n l m) =
      ∑ m ∈ univ.erase n, f m (x.node m) :=
    sum_congr rfl fun m hm => by rw [update_of_ne (ne_of_mem_erase hm)]
  have hflight : flight w { x with node := Function.update x.node n l } = x.flight w := rfl
  rw [total_eq, total_eq, hflight, ← add_sum_erase _ _ (mem_univ n), hrest,
    ← add_sum_erase _ (fun m => f m (x.node m)) (mem_univ n)]
  simp only [update_self]
  omega

theorem total_take {n : N} {i : ℕ} {d : N × M} (h : (x.inbox n)[i]? = some d) (l : L) :
    (x.take n i l).total w f + (w n d + f n (x.node n)) = x.total w f + f n l := by
  have hrest : ∀ m, m ≠ n → (x.take n i l).place w f m = x.place w f m := by
    intro m hm
    simp only [place, take, update_of_ne hm]
  have hn : (x.take n i l).place w f n + (w n d + f n (x.node n)) = x.place w f n + f n l := by
    have hperm := ((perm_eraseIdx h).map (w n)).sum_eq
    rw [map_cons, sum_cons] at hperm
    simp only [place, take, update_self]
    omega
  have hsum : ∑ m ∈ univ.erase n, (x.take n i l).place w f m =
      ∑ m ∈ univ.erase n, x.place w f m :=
    sum_congr rfl fun m hm => hrest m (ne_of_mem_erase hm)
  rw [total, total, ← add_sum_erase _ _ (mem_univ n),
    ← add_sum_erase _ (x.place w f) (mem_univ n), hsum]
  omega

/-- Node `n` handled message `d`, and this gave the local state `l` and the messages `out`. -/
structure Delivers (handle : Handler N L M) (x x' : Network N L M) (n : N) (d : N × M) (l : L)
    (out : List (N × M)) : Prop where
  mem : d ∈ x.inbox n
  handled : handle n (x.node n) d = some (l, out)
  node : x'.node = Function.update x.node n l
  /-- What is in flight afterwards was in flight before, or was sent. -/
  inflight : ∀ y, ∀ e ∈ x'.inbox y, e ∈ x.inbox y ∨ e.1 = n ∧ (y, e.2) ∈ out
  /-- What was in flight before is so afterwards, or was handled. -/
  kept : ∀ y, ∀ e ∈ x.inbox y, e ∈ x'.inbox y ∨ y = n ∧ e = d
  sent : ∀ o ∈ out, (n, o.2) ∈ x'.inbox o.1
  total : ∀ w f, x'.total w f + (w n d + f n (x.node n)) =
    x.total w f + (outWeight w n out + f n l)

theorem delivers {a : N × ℕ} (h : deliver handle x a = some x') :
    ∃ d l out, (x.inbox a.1)[a.2]? = some d ∧ Delivers handle x x' a.1 d l out := by
  obtain ⟨n, i⟩ := a
  obtain ⟨d, hd, h⟩ := Option.bind_eq_some_iff.mp h
  obtain ⟨⟨l, out⟩, hr, rfl⟩ := Option.map_eq_some_iff.mp h
  refine ⟨d, l, out, hd, mem_of_getElem? hd, hr, rfl, ?_, ?_, ?_, ?_⟩
  · intro y e he
    refine (mem_inbox_post.mp he).imp_left fun he => ?_
    by_cases hy : y = n
    · subst hy
      simp only [take, update_self] at he
      exact mem_of_mem_eraseIdx he
    · simpa only [take, update_of_ne hy] using he
  · intro y e he
    by_cases hy : y = n
    · subst hy
      rw [(perm_eraseIdx hd).mem_iff, mem_cons] at he
      refine he.symm.imp (fun he => mem_append_left _ ?_) fun he => ⟨rfl, he⟩
      simpa only [take, update_self] using he
    · refine Or.inl (mem_append_left _ ?_)
      simpa only [take, update_of_ne hy] using he
  · intro o ho
    exact mem_inbox_post.mpr (.inr ⟨rfl, ho⟩)
  · intro w f
    have htake := total_take (w := w) (f := f) hd l
    have hpost := total_post (w := w) (f := f) (x := x.take n i l) n out
    simp only at htake hpost ⊢
    omega

omit [Fintype N] in
/-- A message that is accepted can be handed over. -/
theorem exists_deliver {n : N} {d : N × M} {l : L} {out : List (N × M)} (hd : d ∈ x.inbox n)
    (hl : handle n (x.node n) d = some (l, out)) : ∃ i x', deliver handle x (n, i) = some x' := by
  obtain ⟨i, hi⟩ := mem_iff_getElem?.mp hd
  exact ⟨i, _, Option.bind_eq_some_iff.mpr ⟨d, hi, Option.map_eq_some_iff.mpr ⟨_, hl, rfl⟩⟩⟩

namespace Delivers

variable {n : N} {d : N × M} {l : L} {out : List (N × M)}

theorem node_self (h : Delivers handle x x' n d l out) : x'.node n = l := by
  rw [h.node, update_self]

theorem node_of_ne (h : Delivers handle x x' n d l out) {m : N} (hm : m ≠ n) :
    x'.node m = x.node m := by
  rw [h.node, update_of_ne hm]

/-- Two totals that are equal stay so if the handler changes both by the same. -/
theorem balance (h : Delivers handle x x' n d l out) (hx : x.total w f = x.total w' f')
    (hstep : outWeight w n out + f n l + (w' n d + f' n (x.node n)) =
      outWeight w' n out + f' n l + (w n d + f n (x.node n))) :
    x'.total w f = x'.total w' f' := by
  have hw := h.total w f
  have hw' := h.total w' f'
  omega

end Delivers
end Network
end VtRuntime.Lib
