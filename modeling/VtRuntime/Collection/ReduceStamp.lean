import VtRuntime.Lib.Run
import Mathlib.Data.List.FinRange
import Mathlib.Data.Nat.ModEq

/-!
# Reduce stamps of a collection

Every element of a collection has the stamp of its next reduction.  At the end of a modification
phase the elements that were inserted are meant to get the stamp of the others.  They are told apart
by the stamp zero, and the stamp that they get is the smallest one that is not zero.

An element that is inserted is made with the stamp one, like those made with the collection: the
argument of `makeCollectionElement` that makes it zero is never given.  So the phase leaves all
stamps equal only if the other elements have the stamp one as well, or the stamp zero.
-/

namespace VtRuntime.Stamp

open Lib List Nat
open BitVec hiding append_assoc not_or

/-- `Indexable`: an element with `reduce_stamp_`, a number of `w` bits. -/
structure Element (I : Type) (w : ℕ) where
  index : I
  reduceStamp : BitVec w := 1

/-- The elements of a collection on each of `P` nodes.  The stamps that were used in each reduction
are a book. -/
@[ext]
structure Collection (I : Type) (P w : ℕ) where
  elems : Fin P → List (Element I w) := fun _ => []
  used : List (List (BitVec w)) := []

inductive Act (I : Type) (P : ℕ)
  | modify (inserts : List (Fin P × I))
  | reduce

variable {I : Type} {P w : ℕ}

namespace Element

def zeroReduceStamp (e : Element I w) : Element I w := { e with reduceStamp := 0 }

/-- `getNextStamp`, the state after it. -/
def next (e : Element I w) : Element I w := { e with reduceStamp := e.reduceStamp + 1 }

end Element

/-- `std::min`. -/
def stdMin (a b : BitVec w) : BitVec w := if b < a then b else a

namespace Collection

/-- The first loop of `finishModification` on a node. -/
def minSeq (l : List (Element I w)) : BitVec w :=
  l.foldl (fun m e => if e.reduceStamp ≠ 0 then stdMin e.reduceStamp m else m) (allOnes w)

variable (s : Collection I P w)

/-- The result of the reduction with `MinOp` that all nodes get. -/
def globalMin : BitVec w :=
  (List.finRange P).foldl (fun m n => stdMin m (minSeq (s.elems n))) (allOnes w)

/-- `finishModification` when the epoch of the phase has terminated. -/
def finishModification : Collection I P w :=
  { s with elems := fun n => (s.elems n).map fun e =>
      if e.reduceStamp = 0 then { e with reduceStamp := s.globalMin } else e }

/-- The stamps of all elements. -/
def stamps : List (BitVec w) := (List.finRange P).flatMap fun n => (s.elems n).map (·.reduceStamp)

/-- `reduceMsgExpr` is called once by each element, without a stamp. -/
def reduce : Collection I P w :=
  { elems := fun n => (s.elems n).map (·.next)
    used := s.used ++ [s.stamps] }

section Insert

variable [DecidableEq I]

/-- `makeCollectionElement` with `insertCollectionElement`. -/
def makeCollectionElement (n : Fin P) (idx : I) (zeroReduceStamp : Bool) : Collection I P w :=
  let elm : Element I w := { index := idx }
  let elm := if zeroReduceStamp then elm.zeroReduceStamp else elm
  if ∃ e ∈ s.elems n, e.index = idx then s
  else { s with elems := Function.update s.elems n (s.elems n ++ [elm]) }

/-- `CollectionManager::insert`, the construction. -/
def insert (n : Fin P) (idx : I) : Collection I P w := s.makeCollectionElement n idx false

def insertAll (inserts : List (Fin P × I)) : Collection I P w :=
  inserts.foldl (fun s x => s.insert x.1 x.2) s

/-- A modification phase. -/
def modify (inserts : List (Fin P × I)) : Collection I P w :=
  (s.insertAll inserts).finishModification

def step (s : Collection I P w) : Act I P → Option (Collection I P w)
  | .modify inserts => some (s.modify inserts)
  | .reduce => some s.reduce

end Insert

/-- The collection was made. -/
def Init : Prop := s.used = [] ∧ ∀ n, ∀ e ∈ s.elems n, e.reduceStamp = 1

/-- All elements have the same stamp. -/
def Agree : Prop := ∀ n m, ∀ e ∈ s.elems n, ∀ e' ∈ s.elems m, e.reduceStamp = e'.reduceStamp

/-- The stamp of no element is zero, and elements are inserted only if the others have the stamp
one. -/
def Steady : Act I P → Prop
  | .modify inserts => ∀ n, ∀ e ∈ s.elems n, e.reduceStamp ≠ 0 ∧ (inserts = [] ∨ e.reduceStamp = 1)
  | .reduce => True

instance : (a : Act I P) → Decidable (s.Steady a)
  | .modify [] => inferInstanceAs (Decidable (∀ n, ∀ e ∈ s.elems n, e.reduceStamp ≠ 0 ∧ (_ ∨ _)))
  | .modify (_ :: _) =>
    decidable_of_iff (∀ n, ∀ e ∈ s.elems n, e.reduceStamp ≠ 0 ∧ e.reduceStamp = 1)
      (by simp [Steady])
  | .reduce => .isTrue trivial

end Collection

open Collection

/-- The stamps are equal, and the reductions among any `2 ^ w` have different stamps. -/
structure StampsOnce (s : Collection I P w) : Prop where
  agree : s.Agree
  once : ∀ i j, i < j → j < i + 2 ^ w → ∀ xs ys, s.used[i]? = some xs → s.used[j]? = some ys →
    xs.Disjoint ys

/-! ## The smallest stamp -/

section Min

variable {a b m : BitVec w} {l : List (Element I w)} {s : Collection I P w}

theorem stdMin_le_left : stdMin a b ≤ a := by
  rw [stdMin]
  split
  · next h => exact BitVec.le_of_lt h
  · exact BitVec.le_refl a

theorem stdMin_le_right : stdMin a b ≤ b := by
  rw [stdMin]
  split
  · exact BitVec.le_refl b
  · next h => exact BitVec.not_lt.mp h

theorem stdMin_ne_zero (ha : a ≠ 0) (hb : b ≠ 0) : stdMin a b ≠ 0 := by
  rw [stdMin]
  split
  · exact hb
  · exact ha

theorem one_ne_zero_of_pos (hw : 0 < w) : (1 : BitVec w) ≠ 0 := by
  intro h
  have hnat := congrArg BitVec.toNat h
  rw [BitVec.ofNat_eq_ofNat, ofNat_eq_ofNat, toNat_ofNat, toNat_ofNat,
    Nat.mod_eq_of_lt (Nat.one_lt_two_pow (Nat.ne_of_gt hw)), Nat.zero_mod] at hnat
  exact Nat.one_ne_zero hnat

theorem allOnes_ne_zero (hw : 0 < w) : BitVec.allOnes w ≠ 0 := by
  intro h
  have hnat := congrArg BitVec.toNat h
  have hpow := Nat.one_lt_two_pow (Nat.ne_of_gt hw)
  rw [toNat_allOnes, ofNat_eq_ofNat, toNat_ofNat, zero_mod] at hnat
  omega

/-- A loop that takes the smaller value in each round. -/
theorem foldl_le {α : Type} (f : BitVec w → α → BitVec w) (hf : ∀ m x, f m x ≤ m) (l : List α)
    (m : BitVec w) : l.foldl f m ≤ m := by
  induction l generalizing m with
  | nil => exact BitVec.le_refl m
  | cons x l ih => exact BitVec.le_trans (ih (f m x)) (hf m x)

theorem foldl_le_of_mem {α : Type} (f : BitVec w → α → BitVec w) (hf : ∀ m x, f m x ≤ m)
    {l : List α} {x : α} (hx : x ∈ l) (hb : ∀ m, f m x ≤ b) (m : BitVec w) : l.foldl f m ≤ b := by
  induction l generalizing m with
  | nil => exact absurd hx not_mem_nil
  | cons y l ih =>
    rcases mem_cons.mp hx with rfl | hx
    · exact BitVec.le_trans (foldl_le f hf l (f m x)) (hb m)
    · exact ih hx (f m y)

theorem foldl_ne_zero {α : Type} (f : BitVec w → α → BitVec w) (hf : ∀ m x, m ≠ 0 → f m x ≠ 0)
    (l : List α) (hm : m ≠ 0) : l.foldl f m ≠ 0 := by
  induction l generalizing m with
  | nil => exact hm
  | cons x l ih => exact ih (hf m x hm)

namespace Collection

theorem minSeq_le {e : Element I w} (he : e ∈ l) (hne : e.reduceStamp ≠ 0) :
    minSeq l ≤ e.reduceStamp := by
  refine foldl_le_of_mem _ ?_ he ?_ _
  · intro m e'
    split
    · exact stdMin_le_right
    · exact BitVec.le_refl m
  · intro m
    rw [if_pos hne]
    exact stdMin_le_left

theorem minSeq_ne_zero (hw : 0 < w) : minSeq l ≠ 0 := by
  refine foldl_ne_zero _ ?_ l (allOnes_ne_zero hw)
  intro m e hm
  split
  · next he => exact stdMin_ne_zero he hm
  · exact hm

theorem globalMin_le {n : Fin P} {e : Element I w} (he : e ∈ s.elems n) (hne : e.reduceStamp ≠ 0) :
    s.globalMin ≤ e.reduceStamp := by
  refine BitVec.le_trans ?_ (minSeq_le he hne)
  exact foldl_le_of_mem (fun m n => stdMin m (minSeq (s.elems n))) (fun _ _ => stdMin_le_left)
    (mem_finRange n) (fun _ => stdMin_le_right) _

theorem globalMin_ne_zero (hw : 0 < w) : s.globalMin ≠ 0 :=
  foldl_ne_zero _ (fun _ _ hm => stdMin_ne_zero hm (minSeq_ne_zero hw)) _ (allOnes_ne_zero hw)

/-- If there is an element with the stamp one, nothing else that is not zero is smaller. -/
theorem globalMin_eq_one (hw : 0 < w) {n : Fin P} {e : Element I w} (he : e ∈ s.elems n)
    (hone : e.reduceStamp = 1) : s.globalMin = 1 := by
  have hle := globalMin_le he (hone ▸ one_ne_zero_of_pos hw)
  have hne : s.globalMin.toNat ≠ 0 := fun hzero => globalMin_ne_zero hw (eq_of_toNat_eq
    (hzero.trans (by simp)))
  have htwo := Nat.one_lt_two_pow (Nat.ne_of_gt hw)
  rw [hone, le_def, ofNat_eq_ofNat, toNat_ofNat, mod_eq_of_lt htwo] at hle
  refine eq_of_toNat_eq ?_
  rw [ofNat_eq_ofNat, toNat_ofNat, mod_eq_of_lt htwo]
  omega

end Collection

end Min

/-! ## A modification phase -/

namespace Collection

variable {s : Collection I P w} {σ : BitVec w}

variable {n : Fin P} {e : Element I w} {inserts : List (Fin P × I)}

theorem mem_finishModification (he : e ∈ s.finishModification.elems n) : ∃ e₀ ∈ s.elems n,
      e.reduceStamp = if e₀.reduceStamp = 0 then s.globalMin else e₀.reduceStamp := by
  obtain ⟨e₀, he₀, rfl⟩ := mem_map.mp he
  refine ⟨e₀, he₀, ?_⟩
  split <;> rfl

/-- A phase does nothing to elements with a stamp that is not zero. -/
theorem finishModification_of_ne_zero (h : ∀ n, ∀ e ∈ s.elems n, e.reduceStamp ≠ 0) :
    s.finishModification = s := by
  refine Collection.ext ?_ rfl
  funext n
  refine (map_congr_left fun e he => ?_).trans (map_id _)
  exact if_neg (h n e he)

theorem agree_of_eq (h : ∀ n, ∀ e ∈ s.elems n, e.reduceStamp = σ) : s.Agree :=
  fun n m e he e' he' => (h n e he).trans (h m e' he').symm

/-- Equal stamps stay equal. -/
theorem agree_finishModification (h : ∀ n, ∀ e ∈ s.elems n, e.reduceStamp = σ) :
    s.finishModification.Agree := by
  refine agree_of_eq (σ := if σ = 0 then s.globalMin else σ) fun n e he => ?_
  obtain ⟨e₀, he₀, heq⟩ := mem_finishModification he
  rw [heq, h n e₀ he₀]

variable [DecidableEq I]

theorem elems_insertAll (s : Collection I P w) (inserts : List (Fin P × I)) (n : Fin P) :
    ∃ new, (s.insertAll inserts).elems n = s.elems n ++ new ∧ ∀ e ∈ new, e.reduceStamp = 1 := by
  induction inserts generalizing s with
  | nil => exact ⟨[], (append_nil _).symm, by simp⟩
  | cons x inserts ih =>
    obtain ⟨new, hnew, hone⟩ := ih (s.insert x.1 x.2)
    have hstep : ∃ first, (s.insert x.1 x.2).elems n = s.elems n ++ first ∧
        ∀ e ∈ first, e.reduceStamp = 1 := by
      rw [insert, makeCollectionElement]
      split
      · exact ⟨[], (append_nil _).symm, by simp⟩
      · by_cases hn : n = x.1
        · exact ⟨[{ index := x.2 }], by simp [hn], by simp⟩
        · exact ⟨[], by simp [hn], by simp⟩
    obtain ⟨first, hfirst, hfirstOne⟩ := hstep
    refine ⟨first ++ new, ?_, ?_⟩
    · rw [← append_assoc, ← hfirst]
      exact hnew
    · exact forall_mem_append.mpr ⟨hfirstOne, hone⟩

theorem used_insertAll (s : Collection I P w) (inserts : List (Fin P × I)) :
    (s.insertAll inserts).used = s.used := by
  induction inserts generalizing s with
  | nil => rfl
  | cons x inserts ih =>
    refine (ih (s.insert x.1 x.2)).trans ?_
    rw [insert, makeCollectionElement]
    split <;> rfl

/-- An element after the insertions is an old one or has the stamp one. -/
theorem mem_insertAll (he : e ∈ (s.insertAll inserts).elems n) :
    e ∈ s.elems n ∨ e.reduceStamp = 1 := by
  obtain ⟨new, hnew, hone⟩ := s.elems_insertAll inserts n
  rw [hnew] at he
  exact (mem_append.mp he).imp_right (hone e)

theorem mem_insertAll_of_mem (inserts : List (Fin P × I)) (he : e ∈ s.elems n) :
    e ∈ (s.insertAll inserts).elems n := by
  obtain ⟨new, hnew, -⟩ := s.elems_insertAll inserts n
  rw [hnew]
  exact mem_append_left _ he

/-- If something was inserted, there is an element with the stamp one. -/
theorem exists_new (h : s.insertAll inserts ≠ s) :
    ∃ n, ∃ e ∈ (s.insertAll inserts).elems n, e.reduceStamp = 1 := by
  by_contra hnone
  have hnot : ∀ n, ∀ e ∈ (s.insertAll inserts).elems n, e.reduceStamp ≠ 1 :=
    fun n e he hone => hnone ⟨n, e, he, hone⟩
  have helems : (s.insertAll inserts).elems = s.elems := by
    funext n
    obtain ⟨new, hnew, hone⟩ := s.elems_insertAll inserts n
    cases new with
    | nil => rw [hnew, append_nil]
    | cons e new =>
      exact absurd (hone e mem_cons_self) (hnot n e (by simp [hnew]))
  exact h (Collection.ext helems (s.used_insertAll inserts))

/-- A phase leaves equal stamps equal only if the elements that it inserts have the same stamp, or
if the stamp was zero. -/
theorem agree_modify_iff (inserts : List (Fin P × I))
    (h : ∀ n, ∀ e ∈ s.elems n, e.reduceStamp = σ) :
    (s.modify inserts).Agree ↔
      σ = 0 ∨ σ = 1 ∨ s.insertAll inserts = s ∨ ∀ n, s.elems n = [] := by
  rcases Nat.eq_zero_or_pos w with rfl | hw
  · exact ⟨fun _ => .inl (Subsingleton.elim _ _), fun _ _ _ _ _ _ _ => Subsingleton.elim _ _⟩
  have hone := one_ne_zero_of_pos hw
  constructor
  · intro hagree
    by_contra hnot
    simp only [not_or] at hnot
    obtain ⟨hzero, hne, hinserted, hold⟩ := hnot
    -- nothing is changed, and an old element has another stamp than a new one
    have hsame : s.modify inserts = s.insertAll inserts := by
      refine finishModification_of_ne_zero fun n e he => ?_
      rcases mem_insertAll he with he | he
      · exact h n e he ▸ hzero
      · exact he ▸ hone
    rw [hsame] at hagree
    obtain ⟨n, e, he, hstamp⟩ := exists_new hinserted
    obtain ⟨m, hm⟩ := not_forall.mp hold
    obtain ⟨e', he'⟩ := exists_mem_of_ne_nil _ hm
    have heq := hagree m n e' (mem_insertAll_of_mem inserts he') e he
    rw [h m e' he', hstamp] at heq
    exact hne heq
  · rintro (rfl | rfl | hsame | hnone)
    · -- the old elements get the stamp of the new ones
      by_cases hinserted : s.insertAll inserts = s
      · rw [modify, hinserted]
        exact agree_finishModification h
      · obtain ⟨n, e, he, hstamp⟩ := exists_new hinserted
        have hmin := globalMin_eq_one hw he hstamp
        refine agree_of_eq (σ := 1) fun m e' he' => ?_
        obtain ⟨e₀, he₀, heq⟩ := mem_finishModification he'
        rw [heq, hmin]
        split
        · rfl
        · next hne =>
          rcases mem_insertAll he₀ with hold | hnew
          · exact absurd (h m e₀ hold) hne
          · exact hnew
    · refine agree_finishModification (σ := 1) fun n e he => ?_
      exact (mem_insertAll he).elim (h n e) id
    · rw [modify, hsame]
      exact agree_finishModification h
    · refine agree_finishModification (σ := 1) fun n e he => ?_
      rcases mem_insertAll he with he | he
      · rw [hnone n] at he
        exact absurd he not_mem_nil
      · exact he

end Collection

/-! ## Runs -/

/-- The reductions have used one stamp after the other, from the `z`-th on; before it there were no
elements. -/
structure Counted (z : ℕ) (s : Collection I P w) : Prop where
  le : z ≤ s.used.length
  stamp : ∀ n, ∀ e ∈ s.elems n, e.reduceStamp = BitVec.ofNat w (1 + (s.used.length - z))
  used : ∀ i xs, s.used[i]? = some xs → ∀ x ∈ xs, z ≤ i ∧ x = BitVec.ofNat w (1 + (i - z))
  none : (∀ n, s.elems n = []) → ∀ xs ∈ s.used, xs = []

namespace Counted

variable {s : Collection I P w} {z : ℕ}

theorem start (h : s.Init) : Counted 0 s := by
  obtain ⟨hused, hone⟩ := h
  refine ⟨zero_le _, ?_, ?_, ?_⟩
  · intro n e he
    rw [hone n e he, hused]
    rfl
  · simp [hused]
  · simp [hused]

theorem agree (h : Counted z s) : s.Agree := agree_of_eq h.stamp

theorem reduce (h : Counted z s) : Counted z s.reduce := by
  have hlength : s.reduce.used.length = s.used.length + 1 := by simp [Collection.reduce]
  refine ⟨hlength ▸ le_succ_of_le h.le, ?_, ?_, ?_⟩
  · intro n e he
    obtain ⟨e₀, he₀, rfl⟩ := mem_map.mp he
    have hnext : 1 + (s.used.length + 1 - z) = 1 + (s.used.length - z) + 1 := by
      have hle := h.le
      omega
    rw [Element.next, h.stamp n e₀ he₀, hlength, hnext, BitVec.ofNat_add _ 1]
    rfl
  · intro i xs hi x hx
    by_cases hlt : i < s.used.length
    · exact h.used i xs ((List.getElem?_append_left hlt).symm.trans hi) x hx
    · rw [Collection.reduce, List.getElem?_append_right (Nat.le_of_not_lt hlt),
        List.getElem?_singleton] at hi
      obtain ⟨hzero, hxs⟩ := Option.ite_none_right_eq_some.mp hi
      obtain rfl : i = s.used.length := by omega
      refine ⟨h.le, ?_⟩
      rw [← Option.some.inj hxs] at hx
      obtain ⟨n, -, hmem⟩ := mem_flatMap.mp hx
      obtain ⟨e, he, rfl⟩ := mem_map.mp hmem
      exact h.stamp n e he
  · intro hnone xs hxs
    have hempty : ∀ n, s.elems n = [] := fun n => map_eq_nil_iff.mp (hnone n)
    rcases mem_append.mp hxs with hxs | hxs
    · exact h.none hempty xs hxs
    · rw [mem_singleton.mp hxs]
      simp [stamps, hempty]

/-- Elements that have the stamp of the others are added. -/
theorem addElems (h : Counted z s) {elems : Fin P → List (Element I w)}
    (hstamp : ∀ n, ∀ e ∈ elems n, e.reduceStamp = BitVec.ofNat w (1 + (s.used.length - z)))
    (hnone : (∀ n, elems n = []) → ∀ n, s.elems n = []) : Counted z { s with elems := elems } :=
  ⟨h.le, hstamp, h.used, fun hempty => h.none (hnone hempty)⟩

/-- The first elements have the stamp one. -/
theorem first (h : Counted z s) (hempty : ∀ n, s.elems n = []) : Counted s.used.length s := by
  have hused := h.none hempty
  refine ⟨le_refl _, ?_, ?_, h.none⟩
  · intro n e he
    rw [hempty n] at he
    exact absurd he not_mem_nil
  · intro i xs hi x hx
    rw [hused xs (mem_of_getElem? hi)] at hx
    exact absurd hx not_mem_nil

variable [DecidableEq I]

theorem modify (h : Counted z s) (hw : 0 < w) {inserts : List (Fin P × I)}
    (hsteady : s.Steady (.modify inserts)) : ∃ z', Counted z' (s.modify inserts) := by
  have hone := one_ne_zero_of_pos hw
  -- no stamp is zero, so the end of the phase changes nothing
  have hsame : s.modify inserts = s.insertAll inserts := by
    refine finishModification_of_ne_zero fun n e he => ?_
    rcases mem_insertAll he with he | he
    · exact (hsteady n e he).1
    · exact he ▸ hone
  rw [hsame]
  have hadd : ∀ z', Counted z' s → (∀ n, ∀ e ∈ (s.insertAll inserts).elems n,
      e.reduceStamp = BitVec.ofNat w (1 + (s.used.length - z'))) →
      Counted z' (s.insertAll inserts) := by
    intro z' hz' hstamp
    have heq : s.insertAll inserts = { s with elems := (s.insertAll inserts).elems } :=
      Collection.ext rfl (s.used_insertAll inserts)
    rw [heq]
    refine hz'.addElems hstamp fun hempty n => ?_
    refine eq_nil_iff_forall_not_mem.mpr fun e he => ?_
    have hmem := mem_insertAll_of_mem inserts he
    rw [hempty n] at hmem
    exact not_mem_nil hmem
  by_cases hempty : ∀ n, s.elems n = []
  · refine ⟨s.used.length, hadd _ (h.first hempty) fun n e he => ?_⟩
    rcases mem_insertAll he with he | he
    · rw [hempty n] at he
      exact absurd he not_mem_nil
    · rw [he, Nat.sub_self]
      rfl
  · obtain ⟨m, hm⟩ := not_forall.mp hempty
    obtain ⟨e₀, he₀⟩ := exists_mem_of_ne_nil _ hm
    refine ⟨z, hadd z h fun n e he => ?_⟩
    rcases mem_insertAll he with he' | he'
    · exact h.stamp n e he'
    · rcases (hsteady m e₀ he₀).2 with rfl | hold
      · exact h.stamp n e he
      · rw [he', ← hold]
        exact h.stamp m e₀ he₀

omit [DecidableEq I] in
/-- Stamps come back after `2 ^ w` reductions. -/
theorem once (h : Counted z s) {i j : ℕ} (hij : i < j) (hj : j < i + 2 ^ w)
    {xs ys : List (BitVec w)} (hxs : s.used[i]? = some xs) (hys : s.used[j]? = some ys) :
    xs.Disjoint ys := by
  intro x hx hy
  obtain ⟨hzi, hxi⟩ := h.used i xs hxs x hx
  obtain ⟨-, hxj⟩ := h.used j ys hys x hy
  have hnat := congrArg BitVec.toNat (hxi.symm.trans hxj)
  rw [BitVec.toNat_ofNat, toNat_ofNat] at hnat
  have hdvd := (modEq_iff_dvd' (by omega)).mp hnat
  have hle := le_of_dvd (by omega) hdvd
  omega

theorem of_reach (hw : 0 < w) (h : Reach Init step Steady s) :
    ∃ z, Counted z s := by
  refine h.invariant ?_ ?_
  · exact fun s hs => ⟨0, start hs⟩
  · rintro s a s' ⟨z, hz⟩ hsteady hstep
    cases a with
    | modify inserts =>
      obtain rfl := Option.some.inj hstep
      exact hz.modify hw hsteady
    | reduce =>
      obtain rfl := Option.some.inj hstep
      exact ⟨z, hz.reduce⟩

end Counted

/-- A modification phase leaves equal stamps equal exactly if the stamp is zero or one, nothing is
inserted, or there were no elements.  In a run in which elements are inserted only while the stamp
is one, and no phase ends while it is zero, stamps are equal and are not used twice. -/
theorem stamps_agree [DecidableEq I] :
    (∀ (s : Collection I P w) (inserts : List (Fin P × I)) (σ : BitVec w),
      (∀ n, ∀ e ∈ s.elems n, e.reduceStamp = σ) → ((s.modify inserts).Agree ↔
        σ = 0 ∨ σ = 1 ∨ s.insertAll inserts = s ∨ ∀ n, s.elems n = [])) ∧
    ∀ s : Collection I P w, Reach Init step Steady s →
      StampsOnce s := by
  refine ⟨fun s inserts σ h => agree_modify_iff inserts h, fun s hs => ?_⟩
  rcases Nat.eq_zero_or_pos w with rfl | hw
  · refine ⟨fun _ _ _ _ _ _ => Subsingleton.elim _ _, fun i j hij hj => ?_⟩
    omega
  · obtain ⟨z, hz⟩ := Counted.of_reach hw hs
    exact ⟨hz.agree, fun i j hij hj xs ys hxs hys => hz.once hij hj hxs hys⟩

/-- Elements are inserted in two phases before the first reduction. -/
theorem stamps_agree_before_reduce :
    (({} : Collection ℕ 2 64).modify [(0, 7)]).Agree ∧
      ∃ s : Collection ℕ 2 64, Reach Init step Steady s ∧
        s.stamps = [3, 3] ∧ StampsOnce s := by
  refine ⟨(stamps_agree.1 {} [(0, 7)] 1 (by simp)).mpr (.inr (.inl rfl)), ?_⟩
  obtain ⟨s, hs, hstamps⟩ := @Reach.of_guarded_run _ _ Init Steady _
    step [.modify [(0, 7)], .modify [(1, 8)], .reduce, .reduce, .modify []]
    (·.stamps = [3, 3]) _ _ ⟨(rfl : ({} : Collection ℕ 2 64).used = []), by simp⟩
      (by decide +kernel)
  exact ⟨s, hs, hstamps, stamps_agree.2 s hs⟩

/-- An element that is inserted after a reduction has another stamp than the others, and it uses the
stamp of the first reduction again. -/
theorem stamps_differ :
    ∃ s : Collection ℕ 1 64, Reach Init step anyStep s ∧
      s.used = [[1], [2, 1]] ∧ s.stamps = [3, 2] :=
  Reach.of_run step [.modify [(0, 7)], .reduce, .modify [(0, 8)], .reduce] _
    ⟨(rfl : ({} : Collection ℕ 1 64).used = []), by simp⟩ (by decide +kernel)

end VtRuntime.Stamp
