import VtRuntime.Balance.Statistics
import Mathlib.Tactic.LinearCombination
import Mathlib.Tactic.Linarith

/-!
# The moments that the load balancer reports

A `LoadData` also has the sums of the second, third and fourth powers of the deviations from the
average, which `operator+` updates by the pairwise formulas.  In exact arithmetic the formulas are
right for every merge tree.

The counts in them are `int32_t`, and so are the products of counts.  The largest has four factors,
so that the merge of two sets of a few hundred values overflows.
-/

namespace VtRuntime.Balance

open Multiset Option LoadData

variable {K : Type} [Field K] [LinearOrder K]

/-- The value of an expression of type `int32_t`.  Overflow is undefined. -/
def int32 (x : ℤ) : Option ℤ := if -2 ^ 31 ≤ x ∧ x < 2 ^ 31 then some x else none

/-- The integer factor of the fourth moment. -/
def momentFactor (n nC : ℤ) : ℤ := n * nC * (n * n - n * nC + nC * nC)

/-- `operator+` with the integers of its type.  The other factors are converted to a `double` before
they are multiplied. -/
def LoadData.addInt32 (a1 a2 : LoadData K) : Option (LoadData K) := do
  let _ ← int32 (a1.N + a2.N)
  let n2 ← int32 (a1.N * a1.N)
  let nC2 ← int32 (a2.N * a2.N)
  let prodN ← int32 (a1.N * a2.N)
  let d ← int32 (n2 - prodN)
  let q ← int32 (d + nC2)
  let _ ← int32 (prodN * q)
  let diff ← int32 (a1.N - a2.N)
  let _ ← int32 (prodN * diff)
  let _ ← int32 (a1.P + a2.P)
  return a1.add a2

/-- The order in which single values are merged. -/
inductive MergeTree (K : Type)
  | value (y : K)
  | merge (a b : MergeTree K)

namespace MergeTree

def values : MergeTree K → Multiset K
  | .value y => {y}
  | .merge a b => a.values + b.values

def load (stat : Statistic) : MergeTree K → Option (LoadData K)
  | .value y => some (.of stat y)
  | .merge a b => (a.load stat).bind fun a1 => (b.load stat).bind a1.addInt32

/-- No merge overflows. -/
def InRange : MergeTree K → Prop
  | .value _ => True
  | .merge a b => a.InRange ∧ b.InRange ∧ momentFactor a.values.card b.values.card < 2 ^ 31

end MergeTree

/-! ## The integers -/

section Integers

theorem int32_eq_some_iff {x y : ℤ} : int32 x = some y ↔ x = y ∧ -2 ^ 31 ≤ x ∧ x < 2 ^ 31 := by
  rw [int32, ite_none_right_eq_some, Option.some.injEq, and_comm]

/-- The factor of the fourth moment bounds every other integer but the counts. -/
theorem momentFactor_bounds {n m : ℤ} (hn : 1 ≤ n) (hm : 1 ≤ m) :
    n * n ≤ momentFactor n m ∧ m * m ≤ momentFactor n m ∧ 1 ≤ n * m ∧
      n * m ≤ n * n - n * m + m * m ∧ n * n - n * m + m * m ≤ momentFactor n m ∧
      n * m * n ≤ momentFactor n m ∧ n * m * m ≤ momentFactor n m := by
  have hp : 1 ≤ n * m := one_le_mul_of_one_le_of_one_le hn hm
  -- the second factor is the first one and a square
  have hk : n * n - n * m + m * m = n * m + (n - m) * (n - m) := by ring
  have hsq : 0 ≤ (n - m) * (n - m) := mul_self_nonneg _
  have hkn : n ≤ n * n - n * m + m * m := by nlinarith
  have hkm : m ≤ n * n - n * m + m * m := by nlinarith
  set k := n * n - n * m + m * m with hkdef
  have hpn : n ≤ n * m := by nlinarith
  have hpm : m ≤ n * m := by nlinarith
  refine ⟨?_, ?_, hp, hk ▸ le_add_of_nonneg_right hsq, ?_, ?_, ?_⟩ <;>
    rw [momentFactor, ← hkdef] <;> nlinarith

variable {a b d : LoadData K} {m m' : Multiset K}

theorem LoadData.addInt32_eq_some_iff (ha : a.Describes m) (hb : b.Describes m')
    (h : (m + m').card < 2 ^ 31) :
    a.addInt32 b = some d ↔ momentFactor m.card m'.card < 2 ^ 31 ∧ a.add b = d := by
  rw [card_add, ← ha.card, ← hb.card] at h
  rw [← ha.card, ← hb.card]
  simp only [addInt32, bind_eq_bind, bind_eq_some_iff, int32_eq_some_iff, Option.pure_def,
    Option.some.injEq]
  constructor
  · rintro ⟨_, -, _, ⟨rfl, -⟩, _, ⟨rfl, -⟩, _, ⟨rfl, -⟩, _, ⟨rfl, -⟩, _, ⟨rfl, -⟩, _,
      ⟨-, -, hlt⟩, _, -, _, -, _, -, hd⟩
    exact ⟨hlt, hd⟩
  · rintro ⟨hlt, hd⟩
    have hn : 0 < a.N := ha.card ▸ nonempty_of_isLeast ha.min
    have hm : 0 < b.N := hb.card ▸ nonempty_of_isLeast hb.min
    have hP : a.P ≤ a.N := ha.card ▸ ha.nonzero ▸ countP_le_card _ _
    have hP' : b.P ≤ b.N := hb.card ▸ hb.nonzero ▸ countP_le_card _ _
    obtain ⟨h₁, h₂, h₃, h₄, h₅, h₆, h₇⟩ :=
      momentFactor_bounds (n := a.N) (m := b.N) (by omega) (by omega)
    have hdiff : (a.N : ℤ) * b.N * (a.N - b.N) = a.N * b.N * a.N - a.N * b.N * b.N := mul_sub _ _ _
    have hsq := And.intro (mul_self_nonneg (a.N : ℤ)) (mul_self_nonneg (b.N : ℤ))
    have hpos : (0 : ℤ) ≤ a.N * b.N * a.N ∧ (0 : ℤ) ≤ a.N * b.N * b.N := by
      constructor <;> positivity
    have hfactor : (a.N : ℤ) * b.N * (a.N * a.N - a.N * b.N + b.N * b.N) = momentFactor a.N b.N :=
      rfl
    refine ⟨_, ⟨rfl, ?_⟩, _, ⟨rfl, ?_⟩, _, ⟨rfl, ?_⟩, _, ⟨rfl, ?_⟩, _, ⟨rfl, ?_⟩, _, ⟨rfl, ?_⟩,
      _, ⟨rfl, ?_⟩, _, ⟨rfl, ?_⟩, _, ⟨rfl, ?_⟩, _, ⟨rfl, ?_⟩, hd⟩ <;> omega

end Integers

/-! ## The moments -/

/-- The sums of the powers of the deviations. -/
structure LoadData.Moments (d : LoadData K) (m : Multiset K) : Prop extends d.Describes m where
  M2 : d.M2 = (m.map fun x => (x - m.sum / m.card) ^ 2).sum
  M3 : d.M3 = (m.map fun x => (x - m.sum / m.card) ^ 3).sum
  M4 : d.M4 = (m.map fun x => (x - m.sum / m.card) ^ 4).sum

/-- The sums of the powers of the distances to any point, which determine the moments. -/
structure LoadData.Centred (d : LoadData K) (m : Multiset K) : Prop extends d.Describes m where
  two (c : K) : (m.map fun x => (x - c) ^ 2).sum = d.M2 + d.N * (d.avg - c) ^ 2
  three (c : K) : (m.map fun x => (x - c) ^ 3).sum =
    d.M3 + 3 * d.M2 * (d.avg - c) + d.N * (d.avg - c) ^ 3
  four (c : K) : (m.map fun x => (x - c) ^ 4).sum =
    d.M4 + 4 * d.M3 * (d.avg - c) + 6 * d.M2 * (d.avg - c) ^ 2 + d.N * (d.avg - c) ^ 4

namespace LoadData

variable {a b : LoadData K} {m m' : Multiset K}

theorem Centred.moments (h : a.Centred m) : a.Moments m where
  toDescribes := h.toDescribes
  M2 := by rw [h.two, h.avg, sub_self]; ring
  M3 := by rw [h.three, h.avg, sub_self]; ring
  M4 := by rw [h.four, h.avg, sub_self]; ring

theorem centred_of (stat : Statistic) (y : K) : (of stat y).Centred {y} where
  toDescribes := describes_of stat y
  two c := by simp [of]
  three c := by simp [of]
  four c := by simp [of]

theorem Moments.unique (ha : a.Moments m) (hb : b.Moments m) (hs : a.stat = b.stat) : a = b := by
  have hmin := ha.min.unique hb.min
  have hmax := ha.max.unique hb.max
  have hsum := ha.sum.trans hb.sum.symm
  have havg := ha.avg.trans hb.avg.symm
  have h2 := ha.M2.trans hb.M2.symm
  have h3 := ha.M3.trans hb.M3.symm
  have h4 := ha.M4.trans hb.M4.symm
  have hN := ha.card.trans hb.card.symm
  have hP := ha.nonzero.trans hb.nonzero.symm
  cases a
  cases b
  congr

variable [IsStrictOrderedRing K]

/-- The pairwise formulas. -/
theorem Centred.add (ha : a.Centred m) (hb : b.Centred m') : (a.add b).Centred (m + m') := by
  have hN : (a.N : K) + b.N ≠ 0 := by
    have : 0 < a.N := ha.card ▸ nonempty_of_isLeast ha.min
    exact_mod_cast (Nat.add_pos_left this b.N).ne'
  refine ⟨ha.toDescribes.add hb.toDescribes, fun c => ?_, fun c => ?_, fun c => ?_⟩
  · rw [map_add, sum_add, ha.two, hb.two]
    simp only [LoadData.add, Nat.cast_add]
    field_simp
    ring
  · rw [map_add, sum_add, ha.three, hb.three]
    simp only [LoadData.add, Nat.cast_add]
    field_simp
    ring
  · rw [map_add, sum_add, ha.four, hb.four]
    simp only [LoadData.add, Nat.cast_add]
    field_simp
    ring

end LoadData

namespace MergeTree

variable [IsStrictOrderedRing K] (stat : Statistic)

theorem centred_load (t : MergeTree K) (h : t.values.card < 2 ^ 31) {d : LoadData K}
    (hd : t.load stat = some d) : d.Centred t.values ∧ d.stat = stat := by
  induction t generalizing d with
  | value y =>
    obtain rfl := Option.some.inj hd
    exact ⟨centred_of stat y, rfl⟩
  | merge a b iha ihb =>
    obtain ⟨a1, ha1, hd⟩ := bind_eq_some_iff.mp hd
    obtain ⟨a2, ha2, hd⟩ := bind_eq_some_iff.mp hd
    have hcard := h
    rw [values, card_add] at hcard
    obtain ⟨h1, -⟩ := iha (by omega) ha1
    obtain ⟨h2, hstat⟩ := ihb (by omega) ha2
    obtain ⟨-, rfl⟩ := (addInt32_eq_some_iff h1.toDescribes h2.toDescribes h).mp hd
    exact ⟨h1.add h2, hstat⟩

theorem inRange_iff (t : MergeTree K) (h : t.values.card < 2 ^ 31) :
    t.InRange ↔ ∃ d, t.load stat = some d := by
  induction t with
  | value y => exact iff_of_true trivial ⟨_, rfl⟩
  | merge a b iha ihb =>
    have hcard := h
    rw [values, card_add] at hcard
    rw [InRange, iha (by omega), ihb (by omega)]
    constructor
    · rintro ⟨⟨a1, ha1⟩, ⟨a2, ha2⟩, hlt⟩
      have h1 := (a.centred_load stat (by omega) ha1).1.toDescribes
      have h2 := (b.centred_load stat (by omega) ha2).1.toDescribes
      refine ⟨a1.add a2, ?_⟩
      rw [load, ha1, bind_some, ha2, bind_some]
      exact (addInt32_eq_some_iff h1 h2 h).mpr ⟨hlt, rfl⟩
    · rintro ⟨d, hd⟩
      obtain ⟨a1, ha1, hd⟩ := bind_eq_some_iff.mp hd
      obtain ⟨a2, ha2, hd⟩ := bind_eq_some_iff.mp hd
      have h1 := (a.centred_load stat (by omega) ha1).1.toDescribes
      have h2 := (b.centred_load stat (by omega) ha2).1.toDescribes
      exact ⟨⟨a1, ha1⟩, ⟨a2, ha2⟩, ((addInt32_eq_some_iff h1 h2 h).mp hd).1⟩

end MergeTree

/-- The data of two sets of values, each merged in any order, have the moments of all the values and
do not depend on the order, if and only if no merge overflows. -/
theorem merge_moments_iff [IsStrictOrderedRing K] (stat : Statistic) (a b : MergeTree K)
    (h : (a.values + b.values).card < 2 ^ 31) :
    (∃ d, (a.merge b).load stat = some d ∧ d.Moments (a.values + b.values) ∧
      ∀ t : MergeTree K, t.values = a.values + b.values → t.InRange → t.load stat = some d) ↔
    (a.merge b).InRange := by
  rw [(a.merge b).inRange_iff stat h]
  refine ⟨fun ⟨d, hd, _⟩ => ⟨d, hd⟩, fun ⟨d, hd⟩ => ?_⟩
  obtain ⟨hc, hstat⟩ := (a.merge b).centred_load stat h hd
  refine ⟨d, hd, hc.moments, fun t ht hr => ?_⟩
  rw [← ht] at h
  obtain ⟨d', hd'⟩ := (t.inRange_iff stat h).mp hr
  obtain ⟨hc', hstat'⟩ := t.centred_load stat h hd'
  rw [ht] at hc'
  rw [hd', hc'.moments.unique hc.moments (hstat'.trans hstat.symm)]

/-- The loads 1 and 3 of one rank and the load 5 of another. -/
theorem merge_moments_three :
    ∃ d, ((MergeTree.merge (.value 1) (.value 3)).merge (.value (5 : ℚ))).load .objectLoadModeled =
      some d ∧ d.Moments {1, 3, 5} := by
  obtain ⟨d, hd, hm, -⟩ := (merge_moments_iff .objectLoadModeled
    ((MergeTree.value 1).merge (.value 3)) (.value (5 : ℚ)) (by decide)).mpr
      ⟨⟨trivial, trivial, by decide⟩, trivial, by decide⟩
  exact ⟨d, hd, hm⟩

/-- Two ranks with 256 objects, of load 1 and of load 3, which each adds up one after the other. -/
theorem merge_of_two_ranks :
    let rank (load : ℚ) : MergeTree ℚ := (List.replicate 255 load).foldl
      (fun t y => t.merge (.value y)) (.value load)
    (rank 1).values.card = 256 ∧ (rank 3).values.card = 256 ∧
      ((rank 1).load .objectLoadModeled).isSome = true ∧
      ((rank 3).load .objectLoadModeled).isSome = true ∧
      ((rank 1).merge (rank 3)).load .objectLoadModeled = none := by
  decide +kernel

end VtRuntime.Balance
