import VtRuntime.Balance.LoadModel
import Mathlib.Algebra.Order.BigOperators.Group.List
import Mathlib.Tactic.LinearCombination

/-!
# The prediction of the linear model

`LinearModel` fits a line to the loads of the last phases.  The closed formulas of
`LinearRegression` give the line of least squares if the points are not all at one place.  A single
phase determines no line: the denominator is zero, and an assertion fails.  So there is no
prediction after the first phase, and none at all with a `past_len_` of one.
-/

namespace VtRuntime.Balance

open List

variable {C O K : Type} [Field K] [LinearOrder K]

/-- The sum of the squared residuals of a line. -/
def residuals (points : List (K × K)) (a b : K) : K :=
  (points.map fun p => (p.2 - (a + b * p.1)) ^ 2).sum

/-- The residuals of every other line are larger. -/
def LeastSquares (points : List (K × K)) (a b : K) : Prop :=
  ∀ a' b', (a', b') ≠ (a, b) → residuals points a b < residuals points a' b'

/-- The offsets of the last phases, with their loads. -/
def pastPoints (phases : ℕ) (load : ℤ → K) : List (K × K) :=
  (List.range phases).map fun i : ℕ => (((i - phases : ℤ) : K), load (i - phases))

section Regression

variable (points : List (K × K)) (a b : K)

omit [LinearOrder K]

theorem sum_sq_line : (points.map fun p => (a + b * p.1) ^ 2).sum =
    (points.map (·.1)).length * a ^ 2 + 2 * a * b * (points.map (·.1)).sum +
      b ^ 2 * (zipWith (· * ·) (points.map (·.1)) (points.map (·.1))).sum := by
  induction points with
  | nil => simp
  | cons p points ih =>
    simp only [map_cons, sum_cons, length_cons, zipWith_cons_cons, Nat.cast_succ]
    linear_combination ih

theorem residuals_eq : residuals points a b =
    residuals points 0 0 - 2 * a * (points.map (·.2)).sum -
    2 * b * (zipWith (· * ·) (points.map (·.1)) (points.map (·.2))).sum +
      (points.map fun p => (a + b * p.1) ^ 2).sum := by
  induction points with
  | nil => simp [residuals]
  | cons p points ih =>
    simp only [residuals, map_cons, sum_cons, zipWith_cons_cons] at ih ⊢
    linear_combination ih

end Regression

variable [IsStrictOrderedRing K]

/-- A line that is not zero everywhere is not zero at all points. -/
theorem sum_sq_line_pos {points : List (K × K)} {p q : K × K} (hp : p ∈ points) (hq : q ∈ points)
    (hne : p.1 ≠ q.1) {a b : K} (hab : ¬ (a = 0 ∧ b = 0)) :
    0 < (points.map fun p => (a + b * p.1) ^ 2).sum := by
  have hpos : ∀ r ∈ points, a + b * r.1 ≠ 0 → 0 < (points.map fun p => (a + b * p.1) ^ 2).sum := by
    intro r hr hline
    refine (sq_pos_iff.mpr hline).trans_le (single_le_sum ?_ _ (mem_map_of_mem hr))
    simp only [forall_mem_map]
    exact fun p _ => sq_nonneg _
  by_cases hline : a + b * p.1 = 0
  · refine hpos q hq fun hline' => hab ?_
    have hb : b = 0 := by
      refine (mul_eq_zero.mp ?_).resolve_right (sub_ne_zero.mpr hne)
      linear_combination hline - hline'
    rw [hb, zero_mul, add_zero] at hline
    exact ⟨hline, hb⟩
  · exact hpos p hp hline

/-- The formulas solve the normal equations. -/
theorem predict_leastSquares {points : List (K × K)} {p q : K × K} (hp : p ∈ points)
    (hq : q ∈ points) (hne : p.1 ≠ q.1) (pos : K) :
    ∃ a b, predict (points.map (·.1)) (points.map (·.2)) pos = .ok (a + b * pos) ∧
      LeastSquares points a b := by
  have hquad : ∀ a b : K, ¬ (a = 0 ∧ b = 0) → _ := fun a b hab =>
    (sum_sq_line_pos hp hq hne hab).trans_eq (sum_sq_line points a b)
  have hres := residuals_eq points
  simp only [sum_sq_line points] at hres
  simp only [predict]
  generalize ((points.map (·.1)).length : K) = n at *
  generalize (points.map (·.1)).sum = sx at *
  generalize (points.map (·.2)).sum = sy at *
  generalize (zipWith (· * ·) (points.map (·.1)) (points.map (·.1))).sum = sxx at *
  generalize (zipWith (· * ·) (points.map (·.1)) (points.map (·.2))).sum = sxy at *
  have hn : n ≠ 0 := by
    have h := hquad 1 0 (by simp)
    rintro rfl
    simp at h
  have hden : sxx * n - sx * sx ≠ 0 := by
    intro hzero
    have h := hquad (-sx) n (fun h => hn h.2)
    have hfirst : n * (-sx) ^ 2 + 2 * -sx * n * sx + n ^ 2 * sxx = 0 := by
      linear_combination n * hzero
    rw [hfirst] at h
    exact lt_irrefl 0 h
  rw [if_neg hden]
  refine ⟨_, _, rfl, ?_⟩
  generalize hb : (sxy * n - sx * sy) / (sxx * n - sx * sx) = b
  generalize ha : (sy - b * sx) / n = a
  rw [div_eq_iff hden] at hb
  rw [div_eq_iff hn] at ha
  have hnormal : sxy = sx * a + sxx * b := by
    refine mul_right_cancel₀ hn ?_
    linear_combination hb + sx * ha
  intro a' b' hline
  have h := hquad (a' - a) (b' - b) fun h =>
    hline (Prod.ext (sub_eq_zero.mp h.1) (sub_eq_zero.mp h.2))
  rw [← sub_pos, hres a b, hres a' b']
  refine h.trans_eq ?_
  linear_combination 2 * (a' - a) * ha + 2 * (b' - b) * hnormal

theorem mapM_ok {ε α β : Type} {l : List α} {f : α → Except ε β} {g : α → β}
    (h : ∀ a ∈ l, f a = .ok (g a)) : l.mapM f = .ok (l.map g) := by
  induction l with
  | nil => rfl
  | cons a l ih =>
    rw [mapM_cons, h a mem_cons_self, ih fun x hx => h x (mem_cons_of_mem a hx)]
    rfl

variable [DecidableEq C]

/-- The model returns the prediction of the line of least squares if and only if it uses two phases
at least. -/
theorem linearModel_predicts_iff (base : LoadModel C) (ctx : LoadContext C O K) (object : O)
    {pastLen : ℕ} (hlen : 1 ≤ pastLen) {k : ℤ} (hk : 0 ≤ k) (s : ℕ) {load : ℤ → K}
    (hload : ∀ i : ℤ, -(min pastLen ctx.getNumCompletedPhases : ℕ) ≤ i → i < 0 →
      base.getModeledLoad ctx object ⟨i, s⟩ = .ok (load i)) :
    (∃ v, (LoadModel.linearModel base pastLen).getModeledLoad ctx object ⟨k, s⟩ = .ok v ∧
      (2 ≤ min pastLen ctx.getNumCompletedPhases → ∃ a b, v = a + b * k ∧
        LeastSquares (pastPoints (min pastLen ctx.getNumCompletedPhases) load) a b)) ↔
      2 ≤ min pastLen ctx.getNumCompletedPhases := by
  have hone : 1 ≤ min pastLen ctx.getNumCompletedPhases := le_min hlen (Nat.le_add_left _ _)
  generalize hm : min pastLen ctx.getNumCompletedPhases = m at *
  have hmodel : (LoadModel.linearModel base pastLen).getModeledLoad ctx object ⟨k, s⟩ =
      predict ((pastPoints m load).map (·.1)) ((pastPoints m load).map (·.2)) (k : K) := by
    simp only [LoadModel.getModeledLoad, if_neg (not_lt.mpr hk), hm]
    rw [mapM_ok (g := load)]
    · simp only [pastPoints, map_map, bind_eq_flatMap, pure, ← map_eq_flatMap]
      rfl
    · intro i hi
      obtain ⟨j, hj, rfl⟩ := mem_map.mp hi
      rw [mem_range] at hj
      exact hload _ (by omega) (by omega)
  rw [hmodel]
  constructor
  · rintro ⟨v, hv, -⟩
    by_contra hlt
    obtain rfl : m = 1 := by omega
    simp [predict, pastPoints] at hv
  · intro h2
    have hmem : ∀ i < m, (((i - m : ℤ) : K), load (i - m)) ∈ pastPoints m load := fun i hi =>
      mem_map.mpr ⟨i, mem_range.mpr hi, rfl⟩
    obtain ⟨a, b, hv, hleast⟩ := predict_leastSquares (hmem 0 (by omega)) (hmem 1 (by omega))
      (Int.cast_injective.ne (by omega)) (k : K)
    exact ⟨_, hv, fun _ => ⟨a, b, rfl, hleast⟩⟩

/-- The load of an object is the number of the phase. -/
private def growing (lastCompletedPhase : ℕ) : LoadContext ℕ ℕ ℚ where
  procLoad := fun phase => some fun _ => some ⟨phase, []⟩
  lastCompletedPhase := lastCompletedPhase
  collectionOf := id

theorem linearModel_two_phases :
    ∃ v, (LoadModel.linearModel .rawData 5).getModeledLoad (growing 1) 7
      (nextPhase wholePhase) = .ok v ∧
      (2 ≤ 2 → ∃ a b, v = a + b * (0 : ℤ) ∧
        LeastSquares (pastPoints 2 fun i => ((2 + i).toNat : ℚ)) a b) := by
  refine (linearModel_predicts_iff .rawData (growing 1) 7 (by decide) le_rfl
    wholePhase ?_).mpr le_rfl
  intro i hlow hneg
  obtain rfl | rfl : i = -2 ∨ i = -1 := by
    change -2 ≤ i at hlow
    omega
  · rfl
  · rfl

/-- After the first phase there is one point. -/
theorem linearModel_first_phase :
    (LoadModel.linearModel .rawData 5).getModeledLoad (growing 0) 7 (nextPhase wholePhase) =
      .error .noLine := by
  decide +kernel

end VtRuntime.Balance
