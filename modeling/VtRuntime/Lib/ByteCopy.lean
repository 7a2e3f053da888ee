import Mathlib.Algebra.GroupWithZero.Nat
import Mathlib.Data.List.Basic

/-!
# Arrays of values that are copied as bytes
-/

namespace VtRuntime.Lib

open List

universe u

/-- A type whose values are restored from a copy of their bytes. -/
structure ByteCopy (α : Type u) where
  size : ℕ
  bytes : α → List UInt8
  ofBytes : List UInt8 → α
  length_bytes : ∀ a, (bytes a).length = size
  ofBytes_bytes : ∀ a, ofBytes (bytes a) = a

namespace ByteCopy

variable {α : Type u} (c : ByteCopy α)

variable (l : List α)

/-- The bytes of an array. -/
def array : List UInt8 := l.flatMap c.bytes

/-- The element number `i` of the array at the beginning of some memory. -/
def read (mem : List UInt8) (i : ℕ) : α := c.ofBytes ((mem.drop (i * c.size)).take c.size)

theorem length_array : (c.array l).length = l.length * c.size := by
  induction l with
  | nil => simp [array]
  | cons a l ih =>
    rw [array, flatMap_cons, ← array, length_append, ih, c.length_bytes, length_cons,
      Nat.succ_mul, Nat.add_comm]

/-- What follows the array in memory does not matter. -/
theorem read_array (rest : List UInt8) {i : ℕ} {a : α} (h : l[i]? = some a) :
    c.read (c.array l ++ rest) i = a := by
  induction l generalizing i with
  | nil => simp at h
  | cons b l ih =>
    rw [array, flatMap_cons, ← array, append_assoc]
    cases i with
    | zero =>
      obtain rfl : b = a := by simpa using h
      rw [read, Nat.zero_mul, drop_zero, take_left' (c.length_bytes b), c.ofBytes_bytes]
    | succ i =>
      have hdrop : (c.bytes b ++ (c.array l ++ rest)).drop ((i + 1) * c.size) =
          (c.array l ++ rest).drop (i * c.size) := by
        rw [Nat.succ_mul, Nat.add_comm, ← drop_drop, drop_left' (c.length_bytes b)]
      rw [read, hdrop]
      exact ih (by simpa using h)

end ByteCopy

/-- The number in `k` bytes. -/
def leBytes : ℕ → ℕ → List UInt8
  | 0, _ => []
  | k + 1, n => UInt8.ofNat n :: leBytes k (n / 256)

def ofLeBytes : List UInt8 → ℕ
  | [] => 0
  | b :: l => b.toNat + 256 * ofLeBytes l

theorem length_leBytes (k n : ℕ) : (leBytes k n).length = k := by
  induction k generalizing n with
  | zero => rfl
  | succ k ih => rw [leBytes, length_cons, ih]

theorem ofLeBytes_leBytes {k n : ℕ} (h : n < 256 ^ k) : ofLeBytes (leBytes k n) = n := by
  induction k generalizing n with
  | zero =>
    rw [Nat.pow_zero, Nat.lt_one_iff] at h
    rw [h, leBytes, ofLeBytes]
  | succ k ih =>
    have hdiv : n / 256 < 256 ^ k := Nat.div_lt_of_lt_mul (by rwa [Nat.pow_succ, Nat.mul_comm] at h)
    rw [leBytes, ofLeBytes, ih hdiv, UInt8.toNat_ofNat']
    exact Nat.mod_add_div n 256

end VtRuntime.Lib
