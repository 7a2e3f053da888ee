import Mathlib.Data.Nat.Bitwise
import Mathlib.Tactic.Linarith
import Mathlib.Tactic.Ring

/-!
# Bit fields of a 64-bit word

`utils/bits/bits_packer.impl.h` for a 64-bit unsigned field, where the shifts of the
source are not affected by integral promotion.  A field is the `len` bits from bit
`start` on.

The laws are stated twice: bit by bit (`getLsbD_setField`), and as arithmetic on the
value of the word (`toNat_getField`, `toNat_setField`), which is the form in which
`omega` decides questions about a concrete layout.
-/

namespace VtRuntime.Utils.BitPacker

open BitVec Nat

/-- The `gen_bit_mask` of the source: `len` low bits. -/
def genBitMask (len : ℕ) : BitVec 64 := (1#64 <<< len) - 1#64

variable (start len : ℕ)

def getField (field : BitVec 64) : BitVec 64 :=
  let comp := field >>> start
  if len < 64 then comp &&& genBitMask len else comp

/-- Overwrite a field by the low `len` bits of `segment`. -/
def setField (field segment : BitVec 64) : BitVec 64 :=
  let nbits := 64 - len
  let field := field &&& ~~~(genBitMask len <<< start)
  let bits := ((segment <<< nbits) >>> nbits) <<< start
  field ||| bits

def boolSetField (start : ℕ) (field : BitVec 64) (setValue : Bool) : BitVec 64 :=
  if setValue then field ||| (1#64 <<< start) else field &&& ~~~(1#64 <<< start)

def boolGetField (start : ℕ) (field : BitVec 64) : Bool :=
  (field &&& (1#64 <<< start)) != 0#64

/-! ## Laws -/

theorem toNat_genBitMask {len : ℕ} (h : len < 64) : (genBitMask len).toNat = 2 ^ len - 1 := by
  have hlt : 2 ^ len < 2 ^ 64 := Nat.pow_lt_pow_right (by norm_num) h
  have h1 : (1#64 <<< len).toNat = 2 ^ len := by
    rw [toNat_shiftLeft, toNat_ofNat, Nat.shiftLeft_eq]
    norm_num
    exact hlt
  have h2 : 1 ≤ 2 ^ len := Nat.one_le_two_pow
  rw [genBitMask, toNat_sub_of_le]
  · rw [h1]; rfl
  · rw [le_def, h1]; simpa using h2

theorem getLsbD_genBitMask {len : ℕ} (h : len < 64) (i : ℕ) :
    (genBitMask len).getLsbD i = decide (i < len) := by
  rw [← testBit_toNat, toNat_genBitMask h, testBit_two_pow_sub_one]

theorem toNat_getField (start : ℕ) {len : ℕ} (h : len < 64) (field : BitVec 64) :
    (getField start len field).toNat = field.toNat / 2 ^ start % 2 ^ len := by
  rw [getField, if_pos h, toNat_and, toNat_genBitMask h, toNat_ushiftRight,
    and_two_pow_sub_one_eq_mod, shiftRight_eq_div_pow]

/-- A written field reads its segment; every other bit is unchanged. -/
theorem getLsbD_setField {start len : ℕ} (h : len < 64)
    (field segment : BitVec 64) {i : ℕ} (hi : i < 64) :
    (setField start len field segment).getLsbD i =
      if start ≤ i ∧ i < start + len then segment.getLsbD (i - start) else field.getLsbD i := by
  simp only [setField, getLsbD_or, getLsbD_and, getLsbD_not,
    getLsbD_shiftLeft, getLsbD_ushiftRight, getLsbD_genBitMask h, hi, decide_true,
    Bool.true_and]
  by_cases h1 : start ≤ i
  · by_cases h2 : i < start + len
    · have e1 : i - start < len := by omega
      have e2 : 64 - len + (i - start) < 64 := by omega
      have e3 : ¬ (64 - len + (i - start) < 64 - len) := by omega
      have e4 : 64 - len + (i - start) - (64 - len) = i - start := by omega
      simp [h1, h2, e1, e2, e3, e4, not_lt.mpr h1]
    · have e1 : ¬ (i - start < len) := by omega
      have e2 : ¬ (64 - len + (i - start) < 64) := by omega
      simp [h1, h2, e1, e2, not_lt.mpr h1]
  · simp [h1, not_le.mp h1]

/-- Writing a field as arithmetic: the part above, the segment and the part below. -/
theorem toNat_setField (h : len < 64) (h' : start + len ≤ 64) (field segment : BitVec 64) :
    (setField start len field segment).toNat =
      2 ^ (start + len) * (field.toNat / 2 ^ (start + len)) +
        (2 ^ start * (segment.toNat % 2 ^ len) + field.toNat % 2 ^ start) := by
  have hlow : field.toNat % 2 ^ start < 2 ^ start := mod_lt _ (by positivity)
  have hseg : segment.toNat % 2 ^ len < 2 ^ len := mod_lt _ (by positivity)
  have hmid : 2 ^ start * (segment.toNat % 2 ^ len) + field.toNat % 2 ^ start
      < 2 ^ (start + len) := by
    calc _ < 2 ^ start * (segment.toNat % 2 ^ len) + 2 ^ start := by omega
      _ = 2 ^ start * (segment.toNat % 2 ^ len + 1) := by ring
      _ ≤ 2 ^ start * 2 ^ len := mul_le_mul_left _ hseg
      _ = 2 ^ (start + len) := by rw [pow_add]
  apply eq_of_testBit_eq
  intro i
  rw [testBit_two_pow_mul_add _ hmid, testBit_two_pow_mul_add _ hlow,
    testBit_div_two_pow, testBit_mod_two_pow, testBit_mod_two_pow,
    testBit_toNat, testBit_toNat, testBit_toNat, testBit_toNat]
  by_cases hi : i < 64
  · rw [getLsbD_setField h field segment hi]
    by_cases h1 : i < start + len
    · by_cases h2 : i < start
      · simp [h1, h2, not_le.mpr h2]
      · have : i - start < len := by omega
        simp [h1, h2, not_lt.mp h2, this]
    · have : i - (start + len) + (start + len) = i := by omega
      simp [h1, this]
  · rw [getLsbD_of_ge _ _ (by omega)]
    have : ¬ i < start + len := by omega
    have : i - (start + len) + (start + len) = i := by omega
    simp [*, getLsbD_of_ge field i (by omega)]

theorem getLsbD_one_shiftLeft {start i : ℕ} (h : start < 64) :
    (1#64 <<< start).getLsbD i = decide (i = start) := by
  rw [getLsbD_shiftLeft, getLsbD_one]
  by_cases h1 : i = start
  · simp [h1, h]
  · by_cases h2 : i < start
    · simp [h2]
      omega
    · have : ¬ i - start = 0 := by omega
      simp [h1, this]

theorem boolGetField_eq {start : ℕ} (h : start < 64) (field : BitVec 64) :
    boolGetField start field = field.getLsbD start := by
  have hz : field &&& (1#64 <<< start) = 0#64 ↔ field.getLsbD start = false := by
    constructor
    · intro h0
      have := congrArg (fun b : BitVec 64 => b.getLsbD start) h0
      simpa [getLsbD_and, getLsbD_one_shiftLeft h] using this
    · intro hf
      apply eq_of_getLsbD_eq
      intro i hi
      rw [getLsbD_and, getLsbD_one_shiftLeft h]
      by_cases he : i = start
      · simp [he, hf]
      · simp [he]
  cases hb : field.getLsbD start
  · simp [boolGetField, hz.mpr hb]
  · have : ¬ field &&& (1#64 <<< start) = 0#64 := by simp [hz, hb]
    simp [boolGetField, this]

end VtRuntime.Utils.BitPacker
