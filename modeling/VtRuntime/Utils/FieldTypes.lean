import VtRuntime.Utils.BitPacker
import Mathlib.Tactic.SplitIfs

/-!
# Bit fields of any integral type

`setFieldDynamic` and `getFieldDynamic` for fields of 8, 16, 32 and 64 bits, signed or not.  An
operand narrower than `int` is promoted to it before it is shifted, so that the bits of a segment
above its length are not shifted out: they are set in the field.  A segment is given by its
conversion to `uint64_t`, which has the bits that the other types keep of it.
-/

namespace VtRuntime.Utils

open BitVec BitPacker

/-- An integral type of the source. -/
structure IntType where
  width : ℕ
  signed : Bool
  isWidth : width = 8 ∨ width = 16 ∨ width = 32 ∨ width = 64

namespace IntType

variable (T : IntType)

/-- The conversion to `uint64_t`. -/
def toUInt64 (x : BitVec T.width) : BitVec 64 := if T.signed then x.signExtend 64 else x.setWidth 64

/-- The conversion of `x >> start` to `uint64_t`. -/
def shiftRight (x : BitVec T.width) (start : ℕ) : BitVec 64 :=
  if T.signed then (x.signExtend 64).sshiftRight start else x.setWidth 64 >>> start

/-- The value of a bit pattern. -/
def value (x : BitVec T.width) : ℤ := if T.signed then x.toInt else x.toNat

end IntType

variable (T R : IntType) (start len : ℕ) (field : BitVec T.width) (segment : BitVec 64)

/-- A shift by the width of its operand, or more, is undefined. -/
def setFieldDynamic : Option (BitVec T.width) :=
  let nbits := T.width - len
  let field := (T.toUInt64 field &&& ~~~(genBitMask len <<< start)).setWidth T.width
  let seg := segment.setWidth T.width
  -- as an `int` a narrower segment is not negative
  let bits := ((seg.setWidth (max 32 T.width) <<< nbits) >>> nbits) <<< start
  if len < 64 ∧ nbits < max 32 T.width then some (field ||| bits.setWidth T.width) else none

/-- The result is of type `R`. -/
def getFieldDynamic : BitVec R.width :=
  let comp := T.shiftRight field start
  if len < T.width then (comp &&& genBitMask len).setWidth R.width else comp.setWidth R.width

/-- What is expected of a field that is set and read again. -/
def Packs : Prop := ∃ field', setFieldDynamic T start len field segment = some field' ∧
  (∀ i < T.width, i < start ∨ start + len ≤ i → field'.getLsbD i = field.getLsbD i) ∧
  field'.extractLsb' start len = segment.setWidth len ∧
  R.value (getFieldDynamic T R start len field') = segment.toNat % 2 ^ len

/-- The segment is not 64 bits wide; in a type narrower than `int` the bits of the value above it
are set in the field anyway; and the segment, as a value of the field's type if it is the whole
field, is not changed by its conversion to the result type. -/
def Fits : Prop := len < 64 ∧
  (T.width < 32 → ∀ i < T.width, start + len ≤ i →
    segment.getLsbD (i - start) = true → field.getLsbD i = true) ∧
  R.value (if len < T.width then (segment.setWidth len).setWidth R.width
    else (T.toUInt64 (segment.setWidth T.width)).setWidth R.width) = segment.toNat % 2 ^ len

theorem isSome_setFieldDynamic {len : ℕ} (hlen : 1 ≤ len) (h64 : len < 64) :
    (setFieldDynamic T start len field segment).isSome = true := by
  rw [setFieldDynamic, if_pos ⟨h64, by omega⟩]
  rfl

variable {T R start len field segment}

theorem getLsbD_toUInt64 {i : ℕ} (hi : i < T.width) :
    (T.toUInt64 field).getLsbD i = field.getLsbD i := by
  have hT := T.isWidth
  have h64 : i < 64 := by omega
  rw [IntType.toUInt64]
  split_ifs
  · rw [getLsbD_signExtend]
    simp [hi, h64]
  · simp [h64]

theorem getLsbD_shiftRight {i : ℕ} (hi : start + i < T.width) :
    (T.shiftRight field start).getLsbD i = field.getLsbD (start + i) := by
  have hT := T.isWidth
  have h64 : start + i < 64 := by omega
  rw [IntType.shiftRight]
  split_ifs
  · rw [getLsbD_sshiftRight, getLsbD_signExtend]
    simp [hi, h64, show i < 64 by omega]
  · simp [h64]

theorem getLsbD_setFieldDynamic (hw : start + len ≤ T.width) {field' : BitVec T.width}
    (h : setFieldDynamic T start len field segment = some field') {i : ℕ} (hi : i < T.width) :
    field'.getLsbD i =
      if i < start then field.getLsbD i
      else if i < start + len then segment.getLsbD (i - start)
      else field.getLsbD i || decide (T.width < 32) && segment.getLsbD (i - start) := by
  obtain ⟨⟨hlen, -⟩, heq⟩ := Option.ite_none_right_eq_some.mp h
  obtain rfl := Option.some.inj heq
  have hT := T.isWidth
  have hmax : i < 64 ∧ i < max 32 T.width ∧ i - start < max 32 T.width ∧
      i - start < T.width := by omega
  have hshift : ¬ T.width - len + (i - start) < T.width - len := by omega
  simp only [getLsbD_or, getLsbD_setWidth, getLsbD_and, getLsbD_not, getLsbD_shiftLeft,
    getLsbD_ushiftRight, getLsbD_genBitMask hlen, getLsbD_toUInt64 hi, hi, hmax, hshift,
    Nat.add_sub_cancel_left, decide_true, decide_false, Bool.not_false, Bool.and_true,
      Bool.true_and]
  split_ifs with h₁ h₂
  · simp [h₁]
  · have h₃ : i - start < len ∧ T.width - len + (i - start) < max 32 T.width := by omega
    simp [h₁, h₃]
  · have h₃ : ¬ i - start < len := by omega
    have h₄ : T.width - len + (i - start) < max 32 T.width ↔ T.width < 32 := by omega
    simp [h₁, h₃, h₄]

section

variable {f : BitVec T.width} (hw : start + len ≤ T.width)
include hw

theorem getFieldDynamic_of_lt (hlt : len < T.width) :
    getFieldDynamic T R start len f = (f.extractLsb' start len).setWidth R.width := by
  have hT := T.isWidth
  have hR := R.isWidth
  rw [getFieldDynamic, if_pos hlt]
  refine eq_of_getLsbD_eq fun i hi => ?_
  rw [getLsbD_setWidth, getLsbD_and, getLsbD_genBitMask (by omega), getLsbD_setWidth,
    getLsbD_extractLsb']
  by_cases hil : i < len
  · rw [getLsbD_shiftRight (by omega)]
    simp [hil]
  · simp [hil]

theorem getFieldDynamic_eq (hf : f.extractLsb' start len = segment.setWidth len) :
    getFieldDynamic T R start len f = if len < T.width then (segment.setWidth len).setWidth R.width
      else (T.toUInt64 (segment.setWidth T.width)).setWidth R.width := by
  split
  case isTrue hlt => rw [getFieldDynamic_of_lt hw hlt, hf]
  case isFalse hge =>
    obtain ⟨rfl, rfl⟩ : start = 0 ∧ len = T.width := by omega
    rw [extractLsb'_eq_self] at hf
    rw [getFieldDynamic, if_neg hge, hf, IntType.shiftRight, IntType.toUInt64, sshiftRight_zero,
      ushiftRight_zero]

variable (h : setFieldDynamic T start len field segment = some f)
include h

theorem extract_setFieldDynamic : f.extractLsb' start len = segment.setWidth len := by
  refine eq_of_getLsbD_eq fun i hi => ?_
  rw [getLsbD_extractLsb', getLsbD_setWidth, getLsbD_setFieldDynamic hw h (by omega),
    if_neg (by omega), if_pos (by omega), Nat.add_sub_cancel_left]

theorem unchanged_iff :
    (∀ i < T.width, i < start ∨ start + len ≤ i → f.getLsbD i = field.getLsbD i) ↔
      (T.width < 32 → ∀ i < T.width, start + len ≤ i →
        segment.getLsbD (i - start) = true → field.getLsbD i = true) := by
  constructor
  · intro hsame hT i hi hge hseg
    have hi' := hsame i hi (.inr hge)
    rw [getLsbD_setFieldDynamic hw h hi, if_neg (by omega), if_neg (by omega)] at hi'
    simpa [hT, hseg] using hi'
  · intro hset i hi hout
    rw [getLsbD_setFieldDynamic hw h hi]
    split_ifs
    · rfl
    · omega
    · by_cases hT : T.width < 32
      · simpa [hT] using hset hT i hi (by omega)
      · simp [hT]

end

/-- The laws of a field hold if and only if the segment fits. -/
theorem packs_iff (hlen : 1 ≤ len) (hw : start + len ≤ T.width) :
    Packs T R start len field segment ↔ Fits T R start len field segment := by
  rw [Packs, Fits]
  by_cases h64 : len < 64
  · obtain ⟨f, hf⟩ := Option.isSome_iff_exists.mp
      (isSome_setFieldDynamic T start field segment hlen h64)
    have hin := extract_setFieldDynamic hw hf
    simp only [hf, Option.some.injEq, exists_eq_left', h64, hin,
      getFieldDynamic_eq hw hin, true_and]
    exact and_congr_left fun _ => unchanged_iff hw hf
  · simp [setFieldDynamic, h64]

/-- `uint8_t`. -/
def uint8 : IntType := ⟨8, false, .inl rfl⟩

theorem packs_uint8 : Packs uint8 uint8 4 4 0 15 :=
  (packs_iff (by decide) (by decide)).mpr ⟨by decide, by decide, rfl⟩

/-- The upper half of the byte is overwritten. -/
theorem not_packs_uint8 : ¬ Packs uint8 uint8 0 4 0 255 := by
  rintro ⟨f, hf, hout, -⟩
  obtain rfl : (255#8 : BitVec 8) = f := Option.some.inj (.trans (by rfl) hf)
  exact absurd (hout 7 (by decide) (.inr (by decide))) (by decide)

end VtRuntime.Utils
