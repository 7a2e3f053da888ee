import VtRuntime.Utils.FieldTypes
import Mathlib.Logic.Relation

/-!
# Hierarchical priorities

The 16 bits of a priority are divided into levels, the first at the top.  A message that is derived
from another one sets the next level and fills the levels below, so that the levels above decide
the order of all messages that are derived from it.
-/

namespace VtRuntime.Scheduler

open BitVec Utils Relation Nat

/-- `PriorityType`. -/
@[reducible] def uint16 : IntType := ⟨16, false, .inr (.inl rfl)⟩

/-- `priority_level_bits`, one of the widths for which the priorities have names. -/
structure LevelBits where
  bits : ℕ
  named : bits = 1 ∨ bits = 2 ∨ bits = 3

/-- The level and the priority in the envelope of a message. -/
structure Envelope where
  level : ℕ
  priority : BitVec 16

namespace LevelBits

variable (B : LevelBits)

theorem bounds : 1 ≤ B.bits ∧ B.bits < 16 := by
  have := B.named
  omega

def numLevels : ℕ := 16 / B.bits

def allSet : BitVec 16 := BitVec.ofNat 16 (((1 <<< (B.bits + 1)) - 1) >>> 1)

def breadthFirst : BitVec 16 := if B.bits = 1 then 1 else if B.bits = 2 then 3 else 7

def offset (level : ℕ) : ℕ :=
  let lInv := B.numLevels - level - 1
  lInv * B.bits

def setPriority (field : BitVec 16) (level : ℕ) (priority : BitVec 16) : BitVec 16 :=
  (setFieldDynamic uint16 (B.offset level) B.bits field (priority.setWidth 64)).get
    (isSome_setFieldDynamic _ _ _ _ B.bounds.1 (B.bounds.2.trans (by decide)))

def getPriority (field : BitVec 16) (level : ℕ) : BitVec 16 :=
  getFieldDynamic uint16 uint16 (B.offset level) B.bits field

def msgSetPriorityImpl (newPriority oldPriority : BitVec 16) (level : ℕ) : Envelope :=
  let isBreadthFirst := newPriority == B.breadthFirst
  let filled := (List.range' (level + 1) (B.numLevels - (level + 1))).foldl
    (fun old l => B.setPriority old l (if isBreadthFirst then B.allSet else 0)) oldPriority
  ⟨level, B.setPriority filled level newPriority⟩

def msgSetPriorityFrom (oldMsg : Envelope) (priority : BitVec 16) (incrementLevel : Bool) :
    Envelope :=
  let level := oldMsg.level
  B.msgSetPriorityImpl priority oldMsg.priority
    (if incrementLevel ∧ level + 1 < B.numLevels then level + 1 else level)

/-- The second message is derived from the first, which is not at the last level. -/
def Derives (m m' : Envelope) : Prop := m.level + 1 < B.numLevels ∧
  ∃ p : BitVec 16, p.toNat < 2 ^ B.bits ∧ m' = B.msgSetPriorityFrom m p true

variable {B} {level level' : ℕ} {field p q : BitVec 16}

theorem offset_add (h : level < B.numLevels) :
    B.offset level + B.bits = (B.numLevels - level) * B.bits := by
  rw [offset, ← Nat.succ_mul]
  congr 1
  omega

theorem offset_add_le (h : level < level') (h' : level' < B.numLevels) :
    B.offset level' + B.bits ≤ B.offset level := by
  rw [offset_add h']
  exact Nat.mul_le_mul_right _ (by omega)

theorem offset_add_le_width (h : level < B.numLevels) : B.offset level + B.bits ≤ 16 := by
  rw [offset_add h]
  exact (Nat.mul_le_mul_right _ (Nat.sub_le _ _)).trans (div_mul_le_self 16 B.bits)

theorem setFieldDynamic_eq : setFieldDynamic uint16 (B.offset level) B.bits field (p.setWidth 64) =
    some (B.setPriority field level p) :=
  (Option.some_get _).symm

section

variable (hl : level < B.numLevels)
include hl

theorem extract_setPriority :
    (B.setPriority field level p).extractLsb' (B.offset level) B.bits = p.setWidth B.bits := by
  rw [extract_setFieldDynamic (offset_add_le_width hl) setFieldDynamic_eq]
  have := B.bounds
  exact setWidth_setWidth_of_le _ (by omega)

variable (hp : p.toNat < 2 ^ B.bits)
include hp

theorem setPriority_outside {i : ℕ} (h : i < B.offset level ∨ B.offset level + B.bits ≤ i) :
    (B.setPriority field level p).getLsbD i = field.getLsbD i := by
  by_cases hi : i < 16
  · refine (unchanged_iff (offset_add_le_width hl) setFieldDynamic_eq).mpr ?_ i hi h
    intro _ i _ hge hbit
    have hlt := hp.trans_le (Nat.pow_le_pow_right two_pos (Nat.le_sub_of_add_le' hge))
    rw [getLsbD_setWidth, ← testBit_toNat, testBit_lt_two_pow hlt, Bool.and_false] at hbit
    cases hbit
  · rw [getLsbD_of_ge _ _ (by omega), getLsbD_of_ge _ _ (by omega)]

theorem getPriority_setPriority (hl' : level' < B.numLevels) :
    B.getPriority (B.setPriority field level p) level' =
      if level' = level then p else B.getPriority field level' := by
  have hread := fun f => getFieldDynamic_of_lt (T := uint16) (R := uint16) (f := f)
    (offset_add_le_width hl') B.bounds.2
  rw [getPriority, getPriority, hread, hread]
  split
  case isTrue heq =>
    subst heq
    rw [extract_setPriority hl]
    refine eq_of_toNat_eq ?_
    rw [toNat_setWidth, toNat_setWidth, mod_eq_of_lt hp, mod_eq_of_lt p.isLt]
  case isFalse hne =>
    congr 1
    refine eq_of_getLsbD_eq fun i hi => ?_
    rw [getLsbD_extractLsb', getLsbD_extractLsb', setPriority_outside hl hp]
    rcases lt_or_gt_of_ne hne with h | h
    · have := offset_add_le h hl
      omega
    · have := offset_add_le h hl'
      omega

theorem setPriority_shift {k : ℕ} (hk : B.offset level + B.bits ≤ k) :
    B.setPriority field level p >>> k = field >>> k := by
  refine eq_of_getLsbD_eq fun i _ => ?_
  rw [getLsbD_ushiftRight, getLsbD_ushiftRight, setPriority_outside hl hp (.inr (by omega))]

end

variable {m c : Envelope}

/-- A derived message is at the next level, which is set, and keeps the levels above. -/
theorem msgSetPriorityFrom_spec (hm : m.level + 1 < B.numLevels) (hp : p.toNat < 2 ^ B.bits) :
    (B.msgSetPriorityFrom m p true).level = m.level + 1 ∧
      (B.msgSetPriorityFrom m p true).priority.extractLsb' (B.offset (m.level + 1)) B.bits =
        p.setWidth B.bits ∧
      ∀ k, B.offset m.level ≤ k → (B.msgSetPriorityFrom m p true).priority >>> k =
        m.priority >>> k := by
  rw [msgSetPriorityFrom, if_pos ⟨rfl, hm⟩]
  refine ⟨rfl, extract_setPriority hm, fun k hk => ?_⟩
  have hle := (offset_add_le (lt_succ_self _) hm).trans hk
  refine (setPriority_shift hm hp hle).trans ?_
  refine List.foldlRecOn (motive := fun f : BitVec 16 => f >>> k = m.priority >>> k) _ _ rfl ?_
  intro f hf l hl
  rw [List.mem_range'_1] at hl
  refine (setPriority_shift (by omega) ?_ ((offset_add_le (by omega) (by omega)).trans hk)).trans hf
  obtain ⟨b, rfl | rfl | rfl⟩ := B <;> split <;> decide

theorem derived_shift (h : ReflTransGen B.Derives c m) : c.level ≤ m.level ∧
    m.priority >>> B.offset c.level = c.priority >>> B.offset c.level := by
  induction h with
  | refl => exact ⟨le_rfl, rfl⟩
  | tail _ hd ih =>
    obtain ⟨hlt, p, hp, rfl⟩ := hd
    obtain ⟨hlevel, -, hkeep⟩ := msgSetPriorityFrom_spec hlt hp
    refine ⟨by omega, (hkeep _ ?_).trans ih.2⟩
    exact Nat.mul_le_mul_right _ (by omega)

/-- The bits above decide, and then the lower ones. -/
theorem toNat_lt_of_setWidth_lt {x y : BitVec 16} {b : ℕ} (h : x >>> b = y >>> b)
    (hlt : (x.setWidth b).toNat < (y.setWidth b).toNat) : x.toNat < y.toNat := by
  have hhigh := congrArg BitVec.toNat h
  rw [toNat_ushiftRight, toNat_ushiftRight, shiftRight_eq_div_pow, shiftRight_eq_div_pow] at hhigh
  rw [toNat_setWidth, toNat_setWidth] at hlt
  rw [← div_add_mod' x.toNat (2 ^ b), ← div_add_mod' y.toNat (2 ^ b), hhigh]
  exact Nat.add_lt_add_left hlt _

/-- Only the level that is set is changed, as it is read; and the messages derived from one child
are before those derived from another of a lower priority. -/
theorem priorities_lexicographic (B : LevelBits) :
    (∀ field level level' p, level < B.numLevels → level' < B.numLevels → p.toNat < 2 ^ B.bits →
      B.getPriority (B.setPriority field level p) level' =
        if level' = level then p else B.getPriority field level') ∧
    ∀ (parent x y : Envelope) (p q : BitVec 16), parent.level + 1 < B.numLevels →
      p.toNat < 2 ^ B.bits → q < p → ReflTransGen B.Derives (B.msgSetPriorityFrom parent p true) x →
      ReflTransGen B.Derives (B.msgSetPriorityFrom parent q true) y → y.priority < x.priority := by
  refine ⟨fun _ _ _ _ hl hl' hp => getPriority_setPriority hl hp hl', ?_⟩
  intro parent x y p q hlevel hp hq hx hy
  have hq' : q.toNat < 2 ^ B.bits := Nat.lt_trans hq hp
  obtain ⟨hpl, hpe, hpk⟩ := msgSetPriorityFrom_spec hlevel hp
  obtain ⟨hql, hqe, hqk⟩ := msgSetPriorityFrom_spec hlevel hq'
  have hx := (derived_shift hx).2
  have hy := (derived_shift hy).2
  rw [hpl] at hx
  rw [hql] at hy
  have hup := (offset_add hlevel).ge
  have hlt : (y.priority >>> B.offset (parent.level + 1)).toNat <
      (x.priority >>> B.offset (parent.level + 1)).toNat := by
    rw [hx, hy]
    refine toNat_lt_of_setWidth_lt (b := B.bits) ?_ ?_
    · rw [← BitVec.shiftRight_add, ← BitVec.shiftRight_add, hpk _ hup, hqk _ hup]
    · rw [setWidth_ushiftRight_eq_extractLsb, setWidth_ushiftRight_eq_extractLsb, hpe, hqe,
        toNat_setWidth, toNat_setWidth, mod_eq_of_lt hp, mod_eq_of_lt hq']
      exact hq
  rw [toNat_ushiftRight, toNat_ushiftRight, shiftRight_eq_div_pow, shiftRight_eq_div_pow] at hlt
  exact lt_of_div_lt_div hlt

/-- Two children of a message at the first of eight levels, and a message derived from each. -/
theorem priorities_lexicographic_two :
    let B : LevelBits := ⟨2, .inr (.inl rfl)⟩
    (B.msgSetPriorityFrom (B.msgSetPriorityFrom ⟨0, 0⟩ 2 true) 3 true).priority <
      (B.msgSetPriorityFrom (B.msgSetPriorityFrom ⟨0, 0⟩ 3 true) 0 true).priority :=
  (priorities_lexicographic _).2 ⟨0, 0⟩ _ _ 3 2 (by decide) (by decide) (by decide)
    (.single ⟨by decide, 0, by decide, rfl⟩) (.single ⟨by decide, 3, by decide, rfl⟩)

end LevelBits
end VtRuntime.Scheduler
