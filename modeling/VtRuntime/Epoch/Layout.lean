import VtRuntime.Utils.BitPacker

/-!
# The bits of an epoch identifier

`epoch/epoch.h` and the static half of `epoch/epoch_manip.cc`.  An epoch is a 64-bit
word.  Bit 63 says whether it is rooted, bits 61 and 62 hold the category, and the
rest is a sequence number, except that a rooted epoch keeps the 16 bits of its root
node between category and sequence number.
-/

namespace VtRuntime.Epoch

open Utils BitPacker BitVec

/-- The underlying word of the strong epoch type. -/
abbrev EpochType := BitVec 64

/-- Membership in a list of epochs is decided by their equality. -/
instance : LawfulBEq EpochType := instLawfulBEq

/-- A node number, a 16-bit signed integer in the source; only its bits matter here. -/
abbrev NodeType := BitVec 16

/-- The sentinel value of an empty epoch. -/
def noEpoch : EpochType := allOnes 64

/-- The epoch that covers all messages: `-1000` as an unsigned word. -/
def anyEpochSentinel : EpochType := BitVec.ofInt 64 (-1000)

def uninitializedDestination : NodeType := 0xFFFF#16

/-- The categories of epochs. -/
inductive EpochCategory
  | noCategoryEpoch
  | insertEpoch
  | dijkstraScholtenEpoch
  deriving DecidableEq, Repr

/-- The enumerator value. -/
def EpochCategory.value : EpochCategory → BitVec 64
  | .noCategoryEpoch => 0x0
  | .insertEpoch => 0x1
  | .dijkstraScholtenEpoch => 0x2

/-- The category of an enumerator value; the remaining two-bit value names none. -/
def EpochCategory.ofValue (v : BitVec 64) : Option EpochCategory :=
  if v = 0x0 then some .noCategoryEpoch
  else if v = 0x1 then some .insertEpoch
  else if v = 0x2 then some .dijkstraScholtenEpoch
  else none

def epochRootNumBits : ℕ := 1
def epochCategoryNumBits : ℕ := 2
def nodeNumBits : ℕ := 16
def epochSeqCollNumBits : ℕ := 64 - (epochRootNumBits + epochCategoryNumBits)
def epochSeqRootNumBits : ℕ := 64 - (epochRootNumBits + epochCategoryNumBits + nodeNumBits)

/-! The layout `eEpochRoot`; `eEpochColl` puts category and root flag at the same bits. -/

def rEpochSequential : ℕ := 0
def rEpochNode : ℕ := rEpochSequential + epochSeqRootNumBits
def rEpochCategory : ℕ := rEpochNode + nodeNumBits
def rEpochIsRooted : ℕ := rEpochCategory + epochCategoryNumBits
def cEpochSequential : ℕ := 0

variable (epoch : EpochType)

def isRooted : Bool := boolGetField rEpochIsRooted epoch

def category : Option EpochCategory :=
  EpochCategory.ofValue (getField rEpochCategory epochCategoryNumBits epoch)

def node : NodeType :=
  (getField rEpochNode nodeNumBits epoch).setWidth 16

def setIsRooted (rooted : Bool) : EpochType :=
  boolSetField rEpochIsRooted epoch rooted

def setCategory (cat : EpochCategory) : EpochType :=
  setField rEpochCategory epochCategoryNumBits epoch cat.value

/-- The node is sign-extended to the field's type before it is masked. -/
def setNode (n : NodeType) : EpochType :=
  setField rEpochNode nodeNumBits epoch (n.signExtend 64)

def setSeq (s : BitVec 64) : EpochType :=
  if isRooted epoch then setField rEpochSequential epochSeqRootNumBits epoch s
  else setField cEpochSequential epochSeqCollNumBits epoch s

/-- The archetype of an epoch kind: control bits and sequence number zero. -/
def generateEpoch (rooted : Bool) (rootNode : NodeType) (cat : EpochCategory) : EpochType :=
  let newEpoch := setIsRooted 0 rooted
  let newEpoch := if cat ≠ .noCategoryEpoch then setCategory newEpoch cat else newEpoch
  let newEpoch := if rooted then setNode newEpoch rootNode else newEpoch
  setSeq newEpoch 0

/-- The archetype of an epoch: its control bits. -/
def getArchetype : EpochType := setSeq epoch 0

/-! ## The fields as arithmetic on the word -/

/-- The number of sequence bits of an epoch. -/
def seqNumBits : ℕ :=
  if isRooted epoch then epochSeqRootNumBits else epochSeqCollNumBits

section

variable (epoch : EpochType)

theorem isRooted_eq : isRooted epoch = decide (2 ^ 63 ≤ epoch.toNat) := by
  have h : isRooted epoch = epoch.getLsbD 63 := boolGetField_eq (by decide) epoch
  rw [h, ← msb_eq_getLsbD_last, msb_eq_decide]

theorem seqNumBits_cases :
    (2 ^ 63 ≤ epoch.toNat ∧ seqNumBits epoch = 45) ∨
      (epoch.toNat < 2 ^ 63 ∧ seqNumBits epoch = 61) := by
  by_cases h : 2 ^ 63 ≤ epoch.toNat
  · exact .inl ⟨h, by rw [seqNumBits, isRooted_eq, decide_eq_true h]; rfl⟩
  · exact .inr ⟨by omega, by rw [seqNumBits, isRooted_eq, decide_eq_false h]; rfl⟩

theorem toNat_setSeq (s : BitVec 64) :
    (setSeq epoch s).toNat =
      2 ^ seqNumBits epoch * (epoch.toNat / 2 ^ seqNumBits epoch) +
        s.toNat % 2 ^ seqNumBits epoch := by
  unfold setSeq seqNumBits
  split
  · have h := toNat_setField rEpochSequential epochSeqRootNumBits (by decide)
      (by decide) epoch s
    rw [h, rEpochSequential, Nat.zero_add, pow_zero, Nat.mod_one, one_mul, Nat.add_zero]
  · have h := toNat_setField cEpochSequential epochSeqCollNumBits (by decide)
      (by decide) epoch s
    rw [h, cEpochSequential, Nat.zero_add, pow_zero, Nat.mod_one, one_mul, Nat.add_zero]

/-- Only the sequence bits change, so the kind of the epoch stays. -/
@[simp] theorem seqNumBits_setSeq (s : BitVec 64) :
    seqNumBits (setSeq epoch s) = seqNumBits epoch := by
  have h := toNat_setSeq epoch s
  rcases seqNumBits_cases epoch with ⟨he, hb⟩ | ⟨he, hb⟩ <;>
    rcases seqNumBits_cases (setSeq epoch s) with ⟨he', hb'⟩ | ⟨he', hb'⟩ <;>
    rw [hb] at h ⊢ <;> rw [hb'] <;> exfalso <;> omega

/-- The category number of an epoch, as a quotient of the word. -/
theorem category_eq :
    category epoch = EpochCategory.ofValue (BitVec.ofNat 64 (epoch.toNat / 2 ^ 61 % 4)) := by
  have h : (getField 61 2 epoch).toNat = epoch.toNat / 2 ^ 61 % 2 ^ 2 :=
    toNat_getField 61 (by decide) epoch
  unfold category
  congr 1
  apply eq_of_toNat_eq
  rw [toNat_ofNat]
  change (getField 61 2 epoch).toNat = _
  rw [h]
  omega

theorem toNat_node : (node epoch).toNat = epoch.toNat / 2 ^ 45 % 2 ^ 16 := by
  have h : (getField 45 16 epoch).toNat = epoch.toNat / 2 ^ 45 % 2 ^ 16 :=
    toNat_getField 45 (by decide) epoch
  rw [node, toNat_setWidth]
  change (getField 45 16 epoch).toNat % 2 ^ 16 = _
  rw [h]
  omega

end

/-! ## Archetypes -/

theorem toNat_setIsRooted_zero (rooted : Bool) :
    (setIsRooted 0 rooted).toNat = if rooted then 2 ^ 63 else 0 := by
  cases rooted <;> rfl

theorem toNat_setCategory (epoch : EpochType) (cat : EpochCategory) :
    (setCategory epoch cat).toNat =
      2 ^ 63 * (epoch.toNat / 2 ^ 63) + (2 ^ 61 * cat.value.toNat + epoch.toNat % 2 ^ 61) := by
  have h : (setCategory epoch cat).toNat = 2 ^ 63 * (epoch.toNat / 2 ^ 63) +
      (2 ^ 61 * (cat.value.toNat % 2 ^ 2) + epoch.toNat % 2 ^ 61) :=
    toNat_setField 61 2 (by decide) (by decide) epoch cat.value
  have hv : cat.value.toNat % 2 ^ 2 = cat.value.toNat := by cases cat <;> rfl
  rw [h, hv]

theorem toNat_setNode (epoch : EpochType) (n : NodeType) :
    (setNode epoch n).toNat =
      2 ^ 61 * (epoch.toNat / 2 ^ 61) + (2 ^ 45 * n.toNat + epoch.toNat % 2 ^ 45) := by
  have h : (setNode epoch n).toNat = 2 ^ 61 * (epoch.toNat / 2 ^ 61) +
      (2 ^ 45 * ((n.signExtend 64).toNat % 2 ^ 16) + epoch.toNat % 2 ^ 45) :=
    toNat_setField 45 16 (by decide) (by decide) epoch (n.signExtend 64)
  have hv : (n.signExtend 64).toNat % 2 ^ 16 = n.toNat := by
    rw [toNat_signExtend, toNat_setWidth]
    split <;> omega
  rw [h, hv]

theorem EpochCategory.value_lt (cat : EpochCategory) : cat.value.toNat < 3 := by
  cases cat <;> decide

/-- The archetype as a number: the control fields at their places. -/
theorem toNat_generateEpoch (rooted : Bool) (n : NodeType) (cat : EpochCategory) :
    (generateEpoch rooted n cat).toNat =
      2 ^ 61 * cat.value.toNat + if rooted then 2 ^ 63 + 2 ^ 45 * n.toNat else 0 := by
  have h0 := toNat_setIsRooted_zero rooted
  have hc := cat.value_lt
  have hcat : (if cat ≠ .noCategoryEpoch then setCategory (setIsRooted 0 rooted) cat
      else setIsRooted 0 rooted).toNat =
      (if rooted then 2 ^ 63 else 0) + 2 ^ 61 * cat.value.toNat := by
    split
    · rw [toNat_setCategory, h0]
      cases rooted <;> simp
    · rename_i hne
      rw [not_not.mp hne, h0]
      rfl
  change (setSeq (if rooted then setNode (if cat ≠ .noCategoryEpoch then
    setCategory (setIsRooted 0 rooted) cat else setIsRooted 0 rooted) n else if cat ≠
      .noCategoryEpoch
    then setCategory (setIsRooted 0 rooted) cat else setIsRooted 0 rooted) 0).toNat = _
  generalize (if cat ≠ .noCategoryEpoch then setCategory (setIsRooted 0 rooted) cat
    else setIsRooted 0 rooted) = e at hcat ⊢
  cases rooted with
  | false =>
    simp only [Bool.false_eq_true, if_false, Nat.zero_add] at hcat ⊢
    rw [toNat_setSeq]
    rcases seqNumBits_cases e with ⟨he, hb⟩ | ⟨he, hb⟩
    · omega
    · rw [hb, hcat]
      simp
  | true =>
    simp only [if_true] at hcat ⊢
    have hnode := toNat_setNode e n
    rw [toNat_setSeq]
    rcases seqNumBits_cases (setNode e n) with ⟨he, hb⟩ | ⟨he, hb⟩
    · rw [hb, show BitVec.toNat (0 : BitVec 64) = 0 from rfl]
      omega
    · omega

/-- An epoch that differs from an archetype only in its sequence number decodes to
the kind the archetype was generated for. -/
theorem decode_of_archetype {rooted : Bool} {n : NodeType} {cat : EpochCategory}
    {e : EpochType} {s : ℕ} (he : e.toNat = (generateEpoch rooted n cat).toNat + s)
    (hs : s < 2 ^ (if rooted then 45 else 61)) :
    isRooted e = rooted ∧ category e = some cat ∧ (rooted = true → node e = n) := by
  have hc := cat.value_lt
  rw [toNat_generateEpoch] at he
  have hcat : e.toNat / 2 ^ 61 % 4 = cat.value.toNat := by
    cases rooted <;> simp only [if_true, Bool.false_eq_true, if_false] at he hs <;> omega
  refine ⟨?_, ?_, ?_⟩
  · rw [isRooted_eq]
    cases rooted <;>
      simp only [if_true, Bool.false_eq_true, if_false, decide_eq_false_iff_not,
        decide_eq_true_eq] at he hs ⊢ <;> omega
  · rw [category_eq, hcat]
    cases cat <;> rfl
  · rintro rfl
    simp only [if_true] at he hs
    apply BitVec.eq_of_toNat_eq
    rw [toNat_node]
    omega

end VtRuntime.Epoch
