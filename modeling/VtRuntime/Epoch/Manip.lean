import VtRuntime.Epoch.Window

/-!
# Allocation of epoch identifiers

The stateful half of `epoch/epoch_manip.cc`.  There is one window for all collective
epochs and one window for each archetype of rooted epochs, created when it is first
asked for.
-/

namespace VtRuntime.Epoch

open EpochWindow Option Bool BitVec

/-- Whether the window of an epoch is found by its archetype. -/
def hasOwnWindow (epoch : EpochType) : Bool := isRooted epoch && epoch != anyEpochSentinel

/-- Under which archetype the window of an epoch is kept; `none` for the window of the
collective epochs. -/
def windowKey (epoch : EpochType) : Option EpochType :=
  if hasOwnWindow epoch then some (getArchetype epoch) else none

/-- The epoch windows of a node.  A rooted archetype without an entry stands for a
window that has not been created yet. -/
structure EpochManip where
  terminatedEpochs : EpochType → Option EpochWindow
  terminatedCollectiveEpochs : EpochWindow
  keyed : ∀ a w, terminatedEpochs a = some w → w.archetypeEpoch = a
  collective : terminatedCollectiveEpochs.archetypeEpoch = 0

namespace EpochManip

/-- The windows after construction. -/
def make : EpochManip where
  terminatedEpochs := fun _ => none
  terminatedCollectiveEpochs := .make 0
  keyed := by simp
  collective := by decide

/-- The window in charge of an epoch; a rooted archetype gets a new one on first use. -/
def getTerminatedWindow (m : EpochManip) (epoch : EpochType) : EpochWindow :=
  if hasOwnWindow epoch then
    (m.terminatedEpochs (getArchetype epoch)).getD (.make (getArchetype epoch))
  else m.terminatedCollectiveEpochs

theorem getArchetype_idem (e : EpochType) : setSeq (getArchetype e) 0 = getArchetype e := by
  apply eq_of_toNat_eq
  rw [toNat_setSeq, getArchetype, seqNumBits_setSeq, toNat_setSeq]
  rcases seqNumBits_cases e with ⟨-, hb⟩ | ⟨-, hb⟩ <;> rw [hb] <;>
    simp only [ofNat_eq_ofNat, toNat_ofNat] <;> omega

/-- Each window is the one for the archetype it is kept under. -/
theorem archetypeEpoch_getTerminatedWindow (m : EpochManip) (e : EpochType) :
    (m.getTerminatedWindow e).archetypeEpoch = (windowKey e).getD 0 := by
  unfold getTerminatedWindow windowKey
  split
  · cases hw : m.terminatedEpochs (getArchetype e) with
    | none => exact getArchetype_idem e
    | some w => exact m.keyed _ _ hw
  · exact m.collective

variable {e x : EpochType} {m : EpochManip}

theorem getTerminatedWindow_congr (m : EpochManip) {e' : EpochType}
    (h : windowKey e = windowKey e') : m.getTerminatedWindow e = m.getTerminatedWindow e' := by
  unfold windowKey at h
  unfold getTerminatedWindow
  split at h <;> split at h <;> simp_all

/-- Store a new state of the window in charge of an epoch. -/
def setWindow (m : EpochManip) (epoch : EpochType) (w : EpochWindow)
    (h : w.archetypeEpoch = (windowKey epoch).getD 0) : EpochManip :=
  if ho : hasOwnWindow epoch then
    { m with
      terminatedEpochs := Function.update m.terminatedEpochs (getArchetype epoch) (some w)
      keyed := by
        intro a w' hw
        by_cases ha : a = getArchetype epoch
        · subst ha
          rw [Function.update_self, Option.some.injEq] at hw
          rw [← hw, h, windowKey, if_pos ho, getD_some]
        · rw [Function.update_of_ne ha] at hw
          exact m.keyed a w' hw }
  else
    { m with
      terminatedCollectiveEpochs := w
      collective := by rw [h, windowKey, if_neg ho, getD_none] }

/-- Storing a window changes what is found under its key and nothing else. -/
theorem getTerminatedWindow_setWindow (m : EpochManip) (e e' : EpochType) (w : EpochWindow)
    (h : w.archetypeEpoch = (windowKey e).getD 0) :
    (m.setWindow e w h).getTerminatedWindow e' =
      if windowKey e' = windowKey e then w else m.getTerminatedWindow e' := by
  unfold setWindow getTerminatedWindow windowKey
  by_cases he : hasOwnWindow e = true <;> by_cases he' : hasOwnWindow e' = true <;>
    simp only [he, he', dite_true, if_true, dite_false, false_eq_true, if_false,
      Option.some.injEq, reduceCtorEq]
  by_cases ha : getArchetype e' = getArchetype e
  · rw [ha, Function.update_self, if_pos rfl, getD_some]
  · rw [Function.update_of_ne ha, if_neg ha]

/-! ## Marks -/

def isTerminated (m : EpochManip) (epoch : EpochType) : Bool :=
  (m.getTerminatedWindow epoch).isTerminated epoch

def setEpochTerminated (m : EpochManip) (epoch : EpochType) : EpochManip :=
  m.setWindow epoch ((m.getTerminatedWindow epoch).setEpochTerminated epoch)
    (by rw [archetypeEpoch_setEpochTerminated, archetypeEpoch_getTerminatedWindow])

def activateEpoch (m : EpochManip) (epoch : EpochType) : EpochManip :=
  m.setWindow epoch ((m.getTerminatedWindow epoch).activateEpoch epoch)
    (by rw [archetypeEpoch_activateEpoch, archetypeEpoch_getTerminatedWindow])

@[simp] theorem isTerminated_setEpochTerminated (m : EpochManip) (e e' : EpochType) :
    (m.setEpochTerminated e).isTerminated e' = (e' == e || m.isTerminated e') := by
  unfold isTerminated setEpochTerminated
  rw [getTerminatedWindow_setWindow]
  split
  · rename_i hk
    rw [EpochWindow.isTerminated_setEpochTerminated]
    have : m.getTerminatedWindow e = m.getTerminatedWindow e' := getTerminatedWindow_congr m hk.symm
    rw [this]
  · rename_i hk
    have : (e' == e) = false := beq_eq_false_iff_ne.mpr fun h => hk (congrArg windowKey h)
    rw [this, Bool.false_or]

@[simp] theorem isTerminated_activateEpoch (m : EpochManip) (e e' : EpochType) :
    (m.activateEpoch e).isTerminated e' = (m.isTerminated e' && e' != e) := by
  unfold isTerminated activateEpoch
  rw [getTerminatedWindow_setWindow]
  split
  · rename_i hk
    rw [EpochWindow.isTerminated_activateEpoch, getTerminatedWindow_congr m hk.symm]
  · rename_i hk
    have : (e' != e) = true := bne_iff_ne.mpr fun h => hk (congrArg windowKey h)
    rw [this, Bool.and_true]

/-! ## Allocation -/

/-- Allocate from the window in charge of `archEpoch`. -/
def allocateFrom (fuel : ℕ) (m : EpochManip) (archEpoch : EpochType) :
    Option (Except String (EpochType × EpochManip)) :=
  match h : (m.getTerminatedWindow archEpoch).allocateNewEpoch fuel with
  | none => none
  | some (.error msg) => some (.error msg)
  | some (.ok (e, w)) => some (.ok (e, m.setWindow archEpoch w (by
      rw [(allocateNewEpoch_spec h).2.2.1, archetypeEpoch_getTerminatedWindow])))

def getNextCollectiveEpoch (fuel : ℕ) (m : EpochManip) (cat : EpochCategory) :
    Option (Except String (EpochType × EpochManip)) :=
  m.allocateFrom fuel (generateEpoch false uninitializedDestination cat)

/-- The overload that takes the root node. -/
def getNextRootedEpochAt (fuel : ℕ) (m : EpochManip) (cat : EpochCategory)
    (rootNode : NodeType) : Option (Except String (EpochType × EpochManip)) :=
  m.allocateFrom fuel (generateEpoch true rootNode cat)

/-- The overload for the calling node: its archetype is an epoch that the other
overload has allocated. -/
def getNextRootedEpoch (fuel : ℕ) (m : EpochManip) (cat : EpochCategory)
    (thisNode : NodeType) : Option (Except String (EpochType × EpochManip)) :=
  match m.getNextRootedEpochAt fuel cat thisNode with
  | none => none
  | some (.error msg) => some (.error msg)
  | some (.ok (archEpoch, m')) => m'.allocateFrom fuel archEpoch

variable {m' : EpochManip} {fuel : ℕ} {cat : EpochCategory} {n : NodeType}

theorem allocateFrom_ok (h : m.allocateFrom fuel x = some (.ok (e, m'))) :
    ∃ w hk, (m.getTerminatedWindow x).allocateNewEpoch fuel = some (.ok (e, w)) ∧
      m' = m.setWindow x w hk := by
  unfold allocateFrom at h
  split at h
  · simp at h
  · simp at h
  · rename_i e₁ w hw
    simp only [Option.some.injEq, Except.ok.injEq, Prod.mk.injEq] at h
    obtain ⟨rfl, rfl⟩ := h
    exact ⟨w, _, hw, rfl⟩

theorem seqNumBits_of_rooted (h : 2 ^ 63 ≤ e.toNat) : seqNumBits e = 45 := by
  rcases seqNumBits_cases e with ⟨-, hb⟩ | ⟨hlt, -⟩
  · exact hb
  · omega

theorem hasOwnWindow_of_rooted (h : 2 ^ 63 ≤ e.toNat) (hne : e ≠ anyEpochSentinel) :
    hasOwnWindow e = true := by
  rw [hasOwnWindow, isRooted_eq, decide_eq_true h, Bool.true_and, bne_iff_ne]
  exact hne

theorem windowKey_of_not_rooted (h : ¬ 2 ^ 63 ≤ e.toNat) : windowKey e = none := by
  rw [windowKey, hasOwnWindow, isRooted_eq, decide_eq_false h]
  rfl

/-- The epochs an archetype's window allocates are kept in that window.  The sentinel
`anyEpochSentinel` is no exception, as its category bits name no category. -/
theorem windowKey_of_range (hx : category x ≠ none)
    (hlo : (minEpoch ((windowKey x).getD 0)).toNat ≤ e.toNat)
    (hhi : e.toNat ≤ (maxEpoch ((windowKey x).getD 0)).toNat) : windowKey e = windowKey x := by
  rw [toNat_minEpoch] at hlo
  rw [toNat_maxEpoch] at hhi
  by_cases ho : hasOwnWindow x = true
  · have hk : windowKey x = some (getArchetype x) := if_pos ho
    rw [hk, getD_some, getArchetype, seqNumBits_setSeq, toNat_setSeq] at hlo hhi
    have hr : 2 ^ 63 ≤ x.toNat := by
      have := (and_eq_true_iff.mp ho).1
      rwa [isRooted_eq, decide_eq_true_eq] at this
    have hb := seqNumBits_of_rooted hr
    rw [hb, show BitVec.toNat (0 : BitVec 64) = 0 from rfl] at hlo hhi
    have hq : e.toNat / 2 ^ 45 = x.toNat / 2 ^ 45 := by omega
    have he : 2 ^ 63 ≤ e.toNat := by omega
    have hcat : e.toNat / 2 ^ 61 % 4 ≠ 3 := by
      intro h3
      apply hx
      rw [category_eq, show x.toNat / 2 ^ 61 % 4 = 3 by omega]
      rfl
    have hne : e ≠ anyEpochSentinel := by
      rintro rfl
      exact hcat (by decide)
    have harch : getArchetype e = getArchetype x := by
      apply eq_of_toNat_eq
      rw [getArchetype, getArchetype, toNat_setSeq, toNat_setSeq, hb, seqNumBits_of_rooted he, hq]
    rw [hk, windowKey, if_pos (hasOwnWindow_of_rooted he hne), harch]
  · have hk : windowKey x = none := if_neg ho
    rw [hk, getD_none, show seqNumBits 0 = 61 from rfl] at hhi
    have he : ¬ 2 ^ 63 ≤ e.toNat := by
      rw [show BitVec.toNat (0 : EpochType) = 0 from rfl] at hhi
      omega
    rw [hk, windowKey_of_not_rooted he]

/-- The range of the window in charge of an epoch. -/
def InRange (x e : EpochType) : Prop :=
  (minEpoch ((windowKey x).getD 0)).toNat ≤ e.toNat ∧
    e.toNat ≤ (maxEpoch ((windowKey x).getD 0)).toNat

instance (x e : EpochType) : Decidable (InRange x e) := inferInstanceAs (Decidable (_ ∧ _))

/-- The epoch the window in charge of `x` proposes. -/
def next (m : EpochManip) (x : EpochType) : EpochType := (m.getTerminatedWindow x).next

theorem next_inRange (m : EpochManip) (x : EpochType) : InRange x (m.next x) := by
  have h := next_mem_range (m.getTerminatedWindow x)
  rwa [archetypeEpoch_getTerminatedWindow] at h

theorem windowKey_next (m : EpochManip) (hx : category x ≠ none) :
    windowKey (m.next x) = windowKey x :=
  windowKey_of_range hx (m.next_inRange x).1 (m.next_inRange x).2

theorem isTerminated_next (m : EpochManip) (hx : category x ≠ none) :
    m.isTerminated (m.next x) = (m.getTerminatedWindow x).isTerminated (m.next x) := by
  rw [isTerminated, getTerminatedWindow_congr m (m.windowKey_next hx)]

theorem inRange_of_next (m : EpochManip) (hx : category x ≠ none) :
    InRange (m.next x) (m.next x) := by
  rw [InRange, m.windowKey_next hx]
  exact m.next_inRange x

/-- What an allocation returns, if it returns an epoch: the proposed one, which was
terminated and is the only one whose mark changes. -/
theorem allocateFrom_spec (hx : category x ≠ none)
    (h : m.allocateFrom fuel x = some (.ok (e, m'))) :
    e = m.next x ∧ m.isTerminated e = true ∧
      ∀ e', m'.isTerminated e' = (m.isTerminated e' && e' != e) := by
  obtain ⟨w, -, hw, rfl⟩ := allocateFrom_ok h
  obtain ⟨he, ht, -, hm⟩ := allocateNewEpoch_spec hw
  have hn : e = m.next x := he
  refine ⟨hn, ?_, ?_⟩
  · rw [hn, isTerminated_next m hx]
    exact ht
  · intro e'
    rw [isTerminated, getTerminatedWindow_setWindow]
    split
    · rename_i hk
      rw [hm, isTerminated, getTerminatedWindow_congr m hk, he]
    · rename_i hk
      have : (e' != e) = true := by
        rw [bne_iff_ne]
        rintro rfl
        exact hk (hn ▸ m.windowKey_next hx)
      rw [this, Bool.and_true]
      rfl

/-- One iteration returns when the proposed epoch is terminated. -/
theorem allocateFrom_of_terminated (h : (m.getTerminatedWindow x).isTerminated (m.next x) = true)
    (fuel : ℕ) : ∃ m', m.allocateFrom (fuel + 1) x = some (.ok (m.next x, m')) := by
  obtain ⟨w', hw⟩ := allocateNewEpoch_of_terminated h fuel
  unfold allocateFrom
  split
  · rename_i hn; rw [hw] at hn; simp at hn
  · rename_i hn; rw [hw] at hn; simp at hn
  · rename_i e w hn
    rw [hw] at hn
    simp only [Option.some.injEq, Except.ok.injEq, Prod.mk.injEq] at hn
    have he : e = m.next x := hn.1.symm
    exact ⟨_, congrArg some (congrArg Except.ok (congrArg₂ Prod.mk he rfl))⟩

/-! ## The calls -/

/-- The three ways to ask for an epoch. -/
inductive Call
  | rooted (cat : EpochCategory) (thisNode : NodeType)
  | rootedAt (cat : EpochCategory) (rootNode : NodeType)
  | collective (cat : EpochCategory)

namespace Call

def exec (fuel : ℕ) (m : EpochManip) : Call → Option (Except String (EpochType × EpochManip))
  | rooted cat thisNode => m.getNextRootedEpoch fuel cat thisNode
  | rootedAt cat rootNode => m.getNextRootedEpochAt fuel cat rootNode
  | collective cat => m.getNextCollectiveEpoch fuel cat

/-- The epoch has the kind, category and node that were asked for. -/
def Matches (e : EpochType) : Call → Prop
  | rooted cat n => isRooted e = true ∧ category e = some cat ∧ node e = n
  | rootedAt cat n => isRooted e = true ∧ category e = some cat ∧ node e = n
  | collective cat => isRooted e = false ∧ category e = some cat

/-- The call returns a matching epoch that was terminated before, and makes that epoch
and no other live. -/
def Delivers (m : EpochManip) (call : Call) : Prop :=
  ∃ fuel e m', call.exec fuel m = some (.ok (e, m')) ∧ call.Matches e ∧
    m.isTerminated e = true ∧ m'.isTerminated e = false ∧
    ∀ e', e' ≠ e → m'.isTerminated e' = m.isTerminated e'

/-- The calls that do so: the overload with an explicit node, and the collective call
for the default category, while the epoch proposed by the window is terminated. -/
def Sound (m : EpochManip) : Call → Prop
  | rooted _ _ => False
  | rootedAt cat n => m.isTerminated (m.next (generateEpoch true n cat)) = true
  | collective cat => cat = .noCategoryEpoch ∧
      m.isTerminated (m.next (generateEpoch false uninitializedDestination cat)) = true

end Call

theorem category_generateEpoch (rooted : Bool) (n : NodeType) (cat : EpochCategory) :
    category (generateEpoch rooted n cat) ≠ none := by
  have h := (decode_of_archetype (e := generateEpoch rooted n cat) (s := 0) rfl
    (by split <;> norm_num)).2.1
  simp [h]

/-- The rooted archetypes keep a window of their own. -/
theorem windowKey_generateEpoch_rooted (n : NodeType) (cat : EpochCategory) :
    windowKey (generateEpoch true n cat) = some (generateEpoch true n cat) := by
  have hv := toNat_generateEpoch true n cat
  simp only [if_true] at hv
  have hr : 2 ^ 63 ≤ (generateEpoch true n cat).toNat := by omega
  have hne : generateEpoch true n cat ≠ anyEpochSentinel := by
    intro h
    have h2 : anyEpochSentinel.toNat = 2 ^ 64 - 1000 := by decide
    rw [h, h2] at hv
    omega
  have harch : getArchetype (generateEpoch true n cat) = generateEpoch true n cat := by
    apply eq_of_toNat_eq
    rw [getArchetype, toNat_setSeq, seqNumBits_of_rooted hr,
      show BitVec.toNat (0 : BitVec 64) = 0 from rfl]
    omega
  rw [windowKey, if_pos (hasOwnWindow_of_rooted hr hne), harch]

theorem windowKey_generateEpoch_collective (n : NodeType) (cat : EpochCategory) :
    windowKey (generateEpoch false n cat) = none := by
  have hv := toNat_generateEpoch false n cat
  have hc := cat.value_lt
  simp only [false_eq_true, if_false] at hv
  exact windowKey_of_not_rooted (by omega)

/-- The proposed epoch of a rooted window decodes to the kind of its archetype. -/
theorem decode_next_rooted (m : EpochManip) (n : NodeType) (cat : EpochCategory) :
    isRooted (m.next (generateEpoch true n cat)) = true ∧
      category (m.next (generateEpoch true n cat)) = some cat ∧
      node (m.next (generateEpoch true n cat)) = n := by
  obtain ⟨hlo, hhi⟩ := m.next_inRange (generateEpoch true n cat)
  rw [windowKey_generateEpoch_rooted, getD_some, toNat_minEpoch] at hlo
  rw [windowKey_generateEpoch_rooted, getD_some, toNat_maxEpoch] at hhi
  have hv := toNat_generateEpoch true n cat
  simp only [if_true] at hv
  rw [seqNumBits_of_rooted (by omega)] at hlo hhi
  obtain ⟨s, hs⟩ := Nat.exists_eq_add_of_le
    (show (generateEpoch true n cat).toNat ≤ (m.next (generateEpoch true n cat)).toNat by omega)
  obtain ⟨h1, h2, h3⟩ := decode_of_archetype hs (by simp only [if_true]; omega)
  exact ⟨h1, h2, h3 rfl⟩

/-- The window of the collective epochs ignores the category that was asked for. -/
theorem decode_next_collective (m : EpochManip) (n : NodeType) (cat : EpochCategory) :
    isRooted (m.next (generateEpoch false n cat)) = false ∧
      category (m.next (generateEpoch false n cat)) = some .noCategoryEpoch := by
  obtain ⟨-, hhi⟩ := m.next_inRange (generateEpoch false n cat)
  rw [windowKey_generateEpoch_collective, getD_none, toNat_maxEpoch,
    show seqNumBits 0 = 61 from rfl, show BitVec.toNat (0 : EpochType) = 0 from rfl] at hhi
  have hs : (m.next (generateEpoch false n cat)).toNat =
      (generateEpoch false n .noCategoryEpoch).toNat +
        (m.next (generateEpoch false n cat)).toNat := by
    rw [toNat_generateEpoch false n .noCategoryEpoch]
    exact (Nat.zero_add _).symm
  obtain ⟨h1, h2, -⟩ := decode_of_archetype hs
    (by simp only [false_eq_true, if_false]; omega)
  exact ⟨h1, h2⟩

/-- An allocation from the window in charge of an archetype moves one epoch from
terminated to live as soon as the epoch it proposes is terminated. -/
theorem allocateFrom_delivers (hx : category x ≠ none) (h : m.isTerminated (m.next x) = true) :
    ∃ m', m.allocateFrom 1 x = some (.ok (m.next x, m')) ∧
      m'.isTerminated (m.next x) = false ∧
      ∀ e', e' ≠ m.next x → m'.isTerminated e' = m.isTerminated e' := by
  rw [isTerminated_next m hx] at h
  obtain ⟨m', hm⟩ := allocateFrom_of_terminated h 0
  obtain ⟨-, -, hmark⟩ := allocateFrom_spec hx hm
  refine ⟨m', hm, by simp [hmark], ?_⟩
  intro e' hne
  simp [hmark, hne]

/-- The collective allocation: one epoch of the collective window becomes live. -/
theorem getNextCollectiveEpoch_spec (h : m.getNextCollectiveEpoch fuel cat = some (.ok (e, m'))) :
    isRooted e = false ∧ m.isTerminated e = true ∧
      ∀ e', m'.isTerminated e' = (m.isTerminated e' && e' != e) := by
  obtain ⟨rfl, ht, hm⟩ := allocateFrom_spec (category_generateEpoch _ _ _) h
  exact ⟨(m.decode_next_collective _ cat).1, ht, hm⟩

theorem getNextRootedEpoch_ok (h : m.getNextRootedEpoch fuel cat n = some (.ok (e, m'))) :
    ∃ leak m₁, m.allocateFrom fuel (generateEpoch true n cat) = some (.ok (leak, m₁)) ∧
      m₁.allocateFrom fuel leak = some (.ok (e, m')) ∧ category leak ≠ none := by
  rw [getNextRootedEpoch] at h
  split at h
  · simp at h
  · simp at h
  · rename_i leak m₁ h₁
    refine ⟨leak, m₁, h₁, h, ?_⟩
    rw [(allocateFrom_spec (category_generateEpoch true n cat) h₁).1,
      (m.decode_next_rooted n cat).2.1]
    exact some_ne_none _

/-- The rooted allocation without a node: two epochs of the node become live, and one of
them is returned. -/
theorem getNextRootedEpoch_spec (h : m.getNextRootedEpoch fuel cat n = some (.ok (e, m'))) :
    m.next (generateEpoch true n cat) ≠ e ∧
      m.isTerminated (m.next (generateEpoch true n cat)) = true ∧ m.isTerminated e = true ∧
      (∀ e', m'.isTerminated e' =
        (m.isTerminated e' && e' != m.next (generateEpoch true n cat) && e' != e)) ∧
      isRooted e = true ∧ category e = some cat ∧ node e = n := by
  obtain ⟨leak, m₁, h₁, h, hcat'⟩ := getNextRootedEpoch_ok h
  have hcat := category_generateEpoch true n cat
  obtain ⟨rfl, hterm, hmark⟩ := allocateFrom_spec hcat h₁
  obtain ⟨he, hterm', hmark'⟩ := allocateFrom_spec hcat' h
  have hnext : m₁.next (m.next (generateEpoch true n cat)) =
      m₁.next (generateEpoch true n cat) :=
    congrArg EpochWindow.next (getTerminatedWindow_congr m₁ (m.windowKey_next hcat))
  rw [hmark, and_eq_true, bne_iff_ne] at hterm'
  refine ⟨hterm'.2.symm, hterm, hterm'.1, ?_, ?_⟩
  · intro e'
    rw [hmark', hmark]
  · rw [he, hnext]
    exact m₁.decode_next_rooted n cat

/-- Both calls return identifiers from the range of the window in charge. -/
theorem inRange_getNextCollectiveEpoch
    (h : m.getNextCollectiveEpoch fuel cat = some (.ok (e, m'))) : InRange e e := by
  have hcat := category_generateEpoch false uninitializedDestination cat
  rw [(allocateFrom_spec hcat h).1]
  exact m.inRange_of_next hcat

theorem inRange_getNextRootedEpoch (h : m.getNextRootedEpoch fuel cat n = some (.ok (e, m'))) :
    InRange e e := by
  obtain ⟨leak, m₁, -, h, hcat⟩ := getNextRootedEpoch_ok h
  rw [(allocateFrom_spec hcat h).1]
  exact m₁.inRange_of_next hcat

/-- The call without a node never delivers: the epoch its first allocation takes is
live afterwards, but it is not the one returned. -/
theorem not_delivers_rooted (m : EpochManip) (cat : EpochCategory) (n : NodeType) :
    ¬ (Call.rooted cat n).Delivers m := by
  rintro ⟨fuel, e, m', h, -, -, -, hsame⟩
  obtain ⟨hne, hterm, -, hmark, -⟩ := getNextRootedEpoch_spec h
  have := hsame _ hne
  simp [hmark, hterm] at this

/-- Which calls return what was asked for. -/
theorem delivers_iff_sound (m : EpochManip) (call : Call) : call.Delivers m ↔ call.Sound m := by
  cases call with
  | rooted cat n => exact iff_of_false (m.not_delivers_rooted cat n) id
  | rootedAt cat n =>
    constructor
    · rintro ⟨fuel, e, m', h, -, ht, -⟩
      obtain ⟨rfl, -⟩ := allocateFrom_spec (category_generateEpoch _ _ _) h
      exact ht
    · intro h
      obtain ⟨m', hm, hlive, hsame⟩ := allocateFrom_delivers (category_generateEpoch _ _ _) h
      exact ⟨1, _, m', hm, m.decode_next_rooted n cat, h, hlive, hsame⟩
  | collective cat =>
    constructor
    · rintro ⟨fuel, e, m', h, hmatch, ht, -⟩
      obtain ⟨rfl, -⟩ := allocateFrom_spec (category_generateEpoch _ _ _) h
      have hcat := hmatch.2
      rw [(m.decode_next_collective uninitializedDestination cat).2, Option.some.injEq] at hcat
      exact ⟨hcat.symm, ht⟩
    · rintro ⟨rfl, h⟩
      obtain ⟨m', hm, hlive, hsame⟩ := allocateFrom_delivers (category_generateEpoch _ _ _) h
      exact ⟨1, _, m', hm, m.decode_next_collective _ _, h, hlive, hsame⟩

/-! ## Counts -/

/-- No window loses the exactness of its size, and none counts a termination. -/
def KeepsCounts (m m' : EpochManip) : Prop :=
  ∀ e, ((m.getTerminatedWindow e).terminatedEpochs.Exact →
      (m'.getTerminatedWindow e).terminatedEpochs.Exact) ∧
    (m'.getTerminatedWindow e).getTotalTerminated = (m.getTerminatedWindow e).getTotalTerminated

theorem KeepsCounts.trans {m₁ m₂ m₃ : EpochManip} (h : KeepsCounts m₁ m₂)
    (h' : KeepsCounts m₂ m₃) : KeepsCounts m₁ m₃ :=
  fun e => ⟨fun hx => (h' e).1 ((h e).1 hx), (h' e).2.trans (h e).2⟩

theorem keepsCounts_setWindow (m : EpochManip) {w : EpochWindow}
    (h : w.archetypeEpoch = (windowKey x).getD 0)
    (hx : (m.getTerminatedWindow x).terminatedEpochs.Exact → w.terminatedEpochs.Exact)
    (ht : w.getTotalTerminated = (m.getTerminatedWindow x).getTotalTerminated) :
    KeepsCounts m (m.setWindow x w h) := by
  intro e
  rw [getTerminatedWindow_setWindow]
  split
  · rename_i hk
    rw [getTerminatedWindow_congr m hk]
    exact ⟨hx, ht⟩
  · exact ⟨id, rfl⟩

theorem keepsCounts_activateEpoch (m : EpochManip) (e : EpochType) :
    KeepsCounts m (m.activateEpoch e) :=
  m.keepsCounts_setWindow _ (fun h => exact_activateEpoch h e)
    (getTotalTerminated_activateEpoch _ e)

theorem keepsCounts_allocateFrom (h : m.allocateFrom fuel x = some (.ok (e, m'))) :
    KeepsCounts m m' := by
  obtain ⟨w, -, hw, rfl⟩ := allocateFrom_ok h
  have heq := allocateNewEpoch_eq hw
  refine m.keepsCounts_setWindow _ ?_ ?_
  · intro hx
    rw [heq]
    exact exact_activateEpoch (w := (m.getTerminatedWindow x).advance) hx _
  · rw [heq, getTotalTerminated_activateEpoch]
    rfl

theorem keepsCounts_getNextRootedEpoch (h : m.getNextRootedEpoch fuel cat n = some (.ok (e, m'))) :
    KeepsCounts m m' := by
  obtain ⟨leak, m₁, h₁, h, -⟩ := getNextRootedEpoch_ok h
  exact (keepsCounts_allocateFrom h₁).trans (keepsCounts_allocateFrom h)

/-! ## Sequences of calls and terminations -/

/-- An identifier is live if it lies in the range of the window in charge of it and is
not marked terminated there. -/
def IsLive (m : EpochManip) (e : EpochType) : Prop := InRange e e ∧ m.isTerminated e = false

/-- The windows of a node, and the epochs handed out and not yet terminated. -/
structure Session where
  manip : EpochManip
  live : Finset EpochType

namespace Session

inductive Op
  | makeEpoch (call : Call) (fuel : ℕ)
  | terminate (epoch : EpochType)

def step (s : Session) : Op → Option Session
  | .makeEpoch call fuel =>
      match call.exec fuel s.manip with
      | some (.ok (e, m')) => some ⟨m', insert e s.live⟩
      | _ => none
  | .terminate epoch =>
      if epoch ∈ s.live then some ⟨s.manip.setEpochTerminated epoch, s.live.erase epoch⟩
      else none

/-- Every call made is one of those that return what was asked for. -/
def SoundStep (s : Session) : Op → Prop
  | .makeEpoch call _ => call.Sound s.manip
  | .terminate _ => True

def Reachable : Session → Prop := Lib.Reach (fun s => s = ⟨.make, ∅⟩) step SoundStep

end Session

theorem getTerminatedWindow_make (e : EpochType) :
    make.getTerminatedWindow e = EpochWindow.make ((windowKey e).getD 0) := by
  rw [getTerminatedWindow, windowKey]
  split <;> rfl

/-- Every identifier of a window that has just been created is terminated. -/
theorem not_isLive_make (e : EpochType) : ¬ make.IsLive e := by
  rintro ⟨⟨hlo, hhi⟩, h⟩
  have ha : setSeq ((windowKey e).getD 0) 0 = (windowKey e).getD 0 := by
    unfold windowKey
    split
    · exact getArchetype_idem e
    · rfl
  have hmem : (make.getTerminatedWindow e).isTerminated e = true := by
    rw [getTerminatedWindow_make, isTerminated_make, ha]
    exact ⟨hlo, hhi⟩
  rw [isTerminated, hmem] at h
  simp at h

theorem isLive_exec {call : Call}
    (hs : call.Sound m) (h : call.exec fuel m = some (.ok (e, m'))) (e' : EpochType) :
    m'.IsLive e' ↔ e' = e ∨ m.IsLive e' := by
  have key : ∀ x, category x ≠ none → m.allocateFrom fuel x = some (.ok (e, m')) →
      (m'.IsLive e' ↔ e' = e ∨ m.IsLive e') := by
    intro x hx hx'
    obtain ⟨rfl, -, hmark⟩ := allocateFrom_spec hx hx'
    rw [IsLive, IsLive, hmark, and_eq_false_iff, bne_eq_false_iff_eq]
    constructor
    · rintro ⟨hr, ht | rfl⟩
      · exact .inr ⟨hr, ht⟩
      · exact .inl rfl
    · rintro (rfl | ⟨hr, ht⟩)
      · exact ⟨m.inRange_of_next hx, .inr rfl⟩
      · exact ⟨hr, .inl ht⟩
  cases call with
  | rooted cat n => exact hs.elim
  | rootedAt | collective => exact key _ (category_generateEpoch _ _ _) h

/-- One step keeps the live identifiers equal to those handed out and not terminated. -/
theorem Session.isLive_step {s s' : Session} {op : Op}
    (hinv : ∀ e, s.manip.IsLive e ↔ e ∈ s.live) (hok : s.SoundStep op)
    (h : s.step op = some s') : ∀ e, s'.manip.IsLive e ↔ e ∈ s'.live := by
  intro e'
  cases op with
  | makeEpoch call fuel =>
    rw [step] at h
    split at h
    · rename_i e m' hx
      rw [Option.some.injEq] at h
      subst h
      rw [isLive_exec hok hx, hinv, Finset.mem_insert]
    · simp at h
  | terminate e =>
    obtain ⟨-, rfl⟩ := Lib.of_guard h
    rw [Finset.mem_erase, ← hinv, IsLive, IsLive, isTerminated_setEpochTerminated,
      or_eq_false_iff, beq_eq_false_iff_ne]
    exact and_left_comm

/-- A call returns an epoch of the requested kind and makes it and no other live if and
only if it names the root node, or is collective of the default category, and the epoch
proposed by its window is terminated.  In every sequence of such calls and of
terminations the live epochs are those returned and not yet terminated. -/
theorem makeEpoch_correct_iff (m : EpochManip) (call : Call) :
    (call.Delivers m ↔ call.Sound m) ∧
      ∀ s, Session.Reachable s → ∀ e, s.manip.IsLive e ↔ e ∈ s.live := by
  refine ⟨delivers_iff_sound m call, ?_⟩
  intro s hs
  refine Lib.Reach.invariant ?_ ?_ hs
  · rintro s rfl e
    exact iff_of_false (not_isLive_make e) (Finset.notMem_empty e)
  · intro s op s' hinv hok hstep
    exact Session.isLive_step hinv hok hstep

/-- Node 3 asks for a rooted epoch in a fresh session. -/
theorem makeEpoch_correct_iff_fresh :
    (Call.rootedAt .dijkstraScholtenEpoch 3).Delivers make ∧
      ∃ s, Session.Reachable s ∧ s.live.Nonempty ∧ ∀ e, s.manip.IsLive e ↔ e ∈ s.live := by
  have h : (Call.rootedAt .dijkstraScholtenEpoch 3).Sound make := by
    rw [Call.Sound]
    decide +kernel
  obtain ⟨m', hm, -⟩ := allocateFrom_delivers (category_generateEpoch _ _ _) h
  have hr : Session.Reachable ⟨m',
      insert (make.next (generateEpoch true 3 .dijkstraScholtenEpoch)) ∅⟩ := by
    refine .next (a := .makeEpoch (.rootedAt .dijkstraScholtenEpoch 3) 1) (.start rfl) h ?_
    simp only [Session.step, Call.exec, getNextRootedEpochAt, hm]
  obtain ⟨hiff, hlive⟩ := makeEpoch_correct_iff make (.rootedAt .dijkstraScholtenEpoch 3)
  exact ⟨hiff.mpr h, _, hr, Finset.insert_nonempty _ _, hlive _ hr⟩

/-- On node 0 the first call of the overload without a node returns the epoch with
sequence number 2 and leaves the one with sequence number 1 live as well. -/
theorem getNextRootedEpoch_leaks :
    make.isTerminated (BitVec.ofNat 64 (2 ^ 63 + 1)) = true ∧
      (match getNextRootedEpoch 1 make .noCategoryEpoch 0 with
        | some (.ok (e, m')) => e == BitVec.ofNat 64 (2 ^ 63 + 2) &&
            !m'.isTerminated (BitVec.ofNat 64 (2 ^ 63 + 1))
        | _ => false) = true ∧
      ¬ (Call.rooted .noCategoryEpoch 0).Delivers make :=
  ⟨by decide +kernel, by decide +kernel, not_delivers_rooted _ _ _⟩

end EpochManip
end VtRuntime.Epoch
