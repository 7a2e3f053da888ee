import Mathlib.Data.Nat.Init

/-!
# The blocks of a region

The elements of a handle are split into blocks of the size `num_elms / num_blocks`, and
`walk_region` visits the parts of a region block by block.  The elements that the division leaves
over are then in blocks that do not exist, and if there are more blocks than elements, the size is
zero.
-/

namespace VtRuntime.Rdma

def defaultBlockMap (block numNodes : ℕ) : ℕ := block % numNodes

/-- The block of an element and its range, unless a division by zero is met. -/
def defaultElmMap (elm numElms numBlocks : ℕ) : Option (ℕ × ℕ × ℕ) :=
  let blockSize := numElms / numBlocks
  if blockSize = 0 then none
  else
    let block := elm / blockSize
    some (block, block * blockSize, (block + 1) * blockSize)

/-- The arguments of the walker. -/
structure Piece where
  node : ℕ
  block : ℕ
  blkLo : ℕ
  blkHi : ℕ
  lo : ℕ
  hi : ℕ

variable {n b nodes lo hi : ℕ}

theorem lt_of_defaultElmMap {r : ℕ × ℕ × ℕ} (h : defaultElmMap lo n b = some r) : lo < r.2.2 := by
  obtain ⟨hsize, hr⟩ := Option.ite_none_left_eq_some.mp h
  obtain rfl := Option.some.inj hr
  exact (Nat.div_lt_iff_lt_mul (Nat.pos_of_ne_zero hsize)).mp (Nat.lt_succ_self _)

/-- `Group::walk_region` with the default map: the calls of the walker. -/
def walkRegion (numElems numBlocks numNodes lo hi : ℕ) : Option (List Piece) :=
  if lo < hi then
    match _h : defaultElmMap lo numElems numBlocks with
    | none => none
    | some (blkLo, elmLo, elmHi) =>
      (walkRegion numElems numBlocks numNodes elmHi hi).map
        (⟨defaultBlockMap blkLo numNodes, blkLo, elmLo, elmHi, lo, min elmHi hi⟩ :: ·)
  else some []
termination_by hi - lo
decreasing_by
  have hlt : lo < elmHi := lt_of_defaultElmMap _h
  omega

/-- The pieces are not empty, and each begins where the one before it ends. -/
def Covers : ℕ → ℕ → List Piece → Prop
  | lo, hi, [] => lo = hi
  | lo, hi, p :: ps => p.lo = lo ∧ lo < p.hi ∧ Covers p.hi hi ps

/-- A piece lies in the range of its block, and the block and the node exist. -/
structure Piece.Valid (numBlocks numNodes : ℕ) (p : Piece) : Prop where
  lo : p.blkLo ≤ p.lo
  hi : p.hi ≤ p.blkHi
  block : p.block < numBlocks
  node : p.node < numNodes

theorem walkRegion_of_lt (hsize : n / b ≠ 0) (hlt : lo < hi) {blk : ℕ} (hblk : lo / (n / b) = blk) :
    walkRegion n b nodes lo hi =
      (walkRegion n b nodes ((blk + 1) * (n / b)) hi).map
        (⟨blk % nodes, blk, blk * (n / b), (blk + 1) * (n / b), lo,
          min ((blk + 1) * (n / b)) hi⟩ :: ·) := by
  subst hblk
  have hmap : defaultElmMap lo n b = _ := if_neg hsize
  rw [walkRegion, if_pos hlt]
  split
  · rw [hmap] at *
    contradiction
  · rename_i h
    obtain ⟨rfl, rfl, rfl⟩ : _ ∧ _ ∧ _ := by simpa [hmap] using h
    rfl

theorem walkRegion_spec (hsize : n / b ≠ 0) (hnodes : 0 < nodes) (hle : lo ≤ hi) :
    ∃ ps, walkRegion n b nodes lo hi = some ps ∧ Covers lo hi ps ∧
      ((∀ p ∈ ps, p.Valid b nodes) ↔ lo = hi ∨ hi ≤ b * (n / b)) := by
  have hpos := Nat.pos_of_ne_zero hsize
  induction hk : hi - lo using Nat.strongRecOn generalizing lo with
  | _ k ih =>
    subst hk
    by_cases hlt : lo < hi
    · obtain ⟨blk, hblk⟩ : ∃ blk, lo / (n / b) = blk := ⟨_, rfl⟩
      rw [walkRegion_of_lt hsize hlt hblk]
      generalize n / b = size at *
      have hlo : blk * size ≤ lo := hblk ▸ Nat.div_mul_le_self lo size
      have hhi : lo < (blk + 1) * size := (Nat.div_lt_iff_lt_mul hpos).mp (by omega)
      have hblock : blk < b ↔ (blk + 1) * size ≤ b * size :=
        (Nat.mul_le_mul_right_iff hpos).symm
      have hblock' : blk < b ↔ lo < b * size := hblk ▸ Nat.div_lt_iff_lt_mul hpos
      obtain ⟨ps, hps, hcovers, hvalid⟩ : ∃ ps,
          walkRegion n b nodes ((blk + 1) * size) hi = some ps ∧
          Covers (min ((blk + 1) * size) hi) hi ps ∧
          ((∀ p ∈ ps, p.Valid b nodes) ↔
            hi ≤ (blk + 1) * size ∨ hi ≤ b * size) := by
        by_cases hend : (blk + 1) * size < hi
        · obtain ⟨ps, hps, hcovers, hvalid⟩ := ih _ (by omega) (Nat.le_of_lt hend) rfl
          exact ⟨ps, hps, (Nat.min_eq_left (Nat.le_of_lt hend)).symm ▸ hcovers,
            hvalid.trans (by omega)⟩
        · rw [walkRegion, if_neg hend]
          exact ⟨[], rfl, Nat.min_eq_right (Nat.le_of_not_lt hend), by simp; omega⟩
      rw [hps]
      refine ⟨_, rfl, ⟨rfl, Nat.lt_min.mpr ⟨hhi, hlt⟩, hcovers⟩, ?_⟩
      have hhead : Piece.Valid b nodes
          ⟨blk % nodes, blk, blk * size, (blk + 1) * size, lo, min ((blk + 1) * size) hi⟩ ↔
          blk < b :=
        ⟨(·.block), fun h => ⟨hlo, Nat.min_le_left .., h, Nat.mod_lt _ hnodes⟩⟩
      rw [List.forall_mem_cons, hvalid, hhead]
      omega
    · rw [walkRegion, if_neg hlt]
      exact ⟨[], rfl, Nat.le_antisymm hle (Nat.le_of_not_lt hlt), by simp; omega⟩

/-- A region is walked in pieces that cover it, each in a block that exists, if and only if it is
empty or has none of the elements that the division leaves over. -/
theorem walkRegion_iff (hnodes : 0 < nodes) (hle : lo ≤ hi) :
    (∃ ps, walkRegion n b nodes lo hi = some ps ∧ Covers lo hi ps ∧
      ∀ p ∈ ps, p.Valid b nodes) ↔ lo = hi ∨ hi ≤ b * (n / b) := by
  by_cases hsize : n / b = 0
  · have hmap : defaultElmMap lo n b = none := if_pos hsize
    by_cases hlt : lo < hi
    · refine iff_of_false ?_ (by rw [hsize]; omega)
      rintro ⟨ps, hps, -⟩
      rw [walkRegion, if_pos hlt] at hps
      split at hps <;> simp_all
    · rw [walkRegion, if_neg hlt]
      exact iff_of_true ⟨[], rfl, Nat.le_antisymm hle (Nat.le_of_not_lt hlt), by simp⟩
        (.inl (by omega))
  · obtain ⟨ps, hps, hcovers, hvalid⟩ := walkRegion_spec hsize hnodes hle
    rw [← hvalid]
    constructor
    · rintro ⟨ps', hps', -, hvalid'⟩
      obtain rfl := Option.some.inj (hps.symm.trans hps')
      exact hvalid'
    · exact fun hvalid' => ⟨ps, hps, hcovers, hvalid'⟩

/-- Ten elements in two blocks, on three nodes. -/
theorem walkRegion_of_even : ∃ ps, walkRegion 10 2 3 3 8 = some ps ∧ Covers 3 8 ps ∧
    ∀ p ∈ ps, p.Valid 2 3 :=
  (walkRegion_iff (by decide) (by decide)).mpr (by decide)

/-- The last of five elements is in a third block of two, and two elements cannot be split into
three blocks. -/
theorem walkRegion_of_rest : walkRegion 5 2 3 4 5 = some [⟨2, 2, 4, 6, 4, 5⟩] ∧
    walkRegion 2 3 3 0 2 = none := by
  constructor
  · rw [walkRegion_of_lt (by decide) (by decide) rfl, walkRegion]
    rfl
  · rw [walkRegion]
    rfl

end VtRuntime.Rdma
