import Mathlib.Data.List.Basic

/-!
# Reading a compressed stream in chunks

`DecompressionInputContainer` holds one chunk of the decompressed stream and a position in it.
At the end of a chunk it reads the next, and goes on only if that has a second byte.  So a last
chunk of a single byte is lost.
-/

namespace VtRuntime.Utils

open List

variable {β : Type}

/-- `DecompressionInputContainer`.  The decompressor is given by what it has not yet returned, and
`len_` is the length of the chunk that was read. -/
structure DecompressionInputContainer (β : Type) where
  chunkSize : ℕ
  decompressor : List β
  outputBuf : List β
  cur : ℕ

namespace DecompressionInputContainer

/-- The constructor reads the first chunk. -/
def construct (chunkSize : ℕ) (stream : List β) : DecompressionInputContainer β :=
  ⟨chunkSize, stream.drop chunkSize, stream.take chunkSize, 0⟩

def advance (c : DecompressionInputContainer β) : Bool × DecompressionInputContainer β :=
  if c.cur + 1 = c.outputBuf.length then
    let c := construct c.chunkSize c.decompressor
    (decide (c.cur + 1 < c.outputBuf.length), c)
  else if c.cur + 1 < c.outputBuf.length then (true, { c with cur := c.cur + 1 })
  else (false, c)

def getCurrent (c : DecompressionInputContainer β) : Option β := c.outputBuf[c.cur]?

/-- What is still to come, which `advance` decreases. -/
def size (c : DecompressionInputContainer β) : ℕ :=
  c.decompressor.length + (c.outputBuf.length - c.cur)

theorem size_advance {c : DecompressionInputContainer β} (h : c.advance.1 = true) :
    c.advance.2.size < c.size := by
  rw [advance] at h ⊢
  split_ifs at h ⊢ with hend hin
  · simp [size, construct]
    omega
  · simp [size]
    omega

/-- The bytes from an iterator to the end: it is dereferenced and incremented, which makes it the
end if `advance` fails. -/
def bytes (c : DecompressionInputContainer β) : List (Option β) :=
  if _h : c.advance.1 = true then c.getCurrent :: c.advance.2.bytes else [c.getCurrent]
termination_by c.size
decreasing_by exact size_advance _h

/-- A chunk is produced to its end, and the next one follows if it has two bytes. -/
theorem bytes_eq {c : DecompressionInputContainer β} {n : ℕ}
    (hn : c.outputBuf.length = c.cur + 1 + n) :
    c.bytes = (c.outputBuf.drop c.cur).map some ++
      if 1 < (c.decompressor.take c.chunkSize).length
      then (construct c.chunkSize c.decompressor).bytes else [] := by
  have hcur : c.cur < c.outputBuf.length := by omega
  induction n generalizing c with
  | zero =>
    have hadv : c.advance = (decide (1 < (c.decompressor.take c.chunkSize).length),
        construct c.chunkSize c.decompressor) := if_pos hn.symm
    rw [bytes, hadv, getCurrent, getElem?_eq_getElem hcur, drop_eq_getElem_cons hcur,
      drop_eq_nil_of_le (Nat.le_of_eq hn)]
    simp only [decide_eq_true_eq]
    split_ifs <;> rfl
  | succ n ih =>
    have hadv : c.advance = (true, { c with cur := c.cur + 1 }) :=
      (if_neg (by omega)).trans (if_pos (by omega))
    rw [bytes, hadv, dif_pos rfl, ih (c := { c with cur := c.cur + 1 }) (by simp only; omega)
      (by simp only; omega),
      getCurrent, getElem?_eq_getElem hcur, drop_eq_getElem_cons hcur]
    rfl

end DecompressionInputContainer

open DecompressionInputContainer

/-- The whole stream is produced, if and only if it fits in the first chunk or its last chunk does
not have one byte. -/
theorem bytes_construct_iff {chunkSize : ℕ} {stream : List β} (hchunk : 1 ≤ chunkSize)
    (hstream : stream ≠ []) :
    (construct chunkSize stream).bytes = stream.map some ↔
      stream.length ≤ chunkSize ∨ 2 ≤ chunkSize ∧ stream.length % chunkSize ≠ 1 := by
  induction h : stream.length using Nat.strongRecOn generalizing stream with
  | _ len ih =>
    subst h
    have hpos := length_pos_iff.mpr hstream
    have hlen : (construct chunkSize stream).outputBuf.length =
        0 + 1 + (min chunkSize stream.length - 1) := by
      simp only [construct, length_take]
      omega
    have hsplit : stream.map some =
        (stream.take chunkSize).map some ++ (stream.drop chunkSize).map some := by
      rw [← map_append, take_append_drop]
    rw [bytes_eq hlen, hsplit]
    simp only [construct, drop_zero, append_cancel_left_eq, length_take, Nat.lt_min]
    generalize hrest : stream.drop chunkSize = rest
    have hrestlen : rest.length = stream.length - chunkSize := by rw [← hrest, length_drop]
    split_ifs with hnext
    · -- the next chunk has two bytes, so the stream that is left has the same last chunk
      have hrec := ih rest.length (by omega) (length_pos_iff.mp (by omega)) rfl
      have hmod : stream.length % chunkSize = rest.length % chunkSize := by
        rw [hrestlen, ← Nat.mod_eq_sub_mod (by omega)]
      have hshort : rest.length ≤ chunkSize → rest.length % chunkSize ≠ 1 := by
        intro hle
        rcases Nat.lt_or_eq_of_le hle with hlt | heq
        · rw [Nat.mod_eq_of_lt hlt]
          omega
        · rw [heq, Nat.mod_self]
          omega
      refine Iff.trans hrec ?_
      rw [hmod]
      omega
    · cases rest with
      | nil => exact iff_of_true rfl (.inl (by simp at hrestlen; omega))
      | cons b rest =>
        refine iff_of_false (by simp) ?_
        rw [length_cons] at hnext hrestlen
        rintro (hle | ⟨htwo, hmod⟩)
        · omega
        · have hone : stream.length = 1 + chunkSize := by omega
          rw [hone, Nat.add_mod_right, Nat.mod_eq_of_lt htwo] at hmod
          exact hmod rfl

/-- Six bytes in chunks of four. -/
theorem bytes_of_six : (construct 4 [1, 2, 3, 4, 5, 6]).bytes = [1, 2, 3, 4, 5, 6].map some :=
  (bytes_construct_iff (by decide) (by decide)).mpr (by decide)

/-- Five bytes in chunks of four: the last is lost. -/
theorem bytes_of_five : (construct 4 [1, 2, 3, 4, 5]).bytes = [1, 2, 3, 4].map some := by
  rw [bytes_eq (n := 3) rfl]
  rfl

end VtRuntime.Utils
