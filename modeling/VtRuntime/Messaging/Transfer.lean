import VtRuntime.Lib.Run
import Mathlib.Data.List.Basic
import Mathlib.Data.Int.Basic
import Mathlib.Algebra.Order.Group.Int
import Mathlib.Tactic.Ring

/-!
# Raw data in chunks

A payload is sent by `sendDataMPI` as a number of MPI messages, none of which is longer than the
configured maximum.  The receiver posts its receives in `recvDataDirect`, from a length and a
number of chunks that come from different places: the control message, the probe of the first
chunk, or a constant.

MPI counts are of type `int`, and so is the number of chunks; lengths have 64 bits and are
natural numbers here.  The functions that call MPI or assert return `none` where the program is
aborted.
-/

namespace VtRuntime.Messaging

open List
open Option hiding map_map

/-- The conversion to `int`. -/
def toInt (n : ℤ) : ℤ := Int.bmod n (2 ^ 32)

/-- The conversion of a signed length to an unsigned one. -/
def toSize (n : ℤ) : ℤ := if n < 0 then n + 2 ^ 64 else n

/-- A send or a receive, of `count` bytes from `offset`. -/
structure Chunk where
  offset : ℕ
  count : ℤ
deriving DecidableEq, Repr

/-- The loop of `sendDataMPI`.  MPI refuses a negative count. -/
def sendLoop (maxPerSend : ℕ) : ℕ → ℕ → ℕ → Option (List Chunk)
  | _, _, 0 => some []
  | 0, _, _ + 1 => none
  | fuel + 1, ptr, remainder + 1 =>
      let subsize := min (remainder + 1) maxPerSend
      if 0 ≤ toInt subsize then
        (sendLoop maxPerSend fuel (ptr + subsize) (remainder + 1 - subsize)).map
          (⟨ptr, toInt subsize⟩ :: ·)
      else none

/-- The chunks of a payload, and their number as it is returned.  There has to be one. -/
def sendDataMPI (maxPerSend len : ℕ) : Option (List Chunk × ℤ) :=
  (sendLoop maxPerSend len 0 len).bind fun chunks =>
    if chunks ≠ [] then some (chunks, toInt chunks.length) else none

/-- The loop of `recvDataDirect`, from the receive with the number `i` on. -/
def recvLoop (maxPerSend : ℕ) : ℕ → ℕ → ℤ → Option (List Chunk)
  | 0, _, _ => some []
  | n + 1, i, remainder =>
      let sublen := toInt (min (toSize remainder) maxPerSend)
      if 0 ≤ sublen then
        (recvLoop maxPerSend n (i + 1) (remainder - sublen)).map (⟨i * maxPerSend, sublen⟩ :: ·)
      else none

def recvDataDirect (maxPerSend : ℕ) (nchunks len : ℤ) : Option (List Chunk) :=
  if 0 < nchunks then recvLoop maxPerSend nchunks.toNat 0 len else none

/-! ## The paths -/

/-- What `sendMsgMPI` gives to MPI: a message as it is, or chunks of data that a control message
announces. -/
inductive Wire
  | direct (count : ℤ)
  | chunked (chunks : List Chunk) (nchunks : ℤ)

/-- An active message.  One that is too long is announced by a message of type `MultiMsg`, which is
an active message itself. -/
def sendMsgMPI (maxPerSend multiMsgSize : ℕ) : ℕ → ℕ → Option (List Wire)
  | 0, _ => none
  | fuel + 1, msgSize =>
      if msgSize < maxPerSend then
        if 0 ≤ toInt msgSize then some [.direct (toInt msgSize)] else none
      else
        (sendDataMPI maxPerSend msgSize).bind fun (chunks, nchunks) =>
          (sendMsgMPI maxPerSend multiMsgSize fuel multiMsgSize).map
            (.chunked chunks nchunks :: ·)

/-- The paths that ship data: an active message, a serialized message, the payload of a put that is
not packed into its message, and RDMA, with the size of the buffer if the data goes into one of the
user. -/
inductive Path
  | active
  | serialized
  | put
  | rdma (userBuf : Option ℕ)

/-- The sends and the receives of a transfer, and the size of the buffer received into. -/
structure Transfer where
  sent : List Chunk
  buf : ℕ
  posted : List Chunk

/-- The pending receive of a tag, when the first chunk has been probed: its count is taken for the
length of the data. -/
def recvDataMsgBuffer (maxPerSend : ℕ) (nchunks : ℤ) (userBuf : Option ℕ) (sent : List Chunk) :
    Option Transfer :=
  sent.head?.bind fun c =>
    (recvDataDirect maxPerSend nchunks c.count).map fun posted =>
      ⟨sent, userBuf.getD c.count.toNat, posted⟩

/-- The transfer of an active message: the probe gives the length of a message that is sent
as it is, and the control message that of one in chunks. -/
def receiveMsg (maxPerSend msgSize : ℕ) : List Wire → Option Transfer
  | .direct count :: _ => some ⟨[⟨0, count⟩], count.toNat, [⟨0, count⟩]⟩
  | .chunked chunks nchunks :: _ =>
      (recvDataDirect maxPerSend nchunks msgSize).map fun posted => ⟨chunks, msgSize, posted⟩
  | [] => none

/-- What is sent and posted for a payload; `fuel` bounds the number of control messages. -/
def transfer (maxPerSend multiMsgSize fuel : ℕ) (path : Path) (len : ℕ) : Option Transfer :=
  match path with
  | .active => (sendMsgMPI maxPerSend multiMsgSize fuel len).bind (receiveMsg maxPerSend len)
  | .serialized =>
      (sendDataMPI maxPerSend len).bind fun (chunks, nchunks) =>
        (recvDataDirect maxPerSend nchunks len).map fun posted => ⟨chunks, len, posted⟩
  | .put =>
      (sendDataMPI maxPerSend len).bind fun (chunks, _) =>
        recvDataMsgBuffer maxPerSend 1 none chunks
  | .rdma userBuf =>
      (sendDataMPI maxPerSend len).bind fun (chunks, nchunks) =>
        recvDataMsgBuffer maxPerSend nchunks userBuf chunks

/-! ## The contents -/

section Contents

variable {B : Type}

/-- Write bytes into a buffer. -/
def write (mem : List B) (offset : ℕ) (bytes : List B) : List B :=
  mem.take offset ++ bytes ++ mem.drop (offset + bytes.length)

/-- MPI matches the sends with the receives in their order.  A message that is longer than its
receive is an error, and a receive without a message does not complete. -/
def deliver (data : List B) : List Chunk → List Chunk → List B → Option (List B)
  | [], [], mem => some mem
  | _ :: _, [], mem => some mem
  | [], _ :: _, _ => none
  | s :: sent, p :: posted, mem =>
      if s.count ≤ p.count then
        deliver data sent posted
          (write mem p.offset ((data.drop s.offset).take s.count.toNat))
      else none

end Contents

/-- The receives are those of the chunks, one for one, and the buffer gets the payload. -/
structure Transfer.Good (t : Transfer) (len : ℕ) : Prop where
  matched : t.posted = t.sent
  room : len ≤ t.buf
  contents : ∀ data mem : List UInt8, data.length = len → mem.length = t.buf →
    deliver data t.sent t.posted mem = some (data ++ mem.drop len)

/-- The transfer takes place, and sender and receiver agree on it. -/
def Agrees (maxPerSend multiMsgSize : ℕ) (path : Path) (len : ℕ) : Prop :=
  ∃ fuel t, transfer maxPerSend multiMsgSize fuel path len = some t ∧ t.Good len

/-! ## What is sent and posted -/

theorem toInt_of_lt {n : ℕ} (h : n < 2 ^ 31) : toInt n = n := by
  rw [toInt, Int.bmod_eq_of_le] <;> omega

theorem toInt_lt (n : ℤ) : toInt n < 2 ^ 31 := by
  have h := Int.bmod_lt (x := n) (m := 2 ^ 32) (by decide)
  rw [toInt]
  omega

/-- The chunks number `i`, `i + 1`, … of data of which `remainder` bytes are left, cut as if all
numbers were unbounded. -/
def pieces (maxPerSend i n remainder : ℕ) : List Chunk :=
  (range n).map fun j => ⟨(i + j) * maxPerSend, (min maxPerSend (remainder - j * maxPerSend) : ℕ)⟩

variable {M S i n L fuel : ℕ} {path : Path} {t : Transfer}

@[simp] theorem length_pieces : (pieces M i n L).length = n := by
  simp [pieces]

@[simp] theorem pieces_zero : pieces M i 0 L = [] := rfl

theorem pieces_succ :
    pieces M i (n + 1) L = ⟨i * M, (min M L : ℕ)⟩ :: pieces M (i + 1) n (L - M) := by
  simp only [pieces, range_succ_eq_map, map_cons, map_map]
  congr 1
  · simp
  · refine map_congr_left fun j _ => ?_
    simp only [Function.comp_apply, Nat.succ_eq_add_one]
    have hoff : i + (j + 1) = i + 1 + j := by omega
    have hlen : L - (j + 1) * M = L - M - j * M := by
      rw [Nat.sub_sub, Nat.add_mul, Nat.one_mul, Nat.add_comm]
    rw [hoff, hlen]

/-- A payload of no bytes, of at most one chunk, and of more. -/
theorem numChunks_zero (hM : 0 < M) : (0 + M - 1) / M = 0 :=
  Nat.div_eq_of_lt (by omega)

theorem numChunks_le (hL : 0 < L) (h : L ≤ M) : (L + M - 1) / M = 1 :=
  Nat.div_eq_of_lt_le (by omega) (by omega)

theorem numChunks_gt (hM : 0 < M) (h : M < L) : (L + M - 1) / M = (L - M + M - 1) / M + 1 := by
  have hsplit : L + M - 1 = (L - M + M - 1) + M := by omega
  rw [hsplit, Nat.add_div_right _ hM]

theorem sendLoop_eq (hM : 0 < M) (hfuel : L ≤ fuel) (hint : min L M < 2 ^ 31) :
    sendLoop M fuel (i * M) L = some (pieces M i ((L + M - 1) / M) L) := by
  induction fuel generalizing i L with
  | zero =>
    obtain rfl : L = 0 := by omega
    rw [numChunks_zero hM]
    rfl
  | succ fuel ih =>
    cases L with
    | zero =>
      rw [numChunks_zero hM]
      rfl
    | succ r =>
      have hsub : toInt ((min (r + 1) M : ℕ) : ℤ) = (min (r + 1) M : ℕ) := toInt_of_lt hint
      rw [sendLoop]
      simp only [hsub, Int.natCast_nonneg, if_true]
      rcases le_or_gt (r + 1) M with hle | hgt
      · rw [numChunks_le (Nat.succ_pos r) hle, pieces_succ, pieces_zero, Nat.min_eq_left hle,
          Nat.sub_self, Nat.min_eq_right hle]
        simp [sendLoop]
      · have hptr : i * M + M = (i + 1) * M := by ring
        rw [numChunks_gt hM hgt, pieces_succ, Nat.min_eq_right hgt.le, Nat.min_eq_left hgt.le, hptr,
          ih (by omega) (by omega)]
        rfl

theorem recvLoop_eq (hint : min L M < 2 ^ 31) : recvLoop M n i L = some (pieces M i n L) := by
  induction n generalizing i L with
  | zero => rfl
  | succ n ih =>
    have hsize : min (toSize L) M = (min L M : ℕ) := by
      rw [toSize, if_neg (by omega)]
      omega
    have hrest : (L : ℤ) - (min L M : ℕ) = (L - M : ℕ) := by omega
    rw [recvLoop, hsize, toInt_of_lt hint]
    simp only [Int.natCast_nonneg, if_true, hrest]
    rw [ih (by omega), pieces_succ, Nat.min_comm]
    rfl

/-! ## What arrives -/

section Contents

variable {B : Type}

theorem write_nil (mem : List B) (a : ℕ) : write mem a [] = mem := by
  simp [write]

theorem write_write (mem x y : List B) {a : ℕ} (ha : a ≤ mem.length) :
    write (write mem a x) (a + x.length) y = write mem a (x ++ y) := by
  have hlen : (mem.take a ++ x).length = a + x.length := by
    simp [Nat.min_eq_left ha]
  simp only [write]
  rw [take_left' hlen, ← drop_drop, drop_left' hlen, drop_drop,
    length_append, append_assoc (mem.take a), Nat.add_assoc]

theorem length_write (mem x : List B) {a : ℕ} (ha : a + x.length ≤ mem.length) :
    (write mem a x).length = mem.length := by
  simp only [write, length_append, length_take, length_drop]
  omega

/-- The chunks number `i`, `i + 1`, … bring the rest of the data. -/
theorem deliver_pieces (hM : 0 < M) (data mem : List B) (hL : data.length - i * M = L)
    (hn : (L + M - 1) / M = n) (hmem : 0 < L → i * M + L ≤ mem.length) :
    deliver data (pieces M i n L) (pieces M i n L) mem =
      some (write mem (i * M) (data.drop (i * M))) := by
  induction n generalizing i L mem with
  | zero =>
    have hzero : L = 0 := by
      rcases Nat.eq_zero_or_pos L with hz | hpos
      · exact hz
      · have := Nat.div_pos (show M ≤ L + M - 1 by omega) hM
        omega
    have hdrop : data.drop (i * M) = [] := drop_eq_nil_of_le (by omega)
    rw [pieces_zero, hdrop, write_nil]
    rfl
  | succ n ih =>
    have hpos : 0 < L := by
      rcases Nat.eq_zero_or_pos L with hz | hpos
      · rw [hz, numChunks_zero hM] at hn
        omega
      · exact hpos
    have hnext : (i + 1) * M = i * M + M := by ring
    have hrest : (data.drop (i * M)).drop M = data.drop ((i + 1) * M) := by
      rw [drop_drop, hnext]
    have htake : ((data.drop (i * M)).take (min M L)).length = min M L := by
      rw [length_take, length_drop]
      omega
    have hroom := hmem hpos
    have hlen : (write mem (i * M) ((data.drop (i * M)).take (min M L))).length = mem.length :=
      length_write _ _ (by omega)
    rw [pieces_succ, deliver, if_pos le_rfl]
    simp only [Int.toNat_natCast]
    rcases le_or_gt L M with hle | hgt
    · -- the last chunk
      have hn0 : n = 0 := by
        rw [numChunks_le hpos hle] at hn
        omega
      have hall : (data.drop (i * M)).take (min M L) = data.drop (i * M) :=
        take_of_length_le (by rw [length_drop]; omega)
      rw [hn0, pieces_zero, hall]
      rfl
    · rw [numChunks_gt hM hgt, Nat.add_right_cancel_iff] at hn
      rw [ih _ (by omega) hn (by omega), ← hrest, hnext]
      have hw := write_write mem ((data.drop (i * M)).take (min M L)) ((data.drop (i * M)).drop M)
        (a := i * M) (by omega)
      rw [htake, Nat.min_eq_left hgt.le, take_append_drop] at hw
      rw [Nat.min_eq_left hgt.le, hw]

/-- What lies before all receives is not touched. -/
theorem take_deliver {k : ℕ} (data : List B) (sent posted : List Chunk) (mem r : List B)
    (hk : k ≤ mem.length) (hp : ∀ p ∈ posted, k ≤ p.offset)
    (h : deliver data sent posted mem = some r) : r.take k = mem.take k := by
  induction sent generalizing posted mem with
  | nil =>
    cases posted with
    | nil => rw [some.inj h]
    | cons p posted => simp [deliver] at h
  | cons s sent ih =>
    cases posted with
    | nil => rw [some.inj h]
    | cons p posted =>
      rw [deliver] at h
      obtain ⟨-, h⟩ := ite_none_right_eq_some.mp h
      have hoff := hp p mem_cons_self
      have hfirst : (write mem p.offset ((data.drop s.offset).take s.count.toNat)).take k =
          mem.take k := by
        rw [write, append_assoc, take_append_of_le_length (by
          rw [length_take]
          omega), take_take, Nat.min_eq_left hoff]
      refine (ih posted _ ?_ (fun q hq => hp q (mem_cons_of_mem p hq)) h).trans hfirst
      simp only [write, length_append, length_take, length_drop]
      omega

end Contents

/-! ## When sender and receiver agree -/

theorem numChunks_pos (hM : 0 < M) (hL : 0 < L) : 0 < (L + M - 1) / M :=
  Nat.div_pos (by omega) hM

theorem sendDataMPI_eq (hM : 0 < M) (hL : 0 < L) (hint : min L M < 2 ^ 31) :
    sendDataMPI M L = some (pieces M 0 ((L + M - 1) / M) L, toInt ((L + M - 1) / M : ℕ)) := by
  have h := sendLoop_eq (i := 0) hM le_rfl hint
  have hne : pieces M 0 ((L + M - 1) / M) L ≠ [] := by
    refine ne_nil_of_length_pos ?_
    rw [length_pieces]
    exact numChunks_pos hM hL
  rw [Nat.zero_mul] at h
  rw [sendDataMPI, h, bind_some, if_pos hne, length_pieces]

theorem recvDataDirect_eq (hn : 0 < n) (hint : min L M < 2 ^ 31) :
    recvDataDirect M n L = some (pieces M 0 n L) := by
  rw [recvDataDirect, if_pos (by omega), Int.toNat_natCast, recvLoop_eq hint]

theorem good_pieces (hM : 0 < M) {buf : ℕ} (hbuf : L ≤ buf) (hn : (L + M - 1) / M = n) :
    Transfer.Good ⟨pieces M 0 n L, buf, pieces M 0 n L⟩ L where
  matched := rfl
  room := hbuf
  contents data mem hdata hmem := by
    have hlen : mem.length = buf := hmem
    rw [deliver_pieces hM data mem (by omega) hn (by omega)]
    simp [write, hdata]

variable {cs : List Chunk} {nchunks : ℤ}

/-- A chunk that brings less than the data up to the next one leaves a gap. -/
theorem Transfer.Good.count_ge (h : t.Good L) {k : ℕ} {c : ℤ} (hsent : t.sent = ⟨0, c⟩ :: cs)
    (hcs : ∀ x ∈ cs, k ≤ x.offset) (hk : k ≤ L) : k ≤ c.toNat := by
  by_contra hlt
  have hroom := h.room
  have hall := h.contents (replicate L 0) (replicate t.buf 1) (by simp) (by simp)
  have hfirst : write (replicate t.buf (1 : UInt8)) 0 (((replicate L 0).drop 0).take
      c.toNat) = replicate c.toNat 0 ++ replicate (t.buf - c.toNat) 1 := by
    simp [write, Nat.min_eq_left (show c.toNat ≤ L by omega)]
  rw [h.matched, hsent, deliver, if_pos le_rfl, hfirst] at hall
  have htake := take_deliver _ cs cs _ _ (by simp; omega) hcs hall
  -- the first byte that is missing
  have hbyte := congrArg (·[c.toNat]?) htake
  simp only [getElem?_take_of_lt (show c.toNat < k by omega)] at hbyte
  rw [getElem?_append_left (by simp; omega), getElem?_append_right (by simp),
    getElem?_replicate, getElem?_replicate, if_pos (by omega), if_pos (by simp; omega)]
    at hbyte
  simp at hbyte

theorem sendLoop_offset {ptr : ℕ} (h : sendLoop M fuel ptr L = some cs) :
    ∀ c ∈ cs, ptr ≤ c.offset := by
  induction fuel generalizing ptr L cs with
  | zero =>
    cases L with
    | zero =>
      obtain rfl := some.inj h
      simp
    | succ r => simp [sendLoop] at h
  | succ fuel ih =>
    cases L with
    | zero =>
      obtain rfl := some.inj h
      simp
    | succ r =>
      rw [sendLoop] at h
      obtain ⟨-, h⟩ := ite_none_right_eq_some.mp h
      obtain ⟨rest, hrest, rfl⟩ := map_eq_some_iff.mp h
      intro c hc
      cases mem_cons.mp hc with
      | inl heq => rw [heq]
      | inr hmem => exact (Nat.le_add_right _ _).trans (ih hrest c hmem)

/-- The first chunk, with its count as MPI is given it. -/
theorem sendDataMPI_first (hL : 0 < L) (h : sendDataMPI M L = some (cs, nchunks)) :
    nchunks = toInt cs.length ∧ ∃ rest, cs = ⟨0, toInt (min L M : ℕ)⟩ :: rest ∧
      ∀ x ∈ rest, min L M ≤ x.offset := by
  obtain ⟨r, rfl⟩ := Nat.exists_eq_succ_of_ne_zero hL.ne'
  obtain ⟨cs', hloop, heq⟩ := bind_eq_some_iff.mp h
  obtain ⟨-, heq⟩ := Lib.of_guard heq
  obtain ⟨rfl, rfl⟩ := Prod.mk.inj heq
  rw [sendLoop] at hloop
  obtain ⟨-, hloop⟩ := ite_none_right_eq_some.mp hloop
  obtain ⟨rest, hrest, rfl⟩ := map_eq_some_iff.mp hloop
  refine ⟨rfl, rest, rfl, ?_⟩
  intro x hx
  simpa using sendLoop_offset hrest x hx

/-- A control message that does not fit announces itself by another one, without end. -/
theorem sendMsgMPI_none (h : M ≤ S) : sendMsgMPI M S fuel S = none := by
  induction fuel with
  | zero => rfl
  | succ fuel ih =>
    rw [sendMsgMPI, if_neg (by omega), ih]
    cases sendDataMPI M S <;> rfl

section

variable (hM : 0 < M) (hL : 0 < L)
include hM hL

/-- In a good transfer the count of the first chunk is exact. -/
theorem Transfer.Good.int_exact {posted : List Chunk} {buf : ℕ}
    (h : Transfer.Good ⟨cs, buf, posted⟩ L) (hs : sendDataMPI M L = some (cs, nchunks)) :
    min L M < 2 ^ 31 ∧ cs = pieces M 0 ((L + M - 1) / M) L ∧
      nchunks = toInt ((L + M - 1) / M : ℕ) := by
  obtain ⟨-, rest, hsent, hrest⟩ := sendDataMPI_first hL hs
  have hcount := h.count_ge hsent hrest (Nat.min_le_left L M)
  have hlt := toInt_lt (min L M : ℕ)
  have hint : min L M < 2 ^ 31 := by omega
  rw [sendDataMPI_eq hM hL hint, some.injEq, Prod.mk.injEq] at hs
  exact ⟨hint, hs.1.symm, hs.2.symm⟩

/-- The control message of an oversized message fits into one MPI message; and a receiver that takes
its length from the probe gets the data in one chunk. -/
def Path.Safe (M S L : ℕ) : Path → Prop
  | .active => M ≤ L → S < M
  | .serialized => True
  | .put => L ≤ M
  | .rdma userBuf => L ≤ M ∧ ∀ b ∈ userBuf, L ≤ b

/-- The counts and the number of chunks are in the range of `int`. -/
def Fits (M L : ℕ) : Prop := min L M < 2 ^ 31 ∧ (L + M - 1) / M < 2 ^ 31

/-- A receiver that knows the length and the number of chunks. -/
theorem recvDataDirect_good_iff :
    (∃ cs nchunks posted, sendDataMPI M L = some (cs, nchunks) ∧
      recvDataDirect M nchunks L = some posted ∧ Transfer.Good ⟨cs, L, posted⟩ L) ↔ Fits M L := by
  constructor
  · rintro ⟨cs, nchunks, posted, hs, hr, hgood⟩
    obtain ⟨hint, hcs, hnum⟩ := Transfer.Good.int_exact hM hL hgood hs
    obtain ⟨-, hloop⟩ := ite_none_right_eq_some.mp hr
    rw [recvLoop_eq hint, some.injEq] at hloop
    have hmatched : posted = cs := hgood.matched
    rw [← hloop, hcs] at hmatched
    have hlen : nchunks.toNat = (L + M - 1) / M := by
      simpa using congrArg length hmatched
    have hlt := toInt_lt ((L + M - 1) / M : ℕ)
    rw [← hnum] at hlt
    exact ⟨hint, by omega⟩
  · rintro ⟨hint, hnum⟩
    refine ⟨_, _, _, sendDataMPI_eq hM hL hint, ?_, good_pieces hM le_rfl rfl⟩
    rw [toInt_of_lt hnum]
    exact recvDataDirect_eq (numChunks_pos hM hL) hint

theorem active_agrees_iff (hS : S < 2 ^ 31) :
    Agrees M S .active L ↔ Fits M L ∧ (M ≤ L → S < M) := by
  rcases lt_or_ge L M with hlt | hge
  · -- sent as it is
    have hnum : (L + M - 1) / M = 1 := numChunks_le hL hlt.le
    constructor
    · rintro ⟨fuel, t, ht, hgood⟩
      obtain ⟨ws, hws, hrecv⟩ := bind_eq_some_iff.mp ht
      cases fuel with
      | zero => simp [sendMsgMPI] at hws
      | succ fuel =>
        rw [sendMsgMPI, if_pos hlt] at hws
        obtain ⟨-, rfl⟩ := Lib.of_guard hws
        obtain rfl := some.inj hrecv
        have hcount := hgood.count_ge (k := L) rfl (by simp) le_rfl
        have hub := toInt_lt L
        refine ⟨⟨?_, ?_⟩, ?_⟩ <;> omega
    · rintro ⟨⟨hint, -⟩, -⟩
      have hexact : toInt L = L := toInt_of_lt (by omega)
      have hpiece : [⟨0, (L : ℤ)⟩] = pieces M 0 1 L := by
        rw [pieces_succ, pieces_zero, Nat.zero_mul, Nat.min_eq_right hlt.le]
      refine ⟨1, ⟨[⟨0, L⟩], L, [⟨0, L⟩]⟩, ?_, ?_⟩
      · simp [transfer, sendMsgMPI, hlt, hexact, receiveMsg]
      · rw [hpiece]
        exact good_pieces hM le_rfl hnum
  · have hdirect := recvDataDirect_good_iff hM hL
    constructor
    · rintro ⟨fuel, t, ht, hgood⟩
      obtain ⟨ws, hws, hrecv⟩ := bind_eq_some_iff.mp ht
      cases fuel with
      | zero => simp [sendMsgMPI] at hws
      | succ fuel =>
        rw [sendMsgMPI, if_neg (by omega)] at hws
        obtain ⟨⟨cs, nchunks⟩, hs, hws⟩ := bind_eq_some_iff.mp hws
        obtain ⟨rest, hrest, rfl⟩ := map_eq_some_iff.mp hws
        obtain ⟨posted, hposted, rfl⟩ := map_eq_some_iff.mp hrecv
        refine ⟨hdirect.mp ⟨cs, nchunks, posted, hs, hposted, hgood⟩, fun _ => ?_⟩
        by_contra hS'
        rw [sendMsgMPI_none (by omega)] at hrest
        simp at hrest
    · rintro ⟨hfits, hctl⟩
      obtain ⟨cs, nchunks, posted, hs, hposted, hgood⟩ := hdirect.mpr hfits
      refine ⟨2, _, ?_, hgood⟩
      simp [transfer, sendMsgMPI, Nat.not_lt.mpr hge, hctl hge, hs, hposted, receiveMsg,
        toInt_of_lt hS]

/-- A receiver that takes its length from the probe of the first chunk. -/
theorem probed_agrees (hint : L < 2 ^ 31) (hLM : L ≤ M)
    (userBuf : Option ℕ) (hbuf : ∀ b ∈ userBuf, L ≤ b) :
    ∃ t, recvDataMsgBuffer M 1 userBuf (pieces M 0 1 L) = some t ∧ t.Good L := by
  have hmin : min M L = L := Nat.min_eq_right hLM
  have hrecv : recvDataDirect M 1 L = some (pieces M 0 1 L) :=
    recvDataDirect_eq (n := 1) one_pos (by omega)
  refine ⟨⟨pieces M 0 1 L, userBuf.getD L, pieces M 0 1 L⟩, ?_,
    good_pieces hM ?_ (numChunks_le hL hLM)⟩
  · have hhead : (pieces M 0 1 L).head? = some ⟨0, L⟩ := by
      rw [pieces_succ, hmin, Nat.zero_mul]
      rfl
    rw [recvDataMsgBuffer, hhead, bind_some, hrecv]
    rfl
  · cases userBuf with
    | none => exact le_rfl
    | some b => exact hbuf b rfl

/-- Data in several chunks is not received by such a receiver. -/
theorem Transfer.Good.one_chunk {n' : ℤ} {userBuf : Option ℕ}
    (hs : sendDataMPI M L = some (cs, nchunks)) (hr : recvDataMsgBuffer M n' userBuf cs = some t)
    (hgood : t.Good L) : L ≤ M ∧ min L M < 2 ^ 31 ∧ ∀ b ∈ userBuf, L ≤ b := by
  obtain ⟨c, hc, hr⟩ := bind_eq_some_iff.mp hr
  obtain ⟨posted, hposted, rfl⟩ := map_eq_some_iff.mp hr
  obtain ⟨hint, hcs, -⟩ := Transfer.Good.int_exact hM hL hgood hs
  refine ⟨?_, hint, ?_⟩
  · by_contra hlt
    rw [numChunks_gt hM (by omega), pieces_succ] at hcs
    rw [hcs, head?_cons, some.injEq] at hc
    -- the length is that of the first chunk, so the second receive is of no bytes
    obtain ⟨-, hloop⟩ := ite_none_right_eq_some.mp hposted
    have hcount : c.count = (M : ℕ) := by
      rw [← hc]
      exact congrArg Nat.cast (Nat.min_eq_left (by omega))
    rw [hcount, recvLoop_eq (by omega)] at hloop
    have hmatched : posted = cs := hgood.matched
    have hpos := numChunks_pos (M := M) (L := L - M) hM (by omega)
    obtain ⟨r, hr⟩ := Nat.exists_eq_succ_of_ne_zero hpos.ne'
    rw [← some.inj hloop, hcs, hr, pieces_succ] at hmatched
    have hsecond := congrArg (fun l => (l[1]?).map Chunk.count) hmatched
    cases hn : n'.toNat with
    | zero => simp [hn, pieces] at hsecond
    | succ m =>
      cases m with
      | zero => simp [hn, pieces_succ] at hsecond
      | succ m =>
        simp only [hn, pieces_succ, getElem?_cons_succ, getElem?_cons_zero,
          map_some, some.injEq, Nat.cast_inj] at hsecond
        omega
  · intro b hb
    have hroom : L ≤ userBuf.getD c.count.toNat := hgood.room
    rw [mem_def.mp hb] at hroom
    exact hroom

theorem Agrees.put_one_chunk (h : Agrees M S .put L) : L ≤ M ∧ min L M < 2 ^ 31 := by
  obtain ⟨fuel, t, ht, hgood⟩ := h
  obtain ⟨⟨cs, nchunks⟩, hs, ht⟩ := bind_eq_some_iff.mp ht
  obtain ⟨hLM, hint, -⟩ := Transfer.Good.one_chunk hM hL hs ht hgood
  exact ⟨hLM, hint⟩

theorem Agrees.rdma_one_chunk {userBuf : Option ℕ}
    (h : Agrees M S (.rdma userBuf) L) : L ≤ M ∧ min L M < 2 ^ 31 ∧ ∀ b ∈ userBuf, L ≤ b := by
  obtain ⟨fuel, t, ht, hgood⟩ := h
  obtain ⟨⟨cs, nchunks⟩, hs, ht⟩ := bind_eq_some_iff.mp ht
  exact Transfer.Good.one_chunk hM hL hs ht hgood

end

theorem Fits.of_le (hL : 0 < L) (hLM : L ≤ M) (hint : min L M < 2 ^ 31) : Fits M L := by
  refine ⟨hint, ?_⟩
  rw [numChunks_le hL hLM]
  decide

/-- On every path and for every length and maximum, sender and receiver agree if and only if the
counts are in the range of `int` and the path is safe. -/
theorem transfer_agrees_iff (hM : 0 < M) (hS : S < 2 ^ 31) (hL : 0 < L) :
    Agrees M S path L ↔ Fits M L ∧ path.Safe M S L := by
  cases path with
  | active => exact active_agrees_iff hM hL hS
  | serialized =>
    rw [Path.Safe, and_true, ← recvDataDirect_good_iff hM hL]
    constructor
    · rintro ⟨fuel, t, ht, hgood⟩
      obtain ⟨⟨cs, nchunks⟩, hs, ht⟩ := bind_eq_some_iff.mp ht
      obtain ⟨posted, hposted, rfl⟩ := map_eq_some_iff.mp ht
      exact ⟨cs, nchunks, posted, hs, hposted, hgood⟩
    · rintro ⟨cs, nchunks, posted, hs, hposted, hgood⟩
      exact ⟨0, _, by simp [transfer, hs, hposted], hgood⟩
  | put =>
    constructor
    · intro h
      obtain ⟨hLM, hint⟩ := Agrees.put_one_chunk hM hL h
      exact ⟨Fits.of_le hL hLM hint, hLM⟩
    · rintro ⟨⟨hint, -⟩, hLM⟩
      have hLM' : L ≤ M := hLM
      obtain ⟨t, ht, hgood⟩ := probed_agrees hM hL (by omega) hLM' none (by simp)
      refine ⟨0, t, ?_, hgood⟩
      simpa [transfer, sendDataMPI_eq hM hL hint, numChunks_le hL hLM'] using ht
  | rdma userBuf =>
    constructor
    · intro h
      obtain ⟨hLM, hint, hbuf⟩ := Agrees.rdma_one_chunk hM hL h
      exact ⟨Fits.of_le hL hLM hint, hLM, hbuf⟩
    · rintro ⟨⟨hint, -⟩, hLM, hbuf⟩
      obtain ⟨t, ht, hgood⟩ := probed_agrees hM hL (by omega) hLM userBuf hbuf
      refine ⟨0, t, ?_, hgood⟩
      have hone : toInt 1 = 1 := by decide
      simpa [transfer, sendDataMPI_eq hM hL hint, numChunks_le hL hLM, hone] using ht

/-- A serialized message of three chunks, and the payload of a put that fits into one. -/
theorem transfer_agrees_iff_fits : Agrees 256 96 .serialized 600 ∧ Agrees 256 96 .put 256 := by
  refine ⟨(transfer_agrees_iff (by decide) (by decide) (by decide)).mpr ?_,
    (transfer_agrees_iff (by decide) (by decide) (by decide)).mpr ?_⟩
  · exact ⟨⟨by decide, by decide⟩, trivial⟩
  · exact ⟨⟨by decide, by decide⟩, le_rfl⟩

/-- A payload of more than 512 bytes is not packed into its message, and one that is longer than the
maximum is sent in two chunks.  For a put only the first of them is received; for RDMA the receive
of the second one has no room for it. -/
theorem put_truncated :
    (transfer 512 96 0 .put 600 = some ⟨[⟨0, 512⟩, ⟨512, 88⟩], 512, [⟨0, 512⟩]⟩ ∧
      ¬ Agrees 512 96 .put 600) ∧
    transfer 512 96 0 (.rdma none) 600 = some ⟨[⟨0, 512⟩, ⟨512, 88⟩], 512, [⟨0, 512⟩, ⟨512, 0⟩]⟩ ∧
      ¬ Agrees 512 96 (.rdma none) 600 := by
  refine ⟨⟨by rfl, fun h => ?_⟩, by rfl, fun h => ?_⟩
  · exact absurd (Agrees.put_one_chunk (by decide) (by decide) h).1 (by decide)
  · exact absurd (Agrees.rdma_one_chunk (by decide) (by decide) h).1 (by decide)

end VtRuntime.Messaging
