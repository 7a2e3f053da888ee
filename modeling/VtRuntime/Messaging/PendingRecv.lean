import VtRuntime.Lib.Lists
import VtRuntime.Messaging.Transfer
import Mathlib.Data.Fin.Basic

/-!
# Receives of raw data that wait for their payload

A payload of a put or of RDMA is sent with a tag from the sender's own counter, and a control
message tells the receiver to receive it.  Its handler calls `recvDataMsg` or
`recvDataMsgBuffer`, which enqueue a pending receive.  `tryProcessDataMsgRecv` probes for the
pending receives and posts the MPI receives of one whose data has arrived; when they are
complete, the continuation is scheduled.

The system is one receiver and any number of senders.  MPI keeps the messages from one sender
with one tag in order, and matches them with the receives posted for them in order; nothing is
assumed about the order of the control messages.  `pending_recvs_` is a map with the tag as
its key, and `emplace` leaves an entry that exists as it is.
-/

namespace VtRuntime.Messaging

open Lib List Option

/-- A put, or RDMA with the user's buffer if the data goes into one, and with or without a
continuation. -/
inductive SendKind
  | put
  | rdma (userBuf : Option (List UInt8)) (next : Bool)

/-- An MPI message of raw data.  The number of the transfer is a book. -/
structure Packet where
  data : List UInt8
  transfer : ℕ

/-- The arguments of `recvDataMsgBuffer`: `PendingRecv` with the tag. -/
structure PendingRecv (N : Type) where
  tag : ℕ
  sender : N
  nchunks : ℤ
  userBuf : Option (List UInt8)
  next : Bool
  transfer : ℕ

/-- Receives that are posted; `reqs` are those not yet complete. -/
structure InProgressDataIRecv (N : Type) where
  buf : List UInt8
  probeBytes : ℕ
  sender : N
  tag : ℕ
  reqs : List Chunk
  next : Bool
  transfer : ℕ

/-- What a continuation is called with: the buffer up to its length. -/
structure Continuation where
  transfer : ℕ
  data : List UInt8
deriving DecidableEq

/-- The senders, the network and the receiver.  The receives posted are in the order in which
they were.  The last three fields are books: the payloads sent by their number, the receives
enqueued and the continuations run. -/
structure DataSys (N : Type) where
  curTag : N → ℕ
  channel : N → ℕ → List Packet := fun _ _ => []
  notices : List (PendingRecv N) := []
  pendingRecvs : List (PendingRecv N) := []
  inProgress : List (InProgressDataIRecv N) := []
  scheduled : List Continuation := []
  sent : List (List UInt8) := []
  enqueued : List ℕ := []
  ran : List Continuation := []

/-- What can happen.  `skip` is a tag allocated for data to another receiver.  The memory that
the pool allocates has any contents. -/
inductive DataAct (N : Type)
  | send (n : N) (kind : SendKind) (data : List UInt8)
  | skip (n : N)
  | enqueue (i : ℕ)
  | tryProcess (tag : ℕ) (mem : List UInt8)
  | arrive (n : N) (tag : ℕ)
  | finish (i : ℕ)
  | run (i : ℕ)

/-- The steps of the scheduler of the receiver and of MPI. -/
def DataAct.Progress {N : Type} : DataAct N → Prop
  | .tryProcess _ _ | .arrive _ _ | .finish _ | .run _ => True
  | _ => False

def startingDirectBufferTag : ℕ := 1000

/-- The tag, and the counter afterwards. -/
def allocateNewTag (maxTag cur : ℕ) : ℕ × ℕ :=
  let tag := if cur = maxTag then startingDirectBufferTag else cur
  (tag, tag + 1)

namespace DataSys

variable {N : Type} [DecidableEq N]

variable (maxPerSend : ℕ) (s : DataSys N)

def setChannel (n : N) (tag : ℕ) (ps : List Packet) : DataSys N :=
  { s with channel := fun n' tag' => if n' = n ∧ tag' = tag then ps else s.channel n' tag' }

/-- The receive that the control message of a payload asks for.  That of a put has no number of
chunks: its receiver takes one. -/
def notice (kind : SendKind) (n : N) (tag : ℕ) (num : ℤ) (transfer : ℕ) : PendingRecv N :=
  match kind with
  | .put => ⟨tag, n, 1, none, true, transfer⟩
  | .rdma userBuf next => ⟨tag, n, num, userBuf, next, transfer⟩

/-- `sendData` with a new tag, and the control message. -/
def send (maxPerSend maxTag : ℕ) (s : DataSys N) (n : N) (kind : SendKind) (data : List UInt8) :
    Option (DataSys N) :=
  let alloc := allocateNewTag maxTag (s.curTag n)
  let transfer := s.sent.length
  (sendDataMPI maxPerSend data.length).map fun (chunks, num) =>
    let packets := chunks.map fun c => ⟨(data.drop c.offset).take c.count.toNat, transfer⟩
    { s.setChannel n alloc.1 (s.channel n alloc.1 ++ packets) with
      curTag := Function.update s.curTag n alloc.2
      notices := s.notices ++ [notice kind n alloc.1 num transfer]
      sent := s.sent ++ [data] }

/-- `recvDataMsgBuffer` with `enqueue`. -/
def enqueue (p : PendingRecv N) : DataSys N :=
  { s with
    pendingRecvs := if ∃ q ∈ s.pendingRecvs, q.tag = p.tag then s.pendingRecvs
      else s.pendingRecvs ++ [p]
    enqueued := s.enqueued ++ [p.transfer] }

/-- The requests posted for a sender and a tag that are not complete, by their transfers. -/
def waiting (rs : List (InProgressDataIRecv N)) (n : N) (tag : ℕ) : List ℕ :=
  rs.flatMap fun r =>
    if r.sender = n ∧ r.tag = tag then r.reqs.map fun _ => r.transfer else []

/-- The first message that a receive posted now would get. -/
def probe (n : N) (tag : ℕ) : Option Packet :=
  (s.channel n tag)[(waiting s.inProgress n tag).length]?

/-- `recvDataMsgBuffer` without `enqueue`, on an element of the map. -/
def tryProcess (tag : ℕ) (mem : List UInt8) : Option (DataSys N) :=
  (s.pendingRecvs.find? (·.tag = tag)).bind fun p =>
    (s.probe p.sender tag).bind fun packet =>
      if mem.length = packet.data.length then
        (recvDataDirect maxPerSend p.nchunks packet.data.length).map fun reqs =>
          { s with
            pendingRecvs := s.pendingRecvs.filter (·.tag ≠ tag)
            inProgress := s.inProgress ++
              [⟨p.userBuf.getD mem, packet.data.length, p.sender, tag, reqs, p.next, p.transfer⟩] }
      else none

/-- The first request for a sender and a tag gets the message, which must not be longer. -/
def complete (n : N) (tag : ℕ) (packet : Packet) :
    List (InProgressDataIRecv N) → Option (List (InProgressDataIRecv N))
  | [] => none
  | r :: rs =>
      if r.sender = n ∧ r.tag = tag then
        match r.reqs with
        | [] => (complete n tag packet rs).map (r :: ·)
        | q :: qs =>
            if packet.data.length ≤ q.count then
              some ({ r with reqs := qs, buf := write r.buf q.offset packet.data } :: rs)
            else none
      else (complete n tag packet rs).map (r :: ·)

def arrive (n : N) (tag : ℕ) : Option (DataSys N) :=
  match s.channel n tag with
  | [] => none
  | packet :: rest =>
      (complete n tag packet s.inProgress).map fun inProgress =>
        { s.setChannel n tag rest with inProgress := inProgress }

/-- `finishPendingDataMsgAsyncRecv`: a continuation is scheduled to run later; without one only
the action of the user's buffer is run, and that at once. -/
def finish (i : ℕ) (r : InProgressDataIRecv N) : DataSys N :=
  let c : Continuation := ⟨r.transfer, r.buf.take r.probeBytes⟩
  if r.next then
    { s with inProgress := s.inProgress.eraseIdx i, scheduled := s.scheduled ++ [c] }
  else
    { s with inProgress := s.inProgress.eraseIdx i, ran := s.ran ++ [c] }

def step (maxPerSend maxTag : ℕ) (s : DataSys N) : DataAct N → Option (DataSys N)
  | .send n kind data => s.send maxPerSend maxTag n kind data
  | .skip n => some { s with
      curTag := Function.update s.curTag n (allocateNewTag maxTag (s.curTag n)).2 }
  | .enqueue i => s.notices[i]?.map fun p =>
      { s.enqueue p with notices := s.notices.eraseIdx i }
  | .tryProcess tag mem => s.tryProcess maxPerSend tag mem
  | .arrive n tag => s.arrive n tag
  | .finish i => s.inProgress[i]?.bind fun r => if r.reqs = [] then some (s.finish i r) else none
  | .run i => s.scheduled[i]?.map fun c =>
      { s with scheduled := s.scheduled.eraseIdx i, ran := s.ran ++ [c] }

def start : DataSys N := { curTag := fun _ => startingDirectBufferTag }

def init : Prop := s = start

/-! ## The condition -/

/-- The payload fits into one message and into its buffer. -/
def Fit (kind : SendKind) (data : List UInt8) : Prop :=
  0 < data.length ∧ data.length ≤ maxPerSend ∧ data.length < 2 ^ 31 ∧
    match kind with
    | .put => True
    | .rdma userBuf _ => ∀ b ∈ userBuf, data.length ≤ b.length

/-- A receive is enqueued while no receive with its tag is pending, and after all earlier
payloads of its sender with its tag have got their receives. -/
def InTurn (p : PendingRecv N) : Prop :=
  (∀ q ∈ s.pendingRecvs, q.tag ≠ p.tag) ∧
    (s.probe p.sender p.tag).map (·.transfer) = some p.transfer

/-- The condition on the sends and on the receives that are enqueued. -/
def Orderly : DataAct N → Prop
  | .send _ kind data => Fit maxPerSend kind data
  | .enqueue i => ∀ p ∈ s.notices[i]?, s.InTurn p
  | _ => True

instance (maxPerSend : ℕ) : (kind : SendKind) → (data : List UInt8) →
    Decidable (Fit maxPerSend kind data)
  | .put, _ => inferInstanceAs (Decidable (_ ∧ _ ∧ _ ∧ True))
  | .rdma userBuf _, data =>
      inferInstanceAs (Decidable (_ ∧ _ ∧ _ ∧ ∀ b ∈ userBuf, data.length ≤ b.length))

instance (s : DataSys N) (p : PendingRecv N) : Decidable (s.InTurn p) :=
  inferInstanceAs (Decidable (_ ∧ _))

instance (maxPerSend : ℕ) (s : DataSys N) : (a : DataAct N) → Decidable (Orderly maxPerSend s a)
  | .send _ kind data => inferInstanceAs (Decidable (Fit maxPerSend kind data))
  | .enqueue i => inferInstanceAs (Decidable (∀ p ∈ s.notices[i]?, s.InTurn p))
  | .skip _ | .tryProcess _ _ | .arrive _ _ | .finish _ | .run _ => isTrue trivial

/-! ## The invariant -/

/-- The transfers whose receive is enqueued, wherever it is. -/
def places : List ℕ :=
  s.pendingRecvs.map (·.transfer) ++ s.inProgress.map (·.transfer) ++
    s.scheduled.map (·.transfer) ++ s.ran.map (·.transfer)

/-- The pending receives of a sender with a tag. -/
def pendingFor (ps : List (PendingRecv N)) (n : N) (tag : ℕ) : List ℕ :=
  (ps.filter fun p => p.sender = n ∧ p.tag = tag).map (·.transfer)

end DataSys

/-- A payload in one chunk. -/
def Whole (maxPerSend : ℕ) (data : List UInt8) : Prop :=
  data.length ≤ maxPerSend ∧ data.length < 2 ^ 31

/-- The arguments of the receive suit the payload. -/
def PendingRecv.Suits {N : Type} (sent : List (List UInt8)) (p : PendingRecv N) : Prop :=
  p.nchunks = 1 ∧ ∃ data, sent[p.transfer]? = some data ∧ ∀ b ∈ p.userBuf, data.length ≤ b.length

/-- The buffer has room for the payload, or holds it. -/
def InProgressDataIRecv.Suits {N : Type} (sent : List (List UInt8)) (r : InProgressDataIRecv N) :
    Prop :=
  ∃ data, sent[r.transfer]? = some data ∧ r.probeBytes = data.length ∧
    ((r.reqs = [⟨0, data.length⟩] ∧ data.length ≤ r.buf.length) ∨
      (r.reqs = [] ∧ r.buf.take data.length = data))

/-- The invariant.  The messages on their way from a sender with a tag begin with those of the
requests posted for them and that of the pending receive. -/
structure RecvInv {N : Type} [DecidableEq N] (maxPerSend : ℕ) (s : DataSys N) : Prop where
  numbered : (s.notices.map (·.transfer) ++ s.enqueued).Perm (range s.sent.length)
  placed : s.places.Perm s.enqueued
  tags : s.pendingRecvs.Pairwise fun p q => p.tag ≠ q.tag
  notice : ∀ p ∈ s.notices, p.Suits s.sent
  pending : ∀ p ∈ s.pendingRecvs, p.Suits s.sent
  posted : ∀ r ∈ s.inProgress, r.Suits s.sent
  packet : ∀ n tag, ∀ p ∈ s.channel n tag, s.sent[p.transfer]? = some p.data ∧
    Whole maxPerSend p.data
  matched : ∀ n tag, DataSys.waiting s.inProgress n tag ++ DataSys.pendingFor s.pendingRecvs n tag
    <+: (s.channel n tag).map (·.transfer)
  result : ∀ c ∈ s.scheduled ++ s.ran, s.sent[c.transfer]? = some c.data

namespace DataSys

variable {N : Type} [DecidableEq N] {M maxTag : ℕ} {s s' : DataSys N}

section

variable (n : N) (tag : ℕ)

@[simp] theorem waiting_append (rs rs' : List (InProgressDataIRecv N)) :
    waiting (rs ++ rs') n tag = waiting rs n tag ++ waiting rs' n tag :=
  flatMap_append

@[simp] theorem waiting_cons (r : InProgressDataIRecv N) (rs : List (InProgressDataIRecv N)) :
    waiting (r :: rs) n tag =
      (if r.sender = n ∧ r.tag = tag then r.reqs.map fun _ => r.transfer else []) ++
        waiting rs n tag :=
  flatMap_cons

@[simp] theorem waiting_nil : waiting ([] : List (InProgressDataIRecv N)) n tag = [] := rfl

@[simp] theorem pendingFor_append (ps qs : List (PendingRecv N)) :
    pendingFor (ps ++ qs) n tag = pendingFor ps n tag ++ pendingFor qs n tag := by
  simp [pendingFor]

@[simp] theorem pendingFor_cons (p : PendingRecv N) (ps : List (PendingRecv N)) :
    pendingFor (p :: ps) n tag =
      (if p.sender = n ∧ p.tag = tag then [p.transfer] else []) ++ pendingFor ps n tag := by
  by_cases h : p.sender = n ∧ p.tag = tag <;> simp [pendingFor, h]

@[simp] theorem pendingFor_nil : pendingFor ([] : List (PendingRecv N)) n tag = [] := rfl

end

variable {ps : List (PendingRecv N)} {p : PendingRecv N}

theorem pendingFor_eq_nil {tag : ℕ} (h : ∀ q ∈ ps, q.tag ≠ tag) (n : N) :
    pendingFor ps n tag = [] := by
  have hnone : ps.filter (fun q => q.sender = n ∧ q.tag = tag) = [] := by
    rw [filter_eq_nil_iff]
    intro q hq
    simp [h q hq]
  rw [pendingFor, hnone, map_nil]

omit [DecidableEq N] in
theorem exists_others (h : ps.Pairwise fun p q => p.tag ≠ q.tag) (hp : p ∈ ps) :
    ∃ pre post, ps = pre ++ p :: post ∧ ps.filter (·.tag ≠ p.tag) = pre ++ post ∧
      ∀ q ∈ pre ++ post, q.tag ≠ p.tag := by
  obtain ⟨pre, post, rfl⟩ := append_of_mem hp
  obtain ⟨-, hpost, hpre⟩ := pairwise_append.mp h
  rw [pairwise_cons] at hpost
  have hne : ∀ q ∈ pre ++ post, q.tag ≠ p.tag :=
    forall_mem_append.mpr ⟨fun q hq => hpre q hq p mem_cons_self, fun q hq => (hpost.1 q hq).symm⟩
  refine ⟨pre, post, rfl, ?_, hne⟩
  rw [filter_append, filter_cons_of_neg (by simp), ← filter_append,
    filter_eq_self]
  exact fun q hq => decide_eq_true (hne q hq)

theorem pendingFor_mem (h : ps.Pairwise fun p q => p.tag ≠ q.tag) (hp : p ∈ ps) (n : N) :
    pendingFor ps n p.tag = if p.sender = n then [p.transfer] else [] := by
  obtain ⟨pre, post, rfl, -, hne⟩ := exists_others h hp
  have hpre := pendingFor_eq_nil (fun q hq => hne q (mem_append_left post hq)) n
  have hpost := pendingFor_eq_nil (fun q hq => hne q (mem_append_right pre hq)) n
  simp [hpre, hpost]

theorem init_inv (h : init s) : RecvInv M s := by
  obtain rfl : s = start := h
  constructor <;> simp [start, places]

/-! ## The steps -/

theorem getElem?_sent {sent : List (List UInt8)} {t : ℕ} {d : List UInt8} (h : sent[t]? = some d)
    (x : List UInt8) : (sent ++ [x])[t]? = some d := by
  obtain ⟨hlt, -⟩ := List.getElem?_eq_some_iff.mp h
  rw [getElem?_append_left hlt, h]

end DataSys

/-- A payload in one chunk: the chunk that is sent, and the receive that is posted. -/
theorem sendDataMPI_whole {M L : ℕ} (h0 : 0 < L) (hM : L ≤ M) (hint : L < 2 ^ 31) :
    sendDataMPI M L = some ([⟨0, L⟩], 1) := by
  have hone : toInt 1 = 1 := by decide
  rw [sendDataMPI_eq (by omega) h0 (by omega), numChunks_le h0 hM, pieces_succ, pieces_zero,
    Nat.min_eq_right hM, Nat.zero_mul, Nat.cast_one, hone]

theorem recvDataDirect_whole {M L : ℕ} (hM : L ≤ M) (hint : L < 2 ^ 31) :
    recvDataDirect M 1 L = some [⟨0, L⟩] := by
  have h := recvDataDirect_eq (M := M) (n := 1) (L := L) one_pos (by omega)
  rwa [pieces_succ, pieces_zero, Nat.min_eq_right hM, Nat.zero_mul] at h

theorem PendingRecv.Suits.append {N : Type} {sent : List (List UInt8)} {p : PendingRecv N}
    (h : p.Suits sent) (x : List UInt8) : p.Suits (sent ++ [x]) := by
  obtain ⟨hone, data, hdata, hbuf⟩ := h
  exact ⟨hone, data, DataSys.getElem?_sent hdata x, hbuf⟩

theorem InProgressDataIRecv.Suits.append {N : Type} {sent : List (List UInt8)}
    {r : InProgressDataIRecv N} (h : r.Suits sent) (x : List UInt8) : r.Suits (sent ++ [x]) := by
  obtain ⟨data, hdata, hrest⟩ := h
  exact ⟨data, DataSys.getElem?_sent hdata x, hrest⟩

namespace DataSys

variable {N : Type} [DecidableEq N] {M maxTag : ℕ} {s s' : DataSys N}

omit [DecidableEq N] in
@[simp] theorem notice_transfer (kind : SendKind) (n : N) (tag : ℕ) (num : ℤ) (t : ℕ) :
    (notice kind n tag num t).transfer = t := by
  cases kind <;> rfl

variable {n : N} {i tag : ℕ} {packet : Packet} {rs : List (InProgressDataIRecv N)} {a : DataAct N}

theorem send_inv {kind : SendKind} {data : List UInt8} (hi : RecvInv M s) (hfit : Fit M kind data)
    (h : s.send M maxTag n kind data = some s') : RecvInv M s' := by
  obtain ⟨h0, hM, hint, hbuf⟩ := hfit
  simp only [send, sendDataMPI_whole h0 hM hint, map_some, Option.some.injEq] at h
  subst h
  have hnew : (s.sent ++ [data])[s.sent.length]? = some data := by simp
  have hold : ∀ m tag, ∀ p ∈ s.channel m tag, (s.sent ++ [data])[p.transfer]? = some p.data ∧
      Whole M p.data := fun m tag p hp => (hi.packet m tag p hp).imp_left (getElem?_sent · data)
  refine { hi with
    numbered := ?numbered
    notice := ?notice
    pending := fun p hp => (hi.pending p hp).append data
    posted := fun r hr => (hi.posted r hr).append data
    packet := ?packet
    matched := ?matched
    result := fun c hc => getElem?_sent (hi.result c hc) data }
  case numbered =>
    have hperm := hi.numbered.append_right [s.sent.length]
    rw [← range_succ] at hperm
    simp only [map_append, map_cons, map_nil, notice_transfer, length_append,
      length_singleton]
    refine Perm.trans ?_ hperm
    rw [append_assoc, append_assoc]
    exact perm_append_comm.append_left _
  case notice =>
    refine forall_mem_concat (fun p hp => (hi.notice p hp).append data) ?_
    cases kind with
    | put => exact ⟨rfl, data, hnew, fun b hb => by simp [notice] at hb⟩
    | rdma userBuf next => exact ⟨rfl, data, hnew, hbuf⟩
  case packet =>
    intro m tag
    simp only [setChannel]
    split
    · refine forall_mem_concat (hold _ _) ?_
      simpa using ⟨hM, hint⟩
    · exact hold m tag
  case matched =>
    intro m tag
    refine (hi.matched m tag).trans ?_
    simp only [setChannel]
    split
    next heq => simp [heq.1, heq.2]
    next => exact prefix_rfl

variable {p : PendingRecv N} {mem : List UInt8} {rs' : List (InProgressDataIRecv N)} {r :
    InProgressDataIRecv N} {c : Continuation}

theorem enqueue_inv (hi : RecvInv M s) (hp : s.notices[i]? = some p) (hturn : s.InTurn p) :
    RecvInv M { s.enqueue p with notices := s.notices.eraseIdx i } := by
  obtain ⟨htag, hprobe⟩ := hturn
  have hmem : p ∈ s.notices := mem_of_getElem? hp
  have hfresh : ¬ ∃ q ∈ s.pendingRecvs, q.tag = p.tag := fun ⟨q, hq, heq⟩ => htag q hq heq
  simp only [enqueue, if_neg hfresh]
  refine { hi with
    numbered := ?numbered
    placed := ?placed
    tags := pairwise_append.mpr ⟨hi.tags, pairwise_singleton _ _, fun q hq =>
      forall_mem_singleton.mpr (htag q hq)⟩
    notice := fun q hq => hi.notice q (mem_of_mem_eraseIdx hq)
    pending := forall_mem_concat hi.pending (hi.notice p hmem)
    matched := fun m tag => ?matched }
  case numbered =>
    refine Perm.trans ?_ hi.numbered
    rw [← append_assoc]
    refine (perm_append_singleton _ _).trans ?_
    exact ((perm_eraseIdx hp).symm.map PendingRecv.transfer).append_right s.enqueued
  case placed =>
    simp only [places, map_append, map_cons, map_nil, append_assoc,
      singleton_append]
    refine perm_middle.trans ?_
    refine Perm.trans ?_ (perm_append_singleton _ _).symm
    refine Perm.cons _ ?_
    simpa [places] using hi.placed
  case matched =>
    have hold := hi.matched m tag
    rw [pendingFor_append, ← append_assoc, pendingFor_cons, pendingFor_nil, append_nil]
    split
    next heq =>
      -- no receive with this tag is pending, and the next message is that of the transfer
      obtain ⟨rfl, rfl⟩ := heq
      rw [pendingFor_eq_nil htag, append_nil] at hold ⊢
      refine prefix_concat hold ?_
      rwa [getElem?_map]
    next => rwa [append_nil]

/-- The message that a pending receive finds is that of its transfer. -/
theorem probe_pending (hi : RecvInv M s) (hp : p ∈ s.pendingRecvs) :
    ∃ packet, s.probe p.sender p.tag = some packet ∧ Whole M packet.data ∧
      s.sent[p.transfer]? = some packet.data := by
  have hmatched := hi.matched p.sender p.tag
  rw [pendingFor_mem hi.tags hp, if_pos rfl] at hmatched
  have hnext := getElem?_of_prefix_concat hmatched
  rw [getElem?_map] at hnext
  obtain ⟨packet, hpacket, heq⟩ := map_eq_some_iff.mp hnext
  obtain ⟨hsent, hwhole⟩ := hi.packet _ _ packet (mem_of_getElem? hpacket)
  exact ⟨packet, hpacket, hwhole, heq ▸ hsent⟩

theorem tryProcess_cases (hi : RecvInv M s) (h : s.tryProcess M tag mem = some s') :
    ∃ p pre post data buf, p ∈ s.pendingRecvs ∧ s.pendingRecvs = pre ++ p :: post ∧
      (∀ q ∈ pre ++ post, q.tag ≠ p.tag) ∧ s.sent[p.transfer]? = some data ∧
      data.length ≤ buf.length ∧
      s' = { s with
        pendingRecvs := pre ++ post
        inProgress := s.inProgress ++
          [⟨buf, data.length, p.sender, p.tag, [⟨0, data.length⟩], p.next, p.transfer⟩] } := by
  obtain ⟨p, hp, h⟩ := bind_eq_some_iff.mp h
  obtain ⟨packet, hpacket, h⟩ := bind_eq_some_iff.mp h
  obtain ⟨hmem, h⟩ := ite_none_right_eq_some.mp h
  obtain ⟨reqs, hreqs, rfl⟩ := map_eq_some_iff.mp h
  obtain rfl : p.tag = tag := by simpa using find?_some hp
  have hpend : p ∈ s.pendingRecvs := mem_of_find?_eq_some hp
  obtain ⟨hone, data, hdata, hroom⟩ := hi.pending p hpend
  obtain ⟨pre, post, hsplit, hothers, hne⟩ := exists_others hi.tags hpend
  obtain ⟨packet', hpacket', hwhole, hsent⟩ := probe_pending hi hpend
  obtain rfl : packet' = packet := Option.some.inj (hpacket'.symm.trans hpacket)
  obtain rfl : data = packet'.data := Option.some.inj (hdata.symm.trans hsent)
  rw [hone, recvDataDirect_whole hwhole.1 hwhole.2, Option.some.injEq] at hreqs
  subst hreqs
  rw [hothers]
  refine ⟨p, pre, post, packet'.data, _, hpend, hsplit, hne, hdata, ?_, rfl⟩
  cases hbuf : p.userBuf with
  | none => exact hmem.ge
  | some b => exact hroom b hbuf

theorem tryProcess_inv (hi : RecvInv M s) (h : s.tryProcess M tag mem = some s') :
    RecvInv M s' := by
  obtain ⟨p, pre, post, data, buf, hp, hsplit, hne, hdata, hroom, rfl⟩ := tryProcess_cases hi h
  have hsub : ∀ q ∈ pre ++ post, q ∈ s.pendingRecvs := by
    intro q hq
    rw [hsplit]
    simp only [mem_append, mem_cons] at hq ⊢
    tauto
  refine { hi with
    placed := ?placed
    tags := ?tags
    pending := fun q hq => hi.pending q (hsub q hq)
    posted := forall_mem_concat hi.posted ⟨data, hdata, rfl, Or.inl ⟨rfl, hroom⟩⟩
    matched := fun m tag => ?matched }
  case placed =>
    refine Perm.trans ?_ hi.placed
    rw [places, places, hsplit]
    simp only [map_append, map_cons, map_nil, append_assoc,
      cons_append, nil_append]
    refine Perm.append_left _ ?_
    rw [← append_assoc, ← append_assoc (post.map _)]
    exact perm_middle
  case tags =>
    have htags := hi.tags
    rw [hsplit, pairwise_append, pairwise_cons] at htags
    exact pairwise_append.mpr ⟨htags.1, htags.2.1.2, fun x hx y hy =>
      htags.2.2 x hx y (mem_cons_of_mem _ hy)⟩
  case matched =>
    have hold := hi.matched m tag
    rw [waiting_append, waiting_cons, waiting_nil, append_nil, append_assoc]
    by_cases htag : p.tag = tag
    · subst htag
      rw [pendingFor_mem hi.tags hp] at hold
      rw [pendingFor_eq_nil hne, append_nil]
      simpa using hold
    · rw [hsplit] at hold
      simpa [htag] using hold

/-- The first request for a sender and a tag has got a message. -/
def Filled (n : N) (tag : ℕ) (packet : Packet) (rs rs' : List (InProgressDataIRecv N)) : Prop :=
  ∃ pre r post q qs, rs = pre ++ r :: post ∧ r.sender = n ∧ r.tag = tag ∧ r.reqs = q :: qs ∧
    waiting pre n tag = [] ∧
    rs' = pre ++ { r with reqs := qs, buf := write r.buf q.offset packet.data } :: post

theorem Filled.cons (hr : waiting [r] n tag = []) (h : Filled n tag packet rs rs') :
    Filled n tag packet (r :: rs) (r :: rs') := by
  obtain ⟨pre, r', post, q, qs, rfl, hn, ht, hq, hwait, rfl⟩ := h
  refine ⟨r :: pre, r', post, q, qs, rfl, hn, ht, hq, ?_, rfl⟩
  rw [← singleton_append, waiting_append, hr, hwait, append_nil]

theorem complete_spec (h : complete n tag packet rs = some rs') : Filled n tag packet rs rs' := by
  induction rs generalizing rs' with
  | nil => simp [complete] at h
  | cons r rs ih =>
    rw [complete] at h
    split at h
    next heq =>
      split at h
      next hnil =>
        obtain ⟨rs₁, hrs₁, rfl⟩ := map_eq_some_iff.mp h
        exact (ih hrs₁).cons (by simp [hnil])
      next q qs hcons =>
        obtain ⟨-, rfl⟩ := of_guard h
        exact ⟨[], r, rs, q, qs, rfl, heq.1, heq.2, hcons, rfl, rfl⟩
    next hne =>
      obtain ⟨rs₁, hrs₁, rfl⟩ := map_eq_some_iff.mp h
      exact (ih hrs₁).cons (by simp [hne])

theorem arrive_cases (h : s.arrive n tag = some s') : ∃ packet rest rs',
    s.channel n tag = packet :: rest ∧ Filled n tag packet s.inProgress rs' ∧
      s' = { s.setChannel n tag rest with inProgress := rs' } := by
  rw [arrive] at h
  split at h
  next => simp at h
  next packet rest hchan =>
    obtain ⟨rs', hrs', rfl⟩ := map_eq_some_iff.mp h
    exact ⟨packet, rest, rs', hchan, complete_spec hrs', rfl⟩

theorem arrive_inv (hi : RecvInv M s) (h : s.arrive n tag = some s') : RecvInv M s' := by
  obtain ⟨packet, rest, _, hchan, ⟨pre, r, post, q, qs, hsplit, rfl, rfl, hq, hwait, rfl⟩, rfl⟩ :=
    arrive_cases h
  -- there is one request, and the message is that of its transfer
  have hr : r ∈ s.inProgress := by
    rw [hsplit]
    exact mem_append_right _ mem_cons_self
  obtain ⟨data, hdata, hbytes, hstate⟩ := hi.posted r hr
  obtain ⟨hreqs, hroom⟩ : r.reqs = [⟨0, data.length⟩] ∧ data.length ≤ r.buf.length := by
    rcases hstate with hwaiting | ⟨hnil, -⟩
    · exact hwaiting
    · rw [hnil] at hq
      exact absurd hq (by simp)
  obtain ⟨rfl, rfl⟩ : q = ⟨0, data.length⟩ ∧ qs = [] := by
    rw [hreqs] at hq
    simpa [eq_comm] using hq
  have hmatched := hi.matched r.sender r.tag
  rw [hsplit, hchan, waiting_append, waiting_cons, hwait, hreqs] at hmatched
  simp only [and_self, if_true, map_cons, map_nil, nil_append,
    cons_append, cons_prefix_cons] at hmatched
  obtain ⟨hat, hmatched⟩ := hmatched
  have hpackets := hi.packet r.sender r.tag
  rw [hchan, forall_mem_cons, ← hat, hdata] at hpackets
  obtain rfl : data = packet.data := Option.some.inj hpackets.1.1
  refine { hi with
    placed := Perm.trans ?placed hi.placed
    posted := ?posted
    packet := fun m tag => ?packet
    matched := fun m tag => ?matched }
  case placed => simp [places, setChannel, hsplit]
  case posted =>
    obtain ⟨hpre, hpost⟩ := forall_mem_append.mp (hsplit ▸ hi.posted)
    refine forall_mem_append.mpr ⟨hpre, forall_mem_cons.mpr ⟨?_, (forall_mem_cons.mp hpost).2⟩⟩
    exact ⟨packet.data, hdata, hbytes, Or.inr ⟨rfl, by simp [write]⟩⟩
  case packet =>
    simp only [setChannel]
    split
    · exact hpackets.2
    · exact hi.packet m tag
  case matched =>
    simp only [setChannel]
    split
    next heq =>
      obtain ⟨rfl, rfl⟩ := heq
      simpa [hwait] using hmatched
    next hne =>
      have hold := hi.matched m tag
      have hne' : ¬ (r.sender = m ∧ r.tag = tag) := fun heq => hne ⟨heq.1.symm, heq.2.symm⟩
      simpa [hsplit, hne'] using hold

theorem finish_inv (hi : RecvInv M s) (hr : s.inProgress[i]? = some r) (hdone : r.reqs = []) :
    RecvInv M (s.finish i r) := by
  obtain ⟨pre, post, hsplit, herase⟩ := exists_eraseIdx hr
  obtain ⟨data, hdata, hbytes, hstate⟩ := hi.posted r (mem_of_getElem? hr)
  have hbuf : r.buf.take r.probeBytes = data := by
    rcases hstate with ⟨hreqs, -⟩ | ⟨-, hbuf⟩
    · rw [hdone] at hreqs
      exact absurd hreqs (by simp)
    · rwa [hbytes]
  have hposted : ∀ x ∈ pre ++ post, x.Suits s.sent := fun x hx =>
    hi.posted x (mem_of_mem_eraseIdx (herase ▸ hx))
  have hmatched : ∀ m tag, waiting (pre ++ post) m tag ++ pendingFor s.pendingRecvs m tag
      <+: (s.channel m tag).map (·.transfer) := by
    intro m tag
    simpa [hsplit, hdone] using hi.matched m tag
  obtain ⟨sched, ran, heq, hperm⟩ : ∃ sched ran, s.finish i r =
      { s with inProgress := pre ++ post, scheduled := sched, ran := ran } ∧
      (sched ++ ran).Perm (⟨r.transfer, data⟩ :: (s.scheduled ++ s.ran)) := by
    rw [finish, hbuf, herase]
    split
    · refine ⟨_, _, rfl, ?_⟩
      rw [append_assoc]
      exact perm_middle
    · refine ⟨_, _, rfl, ?_⟩
      rw [← append_assoc]
      exact perm_append_singleton _ _
  rw [heq]
  refine { hi with
    placed := ?placed
    posted := hposted
    matched := hmatched
    result := ?result }
  case placed =>
    refine Perm.trans (perm_iff_count.mpr fun t => ?_) hi.placed
    have ht := (hperm.map (·.transfer)).count_eq t
    rw [places, places, hsplit]
    simp only [map_append, map_cons, count_append, count_cons] at ht ⊢
    omega
  case result =>
    intro c hc
    rcases mem_cons.mp (hperm.mem_iff.mp hc) with rfl | hc
    · exact hdata
    · exact hi.result c hc

theorem run_inv (hi : RecvInv M s) (hc : s.scheduled[i]? = some c) :
    RecvInv M { s with scheduled := s.scheduled.eraseIdx i, ran := s.ran ++ [c] } := by
  have hperm : (s.scheduled.eraseIdx i ++ (s.ran ++ [c])).Perm (s.scheduled ++ s.ran) := by
    rw [← append_assoc]
    exact (perm_append_singleton _ _).trans ((perm_eraseIdx hc).symm.append_right _)
  refine { hi with
    placed := Perm.trans ?_ hi.placed
    result := fun c' hc' => hi.result c' (hperm.mem_iff.mp hc') }
  have hplaces := hperm.map (·.transfer)
  simp only [places, map_append, append_assoc] at hplaces ⊢
  exact (hplaces.append_left _).append_left _

theorem step_inv (hi : RecvInv M s) (hok : Orderly M s a) (h : step M maxTag s a = some s') :
    RecvInv M s' := by
  cases a with
  | send n kind data => exact send_inv hi hok h
  | skip n =>
    obtain rfl := Option.some.inj h
    exact { hi with }
  | enqueue i =>
    obtain ⟨p, hp, rfl⟩ := map_eq_some_iff.mp h
    exact enqueue_inv hi hp (hok p hp)
  | tryProcess tag mem => exact tryProcess_inv hi h
  | arrive n tag => exact arrive_inv hi h
  | finish i =>
    obtain ⟨r, hr, h⟩ := bind_eq_some_iff.mp h
    obtain ⟨hdone, rfl⟩ := of_guard h
    exact finish_inv hi hr hdone
  | run i =>
    obtain ⟨c, hc, rfl⟩ := map_eq_some_iff.mp h
    exact run_inv hi hc

theorem reach_inv (h : Reach init (step M maxTag) (Orderly M) s) : RecvInv M s :=
  h.invariant (fun _ => init_inv) fun _ _ _ => step_inv

/-! ## Progress -/

/-- The steps that are left for the receives that are enqueued. -/
def work (s : DataSys N) : ℕ :=
  4 * s.pendingRecvs.length + (s.inProgress.map fun r => r.reqs.length + 2).sum + s.scheduled.length

/-- The continuation has run once, with the payload. -/
def Received (s : DataSys N) (t : ℕ) : Prop :=
  ∃ data, s.sent[t]? = some data ∧ s.ran.filter (·.transfer = t) = [⟨t, data⟩]

/-- Every step of progress is work done, and enqueues no receive. -/
theorem work_step (hi : RecvInv M s) (ha : a.Progress) (h : step M maxTag s a = some s') :
    s'.work < s.work ∧ s'.enqueued = s.enqueued := by
  cases a with
  | send _ _ _ | skip _ | enqueue _ => exact ha.elim
  | tryProcess tag mem =>
    obtain ⟨p, pre, post, data, buf, -, hsplit, -, -, -, rfl⟩ := tryProcess_cases hi h
    refine ⟨?_, rfl⟩
    simp only [work, hsplit, length_append, length_cons, map_append, map_cons,
      map_nil, sum_append, sum_cons, sum_nil, length_nil]
    omega
  | arrive n tag =>
    obtain ⟨_, _, _, -, ⟨pre, r, post, q, qs, hsplit, -, -, hq, -, rfl⟩, rfl⟩ := arrive_cases h
    refine ⟨?_, rfl⟩
    simp only [work, setChannel, hsplit, hq, map_append, map_cons, sum_append,
      sum_cons, length_cons]
    omega
  | finish i =>
    obtain ⟨r, hr, h⟩ := bind_eq_some_iff.mp h
    obtain ⟨-, rfl⟩ := of_guard h
    obtain ⟨pre, post, hsplit, herase⟩ := exists_eraseIdx hr
    rw [finish, herase]
    split <;>
    · refine ⟨?_, rfl⟩
      simp only [work, hsplit, map_append, map_cons, sum_append, sum_cons,
        length_append, length_singleton]
      omega
  | run i =>
    obtain ⟨c, hc, rfl⟩ := map_eq_some_iff.mp h
    have hlength := (perm_eraseIdx hc).length_eq
    refine ⟨?_, rfl⟩
    rw [length_cons] at hlength
    simp only [work]
    omega

/-- The message goes to a request that has room for it. -/
theorem complete_isSome {sent : List (List UInt8)} (hsuits : ∀ r ∈ rs, r.Suits sent)
    (hsent : sent[packet.transfer]? = some packet.data)
    (hfirst : (waiting rs n tag).head? = some packet.transfer) :
    ∃ rs', complete n tag packet rs = some rs' := by
  induction rs with
  | nil => simp at hfirst
  | cons r rs ih =>
    have hrest := fun h => ih (fun x hx => hsuits x (mem_cons_of_mem r hx)) h
    rw [waiting_cons] at hfirst
    rw [complete]
    by_cases heq : r.sender = n ∧ r.tag = tag
    · rw [if_pos heq] at hfirst ⊢
      obtain ⟨data, hdata, -, hstate⟩ := hsuits r mem_cons_self
      rcases hstate with ⟨hreqs, -⟩ | ⟨hreqs, -⟩
      · -- the request is for the payload of this message
        rw [hreqs] at hfirst ⊢
        have hid : r.transfer = packet.transfer := by simpa using hfirst
        rw [hid, hsent] at hdata
        obtain rfl := Option.some.inj hdata
        simp
      · rw [hreqs] at hfirst ⊢
        obtain ⟨rs', hrs'⟩ := hrest (by simpa using hfirst)
        exact ⟨r :: rs', by simp [hrs']⟩
    · rw [if_neg heq] at hfirst ⊢
      obtain ⟨rs', hrs'⟩ := hrest (by simpa using hfirst)
      exact ⟨r :: rs', by simp [hrs']⟩

/-- As long as a receive is enqueued and its continuation has not run, there is a step. -/
theorem idle_of_stuck (hi : RecvInv M s)
    (hstuck : ∀ a : DataAct N, a.Progress → step M maxTag s a = none) :
    s.pendingRecvs = [] ∧ s.inProgress = [] ∧ s.scheduled = [] := by
  refine ⟨?_, ?_, ?_⟩
  · rw [eq_nil_iff_forall_not_mem]
    intro p hp
    obtain ⟨q, hq⟩ : ∃ q, s.pendingRecvs.find? (·.tag = p.tag) = some q := by
      rw [← isSome_iff_exists, find?_isSome]
      exact ⟨p, hp, by simp⟩
    have htag : q.tag = p.tag := by simpa using find?_some hq
    have hmem : q ∈ s.pendingRecvs := mem_of_find?_eq_some hq
    obtain ⟨packet, hpacket, hwhole, -⟩ := probe_pending hi hmem
    have hnone := hstuck (.tryProcess p.tag packet.data) trivial
    rw [step, tryProcess, hq, bind_some, ← htag, hpacket, bind_some, if_pos rfl,
      (hi.pending q hmem).1, recvDataDirect_whole hwhole.1 hwhole.2] at hnone
    simp at hnone
  · rw [eq_nil_iff_forall_not_mem]
    intro r hr
    by_cases hdone : r.reqs = []
    · obtain ⟨i, hir⟩ := mem_iff_getElem?.mp hr
      have hnone := hstuck (.finish i) trivial
      rw [step, hir, bind_some, if_pos hdone] at hnone
      simp at hnone
    · -- the first message from this sender with this tag goes to the first request
      have hmem : r.transfer ∈ waiting s.inProgress r.sender r.tag := by
        refine mem_flatMap.mpr ⟨r, hr, ?_⟩
        obtain ⟨q, qs, hq⟩ := exists_cons_of_ne_nil hdone
        simp [hq]
      have hmatched := hi.matched r.sender r.tag
      have hpackets := hi.packet r.sender r.tag
      obtain ⟨t, ts, hts⟩ := exists_cons_of_ne_nil (ne_nil_of_mem hmem)
      have hnone := hstuck (.arrive r.sender r.tag) trivial
      rw [step, arrive] at hnone
      cases hchan : s.channel r.sender r.tag with
      | nil =>
        rw [hts, hchan] at hmatched
        simp at hmatched
      | cons packet rest =>
        rw [hts, hchan, cons_append, map_cons, cons_prefix_cons] at hmatched
        obtain ⟨hsent, -⟩ := hpackets packet (by rw [hchan]; exact mem_cons_self)
        obtain ⟨rs', hrs'⟩ := complete_isSome hi.posted hsent (by rw [hts, ← hmatched.1]; rfl)
        rw [hchan] at hnone
        simp [hrs'] at hnone
  · rw [eq_nil_iff_forall_not_mem]
    intro c hc
    obtain ⟨i, hic⟩ := mem_iff_getElem?.mp hc
    have hnone := hstuck (.run i) trivial
    rw [step, hic] at hnone
    simp at hnone

theorem enqueued_nodup (hi : RecvInv M s) : s.enqueued.Nodup :=
  ((hi.numbered.nodup_iff.mpr nodup_range).sublist (sublist_append_right _ _))

theorem received_of_mem (hi : RecvInv M s) (hc : c ∈ s.ran) : s.Received c.transfer := by
  have hnodup : (s.ran.map (·.transfer)).Nodup :=
    (hi.placed.nodup_iff.mpr (enqueued_nodup hi)).sublist (sublist_append_right _ _)
  refine ⟨c.data, hi.result c (mem_append_right _ hc), ?_⟩
  obtain ⟨pre, post, hsplit⟩ := append_of_mem hc
  rw [hsplit, map_append, map_cons, nodup_middle, nodup_cons,
    ← map_append] at hnodup
  have hothers : (pre ++ post).filter (·.transfer = c.transfer) = [] := by
    rw [filter_eq_nil_iff]
    intro x hx heq
    exact hnodup.1 (of_decide_eq_true heq ▸ mem_map_of_mem hx)
  rw [filter_append, append_eq_nil_iff] at hothers
  rw [hsplit, filter_append, filter_cons_of_pos (by simp), hothers.1, hothers.2]
  rfl

theorem received_of_idle (hi : RecvInv M s) (hpend : s.pendingRecvs = [])
    (hposted : s.inProgress = [])
    (hsched : s.scheduled = []) {t : ℕ} (ht : t ∈ s.enqueued) : s.Received t := by
  have hplace : t ∈ s.places := hi.placed.mem_iff.mpr ht
  simp only [places, hpend, hposted, hsched, map_nil, nil_append] at hplace
  obtain ⟨c, hc, rfl⟩ := mem_map.mp hplace
  exact received_of_mem hi hc

/-- The steps of progress are no sends, and enqueue no receive. -/
theorem orderly_of_progress (ha : a.Progress) : Orderly M s a := by
  cases a <;> trivial

/-- A run of progress: it ends, and nothing enqueued is lost on the way. -/
theorem run_progress {as : List (DataAct N)} (hi : RecvInv M s) (has : ∀ a ∈ as, a.Progress)
    (h : run (step M maxTag) s as = some s') :
    RecvInv M s' ∧ s'.enqueued = s.enqueued ∧ as.length + s'.work ≤ s.work := by
  induction as generalizing s with
  | nil =>
    obtain rfl := Option.some.inj h
    exact ⟨hi, rfl, by simp⟩
  | cons a as ih =>
    rw [run] at h
    obtain ⟨s₁, hs₁, h⟩ := bind_eq_some_iff.mp h
    have ha := has a mem_cons_self
    obtain ⟨hwork, henq₁⟩ := work_step hi ha hs₁
    obtain ⟨hi', henq, hlen⟩ := ih (step_inv hi (orderly_of_progress ha) hs₁)
      (fun x hx => has x (mem_cons_of_mem a hx)) h
    refine ⟨hi', henq.trans henq₁, ?_⟩
    rw [length_cons]
    omega

/-- In every run in which the payloads fit and the receives are enqueued in turn, a continuation
runs at most once and with its payload; and after a bounded number of steps of progress the
continuation of every receive that is enqueued has run. -/
theorem pending_received (h : Reach init (step M maxTag) (Orderly M) s) :
    (∀ c ∈ s.ran, c.transfer ∈ s.enqueued ∧ s.Received c.transfer) ∧
    ∀ as s', (∀ a ∈ as, a.Progress) → run (step M maxTag) s as = some s' →
      as.length ≤ s.work ∧
        ((∀ a : DataAct N, a.Progress → step M maxTag s' a = none) →
          ∀ t ∈ s.enqueued, s'.Received t) := by
  have hi := reach_inv h
  constructor
  · intro c hc
    refine ⟨hi.placed.mem_iff.mp ?_, received_of_mem hi hc⟩
    exact mem_append_right _ (mem_map_of_mem hc)
  · intro as s' has hrun
    obtain ⟨hi', henq, hlen⟩ := run_progress hi has hrun
    refine ⟨by omega, ?_⟩
    intro hstuck t ht
    obtain ⟨hpend, hposted, hsched⟩ := idle_of_stuck hi' hstuck
    exact received_of_idle hi' hpend hposted hsched (henq ▸ ht)

/-- What the receiver does about its first pending receive, with the first tag of a sender. -/
def receiveFirst (n : N) : List (DataAct N) :=
  [.tryProcess startingDirectBufferTag [0], .arrive n startingDirectBufferTag, .finish 0, .run 0]

/-- Two senders use their first tag.  The second receive is enqueued when the first is done. -/
def oneByOne (x y : N) : List (DataAct N) :=
  [.send x .put [1], .send y .put [2], .enqueue 0] ++ receiveFirst x ++ [.enqueue 0] ++
    receiveFirst y

theorem pending_received_in_turn :
    ∃ s : DataSys (Fin 2), Reach init (step 256 32767) (Orderly 256) s ∧ s.Received 0 ∧
      s.Received 1 := by
  obtain ⟨s, hs, hran⟩ := Reach.of_guarded_run (Orderly 256) (step 256 32767)
    (oneByOne (0 : Fin 2) 1) (·.ran = [⟨0, [1]⟩, ⟨1, [2]⟩]) (show init start from rfl)
    (by decide +kernel)
  have hall := (pending_received hs).1
  exact ⟨s, hs, (hall ⟨0, [1]⟩ (by simp [hran])).2, (hall ⟨1, [2]⟩ (by simp [hran])).2⟩

theorem stuck_of_idle (hpend : s.pendingRecvs = []) (hposted : s.inProgress = [])
    (hsched : s.scheduled = []) (a : DataAct N) (ha : a.Progress) : step M maxTag s a = none := by
  cases a with
  | send _ _ _ | skip _ | enqueue _ => exact ha.elim
  | tryProcess tag mem => simp [step, tryProcess, hpend]
  | arrive n tag =>
    rw [step, arrive]
    split <;> simp [hposted, complete]
  | finish i => simp [step, hposted]
  | run i => simp [step, hsched]

/-- Both receives are enqueued before the first of them is done. -/
def together (x y : N) : List (DataAct N) :=
  [.send x .put [1], .send y .put [2], .enqueue 0, .enqueue 0] ++ receiveFirst x

/-- The receive from the second sender is dropped, as a receive with its tag is pending; its
continuation does not run. -/
theorem recv_displaced :
    ∃ s : DataSys (Fin 2), Reach init (step 256 32767) anyStep s ∧ 1 ∈ s.enqueued ∧
      (∀ a : DataAct (Fin 2), a.Progress → step 256 32767 s a = none) ∧ ¬ s.Received 1 := by
  obtain ⟨s, hs, hpend, hposted, hsched, henq, hran⟩ := Reach.of_run (step 256 32767)
    (together (0 : Fin 2) 1)
    (fun s => s.pendingRecvs.isEmpty ∧ s.inProgress.isEmpty ∧ s.scheduled.isEmpty ∧
      s.enqueued = [0, 1] ∧ s.ran = [⟨0, [1]⟩]) (show init start from rfl) (by decide +kernel)
  rw [List.isEmpty_iff] at hpend hposted hsched
  refine ⟨s, hs, by simp [henq], stuck_of_idle hpend hposted hsched, ?_⟩
  rintro ⟨data, -, hfilter⟩
  simp [hran] at hfilter

end DataSys
end VtRuntime.Messaging
