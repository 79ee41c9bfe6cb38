import HMC.Uhm.ReceiverOrder
import HMC.Uhm.Staging

/-!
# The receiver's data

`RecvCall.DataAt` says what the locals of `uhm_recv` hold at each location: the header is
cleared or complete until it is read, and then a growing prefix of the input is delivered.
A step of the thread keeps it (`Transfer.Valid.dataAt_step`) as long as the copy out succeeds
and takes a chunk that landed.

The locals of `uhm_recv` are the accumulated size, the size of the current chunk and the number of
chunks, all computed from the header with `size_t` arithmetic. `DataAt` ties them to the sender's
own numbers, so the sums of the code do not wrap and its checks pass. Before the header is read,
the length in `uhm_buffer_state` is zero, as the receiver has stored it, or that of this transfer; a
call that reads zero fails, and one that reads the length finds the chunk size that belongs to it.
-/

namespace HMC.Uhm

open HMC.Machine

/-- What the two ends have in common, and that each stages from and to memory its connection
buffer can reach (a host staging copy, or a device copy of a device buffer). -/
structure Transfer.Valid (T : Transfer) : Prop where
  same_size : T.recv.buffer.bufferSize = T.send.buffer.bufferSize
  size_lt : T.send.buffer.bufferSize < 2 ^ 64
  send_mem : T.send.memType = .cpu ∨ T.send.buffer.memType ≠ .cpu
  recv_mem : T.recv.memType = .cpu ∨ T.recv.buffer.memType ≠ .cpu

/-! ### The receiver's locals -/

/-- The receiver has taken over the header of the transfer. -/
def Receiver.HeaderOf (s : SendCall) (t : Receiver) : Prop :=
  t.recvFlags = s.sendFlags ∧ t.recvChunkSize = s.chunkSize ∧ t.numRecvChunks = s.numSendChunks

/-- The first `b` bytes were delivered. -/
def Receiver.Delivered (s : SendCall) (b : ℕ) (t : Receiver) : Prop :=
  ∀ a < b, t.output a = s.input a

/-- What the receiver's locals hold at each location: before the header is read, that the
header is either cleared or complete; after it, the prefix that was delivered. -/
def RecvCall.DataAt (c : RecvCall) (s : SendCall) (u : UHMBufferState) (t : Receiver) : Prop :=
  match t.pc with
  | .initState0 | .initState1 | .initLength => t.accumulatedSize = 0
  | .initChunkBytes => t.accumulatedSize = 0 ∧
      (u.length = 0 ∨ u.length = s.sendFlags ∧ s.chunkSize = s.halfBufferSize)
  | .readState | .readLength => t.accumulatedSize = 0 ∧
      (u.length = 0 ∨ u.length = s.sendFlags ∧ c.chunkSizeOf u.chunkBytes = s.chunkSize)
  | .readChunkBytes => t.accumulatedSize = 0 ∧
      (t.recvFlags = 0 ∨ t.recvFlags = s.sendFlags ∧ c.chunkSizeOf u.chunkBytes = s.chunkSize)
  | .storeState0 | .storeState1 => t.accumulatedSize = 0 ∧ t.HeaderOf s
  | .spin | .copyOut => t.HeaderOf s ∧
      t.accumulatedSize = t.currentChunk * s.chunkSize ∧ t.Delivered s t.accumulatedSize
  | .markWritable | .postFlag | .waitPending => t.HeaderOf s ∧
      t.accumulatedSize = t.currentChunk * s.chunkSize ∧
      t.recvSize = chunkLen s.sendFlags s.chunkSize t.currentChunk ∧
      t.Delivered s (t.accumulatedSize + t.recvSize)
  | .finalWait | .done .success => t.recvFlags = s.sendFlags ∧ t.Delivered s s.sendFlags
  | .done _ => True

/-- `recv_size` is the length of the current chunk. -/
theorem Receiver.recvSizeOf_eq {n c : ℕ} {t : Receiver} (hc : 0 < c) (hn : n < 2 ^ 32)
    (hflags : t.recvFlags = n) (hsize : t.recvChunkSize = c)
    (hnum : t.numRecvChunks = numChunks n c) (hacc : t.accumulatedSize = t.currentChunk * c)
    (hi : t.currentChunk < numChunks n c) : t.recvSizeOf = chunkLen n c t.currentChunk := by
  have hlt := (lt_numChunks_iff hc).mp hi
  rw [recvSizeOf, hnum, hflags, hsize, hacc]
  split_ifs with hlast
  · have hend := chunkLen_of_succ_eq hc hlast
    rw [wrap64]
    omega
  · exact (chunkLen_of_succ_lt hc (by omega)).symm

/-- The head of the receiver's chunk loop, with everything below the current chunk
delivered. -/
theorem RecvCall.dataAt_loopHead {c : RecvCall} {s : SendCall} {u : UHMBufferState}
    {t : Receiver} (hh : t.HeaderOf s)
    (hmore : t.currentChunk < s.numSendChunks →
      t.accumulatedSize = t.currentChunk * s.chunkSize ∧ t.Delivered s t.accumulatedSize)
    (hend : ¬ t.currentChunk < s.numSendChunks → t.Delivered s s.sendFlags) :
    c.DataAt s u t.loopHead := by
  unfold Receiver.loopHead
  rw [hh.2.2]
  split_ifs with hlt
  · exact ⟨hh, hmore hlt⟩
  · exact ⟨hh.1, hend hlt⟩
  · exact ⟨hh.1, hend hlt⟩

/-- The copy out of a chunk that landed extends the delivered prefix. -/
theorem Receiver.delivered_copyOut {s : SendCall} {t : Receiver} {bytes : Bytes}
    (hacc : t.accumulatedSize = t.currentChunk * s.chunkSize)
    (hdel : t.Delivered s t.accumulatedSize) (hland : s.Holds bytes t.currentChunk) {a : ℕ}
    (ha : a < t.accumulatedSize + chunkLen s.sendFlags s.chunkSize t.currentChunk) :
    blit t.output t.accumulatedSize
      (fun k => bytes (t.currentChunk % 2 * s.halfBufferSize + k))
      (chunkLen s.sendFlags s.chunkSize t.currentChunk) a = s.input a := by
  by_cases hlt : a < t.accumulatedSize
  · rw [blit_apply_of_not_mem (.inl hlt)]
    exact hdel a hlt
  · obtain ⟨k, rfl⟩ := Nat.exists_eq_add_of_le (Nat.not_lt.mp hlt)
    rw [blit_apply_add (by omega), hland k (by omega), hacc]

namespace Transfer.Valid

variable {T : Transfer} {e e' : Endpoint} {t t' : Receiver} {booted : Prop}
  {flagged : ℕ → Prop} {m : ℕ}

theorem half_eq (hv : T.Valid) : T.recv.halfBufferSize = T.send.halfBufferSize := by
  rw [RecvCall.halfBufferSize, SendCall.halfBufferSize, hv.same_size]

/-- The receiver reads the sender's chunk size back from the header. -/
theorem chunkSizeOf_chunkSize (hv : T.Valid) (hhalf : 0 < T.send.halfBufferSize) :
    T.recv.chunkSizeOf T.send.chunkSize = T.send.chunkSize := by
  have hpos := T.send.chunkSize_pos
  have hle := T.send.chunkSize_le_half hhalf
  rw [RecvCall.chunkSizeOf, hv.half_eq, if_neg (by omega)]
  omega

/-- Without a chunk size in the header the receiver assumes a whole half. -/
theorem chunkSizeOf_zero (hv : T.Valid) (h : T.send.chunkSize = T.send.halfBufferSize) :
    T.recv.chunkSizeOf 0 = T.send.chunkSize := by
  have hpos := T.send.chunkSize_pos
  rw [RecvCall.chunkSizeOf, hv.half_eq, if_pos rfl]
  omega

/-- **The copy out** of a chunk that landed. -/
theorem dataAt_copyOut (hv : T.Valid) (hpc : t.pc = .copyOut)
    (h : T.recv.DataAt T.send e.uhm t) (hlen : T.send.sendFlags < 2 ^ 32)
    (hhalf : 0 < T.send.halfBufferSize) (hi : t.currentChunk < T.send.numSendChunks)
    (hland : T.send.Holds e.bytes t.currentChunk) :
    T.recv.DataAt T.send e.uhm (T.recv.copyOut e t true) := by
  simp only [RecvCall.DataAt, hpc] at h
  obtain ⟨hh, hacc, hdel⟩ := h
  have hsize := Receiver.recvSizeOf_eq T.send.chunkSize_pos hlen hh.1 hh.2.1 hh.2.2 hacc hi
  have hle := T.send.chunkSize_le_half hhalf
  have hchunk : chunkLen T.send.sendFlags T.send.chunkSize t.currentChunk ≤ T.send.chunkSize :=
    chunkLen_le
  have hfit : T.recv.bias t + t.recvSizeOf ≤ T.recv.buffer.bufferSize := by
    have hb : T.recv.halfBufferSize = T.recv.buffer.bufferSize / 2 := rfl
    rw [RecvCall.bias]
    rw [hsize, ← hv.half_eq] at *
    rcases Nat.mod_two_eq_zero_or_one t.currentChunk with hm | hm <;> rw [hm] <;> omega
  have h64 : T.recv.buffer.bufferSize < 2 ^ 64 := hv.same_size ▸ hv.size_lt
  unfold RecvCall.copyOut
  dsimp only
  split_ifs
  · simp [RecvCall.DataAt, Receiver.goto]
  · simp [RecvCall.DataAt, Receiver.goto]
  · simp [RecvCall.DataAt, Receiver.goto]
  · refine ⟨hh, hacc, hsize, fun a ha => ?_⟩
    rw [ConnBuffer.stageOut_eq hfit h64 hv.recv_mem, RecvCall.bias, hv.half_eq, hsize]
    exact Receiver.delivered_copyOut hacc hdel hland (by rwa [← hsize])

/-- **One step of `uhm_recv`** keeps its locals, when the copy out succeeds and takes a chunk
that landed. -/
theorem dataAt_step (hv : T.Valid) (h : T.recv.DataAt T.send e.uhm t)
    (ho : ReceiverInv T.recv e.nic e.uhm.state t booted flagged m)
    (hadm : booted → T.send.sendFlags < 2 ^ 32 ∧ 0 < T.send.halfBufferSize)
    (hland : t.pc = .copyOut → T.send.Holds e.bytes t.currentChunk) {ok : Bool}
    (hstaged : t.pc = .copyOut → ok = true)
    (hs : T.recv.step ok e t = some (e', t')) : T.recv.DataAt T.send e'.uhm t' := by
  have hp := ho.place
  cases hpc : t.pc <;> simp only [RecvCall.step, hpc] at hs <;>
    simp only [hpc, RecvPc.At] at hp <;> have hd := h <;>
    simp only [RecvCall.DataAt, hpc] at hd
  case initState0 => cases hs; exact hd
  case initState1 => cases hs; exact hd
  case initLength => cases hs; exact ⟨hd, .inl rfl⟩
  case initChunkBytes =>
    cases hs
    exact ⟨hd.1, hd.2.imp_right fun hr => ⟨hr.1, hv.chunkSizeOf_zero hr.2⟩⟩
  case readState =>
    cases hs
    split_ifs
    · exact hd
    · exact h
  case readLength => cases hs; exact ⟨hd.1, hd.2⟩
  case readChunkBytes =>
    cases hs
    unfold RecvCall.headerRead
    split_ifs with hzero
    · simp [RecvCall.DataAt, Receiver.goto]
    · -- a length that is not zero came with the header
      obtain ⟨hflags, hsize⟩ := hd.2.resolve_left hzero
      refine ⟨hd.1, hflags, hsize, ?_⟩
      simp only [hflags, hsize]
      rfl
  case storeState0 => cases hs; exact hd
  case storeState1 =>
    cases hs
    refine RecvCall.dataAt_loopHead hd.2 (fun _ => ?_) fun hend a ha => ?_
    · rw [hd.1, hp.1]
      exact ⟨by omega, fun a ha => by omega⟩
    · rw [hp.1, SendCall.numSendChunks, lt_numChunks_iff T.send.chunkSize_pos] at hend
      omega
  case spin =>
    cases hs
    split_ifs
    · exact hd
    · exact h
  case copyOut =>
    cases hs
    obtain rfl := hstaged hpc
    obtain ⟨hlen, hhalf⟩ := hadm (ho.booted (.inr (by rw [hpc]; rfl)))
    refine hv.dataAt_copyOut hpc h hlen hhalf ?_ (hland hpc)
    rw [← hd.1.2.2]
    exact hp.1
  case markWritable => cases hs; exact hd
  case postFlag =>
    split_ifs at hs <;> cases hs
    · unfold RecvCall.flagPosted
      split_ifs <;> exact hd
    · trivial
  case waitPending =>
    obtain ⟨hlen, hhalf⟩ := hadm (ho.booted (.inr (by rw [hpc]; rfl)))
    -- whether it has waited or not, the sum of the sizes is where the next chunk goes
    have hnext : ∀ pending : List ℕ, T.recv.DataAt T.send e.uhm
        (Receiver.nextChunk { t with pendingSignaled := pending }) := by
      intro pending
      obtain ⟨hh, hacc, hsize, hdel⟩ := hd
      have hi : t.currentChunk < T.send.numSendChunks := hh.2.2 ▸ hp.1
      have hend := chunk_end_le T.send.chunkSize_pos hi
      have hwrap : wrap64 (t.accumulatedSize + t.recvSize) = t.accumulatedSize + t.recvSize :=
        wrap64_of_lt (by rw [hacc, hsize]; omega)
      refine RecvCall.dataAt_loopHead hh (fun hlt => ⟨?_, ?_⟩) fun hlast => ?_
      · have hfull := chunkLen_of_succ_lt T.send.chunkSize_pos hlt
        refine hwrap.trans ?_
        rw [hacc, hsize, hfull, Nat.add_mul, Nat.one_mul]
      · simp only [hwrap]
        exact hdel
      · have hlen := chunkLen_of_succ_eq T.send.chunkSize_pos
          (show t.currentChunk + 1 = numChunks T.send.sendFlags T.send.chunkSize from
            Nat.le_antisymm hi (Nat.not_lt.mp hlast))
        rw [hacc, hsize, hlen] at hdel
        exact hdel
    split_ifs at hs <;> cases hs
    · exact hnext _
    · trivial
    · exact hnext t.pendingSignaled
  case finalWait =>
    split_ifs at hs <;> cases hs
    · exact hd
    · trivial
  case done => cases hs

end Transfer.Valid

end HMC.Uhm
