import HMC.Uhm.Delivery

/-!
# The chunk geometry of a transfer

`uhm_send` cuts its message by its own half buffer and writes the chunks at multiples of that
half into the peer's memory. `uhm_recv` takes the length and the chunk size from the header,
clamps the chunk size to its own half, and reads at multiples of its own half.

`Transfer.GeometryAgrees` says that the two sequences of ranges are the same, that each adds up
to the message, and that every range lies in the receiver's buffer. It holds for equal halves
and for messages of one chunk, and for no other (`geometryAgrees_iff`): the sender checks no
remote range, so with a larger half it writes beyond the receiver's buffer
(`geometry_differs`).

Both sequences are read off the code: the sender's from its data writes (`dataRanges`), the
receiver's by running its loop with copies that succeed (`loopRanges`). Each is then
`halfRanges`, for the half and the chunk size of its side (`SendCall.dataRanges_eq`,
`Receiver.Reading.loopRanges`), and what is left is when two such sequences are equal
(`halfRanges_eq_iff`): if there are two chunks or more, the second range starts at the half, so the
halves are equal.
-/

namespace HMC.Uhm

open HMC.Machine

/-! ### The two sequences -/

/-- The range of the peer's buffer that a write changes. -/
def RdmaWrite.remoteRange : RdmaWrite → Option (ℕ × ℕ)
  | .data _ remoteOff size => some (remoteOff, size)
  | _ => none

namespace SendCall

variable (c : SendCall)

/-- The header that the call prepares and sends (see `Announced`). -/
def header : UHMBufferState := ⟨fun _ => canWrite, wrap32 c.sendFlags, wrap32 c.chunkSize⟩

/-- The remote ranges of the data writes, in posting order. -/
def dataRanges : List (ℕ × ℕ) :=
  if c.enter.pc = .initState0 then
    (List.range c.numSendChunks).filterMap fun i => (c.dataWrite i).remoteRange
  else []

end SendCall

namespace RecvCall

variable (c : RecvCall)

/-- The ranges that the chunk loop copies out of the buffer `e.bytes`, from a state at its
head, in at most `fuel` iterations. -/
def loopRanges (e : Endpoint) : ℕ → Receiver → List (ℕ × ℕ)
  | 0, _ => []
  | fuel + 1, t =>
    if t.pc = .spin ∧ (c.copyOut e t true).pc = .markWritable then
      (c.bias t, (c.copyOut e t true).recvSize) ::
        loopRanges e fuel (c.copyOut e t true).nextChunk
    else []

/-- The ranges that `uhm_recv` reads after it has taken the header `u`. -/
def readRanges (e : Endpoint) (u : UHMBufferState) : List (ℕ × ℕ) :=
  if (c.enter e.bytes 0).pc = .initState0 then
    let t := c.headerRead { c.enter e.bytes 0 with recvFlags := u.length } u.chunkBytes
    c.loopRanges e t.numRecvChunks t.loopHead
  else []

end RecvCall

/-- **Agreement on the geometry.** The sender writes what the receiver reads, each side covers
the message, and every range lies in the receiver's buffer. -/
structure Transfer.GeometryAgrees (T : Transfer) (e : Endpoint) : Prop where
  same : T.send.dataRanges = T.recv.readRanges e T.send.header
  sent : (T.send.dataRanges.map Prod.snd).sum = T.send.sendFlags
  read : ((T.recv.readRanges e T.send.header).map Prod.snd).sum = T.send.sendFlags
  inside : ∀ r ∈ T.send.dataRanges ++ T.recv.readRanges e T.send.header,
    r.1 + r.2 ≤ T.recv.buffer.bufferSize

/-- The ranges of chunks of `c` bytes of a message of `n` bytes, in alternating halves of `half`
bytes. -/
def halfRanges (half n c k m : ℕ) : List (ℕ × ℕ) :=
  (List.range' k m).map fun i => (i % 2 * half, chunkLen n c i)

/-! ### The sender -/

namespace SendCall

variable {c : SendCall}

theorem enter_initState0 (hin : c.inputBuffer ≠ none) (hhalf : 0 < c.halfBufferSize)
    (hpos : 0 < c.sendFlags) (hlen : c.sendFlags < 2 ^ 32) : c.enter.pc = .initState0 := by
  unfold enter
  dsimp only
  rw [if_neg (by omega), if_neg hin, if_neg (by omega), if_neg (by omega)]

theorem dataRanges_eq (h : c.enter.pc = .initState0) :
    c.dataRanges = halfRanges c.halfBufferSize c.sendFlags c.chunkSize 0 c.numSendChunks := by
  rw [dataRanges, if_pos h, halfRanges, List.range_eq_range', ← List.filterMap_eq_map']
  refine List.filterMap_congr fun i _ => ?_
  have hlen : chunkLen c.sendFlags c.chunkSize i < 2 ^ 32 :=
    Nat.lt_of_le_of_lt chunkLen_le c.chunkSize_lt
  rw [dataWrite, RdmaWrite.remoteRange, wrap32_of_lt hlen]

end SendCall

/-! ### The receiver -/

/-- At the head of the chunk loop before chunk `k`, of a message of `n` bytes in chunks of `c`. -/
structure Receiver.Reading (n c k : ℕ) (t : Receiver) : Prop where
  recvFlags : t.recvFlags = n
  recvChunkSize : t.recvChunkSize = c
  numRecvChunks : t.numRecvChunks = numChunks n c
  currentChunk : t.currentChunk = k
  accumulatedSize : k < numChunks n c → t.accumulatedSize = k * c
  spin : k < numChunks n c → t.pc = .spin

namespace Receiver.Reading

variable {n c k m : ℕ} {t : Receiver} {call : RecvCall} {e : Endpoint}

/-- The head of the loop is reached with the chunks below `k` read. -/
theorem of_loopHead (h₁ : t.recvFlags = n) (h₂ : t.recvChunkSize = c)
    (h₃ : t.numRecvChunks = numChunks n c) (h₄ : t.currentChunk = k)
    (h₅ : k < numChunks n c → t.accumulatedSize = k * c) : t.loopHead.Reading n c k := by
  unfold Receiver.loopHead
  split_ifs with hlt
  · exact ⟨h₁, h₂, h₃, h₄, h₅, fun _ => rfl⟩
  · exact ⟨h₁, h₂, h₃, h₄, h₅, fun hk => absurd hk (by omega)⟩
  · exact ⟨h₁, h₂, h₃, h₄, h₅, fun hk => absurd hk (by omega)⟩

/-- `recv_size` is the length of chunk `k`. -/
theorem recvSizeOf (h : t.Reading n c k) (hc : 0 < c) (hn : n < 2 ^ 32)
    (hk : k < numChunks n c) : t.recvSizeOf = chunkLen n c k := by
  obtain rfl := h.currentChunk
  exact Receiver.recvSizeOf_eq hc hn h.recvFlags h.recvChunkSize h.numRecvChunks
    (h.accumulatedSize hk) hk

/-- One copy out goes through exactly when the chunk ends inside the output buffer. -/
theorem copyOut (h : t.Reading n c k) (hc : 0 < c) (hn : n < 2 ^ 32) (hk : k < numChunks n c) :
    ((call.copyOut e t true).pc = .markWritable ↔
      k * c + chunkLen n c k ≤ call.bufferSize) ∧
    ((call.copyOut e t true).pc = .markWritable →
      (call.copyOut e t true).recvSize = chunkLen n c k ∧
        (call.copyOut e t true).nextChunk.Reading n c (k + 1)) := by
  have hpos := chunkLen_pos hc hk
  have hend := chunk_end_le hc hk
  have hsum : wrap64 (k * c + chunkLen n c k) = k * c + chunkLen n c k :=
    wrap64_of_lt (by omega)
  unfold RecvCall.copyOut
  dsimp only
  rw [h.recvSizeOf hc hn hk, h.accumulatedSize hk, hsum, if_neg (by omega)]
  split_ifs with h₁ h₂
  · simp only [Receiver.goto, reduceCtorEq, false_iff, false_imp_iff, and_true]
    omega
  · simp only [Receiver.goto, reduceCtorEq, false_iff, false_imp_iff, and_true]
    omega
  · refine ⟨by simp only [true_iff]; omega, fun _ => ⟨rfl, ?_⟩⟩
    refine of_loopHead h.recvFlags h.recvChunkSize h.numRecvChunks ?_ fun hlt => ?_
    · simp only [h.currentChunk]
    · simp only [hsum]
      rw [chunkLen_of_succ_lt hc hlt, Nat.add_mul, Nat.one_mul]

/-- One iteration of the loop. -/
theorem loopRanges_succ (h : t.Reading n c k) (hc : 0 < c) (hn : n < 2 ^ 32)
    (hk : k < numChunks n c) (hfit : k * c + chunkLen n c k ≤ call.bufferSize) :
    ∃ t' : Receiver, t'.Reading n c (k + 1) ∧ call.loopRanges e (m + 1) t =
      (k % 2 * call.halfBufferSize, chunkLen n c k) :: call.loopRanges e m t' := by
  obtain ⟨hpc, hnext⟩ : ((call.copyOut e t true).pc = .markWritable ↔ _) ∧ _ :=
    h.copyOut hc hn hk
  obtain ⟨hsize, hreading⟩ := hnext (hpc.mpr hfit)
  refine ⟨_, hreading, ?_⟩
  rw [RecvCall.loopRanges, if_pos ⟨h.spin hk, hpc.mpr hfit⟩, hsize, RecvCall.bias,
    h.currentChunk]

/-- The loop reads the chunks that are left, when the output buffer holds the message. -/
theorem loopRanges (h : t.Reading n c k) (hc : 0 < c) (hn : n < 2 ^ 32)
    (hout : n ≤ call.bufferSize) (hm : k + m = numChunks n c) :
    call.loopRanges e m t = halfRanges call.halfBufferSize n c k m := by
  induction m generalizing k t with
  | zero => rfl
  | succ m ih =>
    have hk : k < numChunks n c := by omega
    have hend := chunk_end_le hc hk
    obtain ⟨t', ht', heq⟩ := h.loopRanges_succ (m := m) (e := e) hc hn hk
      (show k * c + chunkLen n c k ≤ call.bufferSize by omega)
    rw [heq, ih ht' (by omega)]
    rfl

/-- The loop never reads more than the output buffer holds. -/
theorem loopRanges_sum_le (h : t.Reading n c k) (hc : 0 < c) (hn : n < 2 ^ 32)
    (hk : k * c ≤ call.bufferSize) (hm : k + m = numChunks n c) :
    k * c + ((call.loopRanges e m t).map Prod.snd).sum ≤ call.bufferSize := by
  induction m generalizing k t with
  | zero => exact hk
  | succ m ih =>
    have hlt : k < numChunks n c := by omega
    by_cases hfit : k * c + chunkLen n c k ≤ call.bufferSize
    · obtain ⟨t', ht', heq⟩ := h.loopRanges_succ hc hn hlt hfit
      rw [heq, List.map_cons, List.sum_cons]
      obtain hlast | hlast := Nat.lt_or_eq_of_le (Nat.succ_le_of_lt hlt)
      · have hfull := chunkLen_of_succ_lt hc hlast
        have := ih ht' (by rw [Nat.add_mul]; omega) (by omega)
        rw [Nat.add_mul] at this
        omega
      · obtain rfl : m = 0 := by omega
        exact hfit
    · rw [RecvCall.loopRanges, if_neg fun hp => hfit ((h.copyOut hc hn hlt).1.mp hp.2)]
      exact hk

end Receiver.Reading

namespace RecvCall

variable {c : RecvCall} {e : Endpoint} {u : UHMBufferState}

/-- The receiver takes the header and stands at the head of its loop. -/
theorem reading_of_header (hlen : u.length ≠ 0) (hargs : c.nullArgs = false)
    (hhalf : 0 < c.halfBufferSize) :
    ∃ t : Receiver, t.Reading u.length (c.chunkSizeOf u.chunkBytes) 0 ∧
      c.readRanges e u =
        c.loopRanges e (numChunks u.length (c.chunkSizeOf u.chunkBytes)) t := by
  have hpc : (c.enter e.bytes 0).pc = .initState0 := by
    unfold enter
    dsimp only
    rw [hargs, if_neg (by decide), if_neg (by omega)]
  refine ⟨(c.headerRead { c.enter e.bytes 0 with recvFlags := u.length } u.chunkBytes).loopHead,
    ?_, ?_⟩
  · rw [headerRead, if_neg hlen]
    refine Receiver.Reading.of_loopHead rfl rfl rfl rfl fun _ => ?_
    rw [Nat.zero_mul]
    rfl
  · rw [readRanges, if_pos hpc]
    dsimp only
    rw [headerRead, if_neg hlen]

end RecvCall

/-! ### The claim -/

theorem halfRanges_sum {half n c : ℕ} (hc : 0 < c) :
    ((halfRanges half n c 0 (numChunks n c)).map Prod.snd).sum = n := by
  rw [halfRanges, List.map_map, ← List.range_eq_range']
  exact sum_chunkLen hc

/-- The ranges of a message in chunks of at most a half lie in the buffer. -/
theorem halfRanges_inside {half n c k m size : ℕ} (hc : c ≤ half) (hsize : half + half ≤ size)
    {r : ℕ × ℕ} (hr : r ∈ halfRanges half n c k m) : r.1 + r.2 ≤ size := by
  obtain ⟨i, -, rfl⟩ := List.mem_map.mp hr
  have hlen : chunkLen n c i ≤ c := chunkLen_le
  obtain hi | hi := Nat.mod_two_eq_zero_or_one i <;> simp only [hi] <;> omega

/-- Two sequences of ranges agree exactly when the halves do or there is one chunk. -/
theorem halfRanges_eq_iff {n hs hr cs : ℕ} (hn : 0 < n) (hcs : 0 < cs) (hle : cs ≤ hs)
    (hhr : 0 < hr) :
    halfRanges hs n cs 0 (numChunks n cs) =
        halfRanges hr n (min cs hr) 0 (numChunks n (min cs hr)) ↔
      hs = hr ∨ n ≤ cs ∧ n ≤ hr := by
  have hcr : 0 < min cs hr := by omega
  constructor
  · intro heq
    by_cases hhalf : hs = hr
    · exact .inl hhalf
    · right
      have hnum : numChunks n cs = numChunks n (min cs hr) := by
        simpa [halfRanges] using congrArg List.length heq
      have hone : ¬ 1 < numChunks n cs := fun hlt => by
        -- the second chunk starts at the half of either side
        have h₁ := congrArg (fun l : List (ℕ × ℕ) => l[1]?.map Prod.fst) heq
        simp only [halfRanges, List.getElem?_map, List.getElem?_range', ← hnum, hlt] at h₁
        simp at h₁
        exact hhalf h₁
      have hpos := numChunks_pos hcs hn
      have h₁ := (numChunks_eq_one_iff hcs hn).mp (by omega)
      have h₂ := (numChunks_eq_one_iff hcr hn).mp (by omega)
      omega
  · rintro (rfl | ⟨h₁, h₂⟩)
    · rw [Nat.min_eq_left hle]
    · rw [(numChunks_eq_one_iff hcs hn).mpr h₁, (numChunks_eq_one_iff hcr hn).mpr (by omega)]
      simp only [halfRanges, List.range'_one, List.map_singleton, chunkLen]
      congr 2
      · omega
      · omega

/-- **When the two sides agree on the geometry.** For every pair of buffer sizes, chunk setting
and message length: exactly when the output buffer holds the message and either the halves of
the two connection buffers are equal, or the message is a single chunk that fits into the
receiver's half.

The output buffer is necessary because the loop never reads more than it holds
(`loopRanges_sum_le`), and both sides have to cover the message. The remaining parts, that the sums
are the length and all ranges lie in the receiver's buffer, follow from the equality of the two
sequences, as the receiver's own halves lie there. -/
theorem geometryAgrees_iff (T : Transfer) (e : Endpoint) (hin : T.send.inputBuffer ≠ none)
    (hargs : T.recv.nullArgs = false) (hs : 2 ≤ T.send.buffer.bufferSize)
    (hr : 2 ≤ T.recv.buffer.bufferSize) (hn : 1 ≤ T.send.sendFlags)
    (hlen : T.send.sendFlags ≤ 2 ^ 32 - 1) :
    T.GeometryAgrees e ↔ T.send.sendFlags ≤ T.recv.bufferSize ∧
      (T.send.halfBufferSize = T.recv.halfBufferSize ∨
        T.send.sendFlags ≤ T.send.chunkSize ∧ T.send.sendFlags ≤ T.recv.halfBufferSize) := by
  have hs₂ : 0 < T.send.halfBufferSize := Nat.div_pos hs (by decide)
  have hr₂ : 0 < T.recv.halfBufferSize := Nat.div_pos hr (by decide)
  have hhalf : T.recv.halfBufferSize + T.recv.halfBufferSize ≤ T.recv.buffer.bufferSize := by
    rw [RecvCall.halfBufferSize]
    omega
  have hcs := T.send.chunkSize_pos
  have hle := T.send.chunkSize_le_half hs₂
  have hlt : T.send.sendFlags < 2 ^ 32 := by omega
  have hsent := SendCall.dataRanges_eq (SendCall.enter_initState0 hin hs₂ hn hlt)
  have hlength : T.send.header.length = T.send.sendFlags := wrap32_of_lt hlt
  have hsize : T.recv.chunkSizeOf T.send.header.chunkBytes =
      min T.send.chunkSize T.recv.halfBufferSize := by
    have hbytes : T.send.header.chunkBytes = T.send.chunkSize := wrap32_of_lt T.send.chunkSize_lt
    rw [hbytes, RecvCall.chunkSizeOf, if_neg (by omega)]
    omega
  obtain ⟨t, ht, hread⟩ := RecvCall.reading_of_header (e := e) (c := T.recv)
    (u := T.send.header) (by omega) hargs hr₂
  rw [hlength, hsize] at ht hread
  have hcr : 0 < min T.send.chunkSize T.recv.halfBufferSize := by omega
  rw [← halfRanges_eq_iff hn hcs hle hr₂]
  constructor
  · intro h
    have hout : T.send.sendFlags ≤ T.recv.bufferSize := by
      have hsum : _ + ((T.recv.loopRanges e _ t).map Prod.snd).sum ≤ T.recv.bufferSize :=
        ht.loopRanges_sum_le hcr hlt (by omega) (Nat.zero_add _)
      rw [← hread, h.read] at hsum
      omega
    refine ⟨hout, ?_⟩
    have hsame := h.same
    rwa [hsent, hread, ht.loopRanges hcr hlt hout (Nat.zero_add _)] at hsame
  · rintro ⟨hout, hsame⟩
    rw [ht.loopRanges hcr hlt hout (Nat.zero_add _)] at hread
    refine ⟨by rw [hsent, hread]; exact hsame, ?_, ?_, fun r hmem => ?_⟩
    · rw [hsent]
      exact halfRanges_sum hcs
    · rw [hread]
      exact halfRanges_sum hcr
    · have hmem' : r ∈ halfRanges T.recv.halfBufferSize T.send.sendFlags
          (min T.send.chunkSize T.recv.halfBufferSize) 0
          (numChunks T.send.sendFlags (min T.send.chunkSize T.recv.halfBufferSize)) := by
        rw [hsent, hread] at hmem
        obtain hmem | hmem := List.mem_append.mp hmem
        · rwa [← hsame]
        · exact hmem
      exact halfRanges_inside (Nat.min_le_right _ _) hhalf hmem'

/-- A sender with a buffer of eight bytes and a receiver with one of four. -/
def unevenTransfer : Transfer where
  send := { shortTransfer.send with buffer := ⟨8, .cpu⟩, sendFlags := 8 }
  recv := { shortTransfer.recv with buffer := ⟨4, .cpu⟩, bufferSize := 8 }

/-- **The two sides may differ.** The second data write goes to the bytes from four to eight of a
buffer of four, and the receiver reads four chunks of two bytes. -/
theorem geometry_differs :
    unevenTransfer.send.dataRanges = [(0, 4), (4, 4)] ∧
      unevenTransfer.recv.readRanges .fresh unevenTransfer.send.header =
        [(0, 2), (2, 2), (0, 2), (2, 2)] ∧
      ¬ unevenTransfer.GeometryAgrees .fresh := by
  have hsent : unevenTransfer.send.dataRanges = [(0, 4), (4, 4)] := by decide +kernel
  have hread : unevenTransfer.recv.readRanges .fresh unevenTransfer.send.header =
      [(0, 2), (2, 2), (0, 2), (2, 2)] := by decide +kernel
  refine ⟨hsent, hread, fun h => ?_⟩
  have hsame := h.same
  rw [hsent, hread] at hsame
  revert hsame
  decide

/-- With equal buffers the short transfer agrees. -/
theorem geometry_short : shortTransfer.GeometryAgrees .fresh :=
  (geometryAgrees_iff shortTransfer .fresh (by simp [shortTransfer]) (by decide) (by decide)
    (by decide) (by decide) (by decide)).mpr (by decide)

end HMC.Uhm
