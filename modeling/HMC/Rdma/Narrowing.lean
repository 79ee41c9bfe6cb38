import HMC.Rdma.Endpoint
import HMC.Rdma.MetaExchange
import HMC.Uhm.Staging

/-!
# Sizes in 32 bits

The size of a `ConnBuffer` is a `size_t`, and three fields that sizes go through have 32 bits: the
length in the metadata, the length of an `ibv_sge`, and the default of `HMC_UHM_CHUNK`. The second
one loses nothing: a request that has passed the check against the advertised length is shorter than
4 GiB, and so is a chunk. The other two do lose bits, of a buffer of 4 GiB and more and of a half of
4 GiB and more (`keepsSizes_iff`).

The advertised length is the first to lose bits, so it decides: a peer with a buffer of 4 GiB is
known with a length of zero, and a request that lies inside both buffers is refused. The default of
the chunk size needs twice that. What a lost bit costs is a refused request or a small chunk, never
an access outside the buffer, as the checks are made with the same lengths.
-/

namespace HMC.Rdma

open HMC.Machine HMC.Ctrl

/-- The endpoint of a side behind the metadata exchange. -/
def endpointConfig (party : Side → Party) (numQps maxWr : ℕ) (side : Side) : EndpointConfig where
  bufferSize := (party side).bufferSize.toNat
  remoteLength := (Handshake.outcome party side).remote.length.toNat
  numQps := numQps
  maxWr := maxWr

/-- The claim: sizes arrive as they are, on either side. -/
structure KeepsSizes (party : Side → Party) : Prop where
  advertised : ∀ side, (party side).attr.length.toNat = (party side).bufferSize.toNat
  accepted : ∀ side numQps maxWr (t : Transfer), t.Exact →
    ((endpointConfig party numQps maxWr side).inRange t.localOff t.remoteOff t.size = true ↔
      t.Inside (party side).bufferSize.toNat (party side.other).bufferSize.toNat)
  /-- The request that a one-sided operation posts has the length it was asked for. -/
  sge : ∀ side numQps maxWr (t : Transfer), t.Exact →
    (endpointConfig party numQps maxWr side).inRange t.localOff t.remoteOff t.size = true →
      ∀ opcode e signaled,
        ((endpointConfig party numQps maxWr side).dataNBInternal opcode e t.localOff t.remoteOff
          t.size signaled true).2.2.nic =
            e.nic.post ((endpointConfig party numQps maxWr side).nextQp e.toCounters)
              ⟨opcode, t.localOff, t.remoteOff, t.size,
                (endpointConfig party numQps maxWr side).nextId e.toCounters, signaled⟩
  /-- So has the data write of a chunk. -/
  chunkSge : ∀ side (c : Uhm.SendCall), c.buffer.bufferSize = (party side).bufferSize.toNat →
    ∀ i, c.dataWrite i = .data (i % 2 * c.halfBufferSize) (i % 2 * c.halfBufferSize)
      (chunkLen c.sendFlags c.chunkSize i)
  /-- Where the buffer has no halves, `uhm_send` returns before it cuts anything. -/
  chunk : ∀ side (c : Uhm.SendCall), c.buffer.bufferSize = (party side).bufferSize.toNat →
    c.uhmChunk = none → c.halfBufferSize ≠ 0 → c.chunkSize = c.halfBufferSize

/-! ### The three fields -/

variable {party : Side → Party} {side : Side}

/-- Each side has the length of the other one's metadata. -/
theorem endpointConfig_remoteLength (numQps maxWr : ℕ) :
    (endpointConfig party numQps maxWr side).remoteLength =
      wrap32 (party side.other).bufferSize.toNat := by
  cases side <;> exact UInt64.toNat_toUInt32 _

theorem advertised_iff :
    (party side).attr.length.toNat = (party side).bufferSize.toNat ↔
      (party side).bufferSize.toNat < 2 ^ 32 := by
  have hlength : (party side).attr.length.toNat = (party side).bufferSize.toNat % 2 ^ 32 :=
    UInt64.toNat_toUInt32 _
  rw [hlength]
  exact Nat.mod_eq_iff_lt (by decide)

/-- A request is accepted if it is inside the own buffer and the advertised part of the peer's. -/
theorem inRange_iff_inside (numQps maxWr : ℕ) {t : Transfer} (h : t.Exact) :
    (endpointConfig party numQps maxWr side).inRange t.localOff t.remoteOff t.size = true ↔
      t.Inside (party side).bufferSize.toNat (wrap32 (party side.other).bufferSize.toNat) := by
  rw [EndpointConfig.inRange_iff, endpointConfig_remoteLength, Transfer.Checked, wrap64_of_lt h.1,
    wrap64_of_lt h.2]
  rfl

/-- What is accepted has fewer than `2 ^ 32` bytes. -/
theorem size_lt_of_inRange {numQps maxWr : ℕ} {t : Transfer} (h : t.Exact)
    (hin : (endpointConfig party numQps maxWr side).inRange t.localOff t.remoteOff t.size = true) :
    t.size < 2 ^ 32 := by
  have hremote := ((inRange_iff_inside numQps maxWr h).mp hin).2
  exact Nat.lt_of_le_of_lt (Nat.le_trans (Nat.le_add_left ..) hremote) (wrap32_lt _)

theorem nic_of_inRange {numQps maxWr : ℕ} {t : Transfer} (h : t.Exact)
    (hin : (endpointConfig party numQps maxWr side).inRange t.localOff t.remoteOff t.size = true)
    (opcode : Opcode) (e : Endpoint) (signaled : Bool) :
    ((endpointConfig party numQps maxWr side).dataNBInternal opcode e t.localOff t.remoteOff
      t.size signaled true).2.2.nic =
        e.nic.post ((endpointConfig party numQps maxWr side).nextQp e.toCounters)
          ⟨opcode, t.localOff, t.remoteOff, t.size,
            (endpointConfig party numQps maxWr side).nextId e.toCounters, signaled⟩ := by
  rw [EndpointConfig.nic_dataNBInternal, EndpointConfig.issued, hin]
  rw [Bool.and_true, if_pos rfl]
  dsimp only
  rw [wrap32_of_lt (size_lt_of_inRange h hin)]

theorem dataWrite_eq (c : Uhm.SendCall) (i : ℕ) : c.dataWrite i =
    .data (i % 2 * c.halfBufferSize) (i % 2 * c.halfBufferSize)
      (chunkLen c.sendFlags c.chunkSize i) := by
  rw [Uhm.SendCall.dataWrite, wrap32_of_lt (Nat.lt_of_le_of_lt chunkLen_le c.chunkSize_lt)]

/-- The default of the chunk size is a half, if that has 32 bits. -/
theorem chunkSize_eq_iff {c : Uhm.SendCall} (hnone : c.uhmChunk = none)
    (hhalf : c.halfBufferSize ≠ 0) :
    c.chunkSize = c.halfBufferSize ↔ c.halfBufferSize < 2 ^ 32 := by
  have hpos := Nat.pos_of_ne_zero hhalf
  have hlt := wrap32_lt c.halfBufferSize
  rw [Uhm.SendCall.chunkSize, hnone]
  dsimp only [envU32OrDefault]
  constructor
  · intro h
    omega
  · intro h
    rw [wrap32_of_lt h]
    omega

/-! ### The claim -/

/-- **When no size loses bits**: exactly when both buffers are smaller than 4 GiB. The length in the
metadata is the size of the buffer only then; and then every other field has room for what goes
through it, since it is bounded by a buffer. -/
theorem keepsSizes_iff (party : Side → Party) :
    KeepsSizes party ↔ ∀ side, (party side).bufferSize.toNat < 2 ^ 32 := by
  refine ⟨fun h side => advertised_iff.mp (h.advertised side), fun h => ?_⟩
  exact
    { advertised := fun side => advertised_iff.mpr (h side)
      accepted := fun side numQps maxWr t ht => by
        rw [inRange_iff_inside numQps maxWr ht, wrap32_of_lt (h _)]
      sge := fun side numQps maxWr t ht hin => nic_of_inRange ht hin
      chunkSge := fun side c _ => dataWrite_eq c
      chunk := fun side c hsize hnone hhalf => by
        have hlt := h side
        refine (chunkSize_eq_iff hnone hhalf).mpr ?_
        rw [Uhm.SendCall.halfBufferSize, hsize]
        omega }

/-- A client with a buffer of 8 GiB, and a server with one of 4 GiB and one byte. -/
def giantBuffers (side : Side) : Party where
  ptr := 0x7f0000000000
  bufferSize := if side = .a then 0x200000000 else 0x100000001
  lkey := 1
  other := ⟨0, 0, 0, 0, 0, 1, fun _ => 0, fun _ => 0, 0⟩
  listenPort := 2025
  remote := ⟨0, 0, 0, 0, 0, 0, fun _ => 0, fun _ => 0, 0⟩

/-- The client's `uhm_send`. -/
def giantSend : Uhm.SendCall := { Uhm.shortTransfer.send with buffer := ⟨0x200000000, .cpu⟩ }

/-- **Bits are lost.** The server advertises one byte, so the client's request for the second one is
refused; and the client cuts its messages into chunks of one byte. -/
theorem sizes_lost : (giantBuffers .b).attr.length = 1 ∧
    (endpointConfig giantBuffers 1 128 .a).inRange 0 1 1 = false ∧
      Transfer.Inside ⟨0, 1, 1⟩ (giantBuffers .a).bufferSize.toNat
        (giantBuffers .b).bufferSize.toNat ∧
      giantSend.chunkSize = 1 ∧ giantSend.halfBufferSize = 2 ^ 32 ∧ ¬ KeepsSizes giantBuffers := by
  refine ⟨by decide, by decide, by decide, by decide, by decide, fun h => ?_⟩
  exact absurd (h.advertised .b) (by decide)

end HMC.Rdma
