import HMC.Core.Basic

/-!
# The connection buffer

`ConnBuffer` is the registered block of memory that every transfer stages through. The
record holds what the object knows about its block (size and kind of memory); the contents
are passed along as `Bytes`, because the network card and the peers change them as well.

Every operation checks its range with one `size_t` sum and then hands the bytes to a memory
backend. `copied` is the outcome of that backend call; a failed copy changes nothing.

What the transfers use of it are the two staging copies: `stageIn_eq` and `stageOut_eq` say that a
copy within the buffer whose backend succeeds moves exactly its bytes, and `stageOut_congr` that a
copy out depends on the bytes of its range alone, whatever else the card writes to the buffer
meanwhile.
-/

namespace HMC

/-- `ConnBuffer`, without its contents. -/
structure ConnBuffer where
  bufferSize : ℕ
  memType : MemoryType
  deriving DecidableEq

namespace ConnBuffer

variable (b : ConnBuffer)

/-- `ConnBuffer::writeFromCpu`. -/
def writeFromCpu (bytes src : Bytes) (size bias : ℕ) (copied : Bool) : Status × Bytes :=
  if wrap64 (bias + size) > b.bufferSize then (.error, bytes)
  else if copied then (.success, blit bytes bias src size)
  else (.error, bytes)

/-- `ConnBuffer::writeFromGpu`: refuses a host buffer. -/
def writeFromGpu (bytes src : Bytes) (size bias : ℕ) (copied : Bool) : Status × Bytes :=
  if wrap64 (bias + size) > b.bufferSize then (.error, bytes)
  else if b.memType = .cpu then (.error, bytes)
  else if copied then (.success, blit bytes bias src size)
  else (.error, bytes)

/-- `ConnBuffer::readToCpu` into offset `dest` of `out`; the copy out of a host buffer is a
plain `memcpy`. -/
def readToCpu (bytes out : Bytes) (dest size bias : ℕ) (copied : Bool) : Status × Bytes :=
  if wrap64 (bias + size) > b.bufferSize then (.error, out)
  else if b.memType = .cpu ∨ copied then
    (.success, blit out dest (fun k => bytes (bias + k)) size)
  else (.error, out)

/-- `ConnBuffer::readToGpu`: refuses a host buffer. -/
def readToGpu (bytes out : Bytes) (dest size bias : ℕ) (copied : Bool) : Status × Bytes :=
  if wrap64 (bias + size) > b.bufferSize then (.error, out)
  else if b.memType = .cpu then (.error, out)
  else if copied then (.success, blit out dest (fun k => bytes (bias + k)) size)
  else (.error, out)

/-- The staging copy of the transfers: `writeFromCpu` for host memory, else `writeFromGpu`. -/
def stageIn (memType : MemoryType) (bytes src : Bytes) (size bias : ℕ) (copied : Bool) :
    Status × Bytes :=
  if memType = .cpu then b.writeFromCpu bytes src size bias copied
  else b.writeFromGpu bytes src size bias copied

/-- The copy out of a half: `readToCpu` for host memory, else `readToGpu`. -/
def stageOut (memType : MemoryType) (bytes out : Bytes) (dest size bias : ℕ)
    (copied : Bool) : Status × Bytes :=
  if memType = .cpu then b.readToCpu bytes out dest size bias copied
  else b.readToGpu bytes out dest size bias copied

variable {b} {memType : MemoryType} {bytes src out : Bytes} {size bias dest : ℕ}
  {copied : Bool}

/-- A staging copy inside the buffer whose backend succeeds writes its range, and its range
only. -/
theorem stageIn_eq (hfit : bias + size ≤ b.bufferSize) (h64 : b.bufferSize < 2 ^ 64)
    (hmem : memType = .cpu ∨ b.memType ≠ .cpu) :
    b.stageIn memType bytes src size bias true = (.success, blit bytes bias src size) := by
  have hbound : ¬ wrap64 (bias + size) > b.bufferSize := by
    rw [wrap64_of_lt (by omega)]
    omega
  simp only [stageIn, writeFromCpu, writeFromGpu, if_neg hbound, if_true]
  split_ifs with hcpu hbuf
  · rfl
  · exact absurd hbuf (hmem.resolve_left hcpu)
  · rfl

/-- A copy out of the buffer takes the bytes of its range only. -/
theorem stageOut_congr {bytes' : Bytes} (h : ∀ k < size, bytes (bias + k) = bytes' (bias + k)) :
    b.stageOut memType bytes out dest size bias copied =
      b.stageOut memType bytes' out dest size bias copied := by
  unfold stageOut readToCpu readToGpu
  rw [blit_congr h]

/-- A copy out of the buffer whose backend succeeds delivers the bytes of its range. -/
theorem stageOut_eq (hfit : bias + size ≤ b.bufferSize) (h64 : b.bufferSize < 2 ^ 64)
    (hmem : memType = .cpu ∨ b.memType ≠ .cpu) :
    b.stageOut memType bytes out dest size bias true =
      (.success, blit out dest (fun k => bytes (bias + k)) size) := by
  have hbound : ¬ wrap64 (bias + size) > b.bufferSize := by
    rw [wrap64_of_lt (by omega)]
    omega
  simp only [stageOut, readToCpu, readToGpu, if_neg hbound, if_true, or_true]
  split_ifs with hcpu hbuf
  · rfl
  · exact absurd hbuf (hmem.resolve_left hcpu)
  · rfl

end ConnBuffer

end HMC
