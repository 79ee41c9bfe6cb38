import HMC.Core.ConnBuffer
import HMC.Machine.Splice

/-!
# The connection buffer as a byte array

In host memory a `ConnBuffer` is meant to be an array of `buffer_size` bytes: a call fails and
changes nothing, or its ranges lie in the array and it writes, reads or moves exactly their bytes
(`Call.Performs`, in terms of lists). The ranges are checked with one `size_t` sum each, which
wraps: a `bias` below the end of the address space passes, and the copy starts outside the block.
`isByteArray_iff` says that nothing else goes wrong, in any sequence of calls.

The result is first one about single calls (`performs_iff`). A call that does not pass its checks
fails and changes nothing (`call_of_not_accepted`); one that passes them succeeds, and if no sum
wrapped its ranges are inside, so that writing the block is a splice of the array and reading it a
slice (`perform_of_inside`). Conversely an accepted call with a sum that wrapped has a range that is
not inside, which the claim denies. A sequence is handled call by call, since the condition does
not depend on the contents.
-/

namespace HMC

open HMC.Machine

/-- `ConnBuffer::copyWithin`. The two ranges may overlap: host memory is moved with `memmove`. -/
def ConnBuffer.copyWithin (b : ConnBuffer) (bytes : Bytes) (dstBias srcBias size : ℕ)
    (copied : Bool) : Status × Bytes :=
  if wrap64 (dstBias + size) > b.bufferSize ∨ wrap64 (srcBias + size) > b.bufferSize then
    (.error, bytes)
  else if size = 0 ∨ dstBias = srcBias then (.success, bytes)
  else if b.memType = .cpu ∨ copied then
    (.success, blit bytes dstBias (fun k => bytes (srcBias + k)) size)
  else (.error, bytes)

/-- A `ConnBuffer` whose block has been allocated in host memory. -/
structure HostBuffer extends ConnBuffer where
  host : memType = .cpu
  fits : bufferSize < 2 ^ 64

namespace HostBuffer

/-! ### The calls -/

/-- A call on a buffer in host memory. Pointers are offsets into the caller's own memory, and
`none` is a null pointer. -/
inductive Call
  | writeFromCpu (src : Option ℕ) (size bias : UInt64)
  | readToCpu (dest : ℕ) (size bias : UInt64)
  | copyWithin (dstBias srcBias size : UInt64)
  deriving DecidableEq

/-- The block of the buffer and the caller's memory. From `buffer_size` on, the offsets into the
block stand for the memory outside it. -/
structure Memory where
  block : Bytes
  user : Bytes

/-- `HostMemory::copyHostToDevice` looks at nothing but null pointers, and the block has been
allocated. -/
def copied (src : Option ℕ) : Bool := src.isSome

/-- One call: its status, and the memory after it. Offsets do not wrap: a range that starts near the
end of the address space and passes the check goes on from `2 ^ 64`, where the pointers of the code
are at the start of the block again. -/
def call (b : HostBuffer) (m : Memory) : Call → Status × Memory
  | .writeFromCpu src size bias =>
    let r := b.writeFromCpu m.block (fun k => m.user (src.getD 0 + k)) size.toNat bias.toNat
      (copied src)
    (r.1, { m with block := r.2 })
  | .readToCpu dest size bias =>
    let r := b.readToCpu m.block m.user dest size.toNat bias.toNat true
    (r.1, { m with user := r.2 })
  | .copyWithin dstBias srcBias size =>
    let r := b.copyWithin m.block dstBias.toNat srcBias.toNat size.toNat true
    (r.1, { m with block := r.2 })

/-- The memory after a sequence of calls. -/
def after (b : HostBuffer) (m : Memory) (calls : List Call) : Memory :=
  calls.foldl (fun m c => (call b m c).2) m

namespace Call

/-- The ranges of the block that a call names, by offset and size. -/
def ranges : Call → List (ℕ × ℕ)
  | .writeFromCpu _ size bias => [(bias.toNat, size.toNat)]
  | .readToCpu _ size bias => [(bias.toNat, size.toNat)]
  | .copyWithin dstBias srcBias size =>
    [(dstBias.toNat, size.toNat), (srcBias.toNat, size.toNat)]

/-- A null pointer is passed. -/
def null : Call → Bool
  | .writeFromCpu src _ _ => src.isNone
  | _ => false

/-! ### The byte array -/

/-- What a call makes of an array of bytes and the caller's memory. -/
def perform (a : List UInt8) (user : Bytes) : Call → List UInt8 × Bytes
  | .writeFromCpu src size bias =>
    (splice a bias.toNat (window (fun k => user (src.getD 0 + k)) size.toNat), user)
  | .readToCpu dest size bias =>
    (a, blit user dest (fun k => (slice a bias.toNat size.toNat).getD k 0) size.toNat)
  | .copyWithin dstBias srcBias size =>
    (splice a dstBias.toNat (slice a srcBias.toNat size.toNat), user)

/-- The claim about one call: it fails and changes nothing, or its ranges lie in the buffer, it acts
as on the array of the buffer's bytes, and changes nothing outside it. -/
def Performs (b : HostBuffer) (m : Memory) (c : Call) : Prop :=
  call b m c = (.error, m) ∨
    (call b m c).1 = .success ∧ (∀ r ∈ c.ranges, r.1 + r.2 ≤ b.bufferSize) ∧
      (window (call b m c).2.block b.bufferSize, (call b m c).2.user) =
        c.perform (window m.block b.bufferSize) m.user ∧
      ∀ a, b.bufferSize ≤ a → (call b m c).2.block a = m.block a

/-- The range checks, as `size_t` sums, and the check of the pointer. -/
def Accepted (b : HostBuffer) (c : Call) : Prop :=
  (∀ r ∈ c.ranges, wrap64 (r.1 + r.2) ≤ b.bufferSize) ∧ c.null = false

/-- No range ends beyond what a `size_t` can hold. -/
def Exact (c : Call) : Prop := ∀ r ∈ c.ranges, r.1 + r.2 < 2 ^ 64

instance (b : HostBuffer) (c : Call) : Decidable (c.Accepted b) :=
  inferInstanceAs (Decidable (_ ∧ _))

instance (c : Call) : Decidable c.Exact :=
  inferInstanceAs (Decidable (∀ r ∈ c.ranges, r.1 + r.2 < 2 ^ 64))

end Call

/-- The claim about a sequence of calls, from memory `m` on. -/
def IsByteArray (b : HostBuffer) (m : Memory) (calls : List Call) : Prop :=
  ∀ before c rest, calls = before ++ c :: rest → c.Performs b (after b m before)

/-! ### One call -/

variable {b : HostBuffer} {m : Memory} {c : Call}

theorem accepted_write {src : ℕ} {size bias : UInt64} :
    (Call.writeFromCpu (some src) size bias).Accepted b ↔
      wrap64 (bias.toNat + size.toNat) ≤ b.bufferSize := by
  simp [Call.Accepted, Call.ranges, Call.null]

theorem not_accepted_null {size bias : UInt64} :
    ¬ (Call.writeFromCpu none size bias).Accepted b :=
  fun h => Bool.noConfusion h.2

theorem accepted_read {dest : ℕ} {size bias : UInt64} :
    (Call.readToCpu dest size bias).Accepted b ↔
      wrap64 (bias.toNat + size.toNat) ≤ b.bufferSize := by
  simp [Call.Accepted, Call.ranges, Call.null]

theorem accepted_move {dstBias srcBias size : UInt64} :
    (Call.copyWithin dstBias srcBias size).Accepted b ↔
      wrap64 (dstBias.toNat + size.toNat) ≤ b.bufferSize ∧
        wrap64 (srcBias.toNat + size.toNat) ≤ b.bufferSize := by
  simp [Call.Accepted, Call.ranges, Call.null]

/-- A call that does not pass its checks fails. -/
theorem call_of_not_accepted (h : ¬ c.Accepted b) : call b m c = (.error, m) := by
  cases c with
  | writeFromCpu src size bias =>
    cases src with
    | none =>
      simp only [call, ConnBuffer.writeFromCpu, copied, Option.isSome_none, Bool.false_eq_true,
        if_false, ite_self]
    | some src =>
      rw [accepted_write, Nat.not_le] at h
      simp only [call, ConnBuffer.writeFromCpu, gt_iff_lt, if_pos h]
  | readToCpu dest size bias =>
    rw [accepted_read, Nat.not_le] at h
    simp only [call, ConnBuffer.readToCpu, gt_iff_lt, if_pos h]
  | copyWithin dstBias srcBias size =>
    rw [accepted_move, not_and_or, Nat.not_le, Nat.not_le] at h
    simp only [call, ConnBuffer.copyWithin, gt_iff_lt, if_pos h]

theorem call_write {src : ℕ} {size bias : UInt64}
    (h : (Call.writeFromCpu (some src) size bias).Accepted b) :
    call b m (.writeFromCpu (some src) size bias) =
      (.success,
        { m with block := blit m.block bias.toNat (fun k => m.user (src + k)) size.toNat }) := by
  rw [accepted_write, ← Nat.not_lt] at h
  simp only [call, ConnBuffer.writeFromCpu, gt_iff_lt, if_neg h, copied, Option.isSome_some,
    if_true, Option.getD_some]

theorem call_read {dest : ℕ} {size bias : UInt64}
    (h : (Call.readToCpu dest size bias).Accepted b) :
    call b m (.readToCpu dest size bias) =
      (.success,
        { m with user := blit m.user dest (fun k => m.block (bias.toNat + k)) size.toNat }) := by
  rw [accepted_read, ← Nat.not_lt] at h
  simp only [call, ConnBuffer.readToCpu, gt_iff_lt, if_neg h, b.host, true_or, if_true]

/-- Where nothing is moved, the block is as if it had been. -/
theorem blit_of_same {bytes : Bytes} {dst src size : ℕ} (h : size = 0 ∨ dst = src) :
    blit bytes dst (fun k => bytes (src + k)) size = bytes := by
  funext a
  by_cases ha : dst ≤ a ∧ a < dst + size
  · obtain rfl := h.resolve_left (by omega)
    obtain ⟨k, rfl⟩ := Nat.exists_eq_add_of_le ha.1
    exact blit_apply_add (by omega)
  · exact blit_apply_of_not_mem (by omega)

theorem call_move {dstBias srcBias size : UInt64}
    (h : (Call.copyWithin dstBias srcBias size).Accepted b) :
    call b m (.copyWithin dstBias srcBias size) =
      (.success,
        { m with
          block :=
            blit m.block dstBias.toNat (fun k => m.block (srcBias.toNat + k)) size.toNat }) := by
  rw [accepted_move, ← Nat.not_lt, ← Nat.not_lt, ← not_or] at h
  simp only [call, ConnBuffer.copyWithin, gt_iff_lt, if_neg h]
  split_ifs with hsame hmem
  · rw [blit_of_same hsame]
  · rfl
  · exact absurd (.inl b.host) hmem

/-! ### What a call does -/

/-- Writing a range of the block. -/
theorem window_blit {bytes src : Bytes} {off size n : ℕ} (h : off + size ≤ n) :
    window (blit bytes off src size) n = splice (window bytes n) off (window src size) :=
  window_overwrite h (fun _ hk => blit_apply_add hk) fun _ ha => blit_apply_of_not_mem ha

/-- A call that passes its checks succeeds. -/
theorem status_of_accepted (h : c.Accepted b) : (call b m c).1 = .success := by
  cases c with
  | writeFromCpu src size bias =>
    cases src with
    | none => exact absurd h not_accepted_null
    | some src => rw [call_write h]
  | readToCpu dest size bias => rw [call_read h]
  | copyWithin dstBias srcBias size => rw [call_move h]

/-- The ranges of an accepted call whose sums do not wrap lie in the buffer. -/
theorem inside_of_accepted (h : c.Accepted b) (he : c.Exact) :
    ∀ r ∈ c.ranges, r.1 + r.2 ≤ b.bufferSize := by
  intro r hr
  have hle := h.1 r hr
  rwa [wrap64_of_lt (he r hr)] at hle

/-- An accepted call whose ranges lie in the buffer acts as on an array. -/
theorem perform_of_inside (h : c.Accepted b) (hin : ∀ r ∈ c.ranges, r.1 + r.2 ≤ b.bufferSize) :
    (window (call b m c).2.block b.bufferSize, (call b m c).2.user) =
        c.perform (window m.block b.bufferSize) m.user ∧
      ∀ a, b.bufferSize ≤ a → (call b m c).2.block a = m.block a := by
  cases c with
  | writeFromCpu src size bias =>
    cases src with
    | none => exact absurd h not_accepted_null
    | some src =>
      have hrange : bias.toNat + size.toNat ≤ b.bufferSize := hin _ (.head _)
      rw [call_write h]
      dsimp only
      refine ⟨?_, fun a ha => blit_apply_of_not_mem (.inr (Nat.le_trans hrange ha))⟩
      rw [Call.perform, ← window_blit hrange]
      rfl
  | readToCpu dest size bias =>
    have hrange : bias.toNat + size.toNat ≤ b.bufferSize := hin _ (.head _)
    rw [call_read h]
    dsimp only
    refine ⟨?_, fun _ _ => rfl⟩
    rw [Call.perform, slice_window hrange]
    refine congrArg (_, ·) (blit_congr fun k hk => ?_)
    rw [List.getD_eq_getElem?_getD, getElem?_window hk, Option.getD_some]
  | copyWithin dstBias srcBias size =>
    have hdst : dstBias.toNat + size.toNat ≤ b.bufferSize := hin _ (.head _)
    have hsrc : srcBias.toNat + size.toNat ≤ b.bufferSize := hin _ (.tail _ (.head _))
    rw [call_move h]
    dsimp only
    refine ⟨?_, fun a ha => blit_apply_of_not_mem (.inr (Nat.le_trans hdst ha))⟩
    rw [Call.perform, slice_window hsrc, ← window_blit hdst]

/-- One call does what it should exactly when no sum wraps that passes a check. -/
theorem performs_iff : c.Performs b m ↔ (c.Accepted b → c.Exact) := by
  constructor
  · intro h hacc r hr
    obtain herr | ⟨-, hin, -⟩ := h
    · have hstatus := status_of_accepted (m := m) hacc
      rw [herr] at hstatus
      cases hstatus
    · exact Nat.lt_of_le_of_lt (hin r hr) b.fits
  · intro h
    by_cases hacc : c.Accepted b
    · have hin := inside_of_accepted hacc (h hacc)
      exact .inr ⟨status_of_accepted hacc, hin, perform_of_inside hacc hin⟩
    · exact .inl (call_of_not_accepted hacc)

/-! ### The claim -/

/-- **When a buffer is a byte array**: exactly when no call of the sequence has a range whose end
wraps and then passes the check. Each call is judged in the memory that the calls before it have
left, but by `performs_iff` the judgement is about its arguments only. -/
theorem isByteArray_iff (b : HostBuffer) (m : Memory) (calls : List Call) :
    IsByteArray b m calls ↔ ∀ c ∈ calls, c.Accepted b → c.Exact := by
  constructor
  · intro h c hc
    obtain ⟨before, rest, hsplit⟩ := List.append_of_mem hc
    exact performs_iff.mp (h before c rest hsplit)
  · intro h before c rest hsplit
    refine performs_iff.mpr (h c ?_)
    rw [hsplit]
    exact List.mem_append_right _ (.head _)

/-- A buffer of 16 bytes. -/
def smallBuffer : HostBuffer := ⟨⟨16, .cpu⟩, rfl, by decide⟩

/-- **A write before the block.** With the greatest `bias`, writing one byte passes the check and
succeeds, and the byte goes to the address before the block. -/
theorem written_outside :
    let c : Call := .writeFromCpu (some 0) 1 0xFFFFFFFFFFFFFFFF
    let m : Memory := ⟨fun _ => 0, fun _ => 1⟩
    (call smallBuffer m c).1 = .success ∧
      (call smallBuffer m c).2.block (2 ^ 64 - 1) = 1 ∧ ¬ IsByteArray smallBuffer m [c] := by
  refine ⟨by decide, by decide, fun h => ?_⟩
  obtain hfail | ⟨-, hin, -⟩ := h [] _ [] rfl
  · exact absurd (congrArg Prod.fst hfail) (by decide)
  · exact absurd (hin _ (.head _)) (by decide)

end HostBuffer

end HMC
