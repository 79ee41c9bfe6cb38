import HMC.Uhm.Delivery
import HMC.Uhm.Side

/-!
# `uhm_recv` against any header

The length and the chunk size come from the peer, which may write whatever it likes into the words
at any time. The chunk size is clamped to the local half and every chunk is checked against the
output buffer, so all staging reads are in bounds (`SafeRead`).

The status of a staging read is dropped, so that `SUCCESS` does not mean that the bytes were copied
(`success_without_bytes`). `reads_header` is the claim for the runs in which no staging read fails.

The call reads the length and the chunk size once each, into locals, and a peer that changes the
words afterwards changes nothing. From then on the locals are those of a loop over `n` bytes in
chunks of `r`, with `r` at most a half (`Receiver.Sized`): the accumulated size is the sum of what
was read, so the checks of the code are what keeps the reads inside the output, and the subtraction
for the last chunk does not wrap. `ReadInv` carries this through every run against any peer
(`Side.Words` asks only that the words have 32 bits).
-/

namespace HMC.Uhm

open HMC.Machine

/-- A call of `readToCpu` or `readToGpu`: `size` bytes from offset `bias` of the connection buffer
to offset `dest` of the output, and whether it returned `SUCCESS`. -/
structure StagingRead where
  bias : ℕ
  size : ℕ
  dest : ℕ
  copied : Bool
  deriving DecidableEq

/-- `uhm_recv` takes the length of the header, or reads a chunk. -/
inductive RecvEvent
  | length (n : ℕ)
  | read (r : StagingRead)
  deriving DecidableEq

namespace RecvEvent

def length? : RecvEvent → Option ℕ
  | length n => some n
  | read _ => none

def read? : RecvEvent → Option StagingRead
  | length _ => none
  | read r => some r

end RecvEvent

/-- The headers that were taken. -/
def lengths (log : List RecvEvent) : List ℕ := log.filterMap RecvEvent.length?

/-- The staging reads that were made. -/
def reads (log : List RecvEvent) : List StagingRead := log.filterMap RecvEvent.read?

@[simp] theorem reads_snoc (log : List RecvEvent) (r : StagingRead) :
    reads (log ++ [.read r]) = reads log ++ [r] := by
  simp [reads, RecvEvent.read?]

@[simp] theorem lengths_snoc (log : List RecvEvent) (r : StagingRead) :
    lengths (log ++ [.read r]) = lengths log := by
  simp [lengths, RecvEvent.length?]

/-- Each read goes on where the one before has ended, the first one at `0`. -/
def Contiguous (l : List StagingRead) : Prop :=
  ∀ before r after, l = before ++ r :: after → r.dest = (before.map StagingRead.size).sum

theorem contiguous_nil : Contiguous [] := by
  intro before r after hl
  cases before <;> cases hl

theorem Contiguous.snoc {l : List StagingRead} {r : StagingRead} (h : Contiguous l)
    (hr : r.dest = (l.map StagingRead.size).sum) : Contiguous (l ++ [r]) := by
  intro before r' after heq
  obtain ⟨mid, -, hl⟩ | ⟨-, rfl, rfl⟩ := snoc_eq_append_cons heq
  · exact h before r' mid hl
  · exact hr

namespace RecvCall

variable (c : RecvCall)

/-- The two outcomes of the boundary checks. -/
theorem copyOut_outcomes (e : Endpoint) (t : Receiver) (copied : Bool) :
    (t.recvSizeOf = 0 ∨ c.bufferSize < t.recvSizeOf ∨
        c.bufferSize < wrap64 (t.accumulatedSize + t.recvSizeOf)) ∧
      c.copyOut e t copied = t.goto (.done .error) ∨
      t.recvSizeOf ≠ 0 ∧ t.recvSizeOf ≤ c.bufferSize ∧
      wrap64 (t.accumulatedSize + t.recvSizeOf) ≤ c.bufferSize ∧
      c.copyOut e t copied = { t with
        pc := .markWritable
        recvSize := t.recvSizeOf
        output := (c.buffer.stageOut c.memType e.bytes t.output t.accumulatedSize t.recvSizeOf
          (c.bias t) copied).2 } := by
  unfold copyOut
  dsimp only
  split_ifs with hzero hlarge hsum
  · exact .inl ⟨.inl hzero, rfl⟩
  · exact .inl ⟨.inr (.inl hlarge), rfl⟩
  · exact .inl ⟨.inr (.inr hsum), rfl⟩
  · exact .inr ⟨hzero, Nat.not_lt.mp hlarge, Nat.not_lt.mp hsum, rfl⟩

/-- The staging read of the current chunk; `ok` is the outcome of the memory operation. -/
def readOf (ok : Bool) (e : Endpoint) (t : Receiver) : StagingRead where
  bias := c.bias t
  size := t.recvSizeOf
  dest := t.accumulatedSize
  copied := decide ((c.buffer.stageOut c.memType e.bytes t.output t.accumulatedSize t.recvSizeOf
    (c.bias t) ok).1 = .success)

/-- What a step of the thread does to the header and the connection buffer. -/
def observe (ok : Bool) (e : Endpoint) (t : Receiver) : Option RecvEvent :=
  match t.pc with
  | .readLength => some (.length e.uhm.length)
  | .copyOut =>
    if (c.copyOut e t ok).pc = .markWritable then some (.read (c.readOf ok e t)) else none
  | _ => none

/-- The receiver's side, with a log of what it takes and reads. -/
abbrev observed : Logged (Side Receiver) RecvEvent → SideAct →
    Option (Logged (Side Receiver) RecvEvent) :=
  logStep (Side.step c.step) (Side.emit c.observe)

/-- The memory behind a staging read does not fail: a host buffer is read to the host, or the
device copy succeeds. -/
def Copies (s : Side Receiver) : SideAct → Prop
  | .run ok => s.thread.pc = .copyOut →
    if c.buffer.memType = .cpu then c.memType = .cpu else ok = true
  | .nic _ | .peer _ _ => True

instance (s : Side Receiver) : ∀ a, Decidable (c.Copies s a)
  | .run ok => inferInstanceAs (Decidable (s.thread.pc = .copyOut →
      if c.buffer.memType = .cpu then c.memType = .cpu else ok = true))
  | .nic _ | .peer _ _ => .isTrue trivial

/-- Every read is inside one half and inside the output, the reads are contiguous, no size
underflows or is zero, and a call that succeeds has read all of the length it took. -/
structure SafeRead (w : Logged (Side Receiver) RecvEvent) : Prop where
  half : ∀ r ∈ reads w.log, (∃ h < 2, r.bias = h * c.halfBufferSize) ∧ r.size ≤ c.halfBufferSize
  output : ∀ r ∈ reads w.log, r.dest + r.size ≤ c.bufferSize
  contiguous : Contiguous (reads w.log)
  underflow : w.state.thread.pc = .copyOut →
    w.state.thread.currentChunk + 1 = w.state.thread.numRecvChunks →
      w.state.thread.accumulatedSize ≤ w.state.thread.recvFlags
  nonzero : w.state.thread.pc = .copyOut → w.state.thread.recvSizeOf ≠ 0
  success : w.state.thread.pc = .done .success → ∃ n, lengths w.log = [n] ∧ 0 < n ∧
    w.state.thread.recvFlags = n ∧ n ≤ c.bufferSize ∧ ((reads w.log).map StagingRead.size).sum = n

/-- The claim: the reads are safe, and `SUCCESS` is returned only after exactly the length of the
header has been copied. -/
structure ReadsHeader (w : Logged (Side Receiver) RecvEvent) : Prop extends c.SafeRead w where
  copied : w.state.thread.pc = .done .success → ∃ n, lengths w.log = [n] ∧ n ≤ c.bufferSize ∧
    (((reads w.log).filter StagingRead.copied).map StagingRead.size).sum = n

end RecvCall

/-! ### The invariant -/

/-- The locations before the header is taken. -/
def RecvPc.untaken : RecvPc → Bool
  | .initState0 | .initState1 | .initLength | .initChunkBytes | .readState | .readLength => true
  | _ => false

/-- Where the thread stands: `n` chunks in all, at chunk `i`, with `k` chunks read. -/
def RecvPc.Reads (n i k : ℕ) : RecvPc → Prop
  | .spin | .copyOut => i < n ∧ k = i
  | .markWritable | .postFlag | .waitPending => i < n ∧ k = i + 1
  | .finalWait | .done .success => i = n ∧ k = i
  | .storeState0 | .storeState1 => i = 0 ∧ k = 0
  | _ => False

/-- The locals of a call that has taken a length of `n` bytes in chunks of `r`, and has read `k`
chunks. -/
structure Receiver.Sized (c : RecvCall) (t : Receiver) (log : List RecvEvent) (n r k : ℕ) :
    Prop where
  recvFlags : t.recvFlags = n
  recvChunkSize : t.recvChunkSize = r
  numRecvChunks : t.numRecvChunks = numChunks n r
  pos : 0 < n
  lt : n < 2 ^ 32
  chunk_pos : 0 < r
  chunk_le : r ≤ c.halfBufferSize
  accumulatedSize : t.accumulatedSize = min (t.currentChunk * r) n
  recvSize : k = t.currentChunk + 1 → t.recvSize = chunkLen n r t.currentChunk
  lengths : lengths log = [n]
  sum : ((reads log).map StagingRead.size).sum = min (k * r) n
  fits : min (k * r) n ≤ c.bufferSize

/-- Where a call stands: it has failed, it waits for the header, it has taken the length, or it
reads. -/
inductive Receiver.Place (c : RecvCall) (t : Receiver) (log : List RecvEvent) : Prop
  | failed (ret : Status) (pc : t.pc = .done ret) (ne : ret ≠ .success)
  | early (half : 0 < c.halfBufferSize) (chunk : t.currentChunk = 0) (size : t.accumulatedSize = 0)
      (pc : t.pc.untaken = true) (log_eq : log = [])
  | taken (half : 0 < c.halfBufferSize) (chunk : t.currentChunk = 0) (size : t.accumulatedSize = 0)
      (pc : t.pc = .readChunkBytes) (log_eq : log = [.length t.recvFlags])
      (lt : t.recvFlags < 2 ^ 32)
  | sized (n r k : ℕ) (sized : t.Sized c log n r k)
      (place : t.pc.Reads t.numRecvChunks t.currentChunk k)

/-- The invariant of `uhm_recv` in any environment. -/
structure ReadInv (c : RecvCall) (w : Logged (Side Receiver) RecvEvent) : Prop where
  half : ∀ r ∈ reads w.log, (∃ h < 2, r.bias = h * c.halfBufferSize) ∧ r.size ≤ c.halfBufferSize
  output : ∀ r ∈ reads w.log, r.dest + r.size ≤ c.bufferSize
  contiguous : Contiguous (reads w.log)
  place : w.state.thread.Place c w.log
  word : w.state.thread.pc = .initChunkBytes ∨ w.state.thread.pc = .readState ∨
    w.state.thread.pc = .readLength → w.state.ep.uhm.length < 2 ^ 32

namespace Receiver.Sized

variable {c : RecvCall} {t t' : Receiver} {log : List RecvEvent} {n r k : ℕ}

/-- Only the place is new. -/
theorem goto (h : t.Sized c log n r k) (pc : RecvPc) : (t.goto pc).Sized c log n r k := { h with }

/-- The head of the loop, with the chunks below the current one read. -/
theorem loopHead (h : t.Sized c log n r t.currentChunk) (hi : t.currentChunk ≤ t.numRecvChunks) :
    t.loopHead.Sized c log n r t.currentChunk ∧
      t.loopHead.pc.Reads t.loopHead.numRecvChunks t.loopHead.currentChunk t.currentChunk := by
  unfold Receiver.loopHead
  split_ifs with hlt
  · exact ⟨h.goto _, hlt, rfl⟩
  · exact ⟨h.goto _, Nat.le_antisymm hi (Nat.not_lt.mp hlt), rfl⟩
  · exact ⟨h.goto _, Nat.le_antisymm hi (Nat.not_lt.mp hlt), rfl⟩

/-- The end of an iteration. -/
theorem nextChunk (h : t.Sized c log n r (t.currentChunk + 1))
    (hi : t.currentChunk < t.numRecvChunks) :
    ∃ k, t.nextChunk.Sized c log n r k ∧
      t.nextChunk.pc.Reads t.nextChunk.numRecvChunks t.nextChunk.currentChunk k := by
  have hlt := (lt_numChunks_iff h.chunk_pos).mp (h.numRecvChunks ▸ hi)
  have hacc : wrap64 (t.accumulatedSize + t.recvSize) = min ((t.currentChunk + 1) * r) n := by
    have := h.lt
    rw [h.accumulatedSize, h.recvSize rfl, chunkLen, Nat.add_mul, Nat.one_mul,
      wrap64_of_lt (by omega)]
    omega
  refine ⟨_, loopHead { h with accumulatedSize := hacc, recvSize := fun hk => ?_ } hi⟩
  exact absurd hk (Nat.succ_ne_self _).symm

theorem recvSizeOf (h : t.Sized c log n r t.currentChunk) (hi : t.currentChunk < t.numRecvChunks) :
    t.recvSizeOf = chunkLen n r t.currentChunk ∧ t.accumulatedSize = t.currentChunk * r := by
  rw [h.numRecvChunks] at hi
  have hlt := (lt_numChunks_iff h.chunk_pos).mp hi
  have hacc : t.accumulatedSize = t.currentChunk * r := by
    rw [h.accumulatedSize]
    omega
  refine ⟨?_, hacc⟩
  exact Receiver.recvSizeOf_eq h.chunk_pos h.lt h.recvFlags h.recvChunkSize h.numRecvChunks hacc hi

end Receiver.Sized

namespace ReadInv

variable {c : RecvCall} {w w' : Logged (Side Receiver) RecvEvent}

theorem initial (c : RecvCall) (e : Endpoint) (output : Bytes) (recvFlags : ℕ) :
    ReadInv c ⟨⟨e, c.enter output recvFlags⟩, []⟩ := by
  refine
    { half := by simp [reads]
      output := by simp [reads]
      contiguous := contiguous_nil
      place := ?_
      word := ?_ }
  · unfold RecvCall.enter
    dsimp only
    split_ifs with hnull hhalf
    · exact .failed _ rfl (by simp)
    · exact .failed _ rfl (by simp)
    · exact .early (Nat.pos_of_ne_zero hhalf) rfl rfl rfl rfl
  · unfold RecvCall.enter
    dsimp only
    split_ifs <;> simp

/-- Nothing is taken or read, and the thread has a new place. -/
theorem moved (h : ReadInv c w) {ep : Endpoint} {t : Receiver} (place : t.Place c w.log)
    (word : t.pc = .initChunkBytes ∨ t.pc = .readState ∨ t.pc = .readLength →
      ep.uhm.length < 2 ^ 32) : ReadInv c ⟨⟨ep, t⟩, w.log ++ Option.toList none⟩ := by
  rw [Option.toList_none, List.append_nil]
  exact
    { half := h.half
      output := h.output
      contiguous := h.contiguous
      place := place
      word := word }

/-- The thread waits for the header or takes it. -/
theorem early {s : Side Receiver} (h : ReadInv c ⟨s, []⟩) (half : 0 < c.halfBufferSize)
    (chunk : s.thread.currentChunk = 0) (size : s.thread.accumulatedSize = 0)
    (hpc : s.thread.pc.untaken = true) {ok : Bool} {p : Endpoint × Receiver}
    (hs : c.step ok s.ep s.thread = some p) :
    ReadInv c ⟨⟨p.1, p.2⟩, [] ++ (c.observe ok s.ep s.thread).toList⟩ := by
  cases hpc' : s.thread.pc <;> rw [hpc'] at hpc <;> cases hpc <;>
    simp only [RecvCall.step, hpc'] at hs <;> obtain rfl := Option.some.inj hs <;>
    simp only [RecvCall.observe, hpc']
  case initState0 => exact h.moved (.early half chunk size rfl rfl) (by simp [Receiver.goto])
  case initState1 => exact h.moved (.early half chunk size rfl rfl) (by simp [Receiver.goto])
  case initLength =>
    exact h.moved (.early half chunk size rfl rfl) fun _ => by simp [Endpoint.setLength]
  case initChunkBytes =>
    exact h.moved (.early half chunk size rfl rfl) fun _ => h.word (.inl hpc')
  case readState =>
    refine h.moved ?_ fun _ => h.word (.inr (.inl hpc'))
    dsimp only
    split_ifs
    · exact .early half chunk size rfl rfl
    · exact .early half chunk size (by rw [hpc']; rfl) rfl
  case readLength =>
    exact
      { half := by simp [reads, RecvEvent.read?]
        output := by simp [reads, RecvEvent.read?]
        contiguous := contiguous_nil
        place := .taken half chunk size rfl rfl (h.word (.inr (.inr hpc')))
        word := by simp }

/-- The thread takes the chunk size, or finds an empty message. -/
theorem headerRead (h : ReadInv c w) (half : 0 < c.halfBufferSize)
    (chunk : w.state.thread.currentChunk = 0) (size : w.state.thread.accumulatedSize = 0)
    (hlog : w.log = [.length w.state.thread.recvFlags]) (hlt : w.state.thread.recvFlags < 2 ^ 32)
    (chunkBytes : ℕ) :
    ReadInv c ⟨⟨w.state.ep, c.headerRead w.state.thread chunkBytes⟩,
      w.log ++ Option.toList none⟩ := by
  refine h.moved ?_ ?_
  · unfold RecvCall.headerRead
    split_ifs with hzero
    · exact .failed _ rfl (by simp)
    · refine .sized w.state.thread.recvFlags (c.chunkSizeOf chunkBytes) 0 ?_ ⟨chunk, rfl⟩
      exact
        { recvFlags := rfl
          recvChunkSize := rfl
          numRecvChunks := rfl
          pos := Nat.pos_of_ne_zero hzero
          lt := hlt
          chunk_pos := by
            rw [RecvCall.chunkSizeOf]
            omega
          chunk_le := by
            rw [RecvCall.chunkSizeOf]
            omega
          accumulatedSize := by simp [chunk, size]
          recvSize := fun hk => absurd hk (Nat.succ_ne_zero _).symm
          lengths := by rw [hlog]; rfl
          sum := by
            rw [hlog, Nat.zero_mul, Nat.zero_min]
            rfl
          fits := by
            rw [Nat.zero_mul, Nat.zero_min]
            exact Nat.zero_le _ }
  · unfold RecvCall.headerRead
    split_ifs <;> simp [Receiver.goto]

/-- A chunk is read, or refused by one of the checks. -/
theorem copyOut (h : ReadInv c w) {n r : ℕ} (hpc : w.state.thread.pc = .copyOut)
    (hsized : w.state.thread.Sized c w.log n r w.state.thread.currentChunk)
    (hi : w.state.thread.currentChunk < w.state.thread.numRecvChunks) (ok : Bool) :
    ReadInv c ⟨⟨w.state.ep, c.copyOut w.state.ep w.state.thread ok⟩,
      w.log ++ (c.observe ok w.state.ep w.state.thread).toList⟩ := by
  obtain ⟨hsize, hacc⟩ := hsized.recvSizeOf hi
  have hi' := hsized.numRecvChunks ▸ hi
  have hlt := (lt_numChunks_iff hsized.chunk_pos).mp hi'
  have hend := chunk_end_le hsized.chunk_pos hi'
  have hn := hsized.lt
  simp only [RecvCall.observe, hpc]
  obtain ⟨-, heq⟩ | ⟨-, -, hfits, heq⟩ := c.copyOut_outcomes w.state.ep w.state.thread ok
  · rw [heq, if_neg (by simp [Receiver.goto])]
    exact h.moved (.failed _ rfl (by simp)) (by simp [Receiver.goto])
  · rw [heq, if_pos rfl, Option.toList_some]
    rw [hsize, hacc, wrap64_of_lt (by omega)] at hfits
    have hle : chunkLen n r w.state.thread.currentChunk ≤ r := chunkLen_le
    have hsum : w.state.thread.currentChunk * r + chunkLen n r w.state.thread.currentChunk =
        min ((w.state.thread.currentChunk + 1) * r) n := by
      rw [chunkLen, Nat.add_mul, Nat.one_mul]
      omega
    have hread : min (w.state.thread.currentChunk * r) n = w.state.thread.currentChunk * r := by
      omega
    have hchunk := hsized.chunk_le
    have hprev := hsized.sum
    rw [hread] at hprev
    refine
      { half := ?_
        output := ?_
        contiguous := ?_
        place := .sized n r (w.state.thread.currentChunk + 1) ?_ ⟨hi, rfl⟩
        word := by simp }
    · rw [reads_snoc]
      intro s hs
      obtain hs | hs := List.mem_append.mp hs
      · exact h.half s hs
      · obtain rfl := List.mem_singleton.mp hs
        refine ⟨⟨_, Nat.mod_lt _ Nat.two_pos, rfl⟩, ?_⟩
        dsimp only [RecvCall.readOf]
        omega
    · rw [reads_snoc]
      intro s hs
      obtain hs | hs := List.mem_append.mp hs
      · exact h.output s hs
      · obtain rfl := List.mem_singleton.mp hs
        dsimp only [RecvCall.readOf]
        omega
    · rw [reads_snoc]
      exact h.contiguous.snoc (hacc.trans hprev.symm)
    · exact
        { hsized with
          recvSize := fun _ => hsize
          lengths := by rw [lengths_snoc, hsized.lengths]
          sum := by
            rw [reads_snoc, List.map_append, List.sum_append, hprev, List.map_singleton,
              List.sum_singleton]
            dsimp only [RecvCall.readOf]
            rw [hsize, hsum]
          fits := hsum ▸ hfits }

/-- The thread is in its chunk loop or around it. -/
theorem sized (h : ReadInv c w) {n r k : ℕ} (hsized : w.state.thread.Sized c w.log n r k)
    (hplace : w.state.thread.pc.Reads w.state.thread.numRecvChunks w.state.thread.currentChunk k)
    {ok : Bool} {p : Endpoint × Receiver} (hs : c.step ok w.state.ep w.state.thread = some p) :
    ReadInv c ⟨⟨p.1, p.2⟩, w.log ++ (c.observe ok w.state.ep w.state.thread).toList⟩ := by
  have hfail : ∀ {ep : Endpoint}, ReadInv c ⟨⟨ep, w.state.thread.goto (.done .error)⟩,
      w.log ++ Option.toList none⟩ := h.moved (.failed _ rfl (by simp)) (by simp [Receiver.goto])
  -- the loop does not lead back to the header
  have hloop : ∀ t : Receiver, ¬ (t.loopHead.pc = .initChunkBytes ∨ t.loopHead.pc = .readState ∨
      t.loopHead.pc = .readLength) := fun t => by
    unfold Receiver.loopHead
    split_ifs <;> simp [Receiver.goto]
  have hnext : ∀ pending : List ℕ, w.state.thread.pc = .waitPending →
      ReadInv c ⟨⟨w.state.ep, { w.state.thread with pendingSignaled := pending }.nextChunk⟩,
        w.log ++ Option.toList none⟩ := fun pending hpc => by
    rw [hpc] at hplace
    obtain ⟨hi, rfl⟩ := hplace
    have hpending : { w.state.thread with pendingSignaled := pending }.Sized c w.log n r
        (w.state.thread.currentChunk + 1) := { hsized with }
    obtain ⟨k, hsized', hplace'⟩ := hpending.nextChunk hi
    exact h.moved (.sized n r k hsized' hplace') fun hpc => absurd hpc (hloop _)
  cases hpc : w.state.thread.pc <;> simp only [RecvCall.step, hpc] at hs <;>
    simp only [hpc, RecvPc.Reads] at hplace
  case copyOut =>
    obtain rfl := Option.some.inj hs
    obtain ⟨hi, rfl⟩ := hplace
    exact h.copyOut hpc hsized hi ok
  all_goals simp only [RecvCall.observe, hpc]
  case storeState0 =>
    obtain rfl := Option.some.inj hs
    exact h.moved (.sized n r k (hsized.goto _) hplace) (by simp [Receiver.goto])
  case storeState1 =>
    obtain rfl := Option.some.inj hs
    obtain ⟨hzero, rfl⟩ := hplace
    rw [← hzero] at hsized
    obtain ⟨hsized', hplace'⟩ := hsized.loopHead (by omega)
    exact h.moved (.sized n r _ hsized' hplace') fun hpc => absurd hpc (hloop _)
  case spin =>
    obtain rfl := Option.some.inj hs
    refine h.moved ?_ ?_
    · dsimp only
      split_ifs
      · exact .sized n r k (hsized.goto _) hplace
      · exact .sized n r k hsized (by rwa [hpc])
    · dsimp only
      split_ifs <;> simp [Receiver.goto, hpc]
  case markWritable =>
    obtain rfl := Option.some.inj hs
    exact h.moved (.sized n r k (hsized.goto _) hplace) (by simp [Receiver.goto])
  case postFlag =>
    split_ifs at hs with hok
    · obtain rfl := Option.some.inj hs
      refine h.moved (.sized n r k ?_ ?_) ?_
      · dsimp only [RecvCall.flagPosted]
        split_ifs
        · exact { hsized with }
        · exact { hsized with }
      · dsimp only [RecvCall.flagPosted]
        split_ifs
        · exact hplace
        · exact hplace
      · dsimp only [RecvCall.flagPosted]
        split_ifs <;> simp
    · obtain rfl := Option.some.inj hs
      exact hfail
  case waitPending =>
    split_ifs at hs with hfull hok hdone
    · obtain rfl := Option.some.inj hs
      exact hnext [] hpc
    · obtain rfl := Option.some.inj hs
      exact hfail
    · obtain rfl := Option.some.inj hs
      exact hnext w.state.thread.pendingSignaled hpc
  case finalWait =>
    split_ifs at hs with hok hdone
    · obtain rfl := Option.some.inj hs
      exact h.moved (.sized n r k (hsized.goto _) hplace) (by simp [Receiver.goto])
    · obtain rfl := Option.some.inj hs
      exact hfail
  case done => cases hs

/-- **One step**, of the thread, of the card or of the peer. -/
theorem step (h : ReadInv c w) {a : SideAct} (hwords : Side.Words w.state a)
    (hs : c.observed w a = some w') : ReadInv c w' := by
  obtain ⟨s', log'⟩ := w'
  obtain ⟨hs, rfl⟩ := logStep_eq_some.mp hs
  cases a with
  | run ok =>
    obtain ⟨p, hp, rfl⟩ := Option.map_eq_some_iff.mp hs
    have hplace := h.place
    cases hplace with
    | failed ret hpc hne =>
      simp only [RecvCall.step, hpc] at hp
      cases hp
    | early half chunk size hpc hlog =>
      obtain ⟨s, log⟩ := w
      obtain rfl : log = [] := hlog
      exact h.early half chunk size hpc hp
    | taken half chunk size hpc hlog hlt =>
      simp only [RecvCall.step, hpc] at hp
      obtain rfl := Option.some.inj hp
      simp only [Side.emit, RecvCall.observe, hpc]
      exact h.headerRead half chunk size hlog hlt _
    | sized n r k hsized hread => exact h.sized hsized hread hp
  | nic q =>
    obtain ⟨p, hp, rfl⟩ := Option.map_eq_some_iff.mp hs
    exact h.moved h.place h.word
  | peer bytes uhm =>
    obtain rfl := Option.some.inj hs
    exact h.moved h.place fun _ => hwords.2.1

/-- What `uhm_recv` has read is bound to its variables in every run, whatever the peer writes. -/
theorem reach {e : Endpoint} {output : Bytes} {recvFlags : ℕ}
    {ok : Side Receiver → SideAct → Prop} (hok : ∀ s a, ok s a → Side.Words s a)
    (hr : Reach c.observed (onState ok) ⟨⟨e, c.enter output recvFlags⟩, []⟩ w) : ReadInv c w :=
  hr.invariant (initial c e output recvFlags) fun _ _ _ _ h hwords hs => h.step (hok _ _ hwords) hs

theorem sized_of_copyOut (h : ReadInv c w) (hpc : w.state.thread.pc = .copyOut) :
    ∃ n r, w.state.thread.Sized c w.log n r w.state.thread.currentChunk ∧
      w.state.thread.currentChunk < w.state.thread.numRecvChunks := by
  cases h.place with
  | failed ret hpc' => rw [hpc] at hpc'; cases hpc'
  | early _ _ _ hpc' => rw [hpc] at hpc'; cases hpc'
  | taken _ _ _ hpc' => rw [hpc] at hpc'; cases hpc'
  | sized n r k hsized hread =>
    rw [hpc] at hread
    obtain ⟨hi, rfl⟩ := hread
    exact ⟨n, r, hsized, hi⟩

/-- The claim about the reads holds in every state of the invariant. -/
theorem safeRead (h : ReadInv c w) : c.SafeRead w := by
  refine
    { half := h.half
      output := h.output
      contiguous := h.contiguous
      underflow := fun hpc _ => ?_
      nonzero := fun hpc => ?_
      success := fun hpc => ?_ }
  · obtain ⟨n, r, hsized, -⟩ := h.sized_of_copyOut hpc
    rw [hsized.accumulatedSize, hsized.recvFlags]
    exact Nat.min_le_right _ _
  · obtain ⟨n, r, hsized, hi⟩ := h.sized_of_copyOut hpc
    rw [(hsized.recvSizeOf hi).1]
    exact (chunkLen_pos hsized.chunk_pos (hsized.numRecvChunks ▸ hi)).ne'
  · cases h.place with
    | failed ret hpc' hne =>
      rw [hpc] at hpc'
      cases hpc'
      exact absurd rfl hne
    | early _ _ _ hpc' => rw [hpc] at hpc'; cases hpc'
    | taken _ _ _ hpc' => rw [hpc] at hpc'; cases hpc'
    | sized n r k hsized hread =>
      rw [hpc] at hread
      obtain ⟨hi, rfl⟩ := hread
      have hall : min (w.state.thread.currentChunk * r) n = n := by
        have := lt_numChunks_iff (n := n) (i := numChunks n r) hsized.chunk_pos
        rw [hi, hsized.numRecvChunks]
        omega
      exact ⟨n, hsized.lengths, hsized.pos, hsized.recvFlags, hall ▸ hsized.fits, hall ▸ hsized.sum⟩

end ReadInv

/-! ### The claim -/

namespace RecvCall

variable {c : RecvCall} {w w' : Logged (Side Receiver) RecvEvent}

/-- When the memory does not fail, a read in bounds is made. -/
theorem stageOut_success {bytes out : Bytes} {dest size bias : ℕ} {ok : Bool}
    (hfit : bias + size ≤ c.buffer.bufferSize)
    (hmem : if c.buffer.memType = .cpu then c.memType = .cpu else ok = true) :
    (c.buffer.stageOut c.memType bytes out dest size bias ok).1 = .success := by
  have hbound : ¬ wrap64 (bias + size) > c.buffer.bufferSize := by
    have : wrap64 (bias + size) ≤ bias + size := Nat.mod_le _ _
    omega
  rw [ConnBuffer.stageOut, ConnBuffer.readToCpu, ConnBuffer.readToGpu, if_neg hbound,
    if_neg hbound]
  by_cases hcpu : c.buffer.memType = .cpu
  · rw [if_pos hcpu] at hmem
    rw [if_pos hmem, if_pos (.inl hcpu)]
  · rw [if_neg hcpu] at hmem
    simp [hcpu, hmem]

/-- A step reads nothing, or the current chunk. -/
theorem reads_step {a : SideAct} (hs : c.observed w a = some w') :
    reads w'.log = reads w.log ∨ ∃ ok, a = .run ok ∧ w.state.thread.pc = .copyOut ∧
      w.state.thread.recvSizeOf ≠ 0 ∧ w.state.thread.recvSizeOf ≤ c.bufferSize ∧
        reads w'.log = reads w.log ++ [c.readOf ok w.state.ep w.state.thread] := by
  obtain ⟨-, hlog⟩ := logStep_eq_some.mp hs
  rw [hlog, reads, List.filterMap_append]
  cases a with
  | run ok =>
    cases hpc : w.state.thread.pc <;> simp only [Side.emit, observe, hpc]
    case readLength => exact .inl (List.append_nil _)
    case copyOut =>
      obtain ⟨-, heq⟩ | ⟨hzero, hle, -, heq⟩ := c.copyOut_outcomes w.state.ep w.state.thread ok
      · rw [heq, if_neg (by simp [Receiver.goto])]
        exact .inl (List.append_nil _)
      · rw [heq, if_pos rfl]
        exact .inr ⟨ok, rfl, trivial, hzero, hle, rfl⟩
    all_goals exact .inl (List.append_nil _)
  | nic q => exact .inl (List.append_nil _)
  | peer bytes uhm => exact .inl (List.append_nil _)

/-- When no memory operation fails, every read is a copy. -/
theorem copied_of_copies {e : Endpoint} {output : Bytes} {recvFlags : ℕ}
    (hr : Reach c.observed (onState fun s a => Side.Words s a ∧ c.Copies s a)
      ⟨⟨e, c.enter output recvFlags⟩, []⟩ w) : ∀ r ∈ reads w.log, r.copied = true := by
  induction hr with
  | refl => simp [reads]
  | @tail w w' a hr hok hs ih =>
    intro r hmem
    have hin := ((ReadInv.reach (fun _ _ h => h.1) (hr.tail hok hs)).safeRead.half r hmem)
    obtain heq | ⟨ok, rfl, hpc, -, -, heq⟩ := reads_step hs
    · exact ih r (heq ▸ hmem)
    · rw [heq, List.mem_append, List.mem_singleton] at hmem
      obtain hmem | rfl := hmem
      · exact ih r hmem
      · obtain ⟨⟨i, hi, hbias⟩, hsize⟩ := hin
        refine decide_eq_true (stageOut_success ?_ (hok.2 hpc))
        have hle : i * c.halfBufferSize ≤ 1 * c.halfBufferSize :=
          Nat.mul_le_mul_right _ (Nat.le_of_lt_succ hi)
        have htwo : c.halfBufferSize + c.halfBufferSize ≤ c.buffer.bufferSize := by
          rw [halfBufferSize]
          omega
        dsimp only [readOf] at hbias hsize
        omega

/-- **`uhm_recv` is safe against any header.** Whatever the peer writes and whenever, all reads are
safe; when no staging read fails, `SUCCESS` is returned only after the length of the header has been
copied. The first part is the invariant `ReadInv`; for the second, a call that succeeds has read
the length in all (`SafeRead.success`), and the reads that were made are the copies. -/
theorem reads_header (c : RecvCall) (e : Endpoint) (output : Bytes) (recvFlags : ℕ) :
    (∀ w, Reach c.observed (onState Side.Words) ⟨⟨e, c.enter output recvFlags⟩, []⟩ w →
      c.SafeRead w) ∧
    ∀ w, Reach c.observed (onState fun s a => Side.Words s a ∧ c.Copies s a)
      ⟨⟨e, c.enter output recvFlags⟩, []⟩ w → c.ReadsHeader w := by
  refine ⟨fun w hr => (ReadInv.reach (fun _ _ h => h) hr).safeRead, fun w hr => ?_⟩
  have hsafe := (ReadInv.reach (fun _ _ h => h.1) hr).safeRead
  have hall := copied_of_copies hr
  refine ⟨hsafe, fun hpc => ?_⟩
  obtain ⟨n, hlength, -, -, hle, hsum⟩ := hsafe.success hpc
  refine ⟨n, hlength, hle, ?_⟩
  rw [List.filter_eq_self.mpr hall, hsum]

/-- A call on host or device memory with a connection buffer of four bytes on the host. -/
def hostRecv (memType : MemoryType) : RecvCall :=
  { shortTransfer.recv with buffer := ⟨4, .cpu⟩, memType := memType }

/-- The words of the peer, for a message of one chunk of `length` bytes. -/
def peerWords (word length chunkBytes : ℕ) : SideAct :=
  .peer (fun _ => 7) ⟨fun _ => word, length, chunkBytes⟩

/-- A message of two bytes, which claims chunks of `2 ^ 32 - 1`. -/
def twoBytes : List SideAct :=
  List.replicate 4 (.run true) ++ peerWords canWrite 2 (2 ^ 32 - 1) ::
    List.replicate 5 (.run true) ++ peerWords canRead 2 (2 ^ 32 - 1) ::
      List.replicate 4 (.run true) ++ [.nic 0, .run true, .run true]

theorem reads_header_twoBytes : ∃ w, Reach (hostRecv .cpu).observed
    (onState fun s a => Side.Words s a ∧ (hostRecv .cpu).Copies s a)
      ⟨⟨.fresh, (hostRecv .cpu).enter (fun _ => 0) 0⟩, []⟩ w ∧
        w.state.thread.pc = .done .success ∧ (hostRecv .cpu).ReadsHeader w := by
  obtain ⟨w, hr, hpc⟩ : ∃ w, Reach (hostRecv .cpu).observed
      (onState fun s a => Side.Words s a ∧ (hostRecv .cpu).Copies s a)
        ⟨⟨.fresh, (hostRecv .cpu).enter (fun _ => 0) 0⟩, []⟩ w ∧
          w.state.thread.pc = .done .success :=
    exists_reach_of_execOk twoBytes (by decide +kernel)
  exact ⟨w, hr, hpc, (reads_header _ _ _ _).2 w hr⟩

/-- **`SUCCESS` without a byte.** The output is device memory and the connection buffer is on the
host: `readToGpu` refuses, and the call succeeds. -/
theorem success_without_bytes : ∃ w, Reach (hostRecv .nvidiaGpu).observed (onState Side.Words)
    ⟨⟨.fresh, (hostRecv .nvidiaGpu).enter (fun _ => 0) 0⟩, []⟩ w ∧
      w.state.thread.pc = .done .success ∧ lengths w.log = [2] ∧
        (reads w.log).filter StagingRead.copied = [] ∧ ¬ (hostRecv .nvidiaGpu).ReadsHeader w := by
  obtain ⟨w, hr, hpc, hlength, hnone⟩ : ∃ w, Reach (hostRecv .nvidiaGpu).observed
      (onState Side.Words) ⟨⟨.fresh, (hostRecv .nvidiaGpu).enter (fun _ => 0) 0⟩, []⟩ w ∧
        (w.state.thread.pc = .done .success ∧ lengths w.log = [2] ∧
          (reads w.log).filter StagingRead.copied = []) :=
    exists_reach_of_execOk twoBytes (by decide +kernel)
  refine ⟨w, hr, hpc, hlength, hnone, fun h => ?_⟩
  obtain ⟨n, hn, -, hsum⟩ := h.copied hpc
  rw [hlength, List.cons.injEq] at hn
  obtain ⟨rfl, -⟩ := hn
  rw [hnone] at hsum
  cases hsum

end RecvCall

end HMC.Uhm
