import HMC.Machine.Log
import HMC.Uhm.Order

/-!
# Mutual exclusion on the receiver's halves

Two parties use a half of the receiver's buffer: the sender's card, which lands the data
writes there, and the thread in `uhm_recv`, which copies the chunks out. The log of a run
records when a write of the sender executes and when the copy of a chunk begins and ends, with
the range of the connection buffer that is copied. `exclusive_of_reach` is the claim on the log:
chunk `i` is copied out of half `i % 2`, after its data write has landed and before the data
write of chunk `i + 2`, the next user of the half, lands.

Whatever the buffers' sizes, the cards' delays and the outcomes of the calls are, the order
follows from the handing back and forth of the halves in `OrderInv`: a copy begins when the flag
write of its chunk has executed, which stands behind the data write in its queue, and data write
`i + 2` is posted when the write-back of chunk `i` has arrived, which is posted after the copy.
That a copy stays in its half (`Paced.recvSizeOf_le`) needs no more than the receiver's own
locals: the chunk size is clamped to a half, and the last chunk is what is left of the length.
-/

namespace HMC.Uhm

open HMC.Machine

/-- What happens to a half: request number `n` of the sender executes, and the copy of a chunk
begins and ends, which takes `size` bytes from offset `bias` of the connection buffer. -/
inductive HalfEvent
  | written (n : ℕ) (write : RdmaWrite)
  | copyBegins (chunk bias size : ℕ)
  | copied (chunk bias size : ℕ)
  deriving DecidableEq

namespace Transfer

variable (T : Transfer)

/-- The event of a step. A copy begins when the thread sees `CAN_READ` in the half's flag word
and ends when its `copyOut` step succeeds. -/
def halfEvent (w : World) : Act → Option HalfEvent
  | .nicSend q => (w.snd.nic.queue q).head?.map fun e => .written e.1 e.2.write
  | .recv ok =>
    match w.receiver.pc with
    | .spin =>
      if w.rcv.uhm.state (w.receiver.currentChunk % 2) = canRead then
        some (.copyBegins w.receiver.currentChunk (T.recv.bias w.receiver) w.receiver.recvSizeOf)
      else none
    | .copyOut =>
      if (T.recv.copyOut w.rcv w.receiver ok).pc = .markWritable then
        some (.copied w.receiver.currentChunk (T.recv.bias w.receiver) w.receiver.recvSizeOf)
      else none
    | _ => none
  | _ => none

/-- **Mutual exclusion.** Chunk `i` is copied out of half `i % 2`: the range of its copy lies
there, and the copy takes no other bytes. Between buffers of one size, data write `i` goes to the
same half. On every half, landing and copying out take turns: the copy of chunk `i` begins after
data write `i` has executed, and data write `i + 2` executes after that copy has ended. The sender's
request number `n` is `writeOf n`, so that number `1 + 2 * i` is the data write of chunk `i`. -/
structure Exclusive (log : List HalfEvent) : Prop where
  placed : T.recv.buffer.bufferSize = T.send.buffer.bufferSize → 0 < T.recv.halfBufferSize →
    ∀ i, ∃ localOff size,
      T.send.dataWrite i = .data localOff (i % 2 * T.recv.halfBufferSize) size ∧
        size ≤ T.recv.halfBufferSize
  half : ∀ i bias size, .copyBegins i bias size ∈ log ∨ .copied i bias size ∈ log →
    bias = i % 2 * T.recv.halfBufferSize ∧ size ≤ T.recv.halfBufferSize
  taken : ∀ e e' : Endpoint, ∀ (t : Receiver) (ok : Bool),
    (∀ k < t.recvSizeOf, e.bytes (T.recv.bias t + k) = e'.bytes (T.recv.bias t + k)) →
      T.recv.copyOut e t ok = T.recv.copyOut e' t ok
  landed : ∀ i bias size,
    Preceded (.written (1 + 2 * i) (T.send.dataWrite i)) (.copyBegins i bias size) log
  begun : ∀ i bias size, Preceded (.copyBegins i bias size) (.copied i bias size) log
  released : ∀ i, PrecededBy (fun e => ∃ bias size, e = .copied i bias size)
    (.written (1 + 2 * (i + 2)) (T.send.dataWrite (i + 2))) log
  numbered : ∀ n write, .written n write ∈ log → write = T.send.writeOf n

end Transfer

/-- The thread has finished the copy of chunk `i`: it gave the half back, or is about to. -/
def World.Copied (w : World) (i : ℕ) : Prop :=
  i < w.rcv.nic.next ∨
    (w.receiver.pc = .markWritable ∨ w.receiver.pc = .postFlag) ∧ w.receiver.currentChunk = i

/-- The thread of `c` is copying chunk `i` out of this range. -/
def World.Copying (w : World) (c : RecvCall) (i bias size : ℕ) : Prop :=
  w.receiver.pc = .copyOut ∧ w.receiver.currentChunk = i ∧ c.bias w.receiver = bias ∧
    w.receiver.recvSizeOf = size

/-! ### What a step of the receiver changes -/

namespace RecvCall

variable {c : RecvCall} {ok : Bool} {e e' : Endpoint} {t t' : Receiver}

/-- The copy out takes the bytes of its range only. -/
theorem copyOut_congr (h : ∀ k < t.recvSizeOf, e.bytes (c.bias t + k) = e'.bytes (c.bias t + k)) :
    c.copyOut e t ok = c.copyOut e' t ok := by
  unfold copyOut
  dsimp only
  rw [ConnBuffer.stageOut_congr h]

/-- The copy out ends or fails. -/
theorem copyOut_cases (c : RecvCall) (e : Endpoint) (t : Receiver) (ok : Bool) :
    (c.copyOut e t ok).currentChunk = t.currentChunk ∧
      ((c.copyOut e t ok).pc = .markWritable ∨ (c.copyOut e t ok).pc = .done .error) := by
  unfold copyOut
  dsimp only
  split_ifs
  · exact ⟨rfl, .inr rfl⟩
  · exact ⟨rfl, .inr rfl⟩
  · exact ⟨rfl, .inr rfl⟩
  · exact ⟨rfl, .inl rfl⟩

theorem loopHead_pc (t : Receiver) : t.loopHead.pc ∉ [.copyOut, .markWritable, .postFlag] := by
  unfold Receiver.loopHead
  split_ifs <;> simp [Receiver.goto]

theorem flagPosted_pc (c : RecvCall) (t : Receiver) (id : ℕ) :
    (c.flagPosted t id).pc = .waitPending := by
  unfold flagPosted
  split_ifs <;> rfl

/-- Where the copy of a chunk stands after a step, and what is posted. -/
theorem copy_step (hs : c.step ok e t = some (e', t')) :
    (t'.pc = .copyOut → t.pc = .copyOut ∧ t' = t ∨
      t.pc = .spin ∧ e.uhm.state (t.currentChunk % 2) = canRead ∧ t' = t.goto .copyOut) ∧
    (t'.pc = .markWritable → t.pc = .copyOut ∧ t' = c.copyOut e t ok) ∧
    (t'.pc = .postFlag → t.pc = .markWritable ∧ t'.currentChunk = t.currentChunk) ∧
    (e'.nic.next = e.nic.next ∨ t.pc = .postFlag ∧ e'.nic.next = e.nic.next + 1) := by
  cases hpc : t.pc <;> simp only [step, hpc] at hs
  case readChunkBytes =>
    cases hs
    unfold headerRead
    split_ifs <;> simp [Receiver.goto]
  case storeState1 =>
    cases hs
    have hhead := loopHead_pc t
    simp only [List.mem_cons, List.not_mem_nil, or_false, not_or] at hhead
    simp [hhead]
  case spin =>
    cases hs
    split_ifs with hw
    · simp [Receiver.goto, hw]
    · simp [hpc]
  case copyOut =>
    cases hs
    obtain ⟨-, hend | hend⟩ := c.copyOut_cases e t ok <;> simp [hend]
  case postFlag =>
    split_ifs at hs <;> cases hs
    · simp [flagPosted_pc]
    · simp [Receiver.goto, Endpoint.takeWrId]
  case waitPending =>
    have hnext : ∀ t : Receiver, t.nextChunk.pc ∉ [.copyOut, .markWritable, .postFlag] :=
      fun t => loopHead_pc _
    simp only [List.mem_cons, List.not_mem_nil, or_false, not_or] at hnext
    split_ifs at hs <;> cases hs
    · simp [hnext]
    · simp [Receiver.goto]
    · simp [hnext]
  case finalWait =>
    split_ifs at hs <;> cases hs <;> simp [Receiver.goto]
  case done => cases hs
  case readState =>
    cases hs
    split_ifs <;> simp [Receiver.goto, hpc]
  all_goals
    cases hs
    simp [Receiver.goto, Endpoint.setState, Endpoint.setLength, Endpoint.setChunkBytes]

end RecvCall

/-! ### The sizes of the copies -/

/-- The locals of a call that is past the header: it goes through the length in chunks that fit in a
half. -/
structure Receiver.Paced (c : RecvCall) (t : Receiver) : Prop where
  chunk_pos : 0 < t.recvChunkSize
  chunk_le : t.recvChunkSize ≤ c.halfBufferSize
  numRecvChunks : t.numRecvChunks = numChunks t.recvFlags t.recvChunkSize
  lt : t.currentChunk < t.numRecvChunks
  accumulatedSize : t.accumulatedSize = wrap64 (t.currentChunk * t.recvChunkSize)

/-- What holds of the locals at each place of `uhm_recv`. After the copy, `recvSize` is that of the
current chunk, so that the sum goes on as it should unless it was the last one. -/
def RecvCall.PacedAt (c : RecvCall) (t : Receiver) : Prop :=
  match t.pc with
  | .storeState0 | .storeState1 | .spin | .copyOut => t.Paced c
  | .markWritable | .postFlag | .waitPending =>
    t.Paced c ∧ (t.currentChunk + 1 ≠ t.numRecvChunks → t.recvSize = t.recvChunkSize)
  | .finalWait | .done _ => True
  | _ => 0 < c.halfBufferSize ∧ t.currentChunk = 0 ∧ t.accumulatedSize = 0

namespace Receiver.Paced

variable {c : RecvCall} {t t' : Receiver}

/-- No copy is longer than a half. -/
theorem recvSizeOf_le (h : t.Paced c) : t.recvSizeOf ≤ c.halfBufferSize := by
  refine Nat.le_trans ?_ h.chunk_le
  have hlt := h.lt
  rw [h.numRecvChunks] at hlt
  have hbelow := (lt_numChunks_iff h.chunk_pos).mp hlt
  unfold Receiver.recvSizeOf
  split_ifs with hlast
  · -- the rest of the length; the sum of the sizes may have wrapped, and the difference unwraps it
    have hend : t.recvFlags ≤ (t.currentChunk + 1) * t.recvChunkSize := by
      by_contra hmore
      have := (lt_numChunks_iff h.chunk_pos).mpr (Nat.not_le.mp hmore)
      rw [← h.numRecvChunks] at this
      omega
    rw [Nat.add_mul, Nat.one_mul] at hend
    rw [h.accumulatedSize, wrap64, wrap64]
    omega
  · exact Nat.le_refl _

theorem loopHead (h : t.currentChunk < t.numRecvChunks → t.Paced c) : c.PacedAt t.loopHead := by
  unfold Receiver.loopHead
  split_ifs with hlt
  · exact { h hlt with }
  · trivial
  · trivial

/-- The end of an iteration. -/
theorem nextChunk (h : t.Paced c)
    (hsize : t.currentChunk + 1 ≠ t.numRecvChunks → t.recvSize = t.recvChunkSize) :
    c.PacedAt t.nextChunk := by
  refine loopHead fun hlt => { h with lt := hlt, accumulatedSize := ?_ }
  dsimp only at hlt ⊢
  rw [hsize (by omega), h.accumulatedSize, wrap64, wrap64, wrap64, Nat.add_mul, Nat.one_mul,
    Nat.mod_add_mod]

end Receiver.Paced

namespace RecvCall

variable {c : RecvCall} {ok : Bool} {e e' : Endpoint} {t t' : Receiver}

theorem pacedAt_enter (c : RecvCall) (output : Bytes) (recvFlags : ℕ) :
    c.PacedAt (c.enter output recvFlags) := by
  unfold enter
  split_ifs with hnull hhalf
  · trivial
  · trivial
  · exact ⟨Nat.pos_of_ne_zero hhalf, rfl, rfl⟩

/-- A step of the thread keeps its pace, whatever it reads. -/
theorem pacedAt_step (hs : c.step ok e t = some (e', t')) (h : c.PacedAt t) : c.PacedAt t' := by
  cases hpc : t.pc <;> simp only [step, hpc] at hs <;> simp only [PacedAt, hpc] at h
  case readState =>
    cases hs
    split_ifs
    · exact h
    · rwa [PacedAt, hpc]
  case readChunkBytes =>
    cases hs
    obtain ⟨hhalf, hchunk, hacc⟩ := h
    unfold headerRead
    split_ifs with hzero
    · trivial
    · have hpos : 0 < c.chunkSizeOf e.uhm.chunkBytes := by
        rw [chunkSizeOf]
        omega
      exact
        { chunk_pos := hpos
          chunk_le := by
            dsimp only
            rw [chunkSizeOf]
            omega
          numRecvChunks := rfl
          lt := by
            dsimp only
            rw [hchunk]
            exact numChunks_pos hpos (Nat.pos_of_ne_zero hzero)
          accumulatedSize := by simp [hchunk, hacc, wrap64] }
  case storeState1 =>
    cases hs
    exact Receiver.Paced.loopHead fun _ => h
  case spin =>
    cases hs
    split_ifs
    · exact { h with }
    · rwa [PacedAt, hpc]
  case copyOut =>
    cases hs
    unfold copyOut
    dsimp only
    split_ifs
    · trivial
    · trivial
    · trivial
    · exact ⟨{ h with }, fun hne => if_neg hne⟩
  case postFlag =>
    split_ifs at hs <;> cases hs
    · unfold flagPosted
      split_ifs
      · exact ⟨{ h.1 with }, h.2⟩
      · exact ⟨{ h.1 with }, h.2⟩
    · trivial
  case waitPending =>
    split_ifs at hs <;> cases hs
    · exact Receiver.Paced.nextChunk (t := { t with pendingSignaled := [] }) { h.1 with } h.2
    · trivial
    · exact h.1.nextChunk h.2
  case finalWait => split_ifs at hs <;> cases hs <;> trivial
  case done => cases hs
  case storeState0 =>
    cases hs
    exact { h with }
  case markWritable =>
    cases hs
    exact ⟨{ h.1 with }, h.2⟩
  all_goals
    cases hs
    exact h

end RecvCall

/-- The receiver keeps its pace in every run of a transfer. -/
theorem Transfer.pacedAt_of_reach {T : Transfer} {w₀ w : World} (h₀ : T.Initial w₀)
    (hr : Reach T.step Free w₀ w) : T.recv.PacedAt w.receiver := by
  refine hr.invariant (I := fun w => T.recv.PacedAt w.receiver) ?_ fun w a w' _ h _ hst => ?_
  · obtain ⟨output, recvFlags, ht⟩ := h₀.receiver
    rw [ht]
    exact T.recv.pacedAt_enter output recvFlags
  · cases a with
    | send ok =>
      obtain ⟨p, -, rfl⟩ := Option.map_eq_some_iff.mp hst
      exact h
    | recv ok =>
      obtain ⟨p, hp, rfl⟩ := Option.map_eq_some_iff.mp hst
      exact RecvCall.pacedAt_step hp h
    | nicSend q =>
      obtain ⟨p, -, rfl⟩ := Option.map_eq_some_iff.mp hst
      exact h
    | nicRecv q =>
      obtain ⟨p, -, rfl⟩ := Option.map_eq_some_iff.mp hst
      exact h

/-! ### The states in which events happen -/

namespace OrderInv

variable {T : Transfer} {w w' : World} {a : Act}

/-- What a step that logs an event does. -/
theorem halfEvent_cases {e : HalfEvent} (he : T.halfEvent w a = some e) :
    (∃ q n r, w.snd.nic.Queued n r q ∧ e = .written n r.write) ∨
      (w.receiver.pc = .spin ∧ w.rcv.uhm.state (w.receiver.currentChunk % 2) = canRead ∧
        e = .copyBegins w.receiver.currentChunk (T.recv.bias w.receiver) w.receiver.recvSizeOf) ∨
      w.receiver.pc = .copyOut ∧
        e = .copied w.receiver.currentChunk (T.recv.bias w.receiver) w.receiver.recvSizeOf := by
  unfold Transfer.halfEvent at he
  split at he
  · rename_i q
    obtain ⟨⟨n, r⟩, hhead, he⟩ := Option.map_eq_some_iff.mp he
    exact .inl ⟨q, n, r, List.mem_of_mem_head? hhead, he.symm⟩
  · split at he
    · rename_i hpc
      rw [Option.ite_none_right_eq_some] at he
      exact .inr (.inl ⟨hpc, he.1, (Option.some.inj he.2).symm⟩)
    · rename_i hpc
      rw [Option.ite_none_right_eq_some] at he
      exact .inr (.inr ⟨hpc, (Option.some.inj he.2).symm⟩)
    · cases he
  · cases he

/-- A copy is about to begin: the data write of the chunk has landed. -/
theorem landed_of_copyBegins (h : OrderInv T w) {i bias size : ℕ}
    (he : T.halfEvent w a = some (.copyBegins i bias size)) : w.snd.nic.Executed (1 + 2 * i) := by
  obtain ⟨m, hs⟩ := h.sender
  obtain ⟨m', hr⟩ := h.receiver
  obtain ⟨_, _, _, -, he⟩ | ⟨hpc, hword, he⟩ | ⟨-, he⟩ := halfEvent_cases he <;> cases he
  have hplace := hr.place
  simp only [hpc, RecvPc.At] at hplace
  have hflag := hr.flagged_of_word hpc hword
  rw [hplace.2.2] at hflag
  exact hs.flag_data hflag

/-- Data write `i + 2` is about to execute: chunk `i` was copied out. -/
theorem copied_of_written (h : OrderInv T w) {i : ℕ} {write : RdmaWrite}
    (he : T.halfEvent w a = some (.written (1 + 2 * (i + 2)) write)) : w.Copied i := by
  obtain ⟨m, hs⟩ := h.sender
  obtain ⟨q, n, r, hq, he⟩ | ⟨-, -, he⟩ | ⟨-, he⟩ := halfEvent_cases he <;> cases he
  -- it was posted after the write-back of chunk `i` had arrived
  exact .inl (hs.data_granted i (hs.ordered.lt_next hq)).1

/-- A copy that ends was going on. -/
theorem copying_of_copied {i bias size : ℕ}
    (he : T.halfEvent w a = some (.copied i bias size)) : w.Copying T.recv i bias size := by
  obtain ⟨_, _, _, -, he⟩ | ⟨-, -, he⟩ | ⟨hpc, he⟩ := halfEvent_cases he <;> cases he
  exact ⟨hpc, rfl, rfl, rfl⟩

/-- A copy is of the current chunk, whose half it does not leave. -/
theorem half_of_copy (hp : T.recv.PacedAt w.receiver) {i bias size : ℕ}
    (he : T.halfEvent w a = some (.copyBegins i bias size) ∨
      T.halfEvent w a = some (.copied i bias size)) :
    bias = i % 2 * T.recv.halfBufferSize ∧ size ≤ T.recv.halfBufferSize := by
  obtain he | he := he
  · obtain ⟨_, _, _, -, he⟩ | ⟨hpc, -, he⟩ | ⟨-, he⟩ := halfEvent_cases he <;> cases he
    simp only [RecvCall.PacedAt, hpc] at hp
    exact ⟨rfl, hp.recvSizeOf_le⟩
  · obtain ⟨_, _, _, -, he⟩ | ⟨-, -, he⟩ | ⟨hpc, he⟩ := halfEvent_cases he <;> cases he
    simp only [RecvCall.PacedAt, hpc] at hp
    exact ⟨rfl, hp.recvSizeOf_le⟩

/-- Data write `i` is executed by the step that logs it. -/
theorem executed_or_written (h : OrderInv T w) {i : ℕ} (hst : T.step w a = some w')
    (hx : w'.snd.nic.Executed (1 + 2 * i)) :
    w.snd.nic.Executed (1 + 2 * i) ∨
      T.halfEvent w a = some (.written (1 + 2 * i) (T.send.dataWrite i)) := by
  obtain ⟨m, hs⟩ := h.sender
  cases a with
  | send ok =>
    obtain ⟨⟨e, t⟩, hstep, rfl⟩ := Option.map_eq_some_iff.mp hst
    exact .inl ((SendCall.executed_step hstep _).mp hx)
  | recv ok =>
    obtain ⟨⟨e, t⟩, hstep, rfl⟩ := Option.map_eq_some_iff.mp hst
    exact .inl hx
  | nicSend q =>
    obtain ⟨⟨⟨n, r⟩, nic⟩, hp, rfl⟩ := Option.map_eq_some_iff.mp hst
    obtain hx | rfl := (hs.ordered.executed_pop hp).mp hx
    · exact .inl hx
    · have hwrite := hs.queued (hs.ordered.pop_spec hp).1
      rw [SendCall.writeOf_data] at hwrite
      right
      simp [Transfer.halfEvent, SendQueues.head?_of_pop hp, hwrite]
  | nicRecv q =>
    obtain ⟨⟨⟨n, r⟩, nic⟩, hp, rfl⟩ := Option.map_eq_some_iff.mp hst
    rw [execWrite_nic] at hx
    exact .inl hx

/-- A copy begins with the step that logs it. -/
theorem copying_or_begins {i bias size : ℕ} (hst : T.step w a = some w')
    (hc : w'.Copying T.recv i bias size) :
    w.Copying T.recv i bias size ∨ T.halfEvent w a = some (.copyBegins i bias size) := by
  obtain ⟨hpc, rfl, rfl, rfl⟩ := hc
  cases a with
  | send ok =>
    obtain ⟨⟨e, t⟩, -, rfl⟩ := Option.map_eq_some_iff.mp hst
    exact .inl ⟨hpc, rfl, rfl, rfl⟩
  | recv ok =>
    obtain ⟨⟨e, t⟩, hstep, rfl⟩ := Option.map_eq_some_iff.mp hst
    obtain ⟨hpc', rfl⟩ | ⟨hpc', hw, rfl⟩ := (RecvCall.copy_step hstep).1 hpc
    · exact .inl ⟨hpc', rfl, rfl, rfl⟩
    · right
      simp only [Transfer.halfEvent, hpc', hw, if_true]
      rfl
  | nicSend q =>
    obtain ⟨⟨⟨n, r⟩, nic⟩, -, rfl⟩ := Option.map_eq_some_iff.mp hst
    exact .inl ⟨hpc, rfl, rfl, rfl⟩
  | nicRecv q =>
    obtain ⟨⟨⟨n, r⟩, nic⟩, -, rfl⟩ := Option.map_eq_some_iff.mp hst
    exact .inl ⟨hpc, rfl, rfl, rfl⟩

/-- A copy ends with the step that logs it. -/
theorem copied_or_ends (h : OrderInv T w) {i : ℕ} (hst : T.step w a = some w')
    (hc : w'.Copied i) : w.Copied i ∨
      ∃ e, T.halfEvent w a = some e ∧ ∃ bias size, e = .copied i bias size := by
  obtain ⟨m, hr⟩ := h.receiver
  cases a with
  | send ok =>
    obtain ⟨⟨e, t⟩, -, rfl⟩ := Option.map_eq_some_iff.mp hst
    exact .inl hc
  | recv ok =>
    obtain ⟨⟨e, t⟩, hstep, rfl⟩ := Option.map_eq_some_iff.mp hst
    obtain ⟨-, hmark, hpost, hnext⟩ := RecvCall.copy_step hstep
    obtain hlt | ⟨hpc | hpc, rfl⟩ := hc
    · -- a write-back more than before: the thread was about to post it
      obtain hn | ⟨hpc, hn⟩ := hnext
      · exact .inl (.inl (by rwa [hn] at hlt))
      · have hplace := hr.place
        simp only [hpc, RecvPc.At] at hplace
        simp only [hn] at hlt
        obtain hlt | heq := Nat.lt_or_eq_of_le (Nat.le_of_lt_succ hlt)
        · exact .inl (.inl hlt)
        · exact .inl (.inr ⟨.inr hpc, by rw [heq, hplace.2.1]⟩)
    · obtain ⟨hpc', rfl⟩ := hmark hpc
      right
      simp only at hpc
      simp [Transfer.halfEvent, hpc', hpc, (T.recv.copyOut_cases w.rcv w.receiver ok).1]
    · obtain ⟨hpc', hi⟩ := hpost hpc
      exact .inl (.inr ⟨.inl hpc', hi.symm⟩)
  | nicSend q =>
    obtain ⟨⟨⟨n, r⟩, nic⟩, -, rfl⟩ := Option.map_eq_some_iff.mp hst
    simpa only [World.Copied, execWrite_nic, or_false] using Or.inl hc
  | nicRecv q =>
    obtain ⟨⟨⟨n, r⟩, nic⟩, hp, rfl⟩ := Option.map_eq_some_iff.mp hst
    left
    simpa only [World.Copied, (hr.ordered.pop_spec hp).2.1] using hc

end OrderInv

/-! ### The claim -/

variable {T : Transfer} {w₀ : World} {w : Logged World HalfEvent}

/-- Between buffers of one size the data writes keep to their halves. -/
theorem Transfer.dataWrite_placed (T : Transfer)
    (heq : T.recv.buffer.bufferSize = T.send.buffer.bufferSize) (hhalf : 0 < T.recv.halfBufferSize)
    (i : ℕ) : ∃ localOff size,
      T.send.dataWrite i = .data localOff (i % 2 * T.recv.halfBufferSize) size ∧
        size ≤ T.recv.halfBufferSize := by
  have hsame : T.recv.halfBufferSize = T.send.halfBufferSize := by
    rw [RecvCall.halfBufferSize, heq, SendCall.halfBufferSize]
  rw [hsame] at hhalf ⊢
  refine ⟨_, _, rfl, ?_⟩
  calc wrap32 (chunkLen T.send.sendFlags T.send.chunkSize i)
      ≤ chunkLen T.send.sendFlags T.send.chunkSize i := Nat.mod_le _ _
    _ ≤ T.send.chunkSize := chunkLen_le
    _ ≤ T.send.halfBufferSize := T.send.chunkSize_le_half hhalf

/-- Every write in the log is the one with its number. -/
theorem numbered_of_reach (h₀ : T.Initial w₀)
    (hr : Reach (logStep T.step T.halfEvent) (onState Free) ⟨w₀, []⟩ w) {n : ℕ}
    {write : RdmaWrite} (hmem : .written n write ∈ w.log) : write = T.send.writeOf n := by
  induction hr with
  | refl => cases hmem
  | @tail v v' a hr _ hst ih =>
    obtain ⟨hst, hlog⟩ := logStep_eq_some.mp hst
    rw [hlog, List.mem_append, Option.mem_toList] at hmem
    obtain hmem | hev := hmem
    · exact ih hmem
    · obtain ⟨m, hs⟩ := (OrderInv.reach h₀ hr.of_logged).sender
      obtain ⟨_, _, _, hq, he⟩ | ⟨-, -, he⟩ | ⟨-, he⟩ := OrderInv.halfEvent_cases hev <;> cases he
      exact hs.queued hq

/-- Every copy in the log is out of the half of its chunk. -/
theorem half_of_reach (h₀ : T.Initial w₀)
    (hr : Reach (logStep T.step T.halfEvent) (onState Free) ⟨w₀, []⟩ w) {i bias size : ℕ}
    (hmem : .copyBegins i bias size ∈ w.log ∨ .copied i bias size ∈ w.log) :
    bias = i % 2 * T.recv.halfBufferSize ∧ size ≤ T.recv.halfBufferSize := by
  induction hr with
  | refl => simp at hmem
  | @tail v v' a hr _ hst ih =>
    obtain ⟨hst, hlog⟩ := logStep_eq_some.mp hst
    simp only [hlog, List.mem_append, Option.mem_toList] at hmem
    have hp := Transfer.pacedAt_of_reach h₀ hr.of_logged
    obtain (hmem | hev) | hmem | hev := hmem
    · exact ih (.inl hmem)
    · exact OrderInv.half_of_copy hp (.inl hev)
    · exact ih (.inr hmem)
    · exact OrderInv.half_of_copy hp (.inr hev)

/-- **The halves are used in mutual exclusion** in every run of a transfer, whatever the sizes of
the buffers, the outcomes of the calls and the delays of the cards are.

Each order of two kinds of events is reduced to the states of the run. A copy begins when the flag
of its chunk is seen, so the data write has executed; it ends only where it has begun; and data
write `i + 2` is in a queue only when the receiver has finished the copy of chunk `i`, because the
sender posted it after the write-back. The ranges come from the locals of the receiver alone. -/
theorem exclusive_of_reach (T : Transfer) (h₀ : T.Initial w₀)
    (hr : Reach (logStep T.step T.halfEvent) (onState Free) ⟨w₀, []⟩ w) :
    T.Exclusive w.log where
  placed heq hhalf i := T.dataWrite_placed heq hhalf i
  half i bias size := half_of_reach h₀ hr
  taken e e' t ok := RecvCall.copyOut_congr
  landed i bias size := by
    refine Reach.preceded_of_reach (D := fun s => s.snd.nic.Executed (1 + 2 * i)) rfl
      ?_ (fun s x t hs _ hst hx => ?_) (fun s x t hs _ _ he => ?_) hr
    · simp only [h₀.snd_nic]
      intro hx
      exact absurd hx.1 (Nat.not_lt_zero _)
    · exact (OrderInv.reach h₀ hs).executed_or_written hst hx
    · exact (OrderInv.reach h₀ hs).landed_of_copyBegins he
  begun i bias size := by
    refine Reach.preceded_of_reach (D := fun s => s.Copying T.recv i bias size) rfl ?_
      (fun s x t hs _ hst hc => ?_) (fun s x t hs _ _ he => ?_) hr
    · rintro ⟨hpc, -⟩
      obtain ⟨output, recvFlags, hr₀⟩ := h₀.receiver
      simp only [hr₀, RecvCall.enter] at hpc
      split_ifs at hpc
    · exact OrderInv.copying_or_begins hst hc
    · exact OrderInv.copying_of_copied he
  released i := by
    refine Reach.precededBy_of_reach (D := fun s => s.Copied i) rfl ?_
      (fun s x t hs _ hst hc => ?_) (fun s x t hs _ _ he => ?_) hr
    · rintro (hlt | ⟨hpc, -⟩)
      · simp [h₀.rcv_nic, SendQueues.empty] at hlt
      · obtain ⟨output, recvFlags, hr₀⟩ := h₀.receiver
        simp only [hr₀, RecvCall.enter] at hpc
        split_ifs at hpc <;> simp at hpc
    · exact (OrderInv.reach h₀ hs).copied_or_ends hst hc
    · exact (OrderInv.reach h₀ hs).copied_of_written he
  numbered n write := numbered_of_reach h₀ hr

/-- The short transfer with prompt cards copies out all of its three chunks, the last one out of the
first half. -/
theorem exclusive_short :
    ∃ w, Reach (logStep shortTransfer.step shortTransfer.halfEvent) (onState Free)
        ⟨shortTransfer.start, []⟩ w ∧
      .copied 2 0 1 ∈ w.log ∧ shortTransfer.Exclusive w.log := by
  obtain ⟨w, hr, hmem⟩ : ∃ w, Reach (logStep shortTransfer.step shortTransfer.halfEvent) Free
      ⟨shortTransfer.start, []⟩ w ∧ .copied 2 0 1 ∈ w.log :=
    exists_reach_of_exec promptRun (by decide +kernel)
  exact ⟨w, hr, hmem, exclusive_of_reach _ shortTransfer.initial_start hr⟩

end HMC.Uhm
