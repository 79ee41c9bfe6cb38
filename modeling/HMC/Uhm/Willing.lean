import HMC.Uhm.Untrusted

/-!
# Calls that succeed

A call returns `SUCCESS` when its posts and waits succeed, its card executes what was posted, and
the peer sets the words it spins on. Nobody looks at the staging copies, so they may all fail
(`SendCall.exists_success`, `RecvCall.exists_success`).

These runs are what the converses of the results on one side need: a claim that is to fail for a
call needs a run of it that goes as far as the failure. They are not written down but obtained from
a measure (`HMC.Machine.exists_reach_final`): the steps that the thread has to make, the requests
that its card has to execute, and the word that the peer has to set, weighted such that each enabled
step lowers the sum (`SendCall.todo`, `RecvCall.todo`). `progress` says that there is such a step at
every location, so the run ends, and for `uhm_recv` it ends with an error only at a chunk that the
output does not hold.
-/

namespace HMC.Uhm

open HMC.Machine

theorem Endpoint.exists_pop {e : Endpoint} {queues : ℕ} {id : ℕ} (h : ¬ e.Completed queues id) :
    ∃ q < queues, ∃ p nic, e.nic.pop q = some (p, nic) := by
  unfold Endpoint.Completed at h
  push Not at h
  obtain ⟨q, hq, ⟨t, r⟩, hr, -⟩ := h
  obtain ⟨p, nic, hp⟩ := SendQueues.Queued.exists_pop (show e.nic.Queued t r q from hr)
  exact ⟨q, hq, p, nic, hp⟩

theorem Endpoint.exists_pop_of_ids {e : Endpoint} {queues : ℕ} {ids : List ℕ}
    (h : ¬ e.AllCompleted queues ids) : ∃ q < queues, ∃ p nic, e.nic.pop q = some (p, nic) := by
  unfold Endpoint.AllCompleted at h
  push Not at h
  obtain ⟨id, -, hid⟩ := h
  exact Endpoint.exists_pop hid

/-! ### Calls that are refused -/

/-- The call returns before it touches shared memory. -/
def SendCall.Refused (c : SendCall) : Prop :=
  c.sendFlags = 0 ∨ c.inputBuffer = none ∨ c.halfBufferSize = 0 ∨ 2 ^ 32 - 1 < c.sendFlags

instance (c : SendCall) : Decidable c.Refused :=
  decidable_of_iff (c.sendFlags = 0 ∨ c.inputBuffer.isNone = true ∨ c.halfBufferSize = 0 ∨
    2 ^ 32 - 1 < c.sendFlags) (by rw [SendCall.Refused, Option.isNone_iff_eq_none])

theorem SendCall.enter_pc_iff {c : SendCall} : c.enter.pc = .initState0 ↔ ¬ c.Refused := by
  unfold enter Refused
  dsimp only
  split_ifs with hzero hinput hhalf hlarge
  · simp [hzero]
  · simp [hinput]
  · simp [hhalf]
  · simp only [false_iff, not_not]
    exact .inr (.inr (.inr hlarge))
  · simp only [true_iff, not_or]
    exact ⟨hzero, hinput, hhalf, hlarge⟩

theorem SendCall.step_done (c : SendCall) {t : Sender} {ret : Status} (hpc : t.pc = .done ret)
    (ok : Bool) (e : Endpoint) : c.step ok e t = none := by
  simp only [step, hpc]

theorem SendCall.step_of_refused {c : SendCall} (h : c.Refused) (ok : Bool) (e : Endpoint) :
    c.step ok e c.enter = none := by
  obtain hpc | ⟨ret, hpc⟩ := c.enter_pc
  · exact absurd h (enter_pc_iff.mp hpc)
  · exact c.step_done hpc ok e

/-- The call returns before it touches shared memory. -/
def RecvCall.Refused (c : RecvCall) : Prop := c.nullArgs = true ∨ c.halfBufferSize = 0

instance (c : RecvCall) : Decidable c.Refused := inferInstanceAs (Decidable (_ ∨ _))

theorem RecvCall.enter_pc_iff {c : RecvCall} {output : Bytes} {recvFlags : ℕ} :
    (c.enter output recvFlags).pc = .initState0 ↔ ¬ c.Refused := by
  unfold enter Refused
  dsimp only
  split_ifs with hnull hhalf
  · simp [hnull]
  · simp [hhalf]
  · simp [hnull, hhalf]

theorem RecvCall.step_done (c : RecvCall) {t : Receiver} {ret : Status} (hpc : t.pc = .done ret)
    (ok : Bool) (e : Endpoint) : c.step ok e t = none := by
  simp only [step, hpc]

theorem RecvCall.step_of_refused {c : RecvCall} (h : c.Refused) {output : Bytes} {recvFlags : ℕ}
    (ok : Bool) (e : Endpoint) : c.step ok e (c.enter output recvFlags) = none := by
  have hpc : (c.enter output recvFlags).pc = .done .error := by
    unfold enter
    dsimp only
    split_ifs with hnull hhalf
    · rfl
    · rfl
    · exact absurd h (not_or.mpr ⟨hnull, hhalf⟩)
  exact c.step_done hpc ok e

/-! ### `uhm_send` -/

/-- The locations of the staging copies. -/
def SendPc.stages : SendPc → Bool
  | .prefillFirst | .prefillNext => true
  | _ => false

/-- The staging copies fail, and everything else succeeds. -/
def SendCall.Unstaged (s : Side Sender) : SideAct → Prop
  | .run ok => ok = !s.thread.pc.stages
  | .nic _ | .peer _ _ => True

/-- How many steps the thread has to make, at chunk `i` of `m`. -/
def SendPc.left (m i : ℕ) : SendPc → ℕ
  | .initState0 => 6 * m + 9
  | .initState1 => 6 * m + 8
  | .initLength => 6 * m + 7
  | .initChunkBytes => 6 * m + 6
  | .postState => 6 * m + 5
  | .prefillFirst => 6 * m + 4
  | .waitState => 6 * m + 3
  | .spin => 6 * (m - i) + 1
  | .postData => 6 * (m - i)
  | .markReadable => 6 * (m - i) - 1
  | .postFlag => 6 * (m - i) - 2
  | .prefillNext => 6 * (m - i) - 3
  | .waitPending => 6 * (m - i) - 4
  | .finalWait => 1
  | .done _ => 0

/-- A call that has not failed. -/
def SendPc.Runs (m i : ℕ) : SendPc → Prop
  | .spin | .postData | .markReadable | .postFlag | .prefillNext | .waitPending => i < m
  | .finalWait => True
  | .done ret => ret = .success
  | _ => i = 0

namespace SendCall

variable {c : SendCall} {s : Side Sender}

/-- What is left to do: steps of the thread, requests to execute, a word to set. -/
def todo (c : SendCall) (s : Side Sender) : ℕ :=
  4 * s.thread.pc.left c.numSendChunks s.thread.currentChunk + 2 * s.ep.nic.load c.queues +
    if s.thread.pc = .spin ∧ s.ep.uhm.state (s.thread.currentChunk % 2) ≠ canWrite then 1 else 0

theorem todo_of_lt {s' : Side Sender}
    (hload : s'.ep.nic.load c.queues ≤ s.ep.nic.load c.queues + 1)
    (hleft : s'.thread.pc.left c.numSendChunks s'.thread.currentChunk <
      s.thread.pc.left c.numSendChunks s.thread.currentChunk) : c.todo s' < c.todo s := by
  unfold todo
  split_ifs <;> omega

theorem loopHead_runs (c : SendCall) (t : Sender) :
    (c.loopHead t).pc.Runs c.numSendChunks (c.loopHead t).currentChunk ∧
      (c.loopHead t).pc.left c.numSendChunks (c.loopHead t).currentChunk ≤
        6 * (c.numSendChunks - t.currentChunk) + 1 := by
  unfold loopHead
  split_ifs with hlt
  · exact ⟨hlt, Nat.le_refl _⟩
  · exact ⟨trivial, Nat.le_add_left _ _⟩
  · exact ⟨rfl, Nat.zero_le _⟩

theorem load_postWrite {e : Endpoint} {q : ℕ} (hq : q < c.queues) (write : RdmaWrite)
    (signaled : Bool) :
    (e.postWrite q write signaled).nic.load c.queues ≤ e.nic.load c.queues + 1 := by
  rw [Endpoint.postWrite_nic, SendQueues.load_post hq]

/-- Behind a chunk and its wait. -/
theorem loopHead_runs_next {t : Sender} {i : ℕ} (hi : i < c.numSendChunks)
    (ht : t.currentChunk = i + 1) :
    (c.loopHead t).pc.Runs c.numSendChunks (c.loopHead t).currentChunk ∧
      (c.loopHead t).pc.left c.numSendChunks (c.loopHead t).currentChunk <
        SendPc.waitPending.left c.numSendChunks i := by
  obtain ⟨hruns, hleft⟩ := c.loopHead_runs t
  refine ⟨hruns, Nat.lt_of_le_of_lt hleft ?_⟩
  simp only [SendPc.left]
  omega

/-- The thread, the card, or the peer has a step that leaves less to do. -/
def Progresses (c : SendCall) (s : Side Sender) : Prop :=
  ∃ a s', Unstaged s a ∧ Side.step c.step s a = some s' ∧
    s'.thread.pc.Runs c.numSendChunks s'.thread.currentChunk ∧ c.todo s' < c.todo s

/-- A step of `uhm_send` itself that leaves less to do. -/
theorem progresses_of_step (ok : Bool) (hok : ok = !s.thread.pc.stages)
    (h : ∃ p, c.step ok s.ep s.thread = some p ∧
      p.1.nic.load c.queues ≤ s.ep.nic.load c.queues + 1 ∧
      p.2.pc.Runs c.numSendChunks p.2.currentChunk ∧ p.2.pc.left c.numSendChunks p.2.currentChunk <
        s.thread.pc.left c.numSendChunks s.thread.currentChunk) : c.Progresses s := by
  obtain ⟨p, hs, hload, hruns, hleft⟩ := h
  refine ⟨.run ok, ⟨p.1, p.2⟩, hok, ?_, hruns, todo_of_lt hload hleft⟩
  rw [Side.step, hs, Option.map_some]

/-- A request that the call waits for is still queued. -/
theorem progresses_of_pop (h : s.thread.pc.Runs c.numSendChunks s.thread.currentChunk)
    (hpop : ∃ q < c.queues, ∃ p nic, s.ep.nic.pop q = some (p, nic)) : c.Progresses s := by
  obtain ⟨q, hq, p, nic, hp⟩ := hpop
  refine ⟨.nic q, { s with ep := { s.ep with nic := nic } }, trivial, ?_, h, ?_⟩
  · rw [Side.step, hp, Option.map_some]
  · have hload := SendQueues.load_pop hq hp
    simp only [todo]
    omega

/-- The call goes on. -/
theorem progress (h : s.thread.pc.Runs c.numSendChunks s.thread.currentChunk)
    (hdone : s.thread.pc ≠ .done .success) : c.Progresses s := by
  have hrun := @progresses_of_step c s
  have hdrain := progresses_of_pop h
  have hkeep : ∀ {e' : Endpoint}, e'.nic = s.ep.nic →
      e'.nic.load c.queues ≤ s.ep.nic.load c.queues + 1 := fun heq => by
    rw [heq]
    exact Nat.le_succ _
  have hqp : c.qpIdx s.thread.currentChunk < c.queues := Nat.mod_lt _ c.queues_pos
  cases hpc : s.thread.pc <;> rw [hpc] at h hrun <;> dsimp only [SendPc.Runs] at h
  case initState0 | initState1 | initLength | initChunkBytes =>
    refine hrun true rfl ?_
    simp only [step, hpc]
    exact ⟨_, rfl, hkeep rfl, h, by simp [Sender.goto, SendPc.left]⟩
  case postState =>
    refine hrun true rfl ?_
    simp only [step, hpc, if_true]
    exact ⟨_, rfl, load_postWrite c.queues_pos _ _, h, by simp [SendPc.left]⟩
  case prefillFirst =>
    refine hrun false rfl ?_
    simp only [step, hpc]
    exact ⟨_, rfl, hkeep rfl, h, by simp [Sender.goto, SendPc.left]⟩
  case waitState =>
    -- the wait returns, or the card has something to do before
    by_cases hc : s.ep.Completed c.queues s.thread.stateWrId
    · refine hrun true rfl ?_
      simp only [step, hpc, if_true, if_pos hc]
      obtain ⟨hruns, hleft⟩ := c.loopHead_runs s.thread
      refine ⟨_, rfl, hkeep rfl, hruns, Nat.lt_of_le_of_lt hleft ?_⟩
      simp only [SendPc.left]
      omega
    · exact hdrain (Endpoint.exists_pop hc)
  case spin =>
    by_cases hword : s.ep.uhm.state (s.thread.currentChunk % 2) = canWrite
    · refine hrun true rfl ?_
      simp only [step, hpc, if_pos hword]
      exact ⟨_, rfl, hkeep rfl, h, by simp [Sender.goto, SendPc.left]⟩
    · -- the peer sets the word
      refine ⟨.peer s.ep.bytes { s.ep.uhm with state := fun _ => canWrite }, _, trivial, rfl,
        by rwa [hpc], ?_⟩
      simp [todo, hpc, hword]
  case postData =>
    refine hrun true rfl ?_
    simp only [step, hpc, if_true]
    refine ⟨_, rfl, load_postWrite hqp _ _, h, ?_⟩
    simp only [Sender.goto, SendPc.left]
    omega
  case markReadable =>
    refine hrun true rfl ?_
    simp only [step, hpc]
    refine ⟨_, rfl, hkeep rfl, h, ?_⟩
    simp only [Sender.goto, SendPc.left]
    omega
  case postFlag =>
    refine hrun true rfl ?_
    simp only [step, hpc, if_true]
    refine ⟨_, rfl, load_postWrite hqp _ _, ?_⟩
    unfold flagPosted
    split_ifs
    · refine ⟨h, ?_⟩
      simp only [SendPc.left]
      omega
    · refine ⟨h, ?_⟩
      simp only [SendPc.left]
      omega
  case prefillNext =>
    refine hrun false rfl ?_
    simp only [step, hpc]
    refine ⟨_, rfl, hkeep ?_, h, ?_⟩
    · dsimp only
      split_ifs <;> rfl
    · simp only [Sender.goto, SendPc.left]
      omega
  case waitPending =>
    by_cases hfull : s.thread.pendingSignaled.length ≥ c.maxPendingSignal
    · by_cases hc : s.ep.AllCompleted c.queues s.thread.pendingSignaled
      · refine hrun true rfl ?_
        simp only [step, hpc, if_pos hfull, if_true, if_pos hc]
        exact ⟨_, rfl, hkeep rfl, loopHead_runs_next h rfl⟩
      · exact hdrain (Endpoint.exists_pop_of_ids hc)
    · refine hrun true rfl ?_
      simp only [step, hpc, if_neg hfull]
      exact ⟨_, rfl, hkeep rfl, loopHead_runs_next h rfl⟩
  case finalWait =>
    by_cases hc : s.ep.AllCompleted c.queues s.thread.pendingSignaled
    · refine hrun true rfl ?_
      simp only [step, hpc, if_true, if_pos hc]
      exact ⟨_, rfl, hkeep rfl, rfl, by simp [Sender.goto, SendPc.left]⟩
    · exact hdrain (Endpoint.exists_pop_of_ids hc)
  case done ret =>
    obtain rfl := h
    exact absurd hpc hdone

/-- **A run that succeeds.** A call that is not refused has a run that succeeds, in which every
staging copy fails. The invariant is that the call has not failed, the measure what is left to
do. -/
theorem exists_success (hc : c.enter.pc = .initState0) (e : Endpoint) :
    ∃ s, Reach (Side.step c.step) Unstaged ⟨e, c.enter⟩ s ∧ s.thread.pc = .done .success := by
  obtain ⟨s, hr, -, hpc⟩ : ∃ s, Reach (Side.step c.step) Unstaged ⟨e, c.enter⟩ s ∧
      s.thread.pc.Runs c.numSendChunks s.thread.currentChunk ∧ s.thread.pc = .done .success :=
    exists_reach_final_of_inv c.todo (by rw [hc]; rfl) fun _ _ h hdone => progress h hdone
  exact ⟨s, hr, hpc⟩

end SendCall

/-! ### `uhm_recv` -/

/-- The header that the call takes. -/
def RecvCall.Takes (length chunkBytes : ℕ) (s : Side Receiver) : SideAct → Prop
  | .run _ => (s.thread.pc = .readLength → s.ep.uhm.length = length) ∧
    (s.thread.pc = .readChunkBytes → s.ep.uhm.chunkBytes = chunkBytes)
  | .nic _ | .peer _ _ => True

/-- The staging copies fail, and everything else succeeds. -/
def RecvCall.Unstaged (s : Side Receiver) : SideAct → Prop
  | .run ok => ok = !decide (s.thread.pc = .copyOut)
  | .nic _ | .peer _ _ => True

/-- How many steps the thread has to make, at chunk `i` of `m`. -/
def RecvPc.left (m i : ℕ) : RecvPc → ℕ
  | .initState0 => 6 * m + 12
  | .initState1 => 6 * m + 11
  | .initLength => 6 * m + 10
  | .initChunkBytes => 6 * m + 9
  | .readState => 6 * m + 8
  | .readLength => 6 * m + 7
  | .readChunkBytes => 6 * m + 6
  | .storeState0 => 6 * m + 5
  | .storeState1 => 6 * m + 4
  | .spin => 6 * (m - i) + 2
  | .copyOut => 6 * (m - i) + 1
  | .markWritable => 6 * (m - i)
  | .postFlag => 6 * (m - i) - 1
  | .waitPending => 6 * (m - i) - 2
  | .finalWait => 1
  | .done _ => 0

namespace RecvCall

variable (c : RecvCall) (length chunkBytes : ℕ)

/-- The locals of a call that has taken the header. -/
def Took (t : Receiver) : Prop :=
  t.recvFlags = length ∧ t.recvChunkSize = c.chunkSizeOf chunkBytes ∧
    t.numRecvChunks = numChunks length (c.chunkSizeOf chunkBytes)

/-- A call that takes the header, and fails at a chunk that the output does not hold only. -/
def Runs (s : Side Receiver) : Prop :=
  match s.thread.pc with
  | .initState0 | .initState1 | .initLength | .initChunkBytes | .readState =>
    s.thread.currentChunk = 0
  | .readLength => s.thread.currentChunk = 0 ∧ s.ep.uhm.length = length ∧
      s.ep.uhm.chunkBytes = chunkBytes
  | .readChunkBytes => s.thread.currentChunk = 0 ∧ s.thread.recvFlags = length ∧
      s.ep.uhm.chunkBytes = chunkBytes
  | .storeState0 | .storeState1 => s.thread.currentChunk = 0 ∧ c.Took length chunkBytes s.thread
  | .spin | .copyOut | .markWritable | .postFlag | .waitPending =>
    s.thread.currentChunk < numChunks length (c.chunkSizeOf chunkBytes) ∧
      c.Took length chunkBytes s.thread
  | .finalWait | .done .success => True
  | .done _ => s.thread.currentChunk < numChunks length (c.chunkSizeOf chunkBytes) ∧
      c.bufferSize < min ((s.thread.currentChunk + 1) * c.chunkSizeOf chunkBytes) length

/-- What is left to do: steps of the thread, requests to execute, words to set. -/
def todo (s : Side Receiver) : ℕ :=
  4 * s.thread.pc.left (numChunks length (c.chunkSizeOf chunkBytes)) s.thread.currentChunk +
    2 * s.ep.nic.load c.queues +
    if s.thread.pc = .readState ∧ ¬ (s.ep.uhm.state 0 = canWrite ∧ s.ep.uhm.length = length ∧
          s.ep.uhm.chunkBytes = chunkBytes) ∨
        s.thread.pc = .spin ∧ s.ep.uhm.state (s.thread.currentChunk % 2) ≠ canRead then 1 else 0

variable {c length chunkBytes} {s : Side Receiver}

theorem todo_of_lt {s' : Side Receiver}
    (hload : s'.ep.nic.load c.queues ≤ s.ep.nic.load c.queues + 1)
    (hleft :
      s'.thread.pc.left (numChunks length (c.chunkSizeOf chunkBytes)) s'.thread.currentChunk <
        s.thread.pc.left (numChunks length (c.chunkSizeOf chunkBytes)) s.thread.currentChunk) :
    c.todo length chunkBytes s' < c.todo length chunkBytes s := by
  unfold todo
  split_ifs <;> omega

theorem loopHead_runs {e : Endpoint} {t : Receiver} (h : c.Took length chunkBytes t) :
    c.Runs length chunkBytes ⟨e, t.loopHead⟩ ∧
      t.loopHead.pc.left (numChunks length (c.chunkSizeOf chunkBytes)) t.loopHead.currentChunk ≤
        6 * (numChunks length (c.chunkSizeOf chunkBytes) - t.currentChunk) + 2 := by
  unfold Receiver.loopHead
  split_ifs with hlt
  · exact ⟨⟨h.2.2 ▸ hlt, h⟩, Nat.le_refl _⟩
  · exact ⟨trivial, Nat.le_add_left _ _⟩
  · exact ⟨trivial, Nat.zero_le _⟩

/-- The runs in which the call takes the header and goes on as far as it can. -/
def Willing (length chunkBytes : ℕ) (s : Side Receiver) (a : SideAct) : Prop :=
  Side.Words s a ∧ Takes length chunkBytes s a ∧ Unstaged s a

/-- Behind a chunk and its wait. -/
theorem nextChunk_runs {e : Endpoint} {t : Receiver} {i : ℕ} (h : c.Took length chunkBytes t)
    (hi : i < numChunks length (c.chunkSizeOf chunkBytes)) (ht : t.currentChunk = i) :
    c.Runs length chunkBytes ⟨e, t.nextChunk⟩ ∧
      t.nextChunk.pc.left (numChunks length (c.chunkSizeOf chunkBytes)) t.nextChunk.currentChunk <
        RecvPc.waitPending.left (numChunks length (c.chunkSizeOf chunkBytes)) i := by
  obtain ⟨hruns, hleft⟩ := loopHead_runs (e := e) (t := { t with
    accumulatedSize := wrap64 (t.accumulatedSize + t.recvSize)
    currentChunk := t.currentChunk + 1 }) h
  refine ⟨hruns, Nat.lt_of_le_of_lt hleft ?_⟩
  simp only [RecvPc.left, ht]
  omega

/-- A copy goes on to the marks, or the output does not hold the chunk. -/
theorem copyOut_runs (hlt : length < 2 ^ 32) {log : List RecvEvent} (hI : ReadInv c ⟨s, log⟩)
    (hpc : s.thread.pc = .copyOut) (hi : s.thread.currentChunk <
      numChunks length (c.chunkSizeOf chunkBytes)) (htook : c.Took length chunkBytes s.thread)
    {e : Endpoint} : c.Runs length chunkBytes ⟨e, c.copyOut s.ep s.thread false⟩ ∧
      (c.copyOut s.ep s.thread false).pc.left (numChunks length (c.chunkSizeOf chunkBytes))
          (c.copyOut s.ep s.thread false).currentChunk <
        RecvPc.copyOut.left (numChunks length (c.chunkSizeOf chunkBytes))
          s.thread.currentChunk := by
  obtain ⟨hflags, hsize, hnum⟩ := htook
  obtain ⟨n, r, hsized, -⟩ := hI.sized_of_copyOut hpc
  obtain rfl : n = length := hsized.recvFlags.symm.trans hflags
  obtain rfl : r = c.chunkSizeOf chunkBytes := hsized.recvChunkSize.symm.trans hsize
  obtain ⟨hlen, hacc⟩ := hsized.recvSizeOf (hnum ▸ hi)
  dsimp only at hlen hacc
  have hpos := chunkLen_pos hsized.chunk_pos hi
  have hend := chunk_end_le hsized.chunk_pos hi
  have hnext : min ((s.thread.currentChunk + 1) * c.chunkSizeOf chunkBytes) n =
      s.thread.currentChunk * c.chunkSizeOf chunkBytes +
        chunkLen n (c.chunkSizeOf chunkBytes) s.thread.currentChunk := by
    rw [chunkLen, Nat.add_mul, Nat.one_mul]
    omega
  obtain ⟨hwhy, heq⟩ | ⟨-, -, -, heq⟩ := c.copyOut_outcomes s.ep s.thread false
  · rw [heq]
    refine ⟨⟨hi, ?_⟩, by simp [Receiver.goto, RecvPc.left]⟩
    rw [hlen, hacc, wrap64_of_lt (by omega)] at hwhy
    dsimp only [Receiver.goto]
    omega
  · rw [heq]
    refine ⟨⟨hi, hflags, hsize, hnum⟩, ?_⟩
    simp only [RecvPc.left]
    omega

/-- The thread, the card, or the peer has a step that leaves less to do. -/
def Progresses (c : RecvCall) (length chunkBytes : ℕ) (s : Side Receiver) : Prop :=
  ∃ a s', Willing length chunkBytes s a ∧ Side.step c.step s a = some s' ∧
    c.Runs length chunkBytes s' ∧ c.todo length chunkBytes s' < c.todo length chunkBytes s

/-- A step of `uhm_recv` itself that leaves less to do. -/
theorem progresses_of_step (ok : Bool) (hok : ok = !decide (s.thread.pc = .copyOut))
    (hlength : s.thread.pc = .readLength → s.ep.uhm.length = length)
    (hchunk : s.thread.pc = .readChunkBytes → s.ep.uhm.chunkBytes = chunkBytes)
    (h : ∃ p, c.step ok s.ep s.thread = some p ∧
      p.1.nic.load c.queues ≤ s.ep.nic.load c.queues + 1 ∧ c.Runs length chunkBytes ⟨p.1, p.2⟩ ∧
      p.2.pc.left (numChunks length (c.chunkSizeOf chunkBytes)) p.2.currentChunk <
        s.thread.pc.left (numChunks length (c.chunkSizeOf chunkBytes)) s.thread.currentChunk) :
    c.Progresses length chunkBytes s := by
  obtain ⟨p, hs, hload, hruns, hleft⟩ := h
  refine ⟨.run ok, ⟨p.1, p.2⟩, ⟨trivial, ⟨hlength, hchunk⟩, hok⟩, ?_, hruns,
    todo_of_lt hload hleft⟩
  rw [Side.step, hs, Option.map_some]

/-- A request that the call waits for is still queued. -/
theorem progresses_of_pop (h : c.Runs length chunkBytes s)
    (hpop : ∃ q < c.queues, ∃ p nic, s.ep.nic.pop q = some (p, nic)) :
    c.Progresses length chunkBytes s := by
  obtain ⟨q, hq, p, nic, hp⟩ := hpop
  refine ⟨.nic q, { s with ep := { s.ep with nic := nic } }, ⟨trivial, trivial, trivial⟩, ?_, h, ?_⟩
  · rw [Side.step, hp, Option.map_some]
  · have hload := SendQueues.load_pop hq hp
    simp only [todo]
    omega

/-- The call goes on. -/
theorem progress (hpos : 0 < length) (hlt : length < 2 ^ 32) (hchunk : chunkBytes < 2 ^ 32)
    {log : List RecvEvent} (hI : ReadInv c ⟨s, log⟩) (h : c.Runs length chunkBytes s)
    (hdone : ∀ ret, s.thread.pc ≠ .done ret) : c.Progresses length chunkBytes s := by
  have hrun := @progresses_of_step c length chunkBytes s
  have hdrain := progresses_of_pop h
  have hkeep : ∀ {e' : Endpoint}, e'.nic = s.ep.nic →
      e'.nic.load c.queues ≤ s.ep.nic.load c.queues + 1 := fun heq => by
    rw [heq]
    exact Nat.le_succ _
  have hzero : canWrite < 2 ^ 32 := by decide
  have hone : canRead < 2 ^ 32 := by decide
  cases hpc : s.thread.pc <;> rw [hpc] at hrun <;> unfold Runs at h <;> simp only [hpc] at h
  case initState0 | initState1 | initLength | initChunkBytes =>
    refine hrun true rfl (by simp) (by simp) ?_
    simp only [step, hpc]
    exact ⟨_, rfl, hkeep rfl, h, by simp [Receiver.goto, RecvPc.left]⟩
  case readState =>
    by_cases hwords : s.ep.uhm.state 0 = canWrite ∧ s.ep.uhm.length = length ∧
        s.ep.uhm.chunkBytes = chunkBytes
    · refine hrun true rfl (by simp) (by simp) ?_
      simp only [step, hpc, if_pos hwords.1]
      exact ⟨_, rfl, hkeep rfl, ⟨h, hwords.2⟩, by simp [Receiver.goto, RecvPc.left]⟩
    · -- the header arrives
      refine ⟨.peer s.ep.bytes ⟨fun _ => canWrite, length, chunkBytes⟩, _,
        ⟨⟨fun _ _ => hzero, hlt, hchunk⟩, trivial, trivial⟩, rfl, ?_, ?_⟩
      · unfold Runs
        simp only [hpc]
        exact h
      · simp [todo, hpc, hwords]
  case readLength =>
    refine hrun true rfl (fun _ => h.2.1) (by simp) ?_
    simp only [step, hpc]
    exact ⟨_, rfl, hkeep rfl, h, by simp [RecvPc.left]⟩
  case readChunkBytes =>
    refine hrun true rfl (by simp) (fun _ => h.2.2) ?_
    simp only [step, hpc, headerRead, h.2.1, h.2.2, if_neg hpos.ne']
    exact ⟨_, rfl, hkeep rfl, ⟨h.1, rfl, rfl, rfl⟩, by simp [RecvPc.left]⟩
  case storeState0 =>
    refine hrun true rfl (by simp) (by simp) ?_
    simp only [step, hpc]
    exact ⟨_, rfl, hkeep rfl, h, by simp [Receiver.goto, RecvPc.left]⟩
  case storeState1 =>
    refine hrun true rfl (by simp) (by simp) ?_
    simp only [step, hpc]
    obtain ⟨hruns, hleft⟩ := loopHead_runs (e := s.ep.setState 1 canWrite) h.2
    refine ⟨_, rfl, hkeep rfl, hruns, Nat.lt_of_le_of_lt hleft ?_⟩
    simp only [RecvPc.left]
    omega
  case spin =>
    by_cases hword : s.ep.uhm.state (s.thread.currentChunk % 2) = canRead
    · refine hrun true rfl (by simp) (by simp) ?_
      simp only [step, hpc, if_pos hword]
      exact ⟨_, rfl, hkeep rfl, h, by simp [Receiver.goto, RecvPc.left]⟩
    · -- the peer sets the word
      refine ⟨.peer s.ep.bytes ⟨fun _ => canRead, length, chunkBytes⟩, _,
        ⟨⟨fun _ _ => hone, hlt, hchunk⟩, trivial, trivial⟩, rfl, ?_, ?_⟩
      · unfold Runs
        simp only [hpc]
        exact h
      · simp [todo, hpc, hword]
  case copyOut =>
    refine hrun false rfl (by simp) (by simp) ?_
    simp only [step, hpc]
    exact ⟨_, rfl, hkeep rfl, copyOut_runs hlt hI hpc h.1 h.2⟩
  case markWritable =>
    refine hrun true rfl (by simp) (by simp) ?_
    simp only [step, hpc]
    refine ⟨_, rfl, hkeep rfl, h, ?_⟩
    simp only [Receiver.goto, RecvPc.left]
    omega
  case postFlag =>
    refine hrun true rfl (by simp) (by simp) ?_
    simp only [step, hpc, if_true]
    refine ⟨_, rfl, ?_, ?_⟩
    · rw [Endpoint.postWrite_nic, SendQueues.load_post (c.qpIdx_lt _)]
    · unfold flagPosted
      split_ifs
      · refine ⟨h, ?_⟩
        simp only [RecvPc.left]
        omega
      · refine ⟨h, ?_⟩
        simp only [RecvPc.left]
        omega
  case waitPending =>
    by_cases hfull : s.thread.pendingSignaled.length ≥ c.maxPendingSignal
    · by_cases hc : s.ep.AllCompleted c.queues s.thread.pendingSignaled
      · refine hrun true rfl (by simp) (by simp) ?_
        simp only [step, hpc, if_pos hfull, if_true, if_pos hc]
        exact ⟨_, rfl, hkeep rfl, nextChunk_runs h.2 h.1 rfl⟩
      · exact hdrain (Endpoint.exists_pop_of_ids hc)
    · refine hrun true rfl (by simp) (by simp) ?_
      simp only [step, hpc, if_neg hfull]
      exact ⟨_, rfl, hkeep rfl, nextChunk_runs h.2 h.1 rfl⟩
  case finalWait =>
    by_cases hc : s.ep.AllCompleted c.queues s.thread.pendingSignaled
    · refine hrun true rfl (by simp) (by simp) ?_
      simp only [step, hpc, if_true, if_pos hc]
      exact ⟨_, rfl, hkeep rfl, trivial, by simp [Receiver.goto, RecvPc.left]⟩
    · exact hdrain (Endpoint.exists_pop_of_ids hc)
  case done ret => exact absurd hpc (hdone ret)

/-- A call that is not refused has a run that takes the header and returns only when it is done or
the output is full, and in which every staging copy fails. -/
theorem exists_returned {output : Bytes} {recvFlags : ℕ}
    (hc : (c.enter output recvFlags).pc = .initState0) (hpos : 0 < length) (hlt : length < 2 ^ 32)
    (hchunk : chunkBytes < 2 ^ 32) (e : Endpoint) :
    ∃ s, Reach (Side.step c.step) (Willing length chunkBytes) ⟨e, c.enter output recvFlags⟩ s ∧
      c.Runs length chunkBytes s ∧ ∃ ret, s.thread.pc = .done ret := by
  have hinit : c.Runs length chunkBytes ⟨e, c.enter output recvFlags⟩ := by
    unfold Runs
    simp only [hc]
    rfl
  refine exists_reach_final_of_inv (c.todo length chunkBytes) hinit fun s hr h hdone => ?_
  obtain ⟨log, hlog⟩ := hr.exists_log (Side.emit c.observe) []
  exact progress hpos hlt hchunk (ReadInv.reach (fun _ _ h => h.1) hlog) h
    fun ret hpc => hdone ⟨ret, hpc⟩

/-- When the output holds the message, it succeeds. -/
theorem exists_success {output : Bytes} {recvFlags : ℕ}
    (hc : (c.enter output recvFlags).pc = .initState0) (hpos : 0 < length) (hlt : length < 2 ^ 32)
    (hchunk : chunkBytes < 2 ^ 32) (hfits : length ≤ c.bufferSize) (e : Endpoint) :
    ∃ s, Reach (Side.step c.step) (Willing length chunkBytes) ⟨e, c.enter output recvFlags⟩ s ∧
      s.thread.pc = .done .success := by
  obtain ⟨s, hr, hruns, ret, hpc⟩ := exists_returned hc hpos hlt hchunk e
  refine ⟨s, hr, ?_⟩
  cases ret with
  | success => exact hpc
  | _ =>
    unfold Runs at hruns
    simp only [hpc] at hruns
    omega

end RecvCall

end HMC.Uhm
