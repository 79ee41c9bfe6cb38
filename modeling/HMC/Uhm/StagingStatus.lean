import HMC.Uhm.Willing

/-!
# Staging failures are not reported

The three staging sites of `uhm_send` and `uhm_recv` drop the status of the copy. A call whose
copies all fail returns `SUCCESS` like any other, and `uhm_send` marks the chunk it did not stage.
`reports_iff` says which calls meet the claim: those that are refused before the first copy, and
those whose copies cannot fail, since both sides of them are host memory.

The condition is about the arguments of the call and its buffer only. That it is enough is seen from
the log: with host memory on both sides every copy is a `memcpy` inside a half, so no failed copy is
ever logged. That it is necessary uses the runs of `HMC.Uhm.Willing`, in which all copies fail and
the call succeeds; its first copy is then logged as failed, and nothing that follows reports it.
-/

namespace HMC.Uhm

open HMC.Machine

/-- A staging copy of a chunk has returned, or the chunk is marked as readable. -/
inductive SendEvent
  | staged (chunk : ℕ) (copied : Bool)
  | marked (chunk : ℕ)
  deriving DecidableEq

theorem ConnBuffer.stageIn_failed (b : ConnBuffer) (memType : MemoryType) (bytes src : Bytes)
    (size bias : ℕ) : (b.stageIn memType bytes src size bias false).1 = .error := by
  unfold ConnBuffer.stageIn ConnBuffer.writeFromCpu ConnBuffer.writeFromGpu
  split_ifs <;> first | rfl | contradiction

theorem ConnBuffer.stageOut_failed {b : ConnBuffer} {memType : MemoryType}
    (h : ¬ (memType = .cpu ∧ b.memType = .cpu)) (bytes out : Bytes) (dest size bias : ℕ) :
    (b.stageOut memType bytes out dest size bias false).1 = .error := by
  unfold ConnBuffer.stageOut ConnBuffer.readToCpu ConnBuffer.readToGpu
  split_ifs with hmem hbound hcpu
  · rfl
  · exact absurd ⟨hmem, hcpu.resolve_right (by simp)⟩ h
  all_goals first | rfl | contradiction

namespace SendCall

variable (c : SendCall)

/-- Whether the copy of chunk `i` returns `SUCCESS`; `ok` is the outcome of the memory operation. -/
def stages (ok : Bool) (e : Endpoint) (i : ℕ) : Bool :=
  decide ((c.buffer.stageIn c.memType e.bytes (fun k => c.input (i * c.chunkSize + k))
    (chunkLen c.sendFlags c.chunkSize i) (i % 2 * c.halfBufferSize) ok).1 = .success)

/-- What a step of the thread does to a chunk. -/
def observe (ok : Bool) (e : Endpoint) (t : Sender) : Option SendEvent :=
  match t.pc with
  | .prefillFirst => some (.staged 0 (c.stages ok e 0))
  | .prefillNext =>
    if t.currentChunk + 1 < c.numSendChunks then
      some (.staged (t.currentChunk + 1) (c.stages ok e (t.currentChunk + 1)))
    else none
  | .markReadable => some (.marked t.currentChunk)
  | _ => none

/-- The sender's side, with a log of what it stages and marks. -/
abbrev observed : Logged (Side Sender) SendEvent → SideAct →
    Option (Logged (Side Sender) SendEvent) :=
  logStep (Side.step c.step) (Side.emit c.observe)

/-- A copy from host memory to host memory is a `memcpy`. -/
def HostCopies (s : Side Sender) : SideAct → Prop
  | .run ok => s.thread.pc.stages = true → c.memType = .cpu ∧ c.buffer.memType = .cpu → ok = true
  | .nic _ | .peer _ _ => True

instance (s : Side Sender) : ∀ a, Decidable (c.HostCopies s a)
  | .run ok => inferInstanceAs (Decidable (s.thread.pc.stages = true →
      c.memType = .cpu ∧ c.buffer.memType = .cpu → ok = true))
  | .nic _ | .peer _ _ => .isTrue trivial

end SendCall

/-- The claim for `uhm_send`. -/
structure SendCall.Reports (w : Logged (Side Sender) SendEvent) : Prop where
  result : ∀ i, .staged i false ∈ w.log → w.state.thread.pc ≠ .done .success
  unmarked : ∀ i, .staged i false ∈ w.log → .marked i ∉ w.log

/-- The claim for `uhm_recv`. -/
def RecvCall.Reports (w : Logged (Side Receiver) RecvEvent) : Prop :=
  ∀ r ∈ reads w.log, r.copied = false → w.state.thread.pc ≠ .done .success

/-! ### `uhm_send` -/

namespace SendCall

variable {c : SendCall} {e : Endpoint} {w w' : Logged (Side Sender) SendEvent}
  {ok : Side Sender → SideAct → Prop}

/-- The event of a staging copy comes from one. -/
theorem staged_step {a : SideAct} (hs : c.observed w a = some w') {i : ℕ} {copied : Bool}
    (h : .staged i copied ∈ w'.log) : .staged i copied ∈ w.log ∨
      ∃ ok, a = .run ok ∧ w.state.thread.pc.stages = true ∧ copied = c.stages ok w.state.ep i := by
  obtain ⟨-, hlog⟩ := logStep_eq_some.mp hs
  rw [hlog] at h
  refine (List.mem_append.mp h).imp_right fun h => ?_
  cases a with
  | run ok =>
    cases hpc : w.state.thread.pc <;> simp only [Side.emit, observe, hpc] at h
    case prefillFirst =>
      rw [Option.toList_some, List.mem_singleton, SendEvent.staged.injEq] at h
      obtain ⟨rfl, rfl⟩ := h
      exact ⟨ok, rfl, rfl, rfl⟩
    case prefillNext =>
      split_ifs at h
      · rw [Option.toList_some, List.mem_singleton, SendEvent.staged.injEq] at h
        obtain ⟨rfl, rfl⟩ := h
        exact ⟨ok, rfl, rfl, rfl⟩
      · cases h
    case markReadable => simp at h
    all_goals cases h
  | nic q => cases h
  | peer bytes uhm => cases h

/-- A `memcpy` into a half does not fail. -/
theorem stages_of_host (hhalf : c.halfBufferSize ≠ 0)
    (hhost : c.memType = .cpu ∧ c.buffer.memType = .cpu) (e : Endpoint) (i : ℕ) :
    c.stages true e i = true := by
  have hlen : chunkLen c.sendFlags c.chunkSize i ≤ c.halfBufferSize := by
    have hle : c.chunkSize ≤ c.halfBufferSize := by
      rw [chunkSize]
      omega
    exact chunkLen_le.trans hle
  have hmod : i % 2 * c.halfBufferSize ≤ 1 * c.halfBufferSize :=
    Nat.mul_le_mul_right _ (Nat.le_of_lt_succ (Nat.mod_lt _ Nat.two_pos))
  have htwo : c.halfBufferSize + c.halfBufferSize ≤ c.buffer.bufferSize := by
    rw [halfBufferSize]
    omega
  have hbound : ¬ wrap64 (i % 2 * c.halfBufferSize + chunkLen c.sendFlags c.chunkSize i) >
      c.buffer.bufferSize := by
    have : wrap64 (i % 2 * c.halfBufferSize + chunkLen c.sendFlags c.chunkSize i) ≤
      i % 2 * c.halfBufferSize + chunkLen c.sendFlags c.chunkSize i := Nat.mod_le _ _
    omega
  rw [stages, ConnBuffer.stageIn, if_pos hhost.1, ConnBuffer.writeFromCpu, if_neg hbound]
  rfl

/-- From host memory to host memory no copy fails. -/
theorem staged_of_host (hhalf : c.halfBufferSize ≠ 0)
    (hhost : c.memType = .cpu ∧ c.buffer.memType = .cpu)
    (hr : Reach c.observed (onState c.HostCopies) ⟨⟨e, c.enter⟩, []⟩ w) (i : ℕ) :
    .staged i false ∉ w.log := by
  induction hr with
  | refl => exact List.not_mem_nil
  | @tail w w' a hr hok hs ih =>
    intro h
    obtain h | ⟨ok, rfl, hstages, hcopied⟩ := staged_step hs h
    · exact ih h
    · obtain rfl : ok = true := hok hstages hhost
      rw [stages_of_host hhalf hhost] at hcopied
      cases hcopied

/-- The locations before the first staging copy. -/
def unstaged : SendPc → Bool
  | .initState0 | .initState1 | .initLength | .initChunkBytes | .postState | .prefillFirst => true
  | _ => false

/-- When the copies fail, the first chunk is logged as not staged, unless the call has failed. -/
theorem staged_of_unstaged (hc : c.enter.pc = .initState0)
    (hr : Reach c.observed (onState Unstaged) ⟨⟨e, c.enter⟩, []⟩ w) :
    (unstaged w.state.thread.pc = true ∨ w.state.thread.pc = .done .error) ∨
      .staged 0 false ∈ w.log := by
  induction hr with
  | refl => exact .inl (.inl (by rw [hc]; rfl))
  | @tail w w' a hr hok hs ih =>
    obtain ⟨hs, hlog⟩ := logStep_eq_some.mp hs
    obtain ih | ih := ih
    · cases a with
      | run ok =>
        obtain ⟨p, hp, heq⟩ := Option.map_eq_some_iff.mp hs
        rw [← heq]
        cases hpc : w.state.thread.pc <;> simp only [step, hpc] at hp <;> simp [hpc, unstaged] at ih
        case prefillFirst =>
          obtain rfl : ok = false := by
            rw [show ok = !w.state.thread.pc.stages from hok, hpc]
            rfl
          refine .inr ?_
          simp [hlog, Side.emit, observe, hpc, stages, ConnBuffer.stageIn_failed]
        case postState =>
          split_ifs at hp <;> obtain rfl := Option.some.inj hp
          · exact .inl (.inl rfl)
          · exact .inl (.inr rfl)
        case done => cases hp
        all_goals
          obtain rfl := Option.some.inj hp
          exact .inl (.inl rfl)
      | nic q =>
        obtain ⟨p, -, heq⟩ := Option.map_eq_some_iff.mp hs
        rw [← heq]
        exact .inl ih
      | peer bytes uhm =>
        rw [← Option.some.inj hs]
        exact .inl ih
    · rw [hlog]
      exact .inr (List.mem_append_left _ ih)

/-- **`uhm_send` reports its staging failures** if and only if it is refused at once, or cannot fail
to copy. -/
theorem reports_iff (c : SendCall) (e : Endpoint) :
    (∀ w, Reach c.observed (onState c.HostCopies) ⟨⟨e, c.enter⟩, []⟩ w → Reports w) ↔
      c.Refused ∨ c.memType = .cpu ∧ c.buffer.memType = .cpu := by
  constructor
  · intro h
    by_contra hnot
    obtain ⟨hrefused, hhost⟩ := not_or.mp hnot
    have hc := enter_pc_iff.mpr hrefused
    obtain ⟨s, hr, hpc⟩ := exists_success hc e
    obtain ⟨log, hlog⟩ := hr.exists_log (Side.emit c.observe) []
    have hstaged := (staged_of_unstaged hc hlog).resolve_left (by simp [hpc, unstaged])
    refine (h _ (hlog.mono fun w a hok => ?_)).result 0 hstaged hpc
    cases a with
    | run ok => exact fun _ hcpu => absurd hcpu hhost
    | nic q => trivial
    | peer bytes uhm => trivial
  · intro h w hr
    have hnone : ∀ i, .staged i false ∉ w.log := by
      intro i
      by_cases hrefused : c.Refused
      · rw [(Side.of_returned (step_of_refused hrefused) hr).2]
        exact List.not_mem_nil
      · refine staged_of_host (fun hhalf => hrefused ?_) (h.resolve_left hrefused) hr i
        exact .inr (.inr (.inl hhalf))
    exact ⟨fun i hi => absurd hi (hnone i), fun i hi => absurd hi (hnone i)⟩

end SendCall

/-! ### `uhm_recv` -/

namespace RecvCall

variable {c : RecvCall} {e : Endpoint} {output : Bytes} {recvFlags : ℕ}
  {w w' : Logged (Side Receiver) RecvEvent}

/-- Without room for a byte nothing is read. -/
theorem reads_of_no_room (hroom : c.bufferSize = 0) {ok : Side Receiver → SideAct → Prop}
    (hr : Reach c.observed (onState ok) ⟨⟨e, c.enter output recvFlags⟩, []⟩ w) :
    reads w.log = [] := by
  induction hr with
  | refl => rfl
  | @tail w w' a hr hok hs ih =>
    obtain heq | ⟨ok, -, -, hzero, hle, -⟩ := reads_step hs
    · rw [heq, ih]
    · omega

/-- When the copies fail, no read is a copy. -/
theorem copied_of_unstaged (hhost : ¬ (c.memType = .cpu ∧ c.buffer.memType = .cpu))
    (hr : Reach c.observed (onState Unstaged) ⟨⟨e, c.enter output recvFlags⟩, []⟩ w) :
    ∀ r ∈ reads w.log, r.copied = false := by
  induction hr with
  | refl => simp [reads]
  | @tail w w' a hr hok hs ih =>
    obtain heq | ⟨ok, rfl, hpc, -, -, heq⟩ := reads_step hs
    · rwa [heq]
    · obtain rfl : ok = false := by
        rw [show ok = !decide (w.state.thread.pc = .copyOut) from hok, hpc]
        rfl
      intro r hr
      rw [heq, List.mem_append, List.mem_singleton] at hr
      obtain hr | rfl := hr
      · exact ih r hr
      · simp [readOf, ConnBuffer.stageOut_failed hhost]

/-- **`uhm_recv` reports its staging failures** if and only if it is refused at once, has no room
for a byte, or cannot fail to copy. -/
theorem reports_iff (c : RecvCall) (e : Endpoint) (output : Bytes) (recvFlags : ℕ) :
    (∀ w, Reach c.observed (onState Side.Words) ⟨⟨e, c.enter output recvFlags⟩, []⟩ w →
      Reports w) ↔
      c.Refused ∨ c.bufferSize = 0 ∨ c.memType = .cpu ∧ c.buffer.memType = .cpu := by
  constructor
  · intro h
    by_contra hnot
    obtain ⟨hrefused, hroom, hhost⟩ : ¬ c.Refused ∧ c.bufferSize ≠ 0 ∧
        ¬ (c.memType = .cpu ∧ c.buffer.memType = .cpu) := by
      rwa [not_or, not_or] at hnot
    have hc : (c.enter output recvFlags).pc = .initState0 := enter_pc_iff.mpr hrefused
    -- a message of one byte
    obtain ⟨s, hr, hpc⟩ := exists_success hc (show 0 < 1 by decide) (by decide)
      (show 1 < 2 ^ 32 by decide) (Nat.pos_of_ne_zero hroom) e
    obtain ⟨log, hlog⟩ := hr.exists_log (Side.emit c.observe) []
    have hfailed := copied_of_unstaged hhost (hlog.mono fun w a hok => hok.2.2)
    have hwords := hlog.mono fun w a hok => hok.1
    obtain ⟨n, -, hpos, -, -, hsum⟩ := (ReadInv.reach (fun _ _ h => h) hwords).safeRead.success hpc
    obtain ⟨r, hr⟩ : ∃ r, r ∈ reads log := by
      refine List.exists_mem_of_ne_nil _ fun hnil => ?_
      rw [hnil] at hsum
      exact hpos.ne hsum
    exact h _ hwords r hr (hfailed r hr) hpc
  · intro h w hr
    obtain hrefused | hroom | hhost := h
    · intro r hmem
      rw [(Side.of_returned (step_of_refused hrefused) hr).2] at hmem
      cases hmem
    · intro r hmem
      rw [reads_of_no_room hroom hr] at hmem
      cases hmem
    · intro r hmem hfailed
      rw [copied_of_copies (hr.mono fun w a hwords => ⟨hwords, ?_⟩) r hmem] at hfailed
      · cases hfailed
      · cases a with
        | run ok =>
          intro _
          rw [if_pos hhost.2]
          exact hhost.1
        | nic q => trivial
        | peer bytes uhm => trivial

end RecvCall

/-! ### The claim -/

/-- **Staging failures are not reported.** Every run of a call reports its staging failures if and
only if none can happen: the call is refused before the first copy, or copies from host memory to
host memory. So the statuses that the staging functions return are never the reason for the status
of a transfer. -/
theorem reports_staging_iff (s : SendCall) (r : RecvCall) (e : Endpoint) (output : Bytes)
    (recvFlags : ℕ) :
    ((∀ w, Reach s.observed (onState s.HostCopies) ⟨⟨e, s.enter⟩, []⟩ w → SendCall.Reports w) ↔
      s.Refused ∨ s.memType = .cpu ∧ s.buffer.memType = .cpu) ∧
    ((∀ w, Reach r.observed (onState Side.Words) ⟨⟨e, r.enter output recvFlags⟩, []⟩ w →
      RecvCall.Reports w) ↔
      r.Refused ∨ r.bufferSize = 0 ∨ r.memType = .cpu ∧ r.buffer.memType = .cpu) :=
  ⟨s.reports_iff e, r.reports_iff e output recvFlags⟩

/-- One byte of device memory, and a connection buffer on the host. -/
def deviceByte : SendCall :=
  { shortTransfer.send with sendFlags := 1, memType := .nvidiaGpu }

/-- The run of `deviceByte` without a failure but that of `writeFromGpu`. -/
def deviceByteRun : List SideAct :=
  List.replicate 6 (.run true) ++ .nic 0 :: List.replicate 7 (.run true) ++
    [.nic 0, .nic 0, .run true]

/-- **`SUCCESS` without staging.** `writeFromGpu` refuses the only chunk, which is marked, sent and
reported as sent. -/
theorem success_unstaged : ∃ w, Reach deviceByte.observed (onState deviceByte.HostCopies)
    ⟨⟨.fresh, deviceByte.enter⟩, []⟩ w ∧ w.state.thread.pc = .done .success ∧
      w.log = [.staged 0 false, .marked 0] ∧ ¬ SendCall.Reports w := by
  obtain ⟨w, hr, hpc, hlog⟩ : ∃ w, Reach deviceByte.observed (onState deviceByte.HostCopies)
      ⟨⟨.fresh, deviceByte.enter⟩, []⟩ w ∧ (w.state.thread.pc = .done .success ∧
        w.log = [.staged 0 false, .marked 0]) :=
    exists_reach_of_execOk deviceByteRun (by decide +kernel)
  refine ⟨w, hr, hpc, hlog, fun h => ?_⟩
  have hstaged : .staged 0 false ∈ w.log := by simp [hlog]
  exact h.result 0 hstaged hpc

end HMC.Uhm
