import HMC.Rdma.Pipeline
import HMC.Uhm.Order

/-!
# Signals and success

`uhm_send` signals the flag write of every `signal_interval`-th chunk and of the last one, and
waits for these only. `SignalInv` says that a signaled flag write that still waits is named by
`pending_signaled`, so none is left when the call returns `SUCCESS`.

The other writes are covered in two ways: a chunk whose half was used again has been written
back, and a write leaves before a later one of its queue. Together they leave one gap, the
last chunk but one, when it is unsignaled and its queue is not that of the last chunk.
`executed_of_success` states the result for the pipelines and for `uhm_send`.

`SendCall.Covered` says that the gap is not there: one queue pair, or one chunk, or an interval that
ends with the last chunk but one. For the pipelines, whose halves are not handed back, each
chunk needs a signaled one behind it on its own queue pair, and this is necessary as well
(`HMC.Rdma.pipeline_executed_iff`): without it there is a run in which the card leaves that chunk
where it is until after the return.
-/

namespace HMC.Uhm

open HMC.Machine

/-- The signaled requests of the thread in `uhm_send`. Of the posts, `nic.next`, all but the
header are data and flag writes in turn, so `(nic.next - 1) / 2` chunks have their flag. -/
structure SignalInv (c : SendCall) (nic : SendQueues WorkRequest) (t : Sender) : Prop where
  nonempty : (∀ ret, t.pc ≠ .done ret) → 0 < c.numSendChunks
  since : (∀ ret, t.pc ≠ .done ret) → (nic.next - 1) / 2 < c.numSendChunks →
    t.sinceLastSignal = (nic.next - 1) / 2 % c.signalInterval
  signaled : ∀ {k r q}, nic.Queued (2 + 2 * k) r q →
    (r.signaled = true ↔ signalAt c.signalInterval c.numSendChunks k)
  pending : ∀ {k r q}, nic.Queued (2 + 2 * k) r q → r.signaled = true → r.wrId ∈ t.pendingSignaled
  settled : t.pc = .done .success → nic.next = 0 ∨
    0 < c.numSendChunks ∧ nic.next = 1 + 2 * c.numSendChunks ∧
      ∀ {k r q}, nic.Queued (2 + 2 * k) r q → r.signaled ≠ true

namespace SendCall

variable (c : SendCall)

theorem signalInterval_pos : 0 < c.signalInterval := by
  rw [signalInterval]
  omega

theorem signalFlag_iff {t : Sender} (hi : t.currentChunk < c.numSendChunks)
    (hs : t.sinceLastSignal = t.currentChunk % c.signalInterval) :
    c.signalFlag t = true ↔ signalAt c.signalInterval c.numSendChunks t.currentChunk := by
  rw [← interval_test_iff c.signalInterval_pos, signalFlag, hs]
  simp only [Bool.or_eq_true, decide_eq_true_iff, ge_iff_le]
  omega

end SendCall

namespace SignalInv

variable {c : SendCall} {nic nic' : SendQueues WorkRequest} {t t' : Sender} {e e' : Endpoint}
  {words : ℕ → ℕ} {granted : ℕ → Prop} {m : ℕ}

theorem initial : SignalInv c .empty c.enter where
  nonempty hpc := by
    refine numChunks_pos c.chunkSize_pos (Nat.pos_of_ne_zero fun h0 => hpc .success ?_)
    rw [SendCall.enter, if_pos h0]
  since _ _ := by simp [SendCall.enter, SendQueues.empty]
  signaled hq := by simp [SendQueues.Queued, SendQueues.empty] at hq
  pending hq := by simp [SendQueues.Queued, SendQueues.empty] at hq
  settled _ := .inl rfl

/-- A call that fails leaves its requests as they are. -/
theorem toError (h : SignalInv c nic t) : SignalInv c nic (t.goto (.done .error)) :=
  { h with
    nonempty := fun hpc => absurd rfl (hpc .error)
    since := fun hpc => absurd rfl (hpc .error)
    settled := fun hpc => by cases hpc }

/-- The thread moves on; of its signals it forgets at most those that have left. -/
theorem moveOn (h : SignalInv c nic t) (hpc : ∀ ret, t.pc ≠ .done ret)
    (hpc' : ∀ ret, t'.pc ≠ .done ret) (hsince : t'.sinceLastSignal = t.sinceLastSignal)
    (hpend : ∀ {k r q}, nic.Queued (2 + 2 * k) r q → r.signaled = true →
      r.wrId ∈ t'.pendingSignaled) : SignalInv c nic t' where
  nonempty _ := h.nonempty hpc
  since _ hlt := by rw [hsince]; exact h.since hpc hlt
  signaled := h.signaled
  pending := hpend
  settled hd := absurd hd (hpc' _)

theorem goto (h : SignalInv c nic t) (hpc : ∀ ret, t.pc ≠ .done ret) {pc : SendPc}
    (hpc' : ∀ ret, pc ≠ .done ret) : SignalInv c nic (t.goto pc) :=
  h.moveOn hpc hpc' rfl h.pending

/-- A post of another write than a flag. -/
theorem post (h : SignalInv c nic t) (hpc : ∀ ret, t.pc ≠ .done ret) {q : ℕ} {r : WorkRequest}
    (hn : ∀ k, nic.next ≠ 2 + 2 * k) (hpc' : ∀ ret, t'.pc ≠ .done ret)
    (hpend : t'.pendingSignaled = t.pendingSignaled)
    (hsince : t'.sinceLastSignal = t.sinceLastSignal) : SignalInv c (nic.post q r) t' where
  nonempty _ := h.nonempty hpc
  since _ hlt := by
    have hodd : (nic.next - 1 + 1) / 2 = (nic.next - 1) / 2 ∨ nic.next = 0 := by
      have := hn ((nic.next - 2) / 2)
      omega
    rw [SendQueues.post_next] at hlt ⊢
    have heq : (nic.next + 1 - 1) / 2 = (nic.next - 1) / 2 := by omega
    rw [heq] at hlt ⊢
    rw [hsince]
    exact h.since hpc hlt
  signaled {k _ _} hq := by
    obtain hq | ⟨hk, -, -⟩ := SendQueues.queued_post.mp hq
    · exact h.signaled hq
    · exact absurd hk.symm (hn k)
  pending {k _ _} hq hs := by
    rw [hpend]
    obtain hq | ⟨hk, -, -⟩ := SendQueues.queued_post.mp hq
    · exact h.pending hq hs
    · exact absurd hk.symm (hn k)
  settled hd := absurd hd (hpc' _)

/-- The head of the chunk loop returns `SUCCESS` only when no signal is pending. -/
theorem loopHead (h : SignalInv c nic t) (hpc : ∀ ret, t.pc ≠ .done ret)
    (hi : t.currentChunk ≤ c.numSendChunks) (hn : nic.next = 1 + 2 * t.currentChunk) :
    SignalInv c nic (c.loopHead t) := by
  unfold SendCall.loopHead
  split_ifs with h₁ h₂
  · exact h.goto hpc (by simp)
  · exact h.goto hpc (by simp)
  · refine { h with
      nonempty := fun _ => h.nonempty hpc
      since := fun hd => absurd rfl (hd .success)
      settled := fun _ => .inr ⟨h.nonempty hpc, ?_, fun hq hs => ?_⟩ }
    · rw [hn]
      omega
    · have hm := h.pending hq hs
      rw [not_not.mp h₂] at hm
      cases hm

/-- The flag write of the current chunk is posted, and named if it is signaled. -/
theorem postFlag (h : SignalInv c nic t) (hpc : t.pc = .postFlag)
    (hi : t.currentChunk < c.numSendChunks) (hn : nic.next = 2 + 2 * t.currentChunk)
    (id : ℕ) (write : RdmaWrite) (q : ℕ) :
    SignalInv c (nic.post q ⟨write, id, c.signalFlag t⟩) (c.flagPosted t id) := by
  have hlive : ∀ ret, t.pc ≠ .done ret := by simp [hpc]
  have hhalf : (nic.next - 1) / 2 = t.currentChunk := by omega
  have hsig := c.signalFlag_iff hi (by rw [h.since hlive (by omega), hhalf])
  have hpc' : (c.flagPosted t id).pc = .prefillNext := by
    unfold SendCall.flagPosted
    split_ifs
    · rfl
    · rfl
  refine
    { nonempty := fun _ => h.nonempty hlive
      since := fun _ hlt => ?_
      signaled := fun {k _ _} hq => ?_
      pending := fun {k _ _} hq hs => ?_
      settled := fun hd => by rw [hpc'] at hd; cases hd }
  · rw [SendQueues.post_next] at hlt ⊢
    have hhalf' : (nic.next + 1 - 1) / 2 = t.currentChunk + 1 := by omega
    rw [hhalf'] at hlt ⊢
    unfold SendCall.flagPosted
    split_ifs with hf
    · -- another chunk follows, so the signal ends an interval
      have hd : c.signalInterval ∣ t.currentChunk + 1 := (hsig.mp hf).resolve_left (by omega)
      exact (Nat.mod_eq_zero_of_dvd hd).symm
    · have hnd : ¬ c.signalInterval ∣ t.currentChunk + 1 := fun hd => hf (hsig.mpr (.inr hd))
      rw [succ_mod_of_not_dvd hnd, ← hhalf, ← h.since hlive (by omega)]
  · obtain hq | ⟨hk, rfl, -⟩ := SendQueues.queued_post.mp hq
    · exact h.signaled hq
    · obtain rfl : k = t.currentChunk := by omega
      exact hsig
  · have hmem : ∀ {x}, x ∈ t.pendingSignaled → x ∈ (c.flagPosted t id).pendingSignaled := by
      intro x hx
      unfold SendCall.flagPosted
      split_ifs
      · exact List.mem_append_left _ hx
      · exact hx
    obtain hq | ⟨hk, rfl, -⟩ := SendQueues.queued_post.mp hq
    · exact hmem (h.pending hq hs)
    · unfold SendCall.flagPosted
      rw [if_pos hs]
      exact List.mem_append_right _ (List.mem_singleton.mpr rfl)

/-- After a wait for all pending signals no signaled flag write is left. -/
theorem waited (h : SignalInv c e.nic t) (hs : SenderInv c e.nic words t granted m)
    (hc : e.AllCompleted c.queues t.pendingSignaled) {k q : ℕ} {r : WorkRequest}
    (hq : e.nic.Queued (2 + 2 * k) r q) : r.signaled ≠ true := by
  intro hsig
  have hq' := hs.queue_eq hq
  exact hc _ (h.pending hq hsig) q (hq' ▸ c.queueOf_lt _) _ hq rfl

/-- **One step of `uhm_send`** keeps what is known of its signals. -/
theorem step (h : SignalInv c e.nic t) (hm : SenderInv c e.nic words t granted m) {ok : Bool}
    (hs : c.step ok e t = some (e', t')) : SignalInv c e'.nic t' := by
  have hp := hm.place
  cases hpc : t.pc <;> simp only [SendCall.step, hpc] at hs <;> simp only [hpc, SendPc.At] at hp
  case initState0 | initState1 | initLength | initChunkBytes | prefillFirst | markReadable =>
    cases hs
    exact h.goto (by simp [hpc]) (by simp)
  case postState =>
    split_ifs at hs <;> cases hs
    · exact h.post (by simp [hpc]) (by omega) (by simp) rfl rfl
    · exact h.toError
  case waitState =>
    split_ifs at hs <;> cases hs
    · exact h.loopHead (by simp [hpc]) (by omega) (by omega)
    · exact h.toError
  case spin =>
    cases hs
    split_ifs
    · exact h.goto (by simp [hpc]) (by simp)
    · exact h
  case postData =>
    split_ifs at hs <;> cases hs
    · exact h.post (by simp [hpc]) (by omega) (by simp [Sender.goto]) rfl rfl
    · exact h.toError
  case postFlag =>
    split_ifs at hs <;> cases hs
    · exact h.postFlag hpc hp.1 hp.2.1 _ _ _
    · exact h.toError
  case prefillNext =>
    cases hs
    have hend : SignalInv c e.nic (t.goto .waitPending) := h.goto (by simp [hpc]) (by simp)
    split_ifs
    · exact hend
    · exact hend
  case waitPending =>
    have hnext : e.nic.next = 1 + 2 * (t.currentChunk + 1) := by omega
    have hlive : ∀ ret, t.pc ≠ .done ret := by simp [hpc]
    split_ifs at hs with hfull hok hc <;> cases hs
    · refine loopHead (h.moveOn hlive (by simp) rfl fun hq hsig => ?_) (by simp) hp.1 hnext
      exact absurd hsig (h.waited hm hc hq)
    · exact h.toError
    · exact loopHead (h.moveOn hlive (by simp) rfl h.pending) (by simp) hp.1 hnext
  case finalWait =>
    split_ifs at hs with hok hc <;> cases hs
    · exact
        { nonempty := fun hd => absurd rfl (hd .success)
          since := fun hd => absurd rfl (hd .success)
          signaled := h.signaled
          pending := h.pending
          settled := fun _ => .inr ⟨h.nonempty (by simp [hpc]), by omega, h.waited hm hc⟩ }
    · exact h.toError
  case done => cases hs

/-- The card only takes requests away. -/
theorem pop (h : SignalInv c nic t) (hord : nic.Ordered) {n q : ℕ} {r : WorkRequest}
    (hp : nic.pop q = some ((n, r), nic')) : SignalInv c nic' t := by
  obtain ⟨-, hnext, hqueued, -⟩ := hord.pop_spec hp
  exact
    { nonempty := h.nonempty
      since := by rw [hnext]; exact h.since
      signaled := fun hq => h.signaled ((hqueued _ _ _).mp hq).1
      pending := fun hq => h.pending ((hqueued _ _ _).mp hq).1
      settled := fun hd => (h.settled hd).imp (by rw [hnext]; exact id) fun ⟨hpos, hn, hall⟩ =>
        ⟨hpos, by rw [hnext]; exact hn, fun hq => hall ((hqueued _ _ _).mp hq).1⟩ }

end SignalInv

/-! ### A whole transfer -/

/-- The last chunk but one is signaled or shares its queue with the last chunk, or is not
there. -/
def SendCall.Covered (c : SendCall) : Prop :=
  c.numQps ≤ 1 ∨ c.numSendChunks ≤ 1 ∨ c.signalInterval ∣ c.numSendChunks - 1

instance (c : SendCall) : Decidable c.Covered :=
  inferInstanceAs (Decidable (_ ∨ _ ∨ _))

variable {T : Transfer} {w w' : World}

/-- **One step** keeps the signals that `uhm_send` counts on. -/
theorem signalInv_step (h : SignalInv T.send w.snd.nic w.sender) (ho : OrderInv T w) {a : Act}
    (hs : T.step w a = some w') : SignalInv T.send w'.snd.nic w'.sender := by
  obtain ⟨m, hm⟩ := ho.sender
  cases a with
  | send ok =>
    obtain ⟨⟨e, t⟩, hst, rfl⟩ := Option.map_eq_some_iff.mp hs
    exact h.step hm hst
  | recv ok =>
    obtain ⟨⟨e, t⟩, hst, rfl⟩ := Option.map_eq_some_iff.mp hs
    exact h
  | nicSend q =>
    obtain ⟨⟨⟨n, r⟩, nic⟩, hp, rfl⟩ := Option.map_eq_some_iff.mp hs
    exact h.pop hm.ordered hp
  | nicRecv q =>
    obtain ⟨⟨⟨n, r⟩, nic⟩, hp, rfl⟩ := Option.map_eq_some_iff.mp hs
    rw [execWrite_nic]
    exact h

/-- The signals are there in every run. -/
theorem signalInv_reach {ok : World → Act → Prop} {w₀ : World} (h₀ : T.Initial w₀)
    (hr : Reach T.step ok w₀ w) : SignalInv T.send w.snd.nic w.sender := by
  refine hr.invariant (I := fun w => SignalInv T.send w.snd.nic w.sender) ?_ ?_
  · rw [h₀.snd_nic, h₀.sender]
    exact .initial
  · intro s a t hr' h _ hs
    exact signalInv_step h (.reach h₀ hr') hs

/-- Every flag write has executed when a covered `uhm_send` returns `SUCCESS`. -/
theorem flag_executed (h : SignalInv T.send w.snd.nic w.sender) (ho : OrderInv T w)
    (hcov : T.send.Covered) (hn : w.snd.nic.next = 1 + 2 * T.send.numSendChunks)
    (hall : ∀ {k r q}, w.snd.nic.Queued (2 + 2 * k) r q → r.signaled ≠ true) {k : ℕ}
    (hk : k < T.send.numSendChunks) : w.snd.nic.Executed (2 + 2 * k) := by
  obtain ⟨m, hm⟩ := ho.sender
  have hsig : ∀ {k}, k < T.send.numSendChunks →
      signalAt T.send.signalInterval T.send.numSendChunks k →
      w.snd.nic.Executed (2 + 2 * k) := fun hk hs => by
    refine (SendQueues.executed_or_pending (by omega)).resolve_right ?_
    rintro ⟨r, q, hq⟩
    exact hall hq ((h.signaled hq).mpr hs)
  obtain hk2 | hk2 := Nat.lt_or_ge (k + 2) T.send.numSendChunks
  · -- the half was used again, so the chunk has been written back
    exact ho.flagged_of_granted (hm.data_granted k (by omega)).1
  · obtain hk2 | hk2 := Nat.eq_or_lt_of_le hk2
    · obtain hq | hone | hd := hcov
      · refine hm.fifo.executed (j := 2 + 2 * (k + 1)) (Nat.zero_le _) (by omega) ?_
          (hsig (by omega) (.inl hk2.symm))
        have hqs : T.send.queues = 1 := by
          rw [SendCall.queues]
          omega
        simp only [SendCall.queueOf_flag, SendCall.qpIdx, hqs, Nat.mod_one]
      · omega
      · rw [hk2] at hd
        exact hsig hk (.inr hd)
    · exact hsig hk (.inl (by omega))

/-- A `uhm_send` that returns `SUCCESS` and is covered has executed all its writes. -/
theorem sender_executed {ok : World → Act → Prop} {w₀ : World} (h₀ : T.Initial w₀)
    (hcov : T.send.Covered) (hr : Reach T.step ok w₀ w) (hpc : w.sender.pc = .done .success)
    {n : ℕ} (hn : n < w.snd.nic.next) : w.snd.nic.Executed n := by
  have ho : OrderInv T w := .reach h₀ hr
  have h := signalInv_reach h₀ hr
  obtain ⟨m, hm⟩ := ho.sender
  obtain h0 | ⟨hpos, hnext, hall⟩ := h.settled hpc
  · omega
  · obtain rfl | ⟨k, rfl⟩ | ⟨k, rfl⟩ := SendCall.post_cases n
    · exact hm.booted (.inl (by omega))
    · exact hm.flag_data (flag_executed h ho hcov hnext hall (by omega))
    · exact flag_executed h ho hcov hnext hall (by omega)

/-! ### The claim -/

/-- Two bytes in two chunks over `numQps` queue pairs, with the default interval. -/
def pairPipeline (numQps : ℕ) : Rdma.PipelineCall :=
  Rdma.writeDataPipeline ⟨2, 2, numQps, 128⟩ 0 0 2 1 0 none none none

/-- An endpoint just after it was made. -/
def newEndpoint : Rdma.Endpoint := ⟨⟨1, 0⟩, .empty, []⟩

theorem newEndpoint_freshIds : (pairPipeline 1).FreshIds newEndpoint where
  ne_zero := by decide
  injective := by decide
  unrecorded := by decide
  unqueued _ _ _ _ _ hq := by simp [newEndpoint, SendQueues.Queued, SendQueues.empty] at hq

theorem pairPipeline_covered : (pairPipeline 1).Covered newEndpoint := by
  intro i hi
  exact ⟨1, by decide, Nat.le_of_lt_succ hi, rfl, .inl (by decide)⟩

end HMC.Uhm
