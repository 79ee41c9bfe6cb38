import HMC.Uhm.Delivery
import HMC.Uhm.Order

/-!
# Integrity of a transfer

When both calls return `SUCCESS`, does the receiver's memory hold the sender's bytes?

Not in every run, for two reasons. After posting the flag of chunk `i` the sender refills the
half of chunk `i - 1`, whose data write is unsignaled and may still wait in its queue
(`refill_overtakes_data_write`). And a header that lands between the receiver's stores
`length = 0` and `chunk_bytes = 0` loses its chunk size.

`Orderly` is the condition that neither happens in a step, and `intact_of_orderly` says that
every run of orderly steps delivers the string. The invariant behind it, `DataInv`, follows
one chunk: from the input into its half of the sender's buffer, by its data write into the
same half of the receiver's, and from there to the output.

It is proved on top of `OrderInv`, which holds in every run. The order says which writes of a half
have executed, and the condition says what they have read; together they give the bytes in the
half (`landed_data`). The receiver copies a chunk out while its flag has executed and the data
write two chunks later has not, so it finds the bytes of this chunk (`holds_copyOut`). Lengths and
chunk sizes are taken from the header, whose arrival between two stores of the receiver is the
other thing that the condition rules out (`dataAt_header`).
-/

namespace HMC.Uhm

open HMC.Machine

/-- The staging copies succeed. -/
def Transfer.Staged (T : Transfer) (w : World) : Act → Prop
  | .send ok =>
    w.sender.pc = .prefillFirst ∨
      w.sender.pc = .prefillNext ∧ w.sender.currentChunk + 1 < T.send.numSendChunks → ok = true
  | .recv ok => w.receiver.pc = .copyOut → ok = true
  | _ => True

/-- No half is refilled while the data write of the chunk it holds is queued, and the header
does not land between the receiver's stores to `length` and `chunk_bytes` unless the chunk
size is the one the receiver falls back to. -/
def Transfer.Orderly (T : Transfer) (w : World) : Act → Prop
  | .send _ =>
    w.sender.pc = .prefillNext → 1 ≤ w.sender.currentChunk →
      w.sender.currentChunk + 1 < T.send.numSendChunks →
      ∀ q < T.send.queues, ∀ r ∈ w.snd.nic.queue q,
        r.2.write ≠ T.send.dataWrite (w.sender.currentChunk - 1)
  | .nicSend q =>
    ((w.snd.nic.queue q).head?.map fun r => r.2.write) = some .bufferState →
      w.receiver.pc = .initChunkBytes → T.send.chunkSize = T.send.halfBufferSize
  | _ => True

instance (T : Transfer) (w : World) : ∀ a, Decidable (T.Staged w a)
  | .send ok => inferInstanceAs (Decidable (w.sender.pc = .prefillFirst ∨
      w.sender.pc = .prefillNext ∧ w.sender.currentChunk + 1 < T.send.numSendChunks →
        ok = true))
  | .recv ok => inferInstanceAs (Decidable (w.receiver.pc = .copyOut → ok = true))
  | .nicSend _ | .nicRecv _ => inferInstanceAs (Decidable True)

instance (T : Transfer) (w : World) : ∀ a, Decidable (T.Orderly w a)
  | .send _ => inferInstanceAs (Decidable (w.sender.pc = .prefillNext →
      1 ≤ w.sender.currentChunk → w.sender.currentChunk + 1 < T.send.numSendChunks →
        ∀ q < T.send.queues, ∀ r ∈ w.snd.nic.queue q,
          r.2.write ≠ T.send.dataWrite (w.sender.currentChunk - 1)))
  | .nicSend q => inferInstanceAs (Decidable
      (((w.snd.nic.queue q).head?.map fun r => r.2.write) = some .bufferState →
        w.receiver.pc = .initChunkBytes → T.send.chunkSize = T.send.halfBufferSize))
  | .recv _ | .nicRecv _ => inferInstanceAs (Decidable True)

/-- Both calls returned `SUCCESS`, so the string was delivered: its length and its bytes. -/
def Transfer.Intact (T : Transfer) (w : World) : Prop :=
  w.sender.pc = .done .success → w.receiver.pc = .done .success →
    w.receiver.recvFlags = T.send.sendFlags ∧
      ∀ a < T.send.sendFlags, w.receiver.output a = T.send.input a

/-! ### The invariant -/

/-- One chunk's way through the transfer: staged at the sender, landed at the receiver,
delivered. A chunk is in its half at the receiver from its data write to the next one of that
half. -/
structure DataInv (T : Transfer) (w : World) : Prop where
  sender : SenderData T.send w.snd w.sender
  landed : ∀ k, w.snd.nic.Executed (1 + 2 * k) → ¬ w.snd.nic.Executed (1 + 2 * (k + 2)) →
    T.send.Holds w.rcv.bytes k
  receiver : T.recv.DataAt T.send w.rcv.uhm w.receiver

namespace DataInv

variable {T : Transfer} {w w' : World}

theorem initial (h : T.Initial w) : DataInv T w := by
  obtain ⟨output, recvFlags, hr⟩ := h.receiver
  refine ⟨?_, fun k hk => ?_, ?_⟩
  · rw [h.sender]
    exact
      { admitted := fun hn => by
          have hlive := hn.resolve_left (by rw [h.snd_nic]; exact Nat.not_lt_zero _)
          unfold SendCall.enter at hlive
          dsimp only at hlive
          split_ifs at hlive with h₁ h₂ h₃ h₄
          · exact absurd rfl (hlive _)
          · exact absurd rfl (hlive _)
          · exact absurd rfl (hlive _)
          · exact absurd rfl (hlive _)
          · omega
        header_length := by
          unfold SendCall.enter
          dsimp only
          split_ifs <;> simp
        header := by
          rw [h.snd_nic]
          unfold SendCall.enter
          dsimp only
          split_ifs <;> simp [SendQueues.empty]
        pending := fun k hk => by
          rw [h.snd_nic] at hk
          exact absurd hk SendQueues.not_pending_empty
        current := by
          unfold SendCall.enter
          dsimp only
          split_ifs <;> simp
        upcoming := by
          unfold SendCall.enter
          dsimp only
          split_ifs <;> simp }
  · rw [h.snd_nic] at hk
    exact absurd hk.1 (Nat.not_lt_zero _)
  · rw [hr]
    unfold RecvCall.enter RecvCall.DataAt
    dsimp only
    split_ifs <;> trivial

/-- The receiver copies out a chunk that landed and was not overwritten. -/
theorem holds_copyOut (h : DataInv T w) (ho : OrderInv T w) (hpc : w.receiver.pc = .copyOut) :
    T.send.Holds w.rcv.bytes w.receiver.currentChunk := by
  obtain ⟨m, hs⟩ := ho.sender
  obtain ⟨m', hr⟩ := ho.receiver
  have hp := hr.place
  simp only [hpc, RecvPc.At] at hp
  obtain ⟨-, hn, rfl⟩ := hp
  -- the next data write of this half waits for the write-back of this chunk
  refine h.landed _ (hs.flag_data (hr.current (.inl hpc))) fun hx => ?_
  have hg := hs.data_granted _ hx.1
  have := hg.1
  omega

theorem send (hv : T.Valid) (h : DataInv T w) (ho : OrderInv T w) {ok : Bool}
    (hstaged : T.Staged w (.send ok)) (hord : T.Orderly w (.send ok)) {e : Endpoint} {t : Sender}
    (hs : T.send.step ok w.snd w.sender = some (e, t)) :
    DataInv T { w with snd := e, sender := t } := by
  obtain ⟨m, hm⟩ := ho.sender
  have hg : ∀ k, w.rcv.nic.Executed k → w.snd.nic.Executed (1 + 2 * k) := fun k hk =>
    hm.flag_data (ho.flagged_of_granted hk.1)
  refine ⟨h.sender.step hv.send_mem hv.size_lt hm hg hstaged (fun hpc hi hlt hk => ?_) hs, ?_,
    h.receiver⟩
  · obtain ⟨r, q, hq⟩ := hk
    have hwrite := hm.queued hq
    obtain rfl := hm.queue_eq hq
    refine hord hpc hi hlt _ (T.send.queueOf_lt _) _ hq ?_
    rw [hwrite, SendCall.writeOf_data]
  · simpa only [SendCall.executed_step hs] using h.landed

theorem recv (hv : T.Valid) (h : DataInv T w) (ho : OrderInv T w) {ok : Bool}
    (hstaged : T.Staged w (.recv ok)) {e : Endpoint} {t : Receiver}
    (hs : T.recv.step ok w.rcv w.receiver = some (e, t)) :
    DataInv T { w with rcv := e, receiver := t } := by
  obtain ⟨m, hm⟩ := ho.receiver
  have hadm : w.snd.nic.Executed 0 → T.send.sendFlags < 2 ^ 32 ∧ 0 < T.send.halfBufferSize :=
    fun hb => h.sender.admitted (.inl hb.1)
  refine ⟨h.sender, fun k hk hnk => ?_,
    hv.dataAt_step h.receiver hm hadm (h.holds_copyOut ho) hstaged hs⟩
  rw [show e.bytes = w.rcv.bytes from RecvCall.bytes_step hs]
  exact h.landed k hk hnk

/-- The header lands while the receiver still waits for it, or in time to be cleared. -/
theorem dataAt_header (hv : T.Valid) (h : DataInv T w) (ho : OrderInv T w)
    (hp : w.snd.nic.Pending 0) (hord : w.receiver.pc = .initChunkBytes →
      T.send.chunkSize = T.send.halfBufferSize) :
    T.recv.DataAt T.send w.snd.uhm w.receiver := by
  obtain ⟨m, hm⟩ := ho.sender
  obtain ⟨m', hr⟩ := ho.receiver
  have hn : 0 < w.snd.nic.next := hm.ordered.lt_next hp.choose_spec.choose_spec
  obtain ⟨hlength, hchunk⟩ := h.sender.header (.inr hn)
  have hnb : w.receiver.pc.headerSeen ≠ true := fun hpc =>
    (hr.booted (.inr hpc)).not_pending hp
  have hd := h.receiver
  -- past the wait for the header nothing can happen, because the header is still queued
  cases hpc : w.receiver.pc <;>
    simp only [hpc, RecvPc.headerSeen, ne_eq, not_true_eq_false] at hnb <;>
    simp only [RecvCall.DataAt, hpc] at hd ⊢
  case initState0 | initState1 | initLength => exact hd
  case initChunkBytes => exact ⟨hd.1, .inr ⟨hlength, hord hpc⟩⟩
  case readState =>
    refine ⟨hd.1, .inr ⟨hlength, ?_⟩⟩
    rw [hchunk]
    exact hv.chunkSizeOf_chunkSize (h.sender.admitted (.inl hn)).2
  case finalWait => exact hd
  case done ret => cases ret <;> exact hd
  all_goals exact absurd rfl hnb

/-- The data write of chunk `k` lands: it is the last one to write its half. -/
theorem landed_data (h : DataInv T w) (ho : OrderInv T w) {k : ℕ}
    (hp : w.snd.nic.Pending (1 + 2 * k)) {i : ℕ}
    (hi : w.snd.nic.Executed (1 + 2 * i) ∨ i = k)
    (hni : ¬ (w.snd.nic.Executed (1 + 2 * (i + 2)) ∨ i + 2 = k)) :
    T.send.Holds (execWrite (T.send.dataWrite k) w.snd w.rcv).bytes i := by
  obtain ⟨m, hm⟩ := ho.sender
  have hlt : 1 + 2 * k < w.snd.nic.next := hm.ordered.lt_next hp.choose_spec.choose_spec
  obtain ⟨hlen, hhalf⟩ := h.sender.admitted (.inl (by omega))
  have hsize : chunkLen T.send.sendFlags T.send.chunkSize k ≤ T.send.chunkSize := chunkLen_le
  have hexec : ∀ j, 1 + 2 * (j + 2) < w.snd.nic.next → w.snd.nic.Executed (1 + 2 * j) :=
    fun j hj => hm.flag_data (ho.flagged_of_granted (hm.data_granted j hj).1)
  have hwrap : wrap32 (chunkLen T.send.sendFlags T.send.chunkSize k) =
      chunkLen T.send.sendFlags T.send.chunkSize k :=
    wrap32_of_lt (Nat.lt_of_le_of_lt hsize T.send.chunkSize_lt)
  simp only [SendCall.dataWrite, execWrite, hwrap]
  rw [not_or] at hni
  by_cases hik : i = k
  · rw [hik]
    exact SendCall.holds_blit_self (h.sender.pending k hp)
  · -- two data writes of one half are never in flight at once
    have hi' := hi.resolve_right hik
    have hlt_i := hi'.1
    have hpar : i % 2 ≠ k % 2 := by
      intro hpar
      obtain hlt' | hlt' := Nat.lt_or_gt_of_ne hik
      · exact hni.1 (hexec (i + 2) (by omega))
      · exact (hexec k (by omega)).not_pending hp
    exact SendCall.holds_blit_other hhalf hpar hsize (h.landed i hi' hni.1)

/-- The sender's card executes a write. -/
theorem nicSend (hv : T.Valid) (h : DataInv T w) (ho : OrderInv T w) {q n : ℕ}
    {r : WorkRequest} {nic : SendQueues WorkRequest} (hord : T.Orderly w (.nicSend q))
    (hp : w.snd.nic.pop q = some ((n, r), nic)) :
    DataInv T { w with
      snd := { w.snd with nic := nic }, rcv := execWrite r.write w.snd w.rcv } := by
  obtain ⟨m, hm⟩ := ho.sender
  obtain ⟨hhead, hnext, hqueued, -⟩ := hm.ordered.pop_spec hp
  have hwrite := hm.queued hhead
  have hexec : ∀ i, nic.Executed i ↔ w.snd.nic.Executed i ∨ i = n := fun i =>
    hm.ordered.executed_pop hp
  have hsender : SenderData T.send { w.snd with nic := nic } w.sender :=
    { h.sender with
      admitted := by rw [hnext]; exact h.sender.admitted
      header := by rw [hnext]; exact h.sender.header
      pending := fun k hk => h.sender.pending k ((hm.ordered.pending_pop hp).mp hk).1 }
  refine ⟨hsender, ?_, ?_⟩
  · intro i hi hni
    simp only [hexec] at hi hni
    rw [hwrite]
    obtain rfl | ⟨k, rfl⟩ | ⟨k, rfl⟩ := SendCall.post_cases n
    · exact h.landed i (hi.resolve_right (by omega)) fun hx => hni (.inl hx)
    · rw [SendCall.writeOf_data]
      exact h.landed_data ho hhead.pending (hi.imp_right (by omega))
        fun hx => hni (hx.imp_right (by omega))
    · rw [SendCall.writeOf_flag]
      exact h.landed i (hi.resolve_right (by omega)) fun hx => hni (.inl hx)
  · rw [hwrite]
    obtain rfl | ⟨k, rfl⟩ | ⟨k, rfl⟩ := SendCall.post_cases n
    · refine h.dataAt_header hv ho hhead.pending (hord ?_)
      rw [SendQueues.head?_of_pop hp, Option.map_some, hwrite]
      rfl
    · rw [SendCall.writeOf_data]
      exact h.receiver
    · rw [SendCall.writeOf_flag]
      exact h.receiver

/-- The receiver's card executes a write-back, which changes a flag word of the sender. -/
theorem nicRecv (h : DataInv T w) (ho : OrderInv T w) {q n : ℕ} {r : WorkRequest}
    {nic : SendQueues WorkRequest} (hp : w.rcv.nic.pop q = some ((n, r), nic)) :
    DataInv T { w with
      rcv := { w.rcv with nic := nic }, snd := execWrite r.write w.rcv w.snd } := by
  obtain ⟨m, hm⟩ := ho.receiver
  rw [(hm.queued (hm.ordered.pop_spec hp).1).1]
  exact ⟨{ h.sender with }, h.landed, h.receiver⟩

/-- **One step** of a staged and orderly run keeps the data where it belongs. -/
theorem step (hv : T.Valid) (h : DataInv T w) (ho : OrderInv T w) {a : Act}
    (hstaged : T.Staged w a) (hord : T.Orderly w a) (hs : T.step w a = some w') :
    DataInv T w' := by
  cases a with
  | send ok =>
    obtain ⟨⟨e, t⟩, hst, rfl⟩ := Option.map_eq_some_iff.mp hs
    exact h.send hv ho hstaged hord hst
  | recv ok =>
    obtain ⟨⟨e, t⟩, hst, rfl⟩ := Option.map_eq_some_iff.mp hs
    exact h.recv hv ho hstaged hst
  | nicSend q =>
    obtain ⟨⟨⟨n, r⟩, nic⟩, hp, rfl⟩ := Option.map_eq_some_iff.mp hs
    exact h.nicSend hv ho hord hp
  | nicRecv q =>
    obtain ⟨⟨⟨n, r⟩, nic⟩, hp, rfl⟩ := Option.map_eq_some_iff.mp hs
    exact h.nicRecv ho hp

/-- The data is where it belongs in every staged and orderly run. -/
theorem reach (hv : T.Valid) {w₀ : World} (h₀ : T.Initial w₀)
    (hr : Reach T.step (fun w a => T.Staged w a ∧ T.Orderly w a) w₀ w) : DataInv T w :=
  hr.invariant (initial h₀) fun _ _ _ hr' h hok hs =>
    h.step hv (.reach h₀ hr') hok.1 hok.2 hs

end DataInv

/-! ### The claim -/

/-- **Integrity.** In a run of orderly steps, two successful calls have moved the string: the length
that `uhm_recv` reports is that of the input, and its output holds the input's bytes. The run may
delay and reorder the writes of both cards in any way that their queues allow. When `uhm_recv` has
returned `SUCCESS` its locals say that all chunks were delivered, and `DataInv` says of what. -/
theorem intact_of_orderly {T : Transfer} (hv : T.Valid) {w₀ w : World} (h₀ : T.Initial w₀)
    (hr : Reach T.step (fun w a => T.Staged w a ∧ T.Orderly w a) w₀ w) : T.Intact w := by
  intro _ hpc
  have h := (DataInv.reach hv h₀ hr).receiver
  rw [RecvCall.DataAt, hpc] at h
  exact h

/-! ### A refilled half -/

theorem shortTransfer_valid : shortTransfer.Valid :=
  ⟨rfl, by decide, .inl rfl, .inl rfl⟩

theorem intact_of_orderly_promptRun :
    ∃ w, Reach shortTransfer.step
        (fun w a => shortTransfer.Staged w a ∧ shortTransfer.Orderly w a) shortTransfer.start w ∧
      w.sender.pc = .done .success ∧ w.receiver.pc = .done .success ∧
      shortTransfer.Intact w := by
  obtain ⟨w, hr, hs, hd⟩ : ∃ w, Reach shortTransfer.step
      (fun w a => shortTransfer.Staged w a ∧ shortTransfer.Orderly w a) shortTransfer.start w ∧
      (w.sender.pc = .done .success ∧ w.receiver.pc = .done .success) :=
    exists_reach_of_execOk promptRun (by decide +kernel)
  exact ⟨w, hr, hs, hd,
    intact_of_orderly shortTransfer_valid shortTransfer.initial_start hr⟩

/-- The card starts on the data writes only after the sender has gone two chunks ahead. -/
def refillRun : List Act := schedule
  [(4, .recv true), (5, .send true), (1, .nicSend 0), (5, .recv true), (14, .send true),
    (4, .nicSend 0), (5, .recv true), (1, .nicRecv 0), (6, .send true), (2, .nicSend 0),
    (10, .recv true), (2, .nicRecv 0), (1, .recv true), (1, .send true)]

/-- **A refill overtakes a data write.** The receiver gets `3, 2, 3` instead of `1, 2, 3`, and
both calls report success. -/
theorem refill_overtakes_data_write :
    shortTransfer.Valid ∧ shortTransfer.Initial shortTransfer.start ∧
      (1 ≤ shortTransfer.send.sendFlags ∧ shortTransfer.send.sendFlags ≤ 2 ^ 32 - 1 ∧
        2 ≤ shortTransfer.send.buffer.bufferSize ∧
        shortTransfer.send.sendFlags ≤ shortTransfer.recv.bufferSize) ∧
      ∃ w, Reach shortTransfer.step shortTransfer.Staged shortTransfer.start w ∧
        ¬ shortTransfer.Intact w := by
  refine ⟨shortTransfer_valid, shortTransfer.initial_start, by decide, ?_⟩
  obtain ⟨w, hr, hs, hd, hout⟩ : ∃ w,
      Reach shortTransfer.step shortTransfer.Staged shortTransfer.start w ∧
      (w.sender.pc = .done .success ∧ w.receiver.pc = .done .success ∧
        w.receiver.output 0 ≠ shortTransfer.send.input 0) :=
    exists_reach_of_execOk refillRun (by decide +kernel)
  exact ⟨w, hr, fun h => hout ((h hs hd).2 0 (by decide))⟩

end HMC.Uhm
