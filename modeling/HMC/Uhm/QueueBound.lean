import HMC.Uhm.ReceiverQueues

/-!
# When a transfer overfills its send queues

`keepsQueues_iff` puts the two sides together. What a call needs depends on the signal interval, on
`max_pending_signal` and on the number of queue pairs, and the code compares none of it with
`max_wr`. On one queue pair `uhm_send` needs two places for each chunk of a round
(`SendCall.fitsQueue_of_one`), which is 256 with the defaults, and the default queue has 128
(`queue_overfilled`). On an even number of queue pairs, with an even interval, the first one is
never signaled, and what it needs grows with the message (`SendCall.FitsQueue.of_even`).

`FitsQueue` can be evaluated for given arguments. The lemmas here say what it comes to in the cases
that matter: with one queue pair it is one inequality, between the message or a round of it and the
queue; with several it is one for each of them and each round, because a completion frees its own
queue pair only.
-/

namespace HMC.Machine.PostingLoop

variable {L : PostingLoop} {left : ℕ → ℕ} {p q room : ℕ}

/-- A queue on which no interval ends is freed by no wait. -/
theorem Fits.of_unsignaled (h : L.Fits left p room) (hp : 0 < p) (hq : q < L.queues)
    (hnone : ∀ i, i % L.queues = q → ¬ L.interval ∣ i + 1) :
    left q + L.weight * L.onQueue q p ≤ room := by
  have hlast := fits_iff.mp h (p - 1) (by omega) q hq
  have hnil : ∀ b, L.lastSignal q b = none := fun b => by
    rw [lastSignal, List.getLast?_eq_none_iff]
    exact List.eq_nil_iff_forall_not_mem.mpr fun i hi =>
      hnone i (mem_chunksIn.mp hi).2.1 (mem_chunksIn.mp hi).2.2
  rwa [occupied, hnil, Nat.sub_add_cancel hp] at hlast

end HMC.Machine.PostingLoop

namespace HMC.Uhm

open HMC.Machine

namespace SendCall

variable {c : SendCall} {base : ℕ → ℕ} {maxWr : ℕ}

/-- One queue pair has to hold a round of chunks, or the whole message. -/
theorem fitsQueue_of_one (hq : c.numQps ≤ 1) : c.FitsQueue base maxWr ↔ base 0 ≤ maxWr ∧
    (¬ c.Refused → base 0 + 1 ≤ maxWr ∧
      2 * min (c.maxPendingSignal * c.signalInterval) c.numSendChunks ≤ maxWr) := by
  have hone : c.loop.queues = 1 := Nat.max_eq_right hq
  have hbase : (∀ q < c.queues, base q ≤ maxWr) ↔ base 0 ≤ maxWr := by
    rw [show c.queues = 1 from hone]
    simp
  rw [FitsQueue, hbase, PostingLoop.fits_of_one hone]
  refine and_congr_right fun _ => forall_congr' fun _ => and_congr_right fun _ => ?_
  rw [if_pos rfl, Nat.zero_add]
  obtain hzero | hpos := Nat.eq_zero_or_pos c.numSendChunks
  · simp [hzero]
  · exact ⟨fun h => h hpos, fun h _ => h⟩

/-- With an even number of queue pairs and an even interval the first queue pair has to hold all
its chunks. -/
theorem FitsQueue.of_even (h : c.FitsQueue base maxWr) (hrun : ¬ c.Refused) (hq : 2 ∣ c.queues)
    (hd : 2 ∣ c.signalInterval) :
    2 * ((c.numSendChunks + c.queues - 1) / c.queues) ≤ maxWr := by
  obtain hzero | hpos := Nat.eq_zero_or_pos c.numSendChunks
  · rw [hzero, Nat.zero_add, Nat.div_eq_of_lt (by have := c.queues_pos; omega)]
    exact Nat.zero_le _
  · have hfits := (h.2 hrun).2.of_unsignaled hpos c.queues_pos fun i hi hdvd => by
      obtain ⟨m, hm⟩ := Nat.dvd_of_mod_eq_zero hi
      obtain ⟨x, hx⟩ := hq.trans (Dvd.intro m hm.symm)
      obtain ⟨y, hy⟩ := hd.trans hdvd
      omega
    rwa [if_pos rfl, Nat.zero_add] at hfits

end SendCall

namespace RecvCall

variable {c : RecvCall} {length chunkBytes : ℕ} {base : ℕ → ℕ} {maxWr : ℕ}

/-- One queue pair has to hold a round of write-backs, or those of the whole message, beside the
requests of earlier calls. -/
theorem fitsQueue_of_one (hq : c.numQps ≤ 1) : c.FitsQueue length chunkBytes base maxWr ↔
    base 0 ≤ maxWr ∧ (¬ c.Refused → base 0 +
      min (c.maxPendingSignal * c.signalInterval) (c.postable length chunkBytes) ≤ maxWr) := by
  have hone : (c.loop length chunkBytes).queues = 1 := Nat.max_eq_right hq
  have hbase : (∀ q < c.queues, base q ≤ maxWr) ↔ base 0 ≤ maxWr := by
    rw [show c.queues = 1 from hone]
    simp
  rw [FitsQueue, hbase, PostingLoop.fits_of_one hone]
  refine and_congr_right fun hroom => forall_congr' fun _ => ?_
  show (0 < _ → base 0 + 1 * min (c.maxPendingSignal * c.signalInterval) _ ≤ maxWr) ↔ _
  rw [Nat.one_mul]
  obtain hzero | hpos := Nat.eq_zero_or_pos (c.postable length chunkBytes)
  · simp [hzero, hroom]
  · exact ⟨fun h => h hpos, fun h _ => h⟩

end RecvCall

/-! ### The claim -/

/-- **When a transfer keeps its send queues.** With `base q` unretired requests of earlier calls on
queue pair `q`, no queue pair ever holds more than `max_wr` requests in `uhm_send`, or in a
`uhm_recv` that takes the given header, exactly when the call fits. What is unretired on a queue
pair depends on its posts and on the last of its signals that was waited for. Both calls are loops
of the kind of `PostingLoop`, and a run with a willing peer comes to the fullest state of each. -/
theorem keepsQueues_iff (e : Endpoint) (base : ℕ → ℕ) (maxWr : ℕ) :
    (∀ c : SendCall, c.KeepsQueue e base maxWr ↔ c.FitsQueue base maxWr) ∧
    ∀ (c : RecvCall) (output : Bytes) (recvFlags : ℕ), ∀ length < 2 ^ 32, ∀ chunkBytes < 2 ^ 32,
      (c.KeepsQueue length chunkBytes e output recvFlags base maxWr ↔
        c.FitsQueue length chunkBytes base maxWr) :=
  ⟨fun _ => SendCall.keepsQueue_iff,
    fun _ _ _ _ hlength _ hchunk => RecvCall.keepsQueue_iff hlength hchunk⟩

/-- A message of `n` chunks of one byte, with the defaults for everything else. -/
def byteChunks (n : ℕ) : SendCall :=
  { shortTransfer.send with uhmChunk := some 1, sendFlags := n }

theorem keepsQueues_iff_byteChunks :
    (byteChunks 64).KeepsQueue .fresh (fun _ => 0) 128 ∧
      shortTransfer.recv.KeepsQueue 3 1 .fresh (fun _ => 0) 0 (fun _ => 0) 16 := by
  constructor
  · exact ((keepsQueues_iff _ _ _).1 _).mpr (by decide +kernel)
  · exact ((keepsQueues_iff _ _ _).2 _ _ _ 3 (by decide) 1 (by decide)).mpr (by decide +kernel)

/-- The first 64 chunks of a message, and the data write of the next one. -/
def byteChunksRun : List SideAct :=
  List.replicate 6 (.run true) ++ .nic 0 :: .run true ::
    (List.replicate 64 (.peer (fun _ => 0) ⟨fun _ => canWrite, 0, 0⟩ ::
      List.replicate 6 (.run true))).flatten ++
    [.peer (fun _ => 0) ⟨fun _ => canWrite, 0, 0⟩, .run true, .run true]

/-- **The queue is overfilled.** With the defaults and one queue pair, the first wait comes after
128 chunks, and 65 chunks are too many for a queue of 128 requests. -/
theorem queue_overfilled : ∃ w,
    Reach (byteChunks 65).queued (onState Free) ⟨⟨.fresh, (byteChunks 65).enter⟩, []⟩ w ∧
      unretired 0 0 w.log = 129 ∧ ¬ (byteChunks 65).KeepsQueue .fresh (fun _ => 0) 128 := by
  obtain ⟨w, hr, hout⟩ : ∃ w,
      Reach (byteChunks 65).queued Free ⟨⟨.fresh, (byteChunks 65).enter⟩, []⟩ w ∧
        unretired 0 0 w.log = 129 :=
    exists_reach_of_exec byteChunksRun (by decide +kernel)
  have hr : Reach (byteChunks 65).queued (onState Free) ⟨⟨.fresh, (byteChunks 65).enter⟩, []⟩ w :=
    hr.mono fun _ _ _ => trivial
  refine ⟨w, hr, hout, fun h => ?_⟩
  have hle : unretired 0 0 w.log ≤ 128 := h w hr 0 (by decide)
  omega

/-- Two queue pairs do not help: the first one is never signaled. -/
example : ¬ SendCall.FitsQueue { byteChunks 130 with numQps := 2, uhmPendingSignal := some 1 }
    (fun _ => 0) 128 := fun h => by
  have := h.of_even (by decide) (by decide) (by decide)
  revert this
  decide

end HMC.Uhm
