import HMC.Machine.SlotRing
import HMC.Uhm.Model

/-!
# The sender's side of a transfer

`SenderInv` is the invariant of the sender's queues, flag words and thread. The set of
write-backs that have arrived is a parameter, so the receiver does not occur here: a step of
`uhm_send` (`SenderInv.step`), an execution by the sender's card (`SenderInv.pop`) and the
arrival of a write-back (`SenderInv.grant`) each keep it.

The posts are numbered: the header write is `0`, the data and flag writes of chunk `k` are
`1 + 2 * k` and `2 + 2 * k`. The receiver's write-back of chunk `k` is `k`.

Where the thread stands says how many writes it has posted and how many chunks it has marked
(`SendPc.At`), so most of the invariant is read off the program counter. What it adds is the account
of the two flag words, which is that of a writer on a ring of two slots
(`HMC.Machine.WriterSlots`): when the thread leaves its spin because the word reads `CAN_WRITE`, the
write-back of the chunk that used the half before has come (`spun_of_word`). Data and flag of a
chunk go to the same queue, so an executed flag tells that the data are there (`flag_data`).
-/

namespace HMC.Uhm

open HMC.Machine

/-! ### What the sender posts -/

namespace SendCall

variable (c : SendCall)

/-- The write with posting number `t`. -/
def writeOf (t : ℕ) : RdmaWrite :=
  if t = 0 then .bufferState
  else if t % 2 = 1 then c.dataWrite ((t - 1) / 2)
  else .flag ((t - 1) / 2 % 2)

/-- The queue of posting number `t`. -/
def queueOf (t : ℕ) : ℕ := if t = 0 then 0 else c.qpIdx ((t - 1) / 2)

@[simp] theorem writeOf_zero : c.writeOf 0 = .bufferState := rfl

@[simp] theorem queueOf_zero : c.queueOf 0 = 0 := rfl

theorem writeOf_data (k : ℕ) : c.writeOf (1 + 2 * k) = c.dataWrite k := by
  rw [writeOf, if_neg (by omega), if_pos (by omega)]
  congr 1
  omega

theorem writeOf_flag (k : ℕ) : c.writeOf (2 + 2 * k) = .flag (k % 2) := by
  rw [writeOf, if_neg (by omega), if_neg (by omega)]
  congr 2
  omega

theorem queueOf_data (k : ℕ) : c.queueOf (1 + 2 * k) = c.qpIdx k := by
  rw [queueOf, if_neg (by omega)]
  congr 1
  omega

theorem queueOf_flag (k : ℕ) : c.queueOf (2 + 2 * k) = c.qpIdx k := by
  rw [queueOf, if_neg (by omega)]
  congr 1
  omega

/-- Posting numbers by kind: the header, a data write or a flag write. -/
theorem post_cases (n : ℕ) : n = 0 ∨ (∃ k, n = 1 + 2 * k) ∨ ∃ k, n = 2 + 2 * k := by
  obtain _ | n := n
  · exact .inl rfl
  · obtain h | h := Nat.mod_two_eq_zero_or_one n
    · exact .inr (.inl ⟨n / 2, by omega⟩)
    · exact .inr (.inr ⟨n / 2, by omega⟩)

theorem queues_pos : 0 < c.queues := by
  rw [queues]
  omega

theorem queueOf_lt (t : ℕ) : c.queueOf t < c.queues := by
  rw [queueOf]
  split
  · exact c.queues_pos
  · exact Nat.mod_lt _ c.queues_pos

theorem chunkSize_pos : 0 < c.chunkSize := by
  rw [chunkSize]
  omega

theorem chunkSize_lt : c.chunkSize < 2 ^ 32 := by
  have henv : envU32OrDefault c.uhmChunk (wrap32 c.halfBufferSize) < 2 ^ 32 :=
    envU32OrDefault_lt (wrap32_lt _)
  rw [chunkSize]
  omega

theorem chunkSize_le_half (h : 0 < c.halfBufferSize) : c.chunkSize ≤ c.halfBufferSize := by
  rw [chunkSize]
  omega

/-- The three ways on from the head of the chunk loop. -/
theorem loopHead_cases (t : Sender) :
    (c.loopHead t = t.goto .spin ∧ t.currentChunk < c.numSendChunks) ∨
      (c.loopHead t = t.goto .finalWait ∧ ¬ t.currentChunk < c.numSendChunks) ∨
      c.loopHead t = t.goto (.done .success) := by
  unfold loopHead
  split_ifs with h₁ h₂
  · exact .inl ⟨rfl, h₁⟩
  · exact .inr (.inl ⟨rfl, h₁⟩)
  · exact .inr (.inr rfl)

/-- A step of the thread posts at most, and executes nothing. -/
theorem executed_step {c : SendCall} {ok : Bool} {e e' : Endpoint} {t t' : Sender}
    (hs : c.step ok e t = some (e', t')) (n : ℕ) : e'.nic.Executed n ↔ e.nic.Executed n := by
  cases hpc : t.pc <;> simp only [step, hpc] at hs <;> try split_ifs at hs
  all_goals cases hs
  all_goals try rfl
  all_goals exact SendQueues.executed_post

end SendCall

/-! ### The sender's side -/

/-- Where the thread of `uhm_send` stands: `n` chunks in all, at chunk `i`, with `next` writes
posted and `m` chunks marked readable in its own words. -/
def SendPc.At (n i next m : ℕ) : SendPc → Prop
  | .initState0 | .initState1 | .initLength | .initChunkBytes | .postState =>
    i = 0 ∧ next = 0 ∧ m = 0
  | .prefillFirst | .waitState => i = 0 ∧ next = 1 ∧ m = 0
  | .spin | .postData => i < n ∧ next = 1 + 2 * i ∧ m = i
  | .markReadable => i < n ∧ next = 2 + 2 * i ∧ m = i
  | .postFlag => i < n ∧ next = 2 + 2 * i ∧ m = i + 1
  | .prefillNext | .waitPending => i < n ∧ next = 3 + 2 * i ∧ m = i + 1
  | .finalWait => i = n ∧ next = 1 + 2 * i ∧ m = i
  | .done _ => True

/-- A call starts, or returns at once. -/
theorem SendCall.enter_pc (c : SendCall) :
    c.enter.pc = .initState0 ∨ ∃ ret, c.enter.pc = .done ret := by
  unfold enter
  dsimp only
  split_ifs <;> simp

/-- The locations at which both flag words have been initialised. -/
def SendPc.initialised : SendPc → Bool
  | .initState0 | .initState1 | .done _ => false
  | _ => true

/-- The locations inside the chunk loop. -/
def SendPc.inLoop : SendPc → Bool
  | .spin | .postData | .markReadable | .postFlag | .prefillNext | .waitPending => true
  | _ => false

/-- The sender's side of a transfer, with `m` chunks marked readable; `granted k` says that
the write-back of chunk `k` has executed here. -/
structure SenderInv (c : SendCall) (nic : SendQueues WorkRequest) (words : ℕ → ℕ)
    (t : Sender) (granted : ℕ → Prop) (m : ℕ) : Prop where
  place : t.pc.At c.numSendChunks t.currentChunk nic.next m
  fifo : nic.Fifo 0 c.queueOf
  queued : ∀ {n r q}, nic.Queued n r q → r.write = c.writeOf n
  wait_state : t.pc = .prefillFirst ∨ t.pc = .waitState →
    ∀ {r q}, nic.Queued 0 r q → r.wrId = t.stateWrId
  booted : 2 ≤ nic.next ∨ t.pc.inLoop = true → nic.Executed 0
  word_zero : t.pc = .initState1 → words 0 = canWrite
  slots : 0 < nic.next ∨ t.pc.initialised = true →
    WriterSlots 2 canWrite canRead m words granted
  marked : ∀ k, 2 + 2 * k < nic.next → k < m
  mark_posted : 2 * m ≤ nic.next
  grant_posted : ∀ k, granted k → 2 + 2 * k < nic.next
  data_granted : ∀ k, 1 + 2 * (k + 2) < nic.next → granted k
  spun : t.pc = .postData → ∀ k, m = k + 2 → granted k

namespace SenderInv

variable {c : SendCall} {nic nic' : SendQueues WorkRequest} {words : ℕ → ℕ} {t : Sender}
  {granted : ℕ → Prop} {m : ℕ} {e : Endpoint}

/-- A call that is about to start, with nothing posted. -/
theorem enter (c : SendCall) (words : ℕ → ℕ) (hg : ∀ k, ¬ granted k) :
    SenderInv c .empty words c.enter granted 0 := by
  have hpc := c.enter_pc
  have hnq : ∀ {n r q}, ¬ (SendQueues.empty : SendQueues WorkRequest).Queued n r q := by
    simp [SendQueues.Queued, SendQueues.empty]
  exact
    { place := by
        rcases hpc with hpc | ⟨ret, hpc⟩ <;> rw [hpc]
        · exact ⟨rfl, rfl, rfl⟩
        · trivial
      fifo := .start SendQueues.ordered_empty rfl
      queued := fun hq => absurd hq hnq
      wait_state := fun _ _ _ hq => absurd hq hnq
      booted := by
        rcases hpc with hpc | ⟨ret, hpc⟩ <;> simp [hpc, SendPc.inLoop, SendQueues.empty]
      word_zero := by rcases hpc with hpc | ⟨ret, hpc⟩ <;> simp [hpc]
      slots := by
        rcases hpc with hpc | ⟨ret, hpc⟩ <;> simp [hpc, SendPc.initialised, SendQueues.empty]
      marked := fun k hk => absurd hk (Nat.not_lt_zero _)
      mark_posted := Nat.le_refl _
      grant_posted := fun k hk => absurd hk (hg k)
      data_granted := fun k hk => absurd hk (Nat.not_lt_zero _)
      spun := by rcases hpc with hpc | ⟨ret, hpc⟩ <;> simp [hpc] }

theorem ordered (h : SenderInv c nic words t granted m) : nic.Ordered := h.fifo.ordered

theorem queue_eq (h : SenderInv c nic words t granted m) {n q : ℕ} {r : WorkRequest}
    (hq : nic.Queued n r q) : q = c.queueOf n := h.fifo.queue_eq (Nat.zero_le _) hq

/-- A chunk's flag write leaves after its data write, which waits in the same queue. -/
theorem flag_data (h : SenderInv c nic words t granted m) {k : ℕ}
    (hk : nic.Executed (2 + 2 * k)) : nic.Executed (1 + 2 * k) :=
  h.fifo.executed (Nat.zero_le _) (by omega) (by rw [c.queueOf_data, c.queueOf_flag]) hk

/-- A call that has returned keeps everything that is still in flight. -/
theorem toDone (h : SenderInv c nic words t granted m) (t' : Sender) (ret : Status) :
    SenderInv c nic words (t'.goto (.done ret)) granted m where
  place := trivial
  fifo := h.fifo
  queued := h.queued
  wait_state hpc := by simp [Sender.goto] at hpc
  booted hn := by
    refine h.booted (.inl ?_)
    simpa [Sender.goto, SendPc.inLoop] using hn
  word_zero hpc := by simp [Sender.goto] at hpc
  slots hn := by
    refine h.slots (.inl ?_)
    simpa [Sender.goto, SendPc.initialised] using hn
  marked := h.marked
  mark_posted := h.mark_posted
  grant_posted := h.grant_posted
  data_granted := h.data_granted
  spun hpc := by simp [Sender.goto] at hpc

/-- Behind the handshake, the thread moves on without a store or a post. -/
theorem moveOn (h : SenderInv c nic words t granted m) {t' : Sender}
    (hplace : t'.pc.At c.numSendChunks t'.currentChunk nic.next m)
    (hpc : t'.pc.inLoop = true ∨ t'.pc = .finalWait) (hb : nic.Executed 0)
    (hslots : WriterSlots 2 canWrite canRead m words granted)
    (hspun : t'.pc = .postData → ∀ k, m = k + 2 → granted k) :
    SenderInv c nic words t' granted m :=
  { h with
    place := hplace
    wait_state := by
      intro hw
      rcases hw with hw | hw <;> simp [hw, SendPc.inLoop] at hpc
    booted := fun _ => hb
    word_zero := by
      intro hw
      simp [hw, SendPc.inLoop] at hpc
    slots := fun _ => hslots
    spun := hspun }

/-- The head of the chunk loop: the chunks below the current one are marked and posted. -/
theorem loopHead (h : SenderInv c nic words t granted m) {t' : Sender}
    (hi : t'.currentChunk ≤ c.numSendChunks) (hn : nic.next = 1 + 2 * t'.currentChunk)
    (hm : m = t'.currentChunk) (hb : nic.Executed 0) :
    SenderInv c nic words (c.loopHead t') granted m := by
  have hslots := h.slots (.inl (by omega))
  obtain ⟨heq, hlt⟩ | ⟨heq, hlt⟩ | heq := c.loopHead_cases t'
  · rw [heq]
    exact h.moveOn ⟨hlt, hn, hm⟩ (.inl rfl) hb hslots (by simp [Sender.goto])
  · rw [heq]
    refine h.moveOn ⟨?_, hn, hm⟩ (.inr rfl) hb hslots (by simp [Sender.goto])
    exact Nat.le_antisymm hi (Nat.not_lt.mp hlt)
  · rw [heq]
    exact h.toDone _ _

/-- The handshake stores, before anything is posted. -/
theorem handshake (h : SenderInv c nic words t granted m) (hn : nic.next = 0) {pc : SendPc}
    {words' : ℕ → ℕ} (hi : t.currentChunk = 0) (hm : m = 0)
    (hp : pc = .initState1 ∧ words' 0 = canWrite ∨
      (pc = .initLength ∨ pc = .initChunkBytes ∨ pc = .postState) ∧
        words' 0 = canWrite ∧ words' 1 = canWrite) :
    SenderInv c nic words' (t.goto pc) granted m where
  place := by
    rcases hp with ⟨rfl, -⟩ | ⟨rfl | rfl | rfl, -⟩ <;> exact ⟨hi, hn, hm⟩
  fifo := h.fifo
  queued := h.queued
  wait_state := by
    rcases hp with ⟨rfl, -⟩ | ⟨rfl | rfl | rfl, -⟩ <;> simp [Sender.goto]
  booted := by
    rw [hn]
    rcases hp with ⟨rfl, -⟩ | ⟨rfl | rfl | rfl, -⟩ <;> simp [Sender.goto, SendPc.inLoop]
  word_zero _ := by
    rcases hp with ⟨-, hw⟩ | ⟨-, hw, -⟩ <;> exact hw
  slots hini := by
    obtain ⟨rfl, -⟩ | ⟨-, h0, h1⟩ := hp
    · rw [hn] at hini
      simp [Sender.goto, SendPc.initialised] at hini
    · rw [hm]
      refine .start (fun i hi => ?_) fun k hk => ?_
      · obtain rfl | rfl : i = 0 ∨ i = 1 := by omega
        · exact h0
        · exact h1
      · have := h.grant_posted k hk
        omega
  marked := h.marked
  mark_posted := h.mark_posted
  grant_posted := h.grant_posted
  data_granted := h.data_granted
  spun := by
    rcases hp with ⟨rfl, -⟩ | ⟨rfl | rfl | rfl, -⟩ <;> simp [Sender.goto]

/-- A post of the next write of the transfer keeps what the queues say. -/
theorem queued_post (h : SenderInv c nic words t granted m) {r : WorkRequest} {q : ℕ}
    (hr : r.write = c.writeOf nic.next) {n : ℕ}
    {r' : WorkRequest} {q' : ℕ} (hq' : (nic.post q r).Queued n r' q') :
    r'.write = c.writeOf n := by
  obtain hold | ⟨rfl, rfl, rfl⟩ := SendQueues.queued_post.mp hq'
  · exact h.queued hold
  · exact hr

/-- The header write leaves before the wait for it returns. -/
theorem executed_zero (h : SenderInv c nic words t granted m) (hpc : t.pc = .waitState)
    (hc : ∀ q < c.queues, ∀ r ∈ nic.queue q, r.2.wrId ≠ t.stateWrId) : nic.Executed 0 := by
  have hp := h.place
  simp only [hpc, SendPc.At] at hp
  refine ⟨by omega, ?_⟩
  rintro ⟨r, q, hq⟩
  obtain rfl := h.queue_eq hq
  exact hc _ (c.queueOf_lt 0) _ hq (h.wait_state (.inr hpc) hq)

theorem postState (h : SenderInv c nic words t granted m) (hpc : t.pc = .postState) (id : ℕ) :
    SenderInv c (nic.post 0 ⟨.bufferState, id, true⟩) words
      { t with pc := .prefillFirst, stateWrId := id } granted m := by
  have hp := h.place
  simp only [hpc, SendPc.At] at hp
  obtain ⟨hi, hn, hm⟩ := hp
  exact
    { place := ⟨hi, by rw [SendQueues.post_next]; omega, hm⟩
      fifo := h.fifo.post (by rw [hn]; rfl) _
      queued := h.queued_post (by rw [hn]; rfl)
      wait_state := by
        intro _ r q hq
        obtain hold | ⟨-, rfl, -⟩ := SendQueues.queued_post.mp hq
        · have := h.ordered.lt_next hold
          omega
        · rfl
      booted := by simp [SendPc.inLoop, hn]
      word_zero := by simp
      slots := fun _ => h.slots (.inr (by rw [hpc]; rfl))
      marked := fun k hk => by rw [SendQueues.post_next] at hk; omega
      mark_posted := Nat.le_succ_of_le h.mark_posted
      grant_posted := fun k hk => Nat.lt_succ_of_lt (h.grant_posted k hk)
      data_granted := fun k hk => by rw [SendQueues.post_next] at hk; omega
      spun := by simp }

/-- A spin that sees `CAN_WRITE` follows the write-back of the chunk that used the half. -/
theorem spun_of_word (h : SenderInv c nic words t granted m) (hpc : t.pc = .spin)
    (hw : words (t.currentChunk % 2) = canWrite) {k : ℕ} (hk : m = k + 2) : granted k := by
  have hp := h.place
  simp only [hpc, SendPc.At] at hp
  refine (h.slots (.inr (by rw [hpc]; rfl))).granted_of_free (by omega) canRead_ne_canWrite
    ?_ hk
  rwa [hp.2.2]

theorem spin (h : SenderInv c nic words t granted m) (hpc : t.pc = .spin)
    (hw : words (t.currentChunk % 2) = canWrite) :
    SenderInv c nic words (t.goto .postData) granted m := by
  have hp := h.place
  rw [hpc] at hp
  refine h.moveOn hp (.inl rfl) (h.booted (.inr ?_)) (h.slots (.inr ?_)) ?_
  · rw [hpc]
    rfl
  · rw [hpc]
    rfl
  · intro _ k hk
    exact h.spun_of_word hpc hw hk

theorem postData (h : SenderInv c nic words t granted m) (hpc : t.pc = .postData) (id : ℕ) :
    SenderInv c (nic.post (c.qpIdx t.currentChunk) ⟨c.dataWrite t.currentChunk, id, false⟩)
      words (t.goto .markReadable) granted m := by
  have hp := h.place
  simp only [hpc, SendPc.At] at hp
  obtain ⟨hi, hn, hm⟩ := hp
  exact
    { place := ⟨hi, by rw [SendQueues.post_next, hn]; simp only [Sender.goto]; omega, hm⟩
      fifo := h.fifo.post (by rw [hn, c.queueOf_data]) _
      queued := h.queued_post (by rw [hn, c.writeOf_data])
      wait_state := by simp [Sender.goto]
      booted := fun _ => SendQueues.executed_post.mpr (h.booted (.inr (by rw [hpc]; rfl)))
      word_zero := by simp [Sender.goto]
      slots := fun _ => h.slots (.inr (by rw [hpc]; rfl))
      marked := fun k hk => by
        rw [SendQueues.post_next] at hk
        exact h.marked k (by omega)
      mark_posted := Nat.le_succ_of_le h.mark_posted
      grant_posted := fun k hk => Nat.lt_succ_of_lt (h.grant_posted k hk)
      data_granted := fun k hk => by
        rw [SendQueues.post_next] at hk
        -- the half of the new write was given back before the spin ended
        by_cases hkm : m = k + 2
        · exact h.spun hpc k hkm
        · exact h.data_granted k (by omega)
      spun := by simp [Sender.goto] }

theorem markReadable (h : SenderInv c nic words t granted m) (hpc : t.pc = .markReadable) :
    SenderInv c nic (Function.update words (t.currentChunk % 2) canRead) (t.goto .postFlag)
      granted (m + 1) := by
  have hp := h.place
  simp only [hpc, SendPc.At] at hp
  obtain ⟨hi, hn, hm⟩ := hp
  -- the data write of this chunk is posted, so the last user of the half was written back
  have hg : ∀ k, m = k + 2 → granted k := fun k hk => h.data_granted k (by omega)
  have hslots := (h.slots (.inr (by rw [hpc]; rfl))).mark hg
  rw [hm] at hslots
  exact
    { h with
      place := ⟨hi, hn, by rw [hm]; rfl⟩
      wait_state := by simp [Sender.goto]
      booted := fun _ => h.booted (.inr (by rw [hpc]; rfl))
      word_zero := by simp [Sender.goto]
      slots := fun _ => by rwa [hm]
      marked := fun k hk => Nat.lt_succ_of_lt (h.marked k hk)
      mark_posted := by omega
      spun := by simp [Sender.goto] }

theorem postFlag (h : SenderInv c nic words t granted m) (hpc : t.pc = .postFlag) (id : ℕ)
    (signaled : Bool) {t' : Sender} (ht' : t'.pc = .prefillNext)
    (hi' : t'.currentChunk = t.currentChunk) :
    SenderInv c
      (nic.post (c.qpIdx t.currentChunk) ⟨.flag (t.currentChunk % 2), id, signaled⟩)
      words t' granted m := by
  have hp := h.place
  simp only [hpc, SendPc.At] at hp
  obtain ⟨hi, hn, hm⟩ := hp
  exact
    { place := by
        rw [ht', hi']
        exact ⟨hi, by rw [SendQueues.post_next, hn]; omega, hm⟩
      fifo := h.fifo.post (by rw [hn, c.queueOf_flag]) _
      queued := h.queued_post (by rw [hn, c.writeOf_flag])
      wait_state := by simp [ht']
      booted := fun _ => SendQueues.executed_post.mpr (h.booted (.inr (by rw [hpc]; rfl)))
      word_zero := by simp [ht']
      slots := fun _ => h.slots (.inr (by rw [hpc]; rfl))
      marked := fun k hk => by
        rw [SendQueues.post_next] at hk
        omega
      mark_posted := Nat.le_succ_of_le h.mark_posted
      grant_posted := fun k hk => Nat.lt_succ_of_lt (h.grant_posted k hk)
      data_granted := fun k hk => by
        rw [SendQueues.post_next] at hk
        exact h.data_granted k (by omega)
      spun := by simp [ht'] }

/-- The end of an iteration: on to the next chunk. -/
theorem nextChunk (h : SenderInv c nic words t granted m) (hpc : t.pc = .waitPending)
    (pending : List ℕ) :
    SenderInv c nic words
      (c.loopHead { t with pendingSignaled := pending, currentChunk := t.currentChunk + 1 })
      granted m := by
  have hp := h.place
  simp only [hpc, SendPc.At] at hp
  obtain ⟨hi, hn, hm⟩ := hp
  exact h.loopHead hi (by rw [hn]; simp only; omega) hm (h.booted (.inr (by rw [hpc]; rfl)))

/-- **One step of `uhm_send`** keeps the sender's side. One lemma for each location that stores,
posts or loops; the others move on (`moveOn`) or return (`toDone`). -/
theorem step (h : SenderInv c e.nic e.uhm.state t granted m) {ok : Bool} {e' : Endpoint}
    {t' : Sender} (hs : c.step ok e t = some (e', t')) :
    ∃ m', SenderInv c e'.nic e'.uhm.state t' granted m' := by
  have hp := h.place
  cases hpc : t.pc <;> simp only [SendCall.step, hpc] at hs <;> simp only [hpc, SendPc.At] at hp
  case initState0 =>
    cases hs
    exact ⟨m, h.handshake hp.2.1 hp.1 hp.2.2 (.inl ⟨rfl, by simp⟩)⟩
  case initState1 =>
    cases hs
    exact ⟨m, h.handshake hp.2.1 hp.1 hp.2.2
      (.inr ⟨.inl rfl, by simpa using h.word_zero hpc, by simp⟩)⟩
  case initLength =>
    cases hs
    have hf := (h.slots (.inr (by rw [hpc]; rfl))).word_fresh
    exact ⟨m, h.handshake hp.2.1 hp.1 hp.2.2
      (.inr ⟨.inr (.inl rfl), hf 0 (by omega) (by omega), hf 1 (by omega) (by omega)⟩)⟩
  case initChunkBytes =>
    cases hs
    have hf := (h.slots (.inr (by rw [hpc]; rfl))).word_fresh
    exact ⟨m, h.handshake hp.2.1 hp.1 hp.2.2
      (.inr ⟨.inr (.inr rfl), hf 0 (by omega) (by omega), hf 1 (by omega) (by omega)⟩)⟩
  case postState =>
    split_ifs at hs <;> cases hs
    · exact ⟨m, h.postState hpc _⟩
    · exact ⟨m, h.toDone _ _⟩
  case prefillFirst =>
    cases hs
    exact ⟨m, { h with
      place := hp
      wait_state := fun _ => h.wait_state (.inl hpc)
      booted := by simp [Sender.goto, SendPc.inLoop, hp.2.1]
      word_zero := by simp [Sender.goto]
      slots := fun _ => h.slots (.inr (by rw [hpc]; rfl))
      spun := by simp [Sender.goto] }⟩
  case waitState =>
    split_ifs at hs with hok hc <;> cases hs
    · exact ⟨m, h.loopHead (by omega) (by omega) (by omega) (h.executed_zero hpc hc)⟩
    · exact ⟨m, h.toDone _ _⟩
  case spin =>
    cases hs
    split_ifs with hw
    · exact ⟨m, h.spin hpc hw⟩
    · exact ⟨m, h⟩
  case postData =>
    split_ifs at hs <;> cases hs
    · exact ⟨m, h.postData hpc _⟩
    · exact ⟨m, h.toDone _ _⟩
  case markReadable =>
    cases hs
    exact ⟨m + 1, h.markReadable hpc⟩
  case postFlag =>
    split_ifs at hs <;> cases hs
    · refine ⟨m, h.postFlag hpc _ _ ?_ ?_⟩ <;> unfold SendCall.flagPosted <;> split_ifs <;> rfl
    · exact ⟨m, h.toDone _ _⟩
  case prefillNext =>
    cases hs
    -- staging touches neither the queues nor the words
    have hend : SenderInv c e.nic e.uhm.state (t.goto .waitPending) granted m :=
      h.moveOn hp (.inl rfl) (h.booted (.inr (by rw [hpc]; rfl)))
        (h.slots (.inr (by rw [hpc]; rfl))) (by simp [Sender.goto])
    split_ifs
    · exact ⟨m, hend⟩
    · exact ⟨m, hend⟩
  case waitPending =>
    split_ifs at hs <;> cases hs
    · exact ⟨m, h.nextChunk hpc _⟩
    · exact ⟨m, h.toDone _ _⟩
    · exact ⟨m, h.nextChunk hpc _⟩
  case finalWait =>
    split_ifs at hs <;> cases hs <;> exact ⟨m, h.toDone _ _⟩
  case done => cases hs

/-- The card executes the head of a queue. -/
theorem pop (h : SenderInv c nic words t granted m) {n q : ℕ} {r : WorkRequest}
    (hp : nic.pop q = some ((n, r), nic')) : SenderInv c nic' words t granted m := by
  obtain ⟨hhead, hnext, hqueued, -⟩ := h.ordered.pop_spec hp
  exact
    { h with
      place := by rw [hnext]; exact h.place
      fifo := h.fifo.pop hp
      queued := fun hq => h.queued ((hqueued _ _ _).mp hq).1
      wait_state := fun hpc _ _ hq => h.wait_state hpc ((hqueued _ _ _).mp hq).1
      booted := fun hb => (h.ordered.executed_pop hp).mpr (.inl (h.booted (by rwa [hnext] at hb)))
      slots := by rw [hnext]; exact h.slots
      marked := by rw [hnext]; exact h.marked
      mark_posted := by rw [hnext]; exact h.mark_posted
      grant_posted := by rw [hnext]; exact h.grant_posted
      data_granted := by rw [hnext]; exact h.data_granted }

/-- The write-back of chunk `k` arrives. -/
theorem grant (h : SenderInv c nic words t granted m) {k : ℕ} (hk : 2 + 2 * k < nic.next)
    (hng : ¬ granted k) :
    SenderInv c nic (Function.update words (k % 2) canWrite) t (fun i => granted i ∨ i = k) m :=
  { h with
    word_zero := fun hpc => by
      by_cases he : 0 = k % 2
      · rw [he, Function.update_self]
      · rw [Function.update_of_ne he]
        exact h.word_zero hpc
    slots := fun hn => (h.slots hn).grant (h.marked k hk) hng
    grant_posted := fun i hi => by
      obtain hi | rfl := hi
      · exact h.grant_posted i hi
      · exact hk
    data_granted := fun i hi => .inl (h.data_granted i hi)
    spun := fun hpc i hi => .inl (h.spun hpc i hi) }

end SenderInv

end HMC.Uhm
