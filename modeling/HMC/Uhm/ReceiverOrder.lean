import HMC.Machine.SlotRing
import HMC.Uhm.Model

/-!
# The receiver's side of a transfer

`ReceiverInv` is the invariant of the receiver's queues, flag words and thread. Whether the
header write has arrived, and which flag writes have, are parameters. A step of `uhm_recv`
(`ReceiverInv.step`), an execution by the receiver's card (`ReceiverInv.pop`) and the arrival
of a write of the sender (`ReceiverInv.header`, `ReceiverInv.flag`) each keep it.

`uhm_recv` stores to the words that the peer writes, on entry and once more after the header, and
nothing orders these stores with the arrival of the peer's writes. So the invariant says less than
one would like: a word that reads `CAN_READ` inside the loop tells that the flag of the chunk has
come (`flagged_of_word`), because the thread's own last store there was `CAN_WRITE`; but a flag that
has come need not be seen. That is enough for the order of events and for the data. Whether the
thread ever goes on is the subject of `HMC.Uhm.Progress`.
-/

namespace HMC.Uhm

open HMC.Machine

theorem RecvCall.qpIdx_lt (c : RecvCall) (chunk : ℕ) : c.qpIdx chunk < c.queues :=
  Nat.mod_lt _ (by rw [queues]; omega)

/-- A step of the thread posts at most, and executes nothing. -/
theorem RecvCall.executed_step {c : RecvCall} {ok : Bool} {e e' : Endpoint} {t t' : Receiver}
    (hs : c.step ok e t = some (e', t')) (n : ℕ) : e'.nic.Executed n ↔ e.nic.Executed n := by
  cases hpc : t.pc <;> simp only [step, hpc] at hs <;> try split_ifs at hs
  all_goals cases hs
  all_goals try rfl
  exact SendQueues.executed_post

/-- A step of the thread leaves the connection buffer alone. -/
theorem RecvCall.bytes_step {c : RecvCall} {ok : Bool} {e e' : Endpoint} {t t' : Receiver}
    (hs : c.step ok e t = some (e', t')) : e'.bytes = e.bytes := by
  cases hpc : t.pc <;> simp only [step, hpc] at hs <;> try split_ifs at hs
  all_goals cases hs
  all_goals rfl

/-- Where the thread of `uhm_recv` stands: `n` chunks in all, at chunk `i`, with `next`
write-backs posted and `m` chunks marked writable in its own words. -/
def RecvPc.At (n i next m : ℕ) : RecvPc → Prop
  | .spin | .copyOut | .markWritable => i < n ∧ next = i ∧ m = i
  | .postFlag => i < n ∧ next = i ∧ m = i + 1
  | .waitPending => i < n ∧ next = i + 1 ∧ m = i + 1
  | .finalWait | .done .success => i = n ∧ next = i ∧ m = i
  | .done _ => True
  | _ => i = 0 ∧ next = 0 ∧ m = 0

/-- The locations from the first `CAN_READ` store up to the wait for the header. -/
def RecvPc.waiting : RecvPc → Bool
  | .initState1 | .initLength | .initChunkBytes | .readState => true
  | _ => false

/-- The locations inside the chunk loop. -/
def RecvPc.inLoop : RecvPc → Bool
  | .spin | .copyOut | .markWritable | .postFlag | .waitPending => true
  | _ => false

theorem RecvPc.not_waiting_of_inLoop {pc : RecvPc} (h : pc.inLoop = true) :
    pc.waiting ≠ true := by
  cases pc <;> first | exact Bool.false_ne_true | cases h

/-- The locations past the wait for the header. -/
def RecvPc.headerSeen : RecvPc → Bool
  | .readLength | .readChunkBytes | .storeState0 | .storeState1 => true
  | pc => pc.inLoop

/-- The receiver's side of a transfer, with `m` chunks marked writable; `booted` says that
the header write has executed here, and `flagged k` that the flag write of chunk `k` has. -/
structure ReceiverInv (c : RecvCall) (nic : SendQueues WorkRequest) (words : ℕ → ℕ)
    (t : Receiver) (booted : Prop) (flagged : ℕ → Prop) (m : ℕ) : Prop where
  place : t.pc.At t.numRecvChunks t.currentChunk nic.next m
  ordered : nic.Ordered
  queued : ∀ {k r q}, nic.Queued k r q → r.write = .flag (k % 2) ∧ q = c.qpIdx k
  posted_le : nic.next ≤ m
  unseen : t.pc.waiting = true → ¬ booted → words 0 = canRead
  booted : 0 < nic.next ∨ t.pc.headerSeen = true → booted
  current : t.pc = .copyOut ∨ t.pc = .markWritable → flagged m
  second : t.pc = .storeState1 → ¬ flagged 0 → words 0 = canWrite
  slots : 0 < nic.next ∨ t.pc.inLoop = true → ReaderSlots 2 canWrite m words flagged

namespace ReceiverInv

variable {c : RecvCall} {nic nic' : SendQueues WorkRequest} {words : ℕ → ℕ} {t : Receiver}
  {booted : Prop} {flagged : ℕ → Prop} {m : ℕ} {e : Endpoint}

/-- A call that is about to start, with nothing posted. -/
theorem enter (c : RecvCall) (output : Bytes) (recvFlags : ℕ) (words : ℕ → ℕ) (booted : Prop)
    (flagged : ℕ → Prop) :
    ReceiverInv c .empty words (c.enter output recvFlags) booted flagged 0 := by
  have hpc : (c.enter output recvFlags).pc = .initState0 ∨
      (c.enter output recvFlags).pc = .done .error := by
    unfold RecvCall.enter
    dsimp only
    split_ifs <;> simp
  have hnq : ∀ {n r q}, ¬ (SendQueues.empty : SendQueues WorkRequest).Queued n r q := by
    simp [SendQueues.Queued, SendQueues.empty]
  exact
    { place := by
        rcases hpc with hpc | hpc <;> rw [hpc]
        · exact ⟨rfl, rfl, rfl⟩
        · trivial
      ordered := SendQueues.ordered_empty
      queued := fun hq => absurd hq hnq
      posted_le := Nat.le_refl _
      unseen := by rcases hpc with hpc | hpc <;> simp [hpc, RecvPc.waiting]
      booted := by
        rcases hpc with hpc | hpc <;>
          simp [hpc, RecvPc.headerSeen, RecvPc.inLoop, SendQueues.empty]
      current := by rcases hpc with hpc | hpc <;> simp [hpc]
      second := by rcases hpc with hpc | hpc <;> simp [hpc]
      slots := by
        rcases hpc with hpc | hpc <;> simp [hpc, RecvPc.inLoop, SendQueues.empty] }

/-- A call that has returned keeps everything that is still in flight. -/
theorem toDone (h : ReceiverInv c nic words t booted flagged m) {t' : Receiver} {ret : Status}
    (ht' : t'.pc = .done ret) (hp : t'.pc.At t'.numRecvChunks t'.currentChunk nic.next m) :
    ReceiverInv c nic words t' booted flagged m where
  place := hp
  ordered := h.ordered
  queued := h.queued
  posted_le := h.posted_le
  unseen hpc := by simp [ht', RecvPc.waiting] at hpc
  booted hn := h.booted (.inl (by simpa [ht', RecvPc.headerSeen, RecvPc.inLoop] using hn))
  current hpc := by simp [ht'] at hpc
  second hpc := by simp [ht'] at hpc
  slots hn := h.slots (.inl (by simpa [ht', RecvPc.inLoop] using hn))

theorem toFailed (h : ReceiverInv c nic words t booted flagged m) {t' : Receiver}
    (ht' : t'.pc = .done .error) : ReceiverInv c nic words t' booted flagged m := by
  refine h.toDone ht' ?_
  rw [ht']
  trivial

/-- The head of the chunk loop: the chunks below the current one are marked and granted. -/
theorem loopHead (h : ReceiverInv c nic words t booted flagged m) {t' : Receiver}
    (hi : t'.currentChunk ≤ t'.numRecvChunks) (hn : nic.next = t'.currentChunk)
    (hm : m = t'.currentChunk) (hb : booted) {words' : ℕ → ℕ}
    (hs : ReaderSlots 2 canWrite m words' flagged) :
    ReceiverInv c nic words' t'.loopHead booted flagged m := by
  have hkeep : ∀ pc : RecvPc, pc.At t'.numRecvChunks t'.currentChunk nic.next m →
      pc ∈ [.spin, .finalWait, .done .success] →
      ReceiverInv c nic words' (t'.goto pc) booted flagged m := by
    intro pc hpc hmem
    simp only [List.mem_cons, List.not_mem_nil, or_false] at hmem
    exact
      { place := hpc
        ordered := h.ordered
        queued := h.queued
        posted_le := h.posted_le
        unseen := fun _ hnb => absurd hb hnb
        booted := fun _ => hb
        current := by rcases hmem with rfl | rfl | rfl <;> simp [Receiver.goto]
        second := by rcases hmem with rfl | rfl | rfl <;> simp [Receiver.goto]
        slots := fun _ => hs }
  unfold Receiver.loopHead
  split_ifs with hlt
  · exact hkeep _ ⟨hlt, hn, hm⟩ (by simp)
  · exact hkeep _ ⟨by omega, hn, hm⟩ (by simp)
  · exact hkeep _ ⟨by omega, hn, hm⟩ (by simp)

/-- The handshake steps, before anything is posted. -/
theorem handshake (h : ReceiverInv c nic words t booted flagged m) {t' : Receiver}
    {words' : ℕ → ℕ} (hn : nic.next = 0) (hi : t'.currentChunk = 0) (hm : m = 0)
    (hp : t'.pc.waiting = true ∧ (¬ booted → words' 0 = canRead) ∨
      (t'.pc = .readLength ∨ t'.pc = .readChunkBytes ∨ t'.pc = .storeState0) ∧ booted ∨
      t'.pc = .storeState1 ∧ booted ∧ words' 0 = canWrite) :
    ReceiverInv c nic words' t' booted flagged m := by
  obtain ⟨hw, h0⟩ | ⟨hpc | hpc | hpc, hb⟩ | ⟨hpc, hb, h0⟩ := hp
  · cases hpc : t'.pc <;> simp [hpc, RecvPc.waiting] at hw <;>
      exact
        { place := by rw [hpc]; exact ⟨hi, hn, hm⟩
          ordered := h.ordered
          queued := h.queued
          posted_le := h.posted_le
          unseen := fun _ => h0
          booted := by simp [hpc, hn, RecvPc.headerSeen, RecvPc.inLoop]
          current := by simp [hpc]
          second := by simp [hpc]
          slots := by simp [hpc, hn, RecvPc.inLoop] }
  iterate 4
    exact
      { place := by rw [hpc]; exact ⟨hi, hn, hm⟩
        ordered := h.ordered
        queued := h.queued
        posted_le := h.posted_le
        unseen := fun _ hnb => absurd hb hnb
        booted := fun _ => hb
        current := by simp [hpc]
        second := by simp_all
        slots := by simp [hpc, hn, RecvPc.inLoop] }

/-- Move inside the loop without a store or a post. -/
theorem advance (h : ReceiverInv c nic words t booted flagged m) {t' : Receiver}
    (hl : t.pc.inLoop = true) (hl' : t'.pc = .copyOut ∨ t'.pc = .markWritable)
    (hp : t'.pc.At t'.numRecvChunks t'.currentChunk nic.next m) (hf : flagged m) :
    ReceiverInv c nic words t' booted flagged m :=
  { h with
    place := hp
    unseen := by rcases hl' with hpc | hpc <;> simp [hpc, RecvPc.waiting]
    booted := fun _ => by
      refine h.booted (.inr ?_)
      cases hpc : t.pc <;> simp_all [RecvPc.inLoop, RecvPc.headerSeen]
    current := fun _ => hf
    second := by rcases hl' with hpc | hpc <;> simp [hpc]
    slots := fun _ => h.slots (.inr hl) }

/-- A spin that sees `CAN_READ` follows the flag write of its chunk. -/
theorem flagged_of_word (h : ReceiverInv c nic words t booted flagged m) (hpc : t.pc = .spin)
    (hw : words (t.currentChunk % 2) = canRead) : flagged m := by
  have hp := h.place
  simp only [hpc, RecvPc.At] at hp
  by_contra hf
  have hfree := (h.slots (.inr (by rw [hpc]; rfl))).word_free m (by omega) (by omega) hf
  rw [hp.2.2] at hfree
  exact canRead_ne_canWrite (hw.symm.trans hfree)

theorem markWritable (h : ReceiverInv c nic words t booted flagged m)
    (hpc : t.pc = .markWritable) :
    ReceiverInv c nic (Function.update words (t.currentChunk % 2) canWrite) (t.goto .postFlag)
      booted flagged (m + 1) := by
  have hp := h.place
  simp only [hpc, RecvPc.At] at hp
  obtain ⟨hi, hn, hm⟩ := hp
  have hslots := (h.slots (.inr (by rw [hpc]; rfl))).mark (h.current (.inr hpc))
  rw [hm] at hslots
  exact
    { h with
      place := ⟨hi, hn, by rw [hm]; rfl⟩
      posted_le := by omega
      unseen := by simp [Receiver.goto, RecvPc.waiting]
      booted := fun _ => h.booted (.inr (by rw [hpc]; rfl))
      current := by simp [Receiver.goto]
      second := by simp [Receiver.goto]
      slots := fun _ => by rwa [hm] }

theorem postFlag (h : ReceiverInv c nic words t booted flagged m) (hpc : t.pc = .postFlag)
    (id : ℕ) (signaled : Bool) {t' : Receiver} (ht' : t'.pc = .waitPending)
    (hi' : t'.currentChunk = t.currentChunk) (hn' : t'.numRecvChunks = t.numRecvChunks) :
    ReceiverInv c
      (nic.post (c.qpIdx t.currentChunk) ⟨.flag (t.currentChunk % 2), id, signaled⟩)
      words t' booted flagged m := by
  have hp := h.place
  simp only [hpc, RecvPc.At] at hp
  obtain ⟨hi, hn, hm⟩ := hp
  exact
    { place := by
        rw [ht', hi', hn']
        exact ⟨hi, by rw [SendQueues.post_next, hn], hm⟩
      ordered := h.ordered.post _ _
      queued := fun hq => by
        obtain hold | ⟨rfl, rfl, rfl⟩ := SendQueues.queued_post.mp hq
        · exact h.queued hold
        · rw [hn]
          exact ⟨rfl, rfl⟩
      posted_le := by rw [SendQueues.post_next]; omega
      unseen := by simp [ht', RecvPc.waiting]
      booted := fun _ => h.booted (.inr (by rw [hpc]; rfl))
      current := by simp [ht']
      second := by simp [ht']
      slots := fun _ => h.slots (.inr (by rw [hpc]; rfl)) }

/-- The end of an iteration: on to the next chunk. -/
theorem nextChunk (h : ReceiverInv c nic words t booted flagged m) (hpc : t.pc = .waitPending)
    (pending : List ℕ) :
    ReceiverInv c nic words (Receiver.nextChunk { t with pendingSignaled := pending })
      booted flagged m := by
  have hp := h.place
  simp only [hpc, RecvPc.At] at hp
  obtain ⟨hi, hn, hm⟩ := hp
  refine h.loopHead ?_ hn hm (h.booted (.inr (by rw [hpc]; rfl)))
    (h.slots (.inr (by rw [hpc]; rfl)))
  exact hi

/-- The copy out only moves on or fails. -/
theorem copyOut (h : ReceiverInv c nic words t booted flagged m) (hpc : t.pc = .copyOut)
    (ok : Bool) : ReceiverInv c nic words (c.copyOut e t ok) booted flagged m := by
  have hp := h.place
  simp only [hpc, RecvPc.At] at hp
  unfold RecvCall.copyOut
  dsimp only
  split_ifs
  · exact h.toFailed rfl
  · exact h.toFailed rfl
  · exact h.toFailed rfl
  · exact h.advance (by rw [hpc]; rfl) (.inr rfl) hp (h.current (.inl hpc))

/-- **One step of `uhm_recv`** keeps the receiver's side: the steps of the handshake before
anything is posted (`handshake`), the loop, and a return, which keeps what is in flight. -/
theorem step (h : ReceiverInv c e.nic e.uhm.state t booted flagged m) {ok : Bool}
    {e' : Endpoint} {t' : Receiver} (hs : c.step ok e t = some (e', t')) :
    ∃ m', ReceiverInv c e'.nic e'.uhm.state t' booted flagged m' := by
  have hp := h.place
  cases hpc : t.pc <;> simp only [RecvCall.step, hpc] at hs <;> simp only [hpc, RecvPc.At] at hp
  case initState0 =>
    cases hs
    exact ⟨m, h.handshake hp.2.1 hp.1 hp.2.2 (.inl ⟨rfl, by simp⟩)⟩
  case initState1 =>
    cases hs
    exact ⟨m, h.handshake hp.2.1 hp.1 hp.2.2
      (.inl ⟨rfl, by simpa using h.unseen (by rw [hpc]; rfl)⟩)⟩
  case initLength =>
    cases hs
    exact ⟨m, h.handshake hp.2.1 hp.1 hp.2.2 (.inl ⟨rfl, h.unseen (by rw [hpc]; rfl)⟩)⟩
  case initChunkBytes =>
    cases hs
    exact ⟨m, h.handshake hp.2.1 hp.1 hp.2.2 (.inl ⟨rfl, h.unseen (by rw [hpc]; rfl)⟩)⟩
  case readState =>
    cases hs
    split_ifs with hw
    · -- only the header write stores `CAN_WRITE` to the first word before this
      have hb : booted := by
        by_contra hb
        have hr := h.unseen (by rw [hpc]; rfl) hb
        exact canRead_ne_canWrite (hr.symm.trans hw)
      exact ⟨m, h.handshake hp.2.1 hp.1 hp.2.2 (.inr (.inl ⟨.inl rfl, hb⟩))⟩
    · exact ⟨m, h⟩
  case readLength =>
    cases hs
    have hb := h.booted (.inr (by rw [hpc]; rfl))
    exact ⟨m, h.handshake hp.2.1 hp.1 hp.2.2 (.inr (.inl ⟨.inr (.inl rfl), hb⟩))⟩
  case readChunkBytes =>
    cases hs
    have hb := h.booted (.inr (by rw [hpc]; rfl))
    unfold RecvCall.headerRead
    split_ifs
    · exact ⟨m, h.toFailed rfl⟩
    · exact ⟨m, h.handshake hp.2.1 hp.1 hp.2.2 (.inr (.inl ⟨.inr (.inr rfl), hb⟩))⟩
  case storeState0 =>
    cases hs
    have hb := h.booted (.inr (by rw [hpc]; rfl))
    exact ⟨m, h.handshake hp.2.1 hp.1 hp.2.2 (.inr (.inr ⟨rfl, hb, by simp⟩))⟩
  case storeState1 =>
    cases hs
    refine ⟨m, h.loopHead (by omega) (by omega) (by omega)
      (h.booted (.inr (by rw [hpc]; rfl))) ?_⟩
    rw [hp.2.2]
    -- unless its flag has come already, a word holds the `CAN_WRITE` that was just stored
    refine .start fun i hi hf => ?_
    obtain rfl | rfl : i = 0 ∨ i = 1 := by omega
    · simpa using h.second hpc hf
    · simp
  case spin =>
    cases hs
    split_ifs with hw
    · exact ⟨m, h.advance (by rw [hpc]; rfl) (.inl rfl) hp (h.flagged_of_word hpc hw)⟩
    · exact ⟨m, h⟩
  case copyOut =>
    cases hs
    exact ⟨m, h.copyOut hpc ok⟩
  case markWritable =>
    cases hs
    exact ⟨m + 1, h.markWritable hpc⟩
  case postFlag =>
    split_ifs at hs <;> cases hs
    · refine ⟨m, h.postFlag hpc _ _ ?_ ?_ ?_⟩ <;> unfold RecvCall.flagPosted <;> split_ifs <;> rfl
    · exact ⟨m, h.toFailed rfl⟩
  case waitPending =>
    split_ifs at hs <;> cases hs
    · exact ⟨m, h.nextChunk hpc _⟩
    · exact ⟨m, h.toFailed rfl⟩
    · exact ⟨m, h.nextChunk hpc t.pendingSignaled⟩
  case finalWait =>
    split_ifs at hs <;> cases hs
    · exact ⟨m, h.toDone rfl hp⟩
    · exact ⟨m, h.toFailed rfl⟩
  case done => cases hs

/-- The card executes the head of a queue of write-backs. -/
theorem pop (h : ReceiverInv c nic words t booted flagged m) {n q : ℕ} {r : WorkRequest}
    (hp : nic.pop q = some ((n, r), nic')) :
    ReceiverInv c nic' words t booted flagged m := by
  obtain ⟨-, hnext, hqueued, -⟩ := h.ordered.pop_spec hp
  exact
    { h with
      place := by rw [hnext]; exact h.place
      ordered := h.ordered.pop hp
      queued := fun hq => h.queued ((hqueued _ _ _).mp hq).1
      posted_le := by rw [hnext]; exact h.posted_le
      booted := by rw [hnext]; exact h.booted
      slots := by rw [hnext]; exact h.slots }

/-- The header arrives, before anything on this side depends on the words it replaces. -/
theorem header (h : ReceiverInv c nic words t booted flagged m) (hnb : ¬ booted)
    (words' : ℕ → ℕ) : ReceiverInv c nic words' t True flagged m :=
  { h with
    unseen := fun _ hnt => absurd trivial hnt
    booted := fun _ => trivial
    second := fun hpc => absurd (h.booted (.inr (by rw [hpc]; rfl))) hnb
    slots := fun hn => by
      refine absurd (h.booted (hn.imp_right fun hl => ?_)) hnb
      cases hpc : t.pc <;> simp_all [RecvPc.inLoop, RecvPc.headerSeen] }

/-- The flag write of chunk `k` arrives. -/
theorem flag (h : ReceiverInv c nic words t booted flagged m) (hb : booted) {k : ℕ}
    (hk : k < m + 2) (hnf : ¬ flagged k) (v : ℕ) :
    ReceiverInv c nic (Function.update words (k % 2) v) t booted (fun i => flagged i ∨ i = k)
      m :=
  { h with
    unseen := fun _ hnb => absurd hb hnb
    current := fun hpc => .inl (h.current hpc)
    second := fun hpc hn => by
      have hp := h.place
      simp only [hpc, RecvPc.At] at hp
      rw [not_or] at hn
      have hne : 0 ≠ k % 2 := by omega
      rw [Function.update_of_ne hne]
      exact h.second hpc hn.1
    slots := fun hn => (h.slots hn).flag hk hnf v }

end ReceiverInv

end HMC.Uhm
