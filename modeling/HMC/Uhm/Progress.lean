import HMC.Uhm.Order

/-!
# No lost flag

Can both calls of a transfer wait for ever, with nothing in flight?

They can: `uhm_recv` stores `CAN_READ` in its first flag word on entry, and `CAN_WRITE` in
both words once it has read the header. A header write that executes before the first store,
or a flag write of one of the first two chunks that executes before the second one to its
word, is overwritten (`header_overwritten`), and the sender waits at its third chunk for a
write-back that never comes.

`InTime` is the condition that no such write executes too early. It concerns only the flags
whose write-back the sender needs: with two chunks or fewer the sender never waits for one.
`not_stuck_of_inTime` says that a run of steps in time never gets stuck; the invariant behind
it, `SeenInv`, says that every delivered mark that still matters is in its word.

A mark matters as long as the sender will wait for its answer. The stores of the receiver inside the
loop are no danger, since a half is marked writable only after its own flag was seen, and the next
flag of that half comes after the write-back. So only the stores of the handshake are left, and the
condition names the writes that must not come before them: the header before the first store, and
the flag of chunk `h` before the store to word `h`.
-/

namespace HMC.Uhm

open HMC.Machine

/-- No write of the first `queues` send queues is outstanding. -/
def Endpoint.Idle (e : Endpoint) (queues : ℕ) : Prop := ∀ q < queues, e.nic.queue q = []

instance (e : Endpoint) (queues : ℕ) : Decidable (e.Idle queues) :=
  inferInstanceAs (Decidable (∀ q < queues, e.nic.queue q = []))

/-- Neither call has returned, no write is outstanding, and each side spins on a word that
does not let it on. -/
structure Transfer.Stuck (T : Transfer) (w : World) : Prop where
  snd_idle : w.snd.Idle T.send.queues
  rcv_idle : w.rcv.Idle T.recv.queues
  sender : w.sender.pc = .spin ∧ w.snd.uhm.state (w.sender.currentChunk % 2) ≠ canWrite
  receiver : w.receiver.pc = .readState ∧ w.rcv.uhm.state 0 ≠ canWrite ∨
    w.receiver.pc = .spin ∧ w.rcv.uhm.state (w.receiver.currentChunk % 2) ≠ canRead

/-- The locations past the `CAN_WRITE` store to word `h` that follows the handshake. -/
def RecvPc.stored (h : ℕ) : RecvPc → Bool
  | .initState0 | .initState1 | .initLength | .initChunkBytes | .readState | .readLength
  | .readChunkBytes | .storeState0 => false
  | .storeState1 => h == 0
  | _ => true

theorem RecvPc.stored_of_inLoop {pc : RecvPc} (h : pc.inLoop = true) (i : ℕ) :
    pc.stored i = true := by
  cases pc <;> first | rfl | cases h

/-- A sender of three chunks or more: its header executes after the receiver's first store,
and a flag that lets the sender on to chunk `h + 2` after the receiver's store to its word. -/
def Transfer.InTime (T : Transfer) (w : World) : Act → Prop
  | .nicSend q =>
    (((w.snd.nic.queue q).head?.map fun r => r.2.write) = some .bufferState →
        2 < T.send.numSendChunks → w.receiver.pc ≠ .initState0) ∧
      ∀ h < 2, ((w.snd.nic.queue q).head?.map fun r => r.2.write) = some (.flag h) →
        h + 2 < T.send.numSendChunks → w.receiver.pc.stored h = true
  | _ => True

instance (T : Transfer) (w : World) : ∀ a, Decidable (T.InTime w a)
  | .nicSend q => inferInstanceAs (Decidable
      ((((w.snd.nic.queue q).head?.map fun r => r.2.write) = some .bufferState →
        2 < T.send.numSendChunks → w.receiver.pc ≠ .initState0) ∧
      ∀ h < 2, ((w.snd.nic.queue q).head?.map fun r => r.2.write) = some (.flag h) →
        h + 2 < T.send.numSendChunks → w.receiver.pc.stored h = true))
  | .send _ | .recv _ | .nicRecv _ => inferInstanceAs (Decidable True)

/-! ### The invariant -/

/-- The receiver's words show every mark of the sender that still matters: `n` chunks are
sent, and the flag of chunk `k` matters when chunk `k + 2` exists. -/
structure SeenInv (n : ℕ) (words : ℕ → ℕ) (t : Receiver) (booted : Prop)
    (flagged : ℕ → Prop) : Prop where
  entered : 2 < n → t.pc = .initState0 → ¬ booted
  header : 2 < n → t.pc.waiting = true → booted → words 0 = canWrite
  late : ∀ h < 2, h + 2 < n → flagged h → t.pc.stored h = true
  second : t.pc = .storeState1 → 2 < n → flagged 0 → words 0 = canRead
  word : ∀ k, t.pc = .spin ∨ t.pc = .copyOut ∨ t.pc = .markWritable → t.currentChunk ≤ k →
    k < t.currentChunk + 2 → k + 2 < n → flagged k → words (k % 2) = canRead
  word_next : ∀ k, t.pc = .postFlag ∨ t.pc = .waitPending → t.currentChunk + 1 ≤ k →
    k < t.currentChunk + 3 → k + 2 < n → flagged k → words (k % 2) = canRead

namespace SeenInv

variable {n : ℕ} {c : RecvCall} {e e' : Endpoint} {t t' : Receiver} {words : ℕ → ℕ}
  {booted : Prop} {flagged : ℕ → Prop} {m : ℕ}

/-- Every location that is done keeps the invariant. -/
theorem toDone (h : t'.pc = .finalWait ∨ ∃ ret, t'.pc = .done ret) :
    SeenInv n words t' booted flagged := by
  rcases h with hpc | ⟨ret, hpc⟩ <;>
    exact
      { entered := by simp [hpc]
        header := by simp [hpc, RecvPc.waiting]
        late := fun _ _ _ _ => by rw [hpc]; rfl
        second := by simp [hpc]
        word := by simp [hpc]
        word_next := by simp [hpc] }

/-- Inside the chunk loop nothing is asked of the words but the marks of the next chunks. -/
theorem ofLoop (hl : t'.pc.inLoop = true)
    (hw : ∀ k, t'.pc = .spin ∨ t'.pc = .copyOut ∨ t'.pc = .markWritable → t'.currentChunk ≤ k →
      k < t'.currentChunk + 2 → k + 2 < n → flagged k → words (k % 2) = canRead)
    (hn : ∀ k, t'.pc = .postFlag ∨ t'.pc = .waitPending → t'.currentChunk + 1 ≤ k →
      k < t'.currentChunk + 3 → k + 2 < n → flagged k → words (k % 2) = canRead) :
    SeenInv n words t' booted flagged := by
  refine ⟨?_, ?_, ?_, ?_, hw, hn⟩
  · intro _ hpc
    rw [hpc] at hl
    cases hl
  · intro _ hpc
    exact absurd hpc (RecvPc.not_waiting_of_inLoop hl)
  · intro i _ _ _
    exact RecvPc.stored_of_inLoop hl i
  · intro hpc
    rw [hpc] at hl
    cases hl

/-- The head of the chunk loop, with the marks of the next two chunks in their words. -/
theorem loopHead (hw : ∀ k, t'.currentChunk ≤ k → k < t'.currentChunk + 2 → k + 2 < n →
    flagged k → words (k % 2) = canRead) : SeenInv n words t'.loopHead booted flagged := by
  unfold Receiver.loopHead
  split_ifs
  · exact ofLoop rfl (fun k _ => hw k) (by simp [Receiver.goto])
  · exact toDone (.inl rfl)
  · exact toDone (.inr ⟨_, rfl⟩)

/-- Before the receiver's last stores, no flag that matters has arrived. -/
theorem early (hpc : t'.pc.stored 0 = false)
    (he : 2 < n → t'.pc = .initState0 → ¬ booted)
    (hh : 2 < n → t'.pc.waiting = true → booted → words 0 = canWrite)
    (hf : ∀ h < 2, h + 2 < n → ¬ flagged h) : SeenInv n words t' booted flagged where
  entered := he
  header := hh
  late i hi hn hfl := absurd hfl (hf i hi hn)
  second hpc' := by simp [hpc', RecvPc.stored] at hpc
  word _ hpc' := by rcases hpc' with hpc' | hpc' | hpc' <;> simp [hpc', RecvPc.stored] at hpc
  word_next _ hpc' := by rcases hpc' with hpc' | hpc' <;> simp [hpc', RecvPc.stored] at hpc

theorem not_flagged (h : SeenInv n words t booted flagged) {i : ℕ} (hi : i < 2) (hn : i + 2 < n)
    (hpc : t.pc.stored i = false) : ¬ flagged i := fun hf => by
  rw [h.late i hi hn hf] at hpc
  cases hpc

/-- The end of an iteration: on to the next chunk. -/
theorem nextChunk (h : SeenInv n words t booted flagged) (hpc : t.pc = .waitPending)
    (pending : List ℕ) :
    SeenInv n words (Receiver.nextChunk { t with pendingSignaled := pending }) booted flagged :=
  loopHead fun k hk hk' => h.word_next k (.inr hpc) hk hk'

/-- **One step of `uhm_recv`** overwrites no mark that matters; `flagged` reaches at most two chunks
beyond the write-backs that were posted. A store of the handshake meets no mark, as those that
matter come later; a store of the loop replaces the mark of the chunk that was just copied out. -/
theorem step (h : SeenInv n e.uhm.state t booted flagged)
    (ho : ReceiverInv c e.nic e.uhm.state t booted flagged m)
    (hwin : ∀ k, flagged k → k < e.nic.next + 2) {ok : Bool}
    (hs : c.step ok e t = some (e', t')) : SeenInv n e'.uhm.state t' booted flagged := by
  have hp := ho.place
  cases hpc : t.pc <;> simp only [RecvCall.step, hpc] at hs <;> simp only [hpc, RecvPc.At] at hp
  case initState0 =>
    cases hs
    refine early rfl (by simp [Receiver.goto]) (fun hn _ hb => ?_)
      fun i hi hn => h.not_flagged hi hn (by rw [hpc]; rfl)
    exact absurd hb (h.entered hn hpc)
  case initState1 =>
    cases hs
    refine early rfl (by simp [Receiver.goto]) (fun hn _ hb => ?_)
      fun i hi hn => h.not_flagged hi hn (by rw [hpc]; rfl)
    simpa using h.header hn (by rw [hpc]; rfl) hb
  case initLength =>
    cases hs
    exact early rfl (by simp [Receiver.goto]) (fun hn _ => h.header hn (by rw [hpc]; rfl))
      fun i hi hn => h.not_flagged hi hn (by rw [hpc]; rfl)
  case initChunkBytes =>
    cases hs
    exact early rfl (by simp [Receiver.goto]) (fun hn _ => h.header hn (by rw [hpc]; rfl))
      fun i hi hn => h.not_flagged hi hn (by rw [hpc]; rfl)
  case readState =>
    cases hs
    split_ifs
    · exact early rfl (by simp [Receiver.goto]) (by simp [Receiver.goto, RecvPc.waiting])
        fun i hi hn => h.not_flagged hi hn (by rw [hpc]; rfl)
    · exact h
  case readLength =>
    cases hs
    exact early rfl (by simp) (by simp [RecvPc.waiting])
      fun i hi hn => h.not_flagged hi hn (by rw [hpc]; rfl)
  case readChunkBytes =>
    cases hs
    unfold RecvCall.headerRead
    split_ifs
    · exact toDone (.inr ⟨_, rfl⟩)
    · exact early rfl (by simp) (by simp [RecvPc.waiting])
        fun i hi hn => h.not_flagged hi hn (by rw [hpc]; rfl)
  case storeState0 =>
    cases hs
    have hf : ∀ i < 2, i + 2 < n → ¬ flagged i := fun i hi hn =>
      h.not_flagged hi hn (by rw [hpc]; rfl)
    exact
      { entered := by simp [Receiver.goto]
        header := by simp [Receiver.goto, RecvPc.waiting]
        late := fun i hi hn hfl => absurd hfl (hf i hi hn)
        second := fun _ hn hfl => absurd hfl (hf 0 (by omega) (by omega))
        word := by simp [Receiver.goto]
        word_next := by simp [Receiver.goto] }
  case storeState1 =>
    cases hs
    refine loopHead fun k hk hk' hn hf => ?_
    obtain rfl | rfl : k = 0 ∨ k = 1 := by omega
    · simpa using h.second hpc (by omega) hf
    · exact absurd hf (h.not_flagged (by omega) hn (by rw [hpc]; rfl))
  case spin =>
    cases hs
    split_ifs
    · exact ofLoop rfl (fun k _ => h.word k (.inl hpc)) (by simp [Receiver.goto])
    · exact h
  case copyOut =>
    cases hs
    unfold RecvCall.copyOut
    dsimp only
    split_ifs
    · exact toDone (.inr ⟨_, rfl⟩)
    · exact toDone (.inr ⟨_, rfl⟩)
    · exact toDone (.inr ⟨_, rfl⟩)
    · exact ofLoop rfl (fun k _ => h.word k (.inr (.inl hpc))) (by simp)
  case markWritable =>
    cases hs
    refine ofLoop rfl (by simp [Receiver.goto]) ?_
    intro k _ hk hk' hn hf
    simp only [Receiver.goto] at hk hk'
    -- the flags reach no further than the word that is not stored to
    have hlt := hwin k hf
    have hne : k % 2 ≠ t.currentChunk % 2 := by omega
    rw [Endpoint.setState_state, Function.update_of_ne hne]
    exact h.word k (.inr (.inr hpc)) (by omega) (by omega) hn hf
  case postFlag =>
    split_ifs at hs <;> cases hs
    · have ht' : (c.flagPosted t e.nextWrId).pc = .waitPending := by
        unfold RecvCall.flagPosted
        split_ifs <;> rfl
      have hi' : (c.flagPosted t e.nextWrId).currentChunk = t.currentChunk := by
        unfold RecvCall.flagPosted
        split_ifs <;> rfl
      refine ofLoop (by rw [ht']; rfl) (by simp [ht']) ?_
      intro k _
      rw [hi']
      exact h.word_next k (.inl hpc)
    · exact toDone (.inr ⟨_, rfl⟩)
  case waitPending =>
    split_ifs at hs <;> cases hs
    · exact h.nextChunk hpc _
    · exact toDone (.inr ⟨_, rfl⟩)
    · exact h.nextChunk hpc t.pendingSignaled
  case finalWait =>
    split_ifs at hs <;> cases hs <;> exact toDone (.inr ⟨_, rfl⟩)
  case done => cases hs

/-- The header arrives after the receiver's first store. -/
theorem header_arrives (h : SeenInv n words t booted flagged) (hf : ∀ k, ¬ flagged k)
    (hpc : 2 < n → t.pc ≠ .initState0) {words' : ℕ → ℕ} (hw : words' 0 = canWrite) :
    SeenInv n words' t True flagged where
  entered hn hpc' := absurd hpc' (hpc hn)
  header _ _ _ := hw
  late := h.late
  second _ _ hfl := absurd hfl (hf 0)
  word k _ _ _ _ hfl := absurd hfl (hf k)
  word_next k _ _ _ _ hfl := absurd hfl (hf k)

/-- The flag of chunk `k` arrives after the receiver's last store to its word. -/
theorem flag_arrives (h : SeenInv n words t booted flagged)
    (ho : ReceiverInv c e.nic words t booted flagged m) {k : ℕ} (hk : k < m + 2)
    (hnf : ¬ flagged k) (hlate : k < 2 → k + 2 < n → t.pc.stored k = true) :
    SeenInv n (Function.update words (k % 2) canRead) t booted fun i => flagged i ∨ i = k := by
  have hp := ho.place
  have hlo : t.pc.inLoop = true → m ≤ k := fun hl => by
    by_contra hlt
    exact hnf ((ho.slots (.inr hl)).flagged_of_lt k (by omega))
  refine
    { entered := h.entered
      header := fun hn hpc hb => ?_
      late := fun i hi hn hf => hf.elim (h.late i hi hn) fun hik => by
        rw [hik] at hi hn ⊢
        exact hlate hi hn
      second := fun hpc hn hf => ?_
      word := fun i hpc hi hi' hn hf => ?_
      word_next := fun i hpc hi hi' hn hf => ?_ }
  · obtain ⟨hm, hst⟩ : m = 0 ∧ t.pc.stored 0 = false := by
      cases hpc' : t.pc <;> rw [hpc'] at hp hpc <;> first | exact ⟨hp.2.2, rfl⟩ | cases hpc
    have hne : 0 ≠ k % 2 := fun he => by
      obtain rfl : k = 0 := by omega
      rw [hlate (by omega) hn] at hst
      cases hst
    rw [Function.update_of_ne hne]
    exact h.header hn hpc hb
  · simp only [hpc, RecvPc.At] at hp
    obtain hf | hik := hf
    · by_cases he : 0 = k % 2
      · rw [he, Function.update_self]
      · rw [Function.update_of_ne he]
        exact h.second hpc hn hf
    · rw [hik, Nat.mod_eq_of_lt (by omega), Function.update_self]
  · have hm : m = t.currentChunk := by
      rcases hpc with hpc | hpc | hpc <;> simp only [hpc, RecvPc.At] at hp <;> exact hp.2.2
    have hk' := hlo (by rcases hpc with hpc | hpc | hpc <;> rw [hpc] <;> rfl)
    obtain hf | rfl := hf
    · have hne : i ≠ k := fun hik => hnf (hik ▸ hf)
      rw [Function.update_of_ne (by omega)]
      exact h.word i hpc hi hi' hn hf
    · exact Function.update_self ..
  · have hm : m = t.currentChunk + 1 := by
      rcases hpc with hpc | hpc <;> simp only [hpc, RecvPc.At] at hp <;> exact hp.2.2
    have hk' := hlo (by rcases hpc with hpc | hpc <;> rw [hpc] <;> rfl)
    obtain hf | rfl := hf
    · have hne : i ≠ k := fun hik => hnf (hik ▸ hf)
      rw [Function.update_of_ne (by omega)]
      exact h.word_next i hpc hi hi' hn hf
    · exact Function.update_self ..

end SeenInv

/-! ### Runs -/

namespace Transfer

variable {T : Transfer} {w w₀ w' : World}

/-- `SeenInv` of a whole transfer. -/
def Seen (T : Transfer) (w : World) : Prop :=
  SeenInv T.send.numSendChunks w.rcv.uhm.state w.receiver (w.snd.nic.Executed 0)
    fun k => w.snd.nic.Executed (2 + 2 * k)

theorem seen_initial (h : T.Initial w) : T.Seen w := by
  obtain ⟨output, recvFlags, hr⟩ := h.receiver
  have hx : ∀ n, ¬ w.snd.nic.Executed n := fun n hx => by
    rw [h.snd_nic] at hx
    exact absurd hx.1 (Nat.not_lt_zero _)
  rw [Seen, hr]
  unfold RecvCall.enter
  split_ifs
  · exact SeenInv.toDone (.inr ⟨_, rfl⟩)
  · exact SeenInv.toDone (.inr ⟨_, rfl⟩)
  · exact SeenInv.early rfl (fun _ _ => hx 0) (by simp [RecvPc.waiting]) fun i _ _ => hx _

/-- The flags that have arrived reach at most two chunks beyond the write-backs. -/
theorem flagged_lt (ho : OrderInv T w) {k : ℕ} (hk : w.snd.nic.Executed (2 + 2 * k)) :
    k < w.rcv.nic.next + 2 := by
  obtain ⟨m, hm⟩ := ho.sender
  by_contra hlt
  have hg := hm.data_granted (k - 2) (by have := hk.1; omega)
  have := hg.1
  omega

theorem seen_nicSend (h : T.Seen w) (ho : OrderInv T w) {q n : ℕ} {r : WorkRequest}
    {nic : SendQueues WorkRequest} (hin : T.InTime w (.nicSend q))
    (hp : w.snd.nic.pop q = some ((n, r), nic)) :
    T.Seen { w with snd := { w.snd with nic := nic }, rcv := execWrite r.write w.snd w.rcv } := by
  obtain ⟨m, hm⟩ := ho.sender
  obtain ⟨m', hm'⟩ := ho.receiver
  have hhead := (hm.ordered.pop_spec hp).1
  have hlt := hm.ordered.lt_next hhead
  have hwrite := hm.queued hhead
  have hexec : ∀ i, nic.Executed i ↔ w.snd.nic.Executed i ∨ i = n := fun i =>
    hm.ordered.executed_pop hp
  simp only [InTime, SendQueues.head?_of_pop hp, Option.map_some, hwrite] at hin
  rw [Seen, hwrite]
  obtain rfl | ⟨k, rfl⟩ | ⟨k, rfl⟩ := SendCall.post_cases n
  · have hboot : ∀ k, ¬ w.snd.nic.Executed (2 + 2 * k) := fun k hx =>
      (hm.booted (.inl (by have := hx.1; omega))).not_pending hhead.pending
    have hnext : ¬ 2 ≤ w.snd.nic.next := fun hle =>
      (hm.booted (.inl hle)).not_pending hhead.pending
    have hready := (hm.slots (.inl (by omega))).word_fresh 0 (by omega)
      (by have := hm.mark_posted; omega)
    have hseen := h.header_arrives hboot (hin.1 rfl) hready
    simpa [hexec, execWrite] using hseen
  · have hzero : 0 ≠ 1 + 2 * k := by omega
    have hflag : ∀ i, 2 + 2 * i ≠ 1 + 2 * k := fun i => by omega
    rw [Seen] at h
    simpa [hexec, hzero, hflag, SendCall.writeOf_data, SendCall.dataWrite, execWrite] using h
  · have hnf : ¬ w.snd.nic.Executed (2 + 2 * k) := fun hx => hx.not_pending hhead.pending
    have hseen := h.flag_arrives hm' (ho.flag_window hhead.pending hm'.posted_le) hnf
      (fun hk hn => hin.2 k hk (by rw [SendCall.writeOf_flag, Nat.mod_eq_of_lt hk]) hn)
    have hzero : 0 ≠ 2 + 2 * k := by omega
    have hinj : ∀ i, 2 + 2 * i = 2 + 2 * k ↔ i = k := fun i => by omega
    simpa only [hexec, hzero, hinj, or_false, SendCall.writeOf_flag, execWrite,
      Endpoint.setState_state, ho.flag_word hhead.pending] using hseen

/-- **One step** in time loses no flag that the receiver has still to see. -/
theorem seen_step (h : T.Seen w) (ho : OrderInv T w) {a : Act} (hin : T.InTime w a)
    (hs : T.step w a = some w') : T.Seen w' := by
  cases a with
  | send ok =>
    obtain ⟨⟨e, t⟩, hst, rfl⟩ := Option.map_eq_some_iff.mp hs
    rw [Seen] at h
    simpa only [Seen, SendCall.executed_step hst] using h
  | recv ok =>
    obtain ⟨⟨e, t⟩, hst, rfl⟩ := Option.map_eq_some_iff.mp hs
    obtain ⟨m, hm⟩ := ho.receiver
    exact SeenInv.step h hm (fun k hk => flagged_lt ho hk) hst
  | nicSend q =>
    obtain ⟨⟨⟨n, r⟩, nic⟩, hp, rfl⟩ := Option.map_eq_some_iff.mp hs
    exact seen_nicSend h ho hin hp
  | nicRecv q =>
    obtain ⟨⟨⟨n, r⟩, nic⟩, hp, rfl⟩ := Option.map_eq_some_iff.mp hs
    rw [Seen] at h ⊢
    simpa only [execWrite_nic] using h

/-- No flag is lost in a run in time. -/
theorem seen_reach (h₀ : T.Initial w₀) (hr : Reach T.step T.InTime w₀ w) : T.Seen w :=
  hr.invariant (seen_initial h₀) fun _ _ _ hr' h hin hs =>
    seen_step h (.reach h₀ hr') hin hs

/-! ### The claim -/

theorem executed_of_snd_idle (ho : OrderInv T w) (h : w.snd.Idle T.send.queues) {n : ℕ}
    (hn : n < w.snd.nic.next) : w.snd.nic.Executed n := by
  obtain ⟨m, hm⟩ := ho.sender
  refine (SendQueues.executed_or_pending hn).resolve_right ?_
  rintro ⟨r, q, hq⟩
  obtain rfl := hm.queue_eq hq
  rw [SendQueues.Queued, h _ (T.send.queueOf_lt n)] at hq
  cases hq

theorem executed_of_rcv_idle (ho : OrderInv T w) (h : w.rcv.Idle T.recv.queues) {n : ℕ}
    (hn : n < w.rcv.nic.next) : w.rcv.nic.Executed n := by
  obtain ⟨m, hm⟩ := ho.receiver
  refine (SendQueues.executed_or_pending hn).resolve_right ?_
  rintro ⟨r, q, hq⟩
  obtain ⟨-, rfl⟩ := hm.queued hq
  rw [SendQueues.Queued, h _ (T.recv.qpIdx_lt n)] at hq
  cases hq

/-- A sender that waits for ever waits for the write-back of a chunk whose flag it has sent,
so the receiver waits for a mark that is not there. Nothing is in flight, so all that was posted has
executed: the mark has come, it matters because the sender needs the answer, and by the invariant
the word shows it. -/
theorem not_stuck_of_seen (ho : OrderInv T w) (h : T.Seen w) : ¬ T.Stuck w := by
  rintro ⟨hsi, hri, ⟨hspc, hsw⟩, hrecv⟩
  obtain ⟨m, hm⟩ := ho.sender
  obtain ⟨m', hm'⟩ := ho.receiver
  have hp := hm.place
  simp only [hspc, SendPc.At] at hp
  obtain ⟨hi, hnext, rfl⟩ := hp
  have hslots := hm.slots (.inl (by omega))
  -- the first two halves are free, so it waits at a later chunk
  obtain ⟨k, hk⟩ : ∃ k, w.sender.currentChunk = k + 2 := by
    by_contra hsmall
    have hlt : w.sender.currentChunk < 2 := by
      by_contra hge
      exact hsmall ⟨w.sender.currentChunk - 2, by omega⟩
    have hfree := hslots.word_fresh _ hlt (Nat.le_refl _)
    rw [Nat.mod_eq_of_lt hlt] at hsw
    exact hsw hfree
  have hungranted : w.rcv.nic.next ≤ k := by
    by_contra hlt
    have hg := executed_of_rcv_idle ho hri (Nat.lt_of_not_le hlt)
    rw [hk, Nat.add_mod_right] at hsw
    exact hsw (hslots.word_free k (by omega) (by omega) hg)
  have hsent : ∀ n, n < w.snd.nic.next → w.snd.nic.Executed n := fun n hn =>
    executed_of_snd_idle ho hsi hn
  obtain ⟨hrpc, hrw⟩ | ⟨hrpc, hrw⟩ := hrecv
  · exact hrw (h.header (by omega) (by rw [hrpc]; rfl) (hsent 0 (by omega)))
  · have hp' := hm'.place
    simp only [hrpc, RecvPc.At] at hp'
    exact hrw (h.word _ (.inl hrpc) (Nat.le_refl _) (by omega) (by omega) (hsent _ (by omega)))

end Transfer

/-- **No lost flag.** A run of steps in time never gets stuck: in no state of it do both calls spin,
each on a word that will not change, with nothing in flight. With nothing in flight all that was
posted has been executed. A sender that spins has posted the flag of the chunk whose write-back it
waits for, and by `Seen` the receiver has that flag before it, so it does not spin. -/
theorem not_stuck_of_inTime {T : Transfer} {w₀ w : World} (h₀ : T.Initial w₀)
    (hr : Reach T.step T.InTime w₀ w) : ¬ T.Stuck w :=
  Transfer.not_stuck_of_seen (.reach h₀ hr) (Transfer.seen_reach h₀ hr)

theorem not_stuck_of_inTime_promptRun :
    ∃ w, Reach shortTransfer.step shortTransfer.InTime shortTransfer.start w ∧
      (w.sender.pc = .spin ∧ w.sender.currentChunk = 2 ∧
        w.snd.uhm.state (w.sender.currentChunk % 2) ≠ canWrite) ∧ ¬ shortTransfer.Stuck w := by
  obtain ⟨w, hr, hs⟩ : ∃ w, Reach shortTransfer.step shortTransfer.InTime shortTransfer.start w ∧
      (w.sender.pc = .spin ∧ w.sender.currentChunk = 2 ∧
        w.snd.uhm.state (w.sender.currentChunk % 2) ≠ canWrite) :=
    exists_reach_of_execOk (schedule [(4, .recv true), (5, .send true), (1, .nicSend 0),
      (5, .recv true), (14, .send true), (4, .nicSend 0)]) (by decide +kernel)
  exact ⟨w, hr, hs, not_stuck_of_inTime shortTransfer.initial_start hr⟩

/-- The sender is entered first and its header lands before the receiver is. -/
def earlyHeaderRun : List Act := schedule
  [(5, .send true), (1, .nicSend 0), (14, .send true), (4, .nicSend 0), (5, .recv true)]

/-- **The receiver overwrites the header.** The sender waits for the write-back of its first
chunk, the receiver for a header that has come and gone. -/
theorem header_overwritten :
    shortTransfer.Initial shortTransfer.start ∧ 1 ≤ shortTransfer.send.sendFlags ∧
      shortTransfer.send.sendFlags ≤ shortTransfer.recv.bufferSize ∧
      ∃ w, Reach shortTransfer.step Free shortTransfer.start w ∧ shortTransfer.Stuck w := by
  refine ⟨shortTransfer.initial_start, by decide, by decide, ?_⟩
  obtain ⟨w, hr, hsi, hri, hs, hrecv⟩ : ∃ w, Reach shortTransfer.step Free shortTransfer.start w ∧
      (w.snd.Idle shortTransfer.send.queues ∧ w.rcv.Idle shortTransfer.recv.queues ∧
        (w.sender.pc = .spin ∧ w.snd.uhm.state (w.sender.currentChunk % 2) ≠ canWrite) ∧
        w.receiver.pc = .readState ∧ w.rcv.uhm.state 0 ≠ canWrite) :=
    exists_reach_of_exec earlyHeaderRun (by decide +kernel)
  exact ⟨w, hr, hsi, hri, hs, .inl hrecv⟩

end HMC.Uhm
