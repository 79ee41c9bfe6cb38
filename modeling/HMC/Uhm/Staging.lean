import HMC.Uhm.SenderOrder

/-!
# The sender's data

`SendCall.Holds bytes i` says that chunk `i` of the input is in half `i % 2` of a buffer.
`SenderData` is the invariant of the sender's memory: the header that will be sent, and the
chunks that the card still has to read or the thread is about to post, are in place. The
thread keeps it (`SenderData.step`) as long as its copies succeed and it refills no half
under a queued data write.

The two conditions are those of the claim on integrity; the rest is geometry. A staging copy of
chunk `i` writes half `i % 2` and no other byte, so it can only disturb a data write of a chunk of
the same parity. While chunk `i` is current, the data writes of chunks `i - 1` and `i` may be queued
and no older ones, because the sender came to chunk `i` by the write-back of chunk `i - 2`
(`parity_of_pending`). So refilling the half for chunk `i + 1` is safe exactly when the data write
of chunk `i - 1` has left.
-/

namespace HMC.Uhm

open HMC.Machine

/-! ### Geometry -/

namespace SendCall

variable (c : SendCall)

/-- The bytes of chunk `i` in half `i % 2` of `bytes`. -/
def Holds (bytes : Bytes) (i : ℕ) : Prop :=
  ∀ a < chunkLen c.sendFlags c.chunkSize i,
    bytes (i % 2 * c.halfBufferSize + a) = c.input (i * c.chunkSize + a)

variable {c}

/-- The two halves do not overlap. -/
theorem half_disjoint {h i k a size : ℕ} (hik : i % 2 ≠ k % 2) (ha : a < h) (hsize : size ≤ h) :
    i % 2 * h + a < k % 2 * h ∨ k % 2 * h + size ≤ i % 2 * h + a := by
  rcases Nat.mod_two_eq_zero_or_one i with hi | hi <;>
    obtain hk | hk := Nat.mod_two_eq_zero_or_one k
  · omega
  · rw [hi, hk]
    omega
  · rw [hi, hk]
    omega
  · omega

/-- A chunk that is copied into its half is held there. -/
theorem holds_blit_self {bytes src : Bytes} {i : ℕ}
    (hsrc : ∀ a < chunkLen c.sendFlags c.chunkSize i, src a = c.input (i * c.chunkSize + a)) :
    c.Holds (blit bytes (i % 2 * c.halfBufferSize) src
      (chunkLen c.sendFlags c.chunkSize i)) i := by
  intro a ha
  rw [blit_apply_add ha]
  exact hsrc a ha

/-- A copy into one half leaves the chunk of the other half alone. -/
theorem holds_blit_other {bytes src : Bytes} {i k size : ℕ} (hhalf : 0 < c.halfBufferSize)
    (hik : i % 2 ≠ k % 2) (hsize : size ≤ c.chunkSize) (h : c.Holds bytes i) :
    c.Holds (blit bytes (k % 2 * c.halfBufferSize) src size) i := by
  intro a ha
  have hlen : chunkLen c.sendFlags c.chunkSize i ≤ c.chunkSize := chunkLen_le
  have hle := c.chunkSize_le_half hhalf
  rw [blit_apply_of_not_mem (half_disjoint hik (by omega) (by omega))]
  exact h a ha

end SendCall

/-! ### The sender's buffer -/

/-- The sender's memory: the header it sends, and the chunks that the card still has to read
or the thread is about to post. A queued data write finds its chunk (`pending`), the chunk whose
data write is next is staged (`current`), and so is the one after it once it was pre-filled
(`upcoming`). -/
structure SenderData (c : SendCall) (e : Endpoint) (t : Sender) : Prop where
  admitted : 0 < e.nic.next ∨ (∀ ret, t.pc ≠ .done ret) →
    c.sendFlags < 2 ^ 32 ∧ 0 < c.halfBufferSize
  header_length : t.pc = .initChunkBytes → e.uhm.length = c.sendFlags
  header : t.pc = .postState ∨ 0 < e.nic.next →
    e.uhm.length = c.sendFlags ∧ e.uhm.chunkBytes = c.chunkSize
  pending : ∀ k, e.nic.Pending (1 + 2 * k) → c.Holds e.bytes k
  current : t.pc = .waitState ∨ t.pc = .spin ∨ t.pc = .postData → c.Holds e.bytes t.currentChunk
  upcoming : t.pc = .waitPending → t.currentChunk + 1 < c.numSendChunks →
    c.Holds e.bytes (t.currentChunk + 1)

namespace SenderData

variable {c : SendCall} {e e' : Endpoint} {t t' : Sender} {granted : ℕ → Prop} {m : ℕ}

theorem toDone (h : SenderData c e t) (ret : Status) (t' : Sender) :
    SenderData c e (t'.goto (.done ret)) where
  admitted hn := h.admitted (hn.imp_right fun hne => absurd rfl (hne ret))
  header_length hpc := by simp [Sender.goto] at hpc
  header hn := h.header (.inr (by simpa [Sender.goto] using hn))
  pending := h.pending
  current hpc := by simp [Sender.goto] at hpc
  upcoming hpc := by simp [Sender.goto] at hpc

/-- Behind the header write, the thread moves on with its memory as it is. -/
theorem moveOn (h : SenderData c e t) (hlive : ∀ ret, t.pc ≠ .done ret) (hn : 0 < e.nic.next)
    (hpc : t'.pc ≠ .initChunkBytes)
    (hcur : t'.pc = .waitState ∨ t'.pc = .spin ∨ t'.pc = .postData →
      c.Holds e.bytes t'.currentChunk)
    (hup : t'.pc = .waitPending → t'.currentChunk + 1 < c.numSendChunks →
      c.Holds e.bytes (t'.currentChunk + 1)) : SenderData c e t' :=
  { h with
    admitted := fun _ => h.admitted (.inr hlive)
    header_length := fun hpc' => absurd hpc' hpc
    header := fun _ => h.header (.inr hn)
    current := hcur
    upcoming := hup }

/-- The head of the chunk loop, with the next chunk staged. -/
theorem loopHead (h : SenderData c e t) (hlive : ∀ ret, t.pc ≠ .done ret) (hn : 0 < e.nic.next)
    (hcur : t'.currentChunk < c.numSendChunks → c.Holds e.bytes t'.currentChunk) :
    SenderData c e (c.loopHead t') := by
  obtain ⟨heq, hlt⟩ | ⟨heq, -⟩ | heq := c.loopHead_cases t'
  · rw [heq]
    exact h.moveOn hlive hn (by simp [Sender.goto]) (fun _ => hcur hlt) (by simp [Sender.goto])
  · rw [heq]
    exact h.moveOn hlive hn (by simp [Sender.goto]) (by simp [Sender.goto])
      (by simp [Sender.goto])
  · rw [heq]
    exact h.toDone _ _

theorem takeWrId (h : SenderData c e t) : SenderData c e.takeWrId t :=
  { h with }

/-- A step before the header write is posted. -/
theorem handshake (h : SenderData c e t) (ho : SenderInv c e.nic e.uhm.state t granted m)
    (hlive : ∀ ret, t.pc ≠ .done ret) (hnic : e'.nic = e.nic) (hn : e.nic.next = 0)
    (hpc : t'.pc ∉ [.waitState, .spin, .postData, .waitPending])
    (hl : t'.pc = .initChunkBytes → e'.uhm.length = c.sendFlags)
    (hh : t'.pc = .postState → e'.uhm.length = c.sendFlags ∧ e'.uhm.chunkBytes = c.chunkSize) :
    SenderData c e' t' where
  admitted _ := h.admitted (.inr hlive)
  header_length := hl
  header hpc' := hpc'.elim hh fun hlt => by
    rw [hnic] at hlt
    omega
  pending k hk := by
    rw [hnic] at hk
    have := ho.ordered.lt_next hk.choose_spec.choose_spec
    omega
  current hpc' := by rcases hpc' with hpc' | hpc' | hpc' <;> simp [hpc'] at hpc
  upcoming hpc' := by simp [hpc'] at hpc

/-- A staging copy puts its chunk into its half. -/
theorem prefill_bytes (hmem : c.memType = .cpu ∨ c.buffer.memType ≠ .cpu)
    (h64 : c.buffer.bufferSize < 2 ^ 64) (hhalf : 0 < c.halfBufferSize) (i : ℕ) :
    (c.prefill e i true).bytes = blit e.bytes (i % 2 * c.halfBufferSize)
      (fun k => c.input (i * c.chunkSize + k)) (chunkLen c.sendFlags c.chunkSize i) := by
  have hlen : chunkLen c.sendFlags c.chunkSize i ≤ c.chunkSize := chunkLen_le
  have hle := c.chunkSize_le_half hhalf
  have hfit : i % 2 * c.halfBufferSize + chunkLen c.sendFlags c.chunkSize i ≤
      c.buffer.bufferSize := by
    have hb : c.halfBufferSize = c.buffer.bufferSize / 2 := rfl
    rcases Nat.mod_two_eq_zero_or_one i with hi | hi <;> rw [hi] <;> omega
  rw [SendCall.prefill, ConnBuffer.stageIn_eq hfit h64 hmem]

/-- A staging copy of chunk `i` keeps every chunk of the other half. -/
theorem holds_prefill_other (hmem : c.memType = .cpu ∨ c.buffer.memType ≠ .cpu)
    (h64 : c.buffer.bufferSize < 2 ^ 64) (hhalf : 0 < c.halfBufferSize) {i k : ℕ}
    (hik : k % 2 ≠ i % 2) (h : c.Holds e.bytes k) : c.Holds (c.prefill e i true).bytes k := by
  rw [prefill_bytes hmem h64 hhalf]
  exact SendCall.holds_blit_other hhalf hik chunkLen_le h

theorem holds_prefill_self (hmem : c.memType = .cpu ∨ c.buffer.memType ≠ .cpu)
    (h64 : c.buffer.bufferSize < 2 ^ 64) (hhalf : 0 < c.halfBufferSize) (i : ℕ) :
    c.Holds (c.prefill e i true).bytes i := by
  rw [prefill_bytes hmem h64 hhalf]
  exact SendCall.holds_blit_self fun _ _ => rfl

/-- The only data write that can be queued on the half of chunk `i + 1` while chunk `i` is
current is the one of chunk `i - 1`. -/
theorem parity_of_pending (ho : SenderInv c e.nic e.uhm.state t granted m)
    (hg : ∀ k, granted k → e.nic.Executed (1 + 2 * k)) (hn : e.nic.next = 3 + 2 * t.currentChunk)
    (hclean : 1 ≤ t.currentChunk → ¬ e.nic.Pending (1 + 2 * (t.currentChunk - 1))) {k : ℕ}
    (hk : e.nic.Pending (1 + 2 * k)) : k % 2 ≠ (t.currentChunk + 1) % 2 := by
  intro hpar
  have hlt := ho.ordered.lt_next hk.choose_spec.choose_spec
  -- an older data write of this half was answered before the current one was posted
  have hrecent : ¬ k + 2 ≤ t.currentChunk := fun hle =>
    (hg k (ho.data_granted k (by omega))).not_pending hk
  obtain rfl : k = t.currentChunk - 1 := by omega
  exact hclean (by omega) hk

/-- A request is posted: the header, the data of a chunk that is in its half, or a flag. -/
theorem posted (h : SenderData c e t) (hlive : ∀ ret, t.pc ≠ .done ret) {q : ℕ} {write : RdmaWrite}
    {signaled : Bool} (hheader : t.pc = .postState ∨ 0 < e.nic.next)
    (hdata : ∀ k, 1 + 2 * k = e.nic.next → c.Holds e.bytes k)
    (hpc : t'.pc ∉ [.initChunkBytes, .waitState, .spin, .postData, .waitPending]) :
    SenderData c (e.postWrite q write signaled) t' where
  admitted _ := h.admitted (.inr hlive)
  header_length hpc' := by simp [hpc'] at hpc
  header _ := h.header hheader
  pending k hk := (SendQueues.pending_post.mp hk).elim (h.pending k) (hdata k)
  current hpc' := by rcases hpc' with hpc' | hpc' | hpc' <;> simp [hpc'] at hpc
  upcoming hpc' := by simp [hpc'] at hpc

/-- The first chunk is staged while only the header is posted. -/
theorem prefillFirst (hmem : c.memType = .cpu ∨ c.buffer.memType ≠ .cpu)
    (h64 : c.buffer.bufferSize < 2 ^ 64) (h : SenderData c e t)
    (ho : SenderInv c e.nic e.uhm.state t granted m) (hpc : t.pc = .prefillFirst) :
    SenderData c (c.prefill e 0 true) (t.goto .waitState) := by
  have hp := ho.place
  simp only [hpc, SendPc.At] at hp
  obtain ⟨hlt, hhalf⟩ := h.admitted (.inr (by simp [hpc]))
  exact
    { admitted := fun _ => ⟨hlt, hhalf⟩
      header_length := by simp [Sender.goto]
      header := fun _ => h.header (.inr (by omega))
      pending := fun k hk => by
        have := ho.ordered.lt_next hk.choose_spec.choose_spec
        omega
      current := fun _ => by
        rw [show (t.goto .waitState).currentChunk = 0 from hp.1]
        exact holds_prefill_self hmem h64 hhalf 0
      upcoming := by simp [Sender.goto] }

/-- The next chunk is staged into a half that no queued data write reads. -/
theorem prefillNext (hmem : c.memType = .cpu ∨ c.buffer.memType ≠ .cpu)
    (h64 : c.buffer.bufferSize < 2 ^ 64) (h : SenderData c e t)
    (ho : SenderInv c e.nic e.uhm.state t granted m)
    (hg : ∀ k, granted k → e.nic.Executed (1 + 2 * k)) (hpc : t.pc = .prefillNext)
    (hclean : 1 ≤ t.currentChunk → ¬ e.nic.Pending (1 + 2 * (t.currentChunk - 1))) :
    SenderData c (c.prefill e (t.currentChunk + 1) true) (t.goto .waitPending) := by
  have hp := ho.place
  simp only [hpc, SendPc.At] at hp
  obtain ⟨hlt, hhalf⟩ := h.admitted (.inr (by simp [hpc]))
  exact
    { admitted := fun _ => ⟨hlt, hhalf⟩
      header_length := by simp [Sender.goto]
      header := fun _ => h.header (.inr (by omega))
      pending := fun k hk => holds_prefill_other hmem h64 hhalf
        (parity_of_pending ho hg hp.2.1 hclean hk) (h.pending k hk)
      current := by simp [Sender.goto]
      upcoming := fun _ _ => holds_prefill_self hmem h64 hhalf _ }

/-- **One step of `uhm_send`** keeps its data in place, when the copies succeed and no half is
refilled under a queued data write. The posts are `posted`, the copies `prefillFirst` and
`prefillNext`; every other step leaves the buffer as it is. -/
theorem step (hmem : c.memType = .cpu ∨ c.buffer.memType ≠ .cpu)
    (h64 : c.buffer.bufferSize < 2 ^ 64) (h : SenderData c e t)
    (ho : SenderInv c e.nic e.uhm.state t granted m)
    (hg : ∀ k, granted k → e.nic.Executed (1 + 2 * k)) {ok : Bool}
    (hstaged : t.pc = .prefillFirst ∨
      t.pc = .prefillNext ∧ t.currentChunk + 1 < c.numSendChunks → ok = true)
    (hclean : t.pc = .prefillNext → 1 ≤ t.currentChunk → t.currentChunk + 1 < c.numSendChunks →
      ¬ e.nic.Pending (1 + 2 * (t.currentChunk - 1)))
    (hs : c.step ok e t = some (e', t')) : SenderData c e' t' := by
  have hp := ho.place
  cases hpc : t.pc <;> simp only [SendCall.step, hpc] at hs <;> simp only [hpc, SendPc.At] at hp
  case done => cases hs
  all_goals have hlive : ∀ ret, t.pc ≠ .done ret := by simp [hpc]
  all_goals obtain ⟨hlt, hhalf⟩ := h.admitted (.inr hlive)
  case initState0 =>
    cases hs
    exact h.handshake ho hlive rfl hp.2.1 (by simp [Sender.goto]) (by simp [Sender.goto])
      (by simp [Sender.goto])
  case initState1 =>
    cases hs
    exact h.handshake ho hlive rfl hp.2.1 (by simp [Sender.goto]) (by simp [Sender.goto])
      (by simp [Sender.goto])
  case initLength =>
    cases hs
    exact h.handshake ho hlive rfl hp.2.1 (by simp [Sender.goto])
      (fun _ => wrap32_of_lt hlt) (by simp [Sender.goto])
  case initChunkBytes =>
    cases hs
    exact h.handshake ho hlive rfl hp.2.1 (by simp [Sender.goto]) (by simp [Sender.goto])
      (fun _ => ⟨h.header_length hpc, wrap32_of_lt c.chunkSize_lt⟩)
  case postState =>
    split_ifs at hs <;> cases hs
    · exact h.posted hlive (.inl hpc) (fun k hk => by omega) (by simp)
    · exact h.takeWrId.toDone _ _
  case prefillFirst =>
    cases hs
    obtain rfl := hstaged (.inl hpc)
    exact h.prefillFirst hmem h64 ho hpc
  case waitState =>
    split_ifs at hs <;> cases hs
    · exact h.loopHead hlive (by omega) fun _ => h.current (.inl hpc)
    · exact h.toDone _ _
  case spin =>
    cases hs
    split_ifs
    · exact h.moveOn hlive (by omega) (by simp [Sender.goto])
        (fun _ => h.current (.inr (.inl hpc))) (by simp [Sender.goto])
    · exact h
  case postData =>
    split_ifs at hs <;> cases hs
    · refine h.posted hlive (.inr (by omega)) (fun k hk => ?_) (by simp [Sender.goto])
      obtain rfl : k = t.currentChunk := by omega
      exact h.current (.inr (.inr hpc))
    · exact h.takeWrId.toDone _ _
  case markReadable =>
    cases hs
    have hend : SenderData c e (t.goto .postFlag) :=
      h.moveOn hlive (by omega) (by simp [Sender.goto]) (by simp [Sender.goto])
        (by simp [Sender.goto])
    exact { hend with }
  case postFlag =>
    split_ifs at hs <;> cases hs
    · have ht' : (c.flagPosted t e.nextWrId).pc = .prefillNext := by
        unfold SendCall.flagPosted
        split_ifs <;> rfl
      exact h.posted hlive (.inr (by omega)) (fun k hk => by omega) (by simp [ht'])
    · exact h.takeWrId.toDone _ _
  case prefillNext =>
    cases hs
    split_ifs with hnext
    · obtain rfl := hstaged (.inr ⟨hpc, hnext⟩)
      exact h.prefillNext hmem h64 ho hg hpc fun hi => hclean hpc hi hnext
    · exact h.moveOn hlive (by omega) (by simp [Sender.goto]) (by simp [Sender.goto])
        fun _ hlt' => absurd hlt' hnext
  case waitPending =>
    have hnext : ∀ pending : List ℕ, SenderData c e (c.loopHead
        { t with pendingSignaled := pending, currentChunk := t.currentChunk + 1 }) :=
      fun _ => h.loopHead hlive (by omega) (h.upcoming hpc)
    split_ifs at hs <;> cases hs
    · exact hnext _
    · exact h.toDone _ _
    · exact hnext t.pendingSignaled
  case finalWait =>
    split_ifs at hs <;> cases hs <;> exact h.toDone _ _

end SenderData

end HMC.Uhm
