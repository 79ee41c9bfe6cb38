import HMC.Uhm.Order
import HMC.Uhm.Session
import HMC.Uhm.Staging

/-!
# One call of a session

A call of a session runs on an endpoint that still carries the posts of earlier calls.
`Endpoint.view` is the endpoint as the call sees it: the posts from a number on, counted from
zero. A step of a call is a step on its view (`SendCall.step_view`, `RecvCall.step_view`), so
the invariants `SenderInv` and `ReceiverInv` of one transfer apply to each call.

The flag words of the sender's view may differ from the real ones: once the receiver has gone
on to its next call, a late write-back carries whatever that call has stored. `Shadows` is the
relation that survives this: a real `CAN_WRITE` is one of the view's, too.

The remaining lemmas follow the header through a call (`Announced`, `Header`, `Taken`), so that
the receiver counts no more chunks than the sender. The receiver may clear a field of a header that
has already come, and then falls back to its own half for the chunk size, or fails for a length of
zero; in either case it does not count more chunks, if a chunk of the sender fits into a half.
-/

namespace HMC.Uhm

open HMC.Machine

/-! ### Views -/

/-- The endpoint with the posts from number `base` on, and `words` for its flag words. -/
def Endpoint.view (e : Endpoint) (base : ℕ) (words : ℕ → ℕ) : Endpoint :=
  { e with nic := e.nic.since base, uhm := { e.uhm with state := words } }

/-- Where the ideal words say `CAN_READ` so do the real ones, and where the real words say
`CAN_WRITE` so do the ideal ones. -/
structure Shadows (words ideal : ℕ → ℕ) : Prop where
  full : ∀ h, ideal h = canRead → words h = canRead
  free : ∀ h, words h = canWrite → ideal h = canWrite

namespace Shadows

variable {words ideal : ℕ → ℕ}

theorem refl (words : ℕ → ℕ) : Shadows words words := ⟨fun _ h => h, fun _ h => h⟩

/-- The same store on both sides. -/
theorem store (h : Shadows words ideal) (i v : ℕ) :
    Shadows (Function.update words i v) (Function.update ideal i v) := by
  constructor <;> intro k hk <;> by_cases he : k = i
  · subst he
    simpa using hk
  · rw [Function.update_of_ne he] at hk ⊢
    exact h.full k hk
  · subst he
    simpa using hk
  · rw [Function.update_of_ne he] at hk ⊢
    exact h.free k hk

/-- A write-back that carries an arbitrary word, and ideally `CAN_WRITE`. -/
theorem grant (h : Shadows words ideal) (i v : ℕ) :
    Shadows (Function.update words i v) (Function.update ideal i canWrite) := by
  constructor <;> intro k hk <;> by_cases he : k = i
  · subst he
    rw [Function.update_self] at hk
    exact absurd hk.symm canRead_ne_canWrite
  · rw [Function.update_of_ne he] at hk ⊢
    exact h.full k hk
  · subst he
    rw [Function.update_self]
  · rw [Function.update_of_ne he] at hk ⊢
    exact h.free k hk

end Shadows

namespace Endpoint

variable {e : Endpoint} {base : ℕ} {words : ℕ → ℕ}

theorem view_postWrite (h : base ≤ e.nic.next) (q : ℕ) (write : RdmaWrite) (signaled : Bool) :
    (e.postWrite q write signaled).view base words =
      (e.view base words).postWrite q write signaled := by
  simp only [view, postWrite, takeWrId, SendQueues.since_post h]

theorem Completed.view {queues id : ℕ} (h : e.Completed queues id) :
    (e.view base words).Completed queues id := by
  rintro q hq ⟨t, r⟩ hr
  exact h q hq (base + t, r) (SendQueues.queued_since.mp hr)

theorem AllCompleted.view {queues : ℕ} {ids : List ℕ} (h : e.AllCompleted queues ids) :
    (e.view base words).AllCompleted queues ids := fun id hid => (h id hid).view

end Endpoint

/-! ### Steps on a view -/

/-- A step of `uhm_send` is one on the call's view, unless the thread looks at a word that only
ideally lets it on. -/
theorem SendCall.step_view {c : SendCall} {ok : Bool} {e e' : Endpoint} {t t' : Sender}
    {base : ℕ} {ideal : ℕ → ℕ} (hb : base ≤ e.nic.next) (hw : Shadows e.uhm.state ideal)
    (hs : c.step ok e t = some (e', t')) :
    (t.pc = .spin ∧ e' = e ∧ t' = t) ∨
      ∃ ideal', Shadows e'.uhm.state ideal' ∧
        c.step ok (e.view base ideal) t = some (e'.view base ideal', t') := by
  cases hpc : t.pc <;> simp only [step, hpc] at hs
  case initState0 | initState1 | markReadable =>
    cases hs
    refine .inr ⟨_, hw.store _ _, ?_⟩
    simp only [step, hpc]
    rfl
  case initLength | initChunkBytes | prefillFirst =>
    cases hs
    refine .inr ⟨ideal, hw, ?_⟩
    simp only [step, hpc]
    rfl
  case postState | postData | postFlag =>
    refine .inr ⟨ideal, ?_, ?_⟩
    · split_ifs at hs <;> cases hs <;> exact hw
    · simp only [step, hpc]
      split_ifs at hs with hok <;> cases hs
      · exact (if_pos hok).trans
          (congrArg (fun e' => some (e', _)) (Endpoint.view_postWrite hb _ _ _).symm)
      · exact if_neg hok
  case waitState =>
    refine .inr ⟨ideal, ?_, ?_⟩
    · split_ifs at hs <;> cases hs <;> exact hw
    · simp only [step, hpc]
      split_ifs at hs with hok hc <;> cases hs
      · rw [if_pos hok, if_pos hc.view]
      · rw [if_neg hok]
  case spin =>
    cases hs
    by_cases hword : e.uhm.state (t.currentChunk % 2) = canWrite
    · refine .inr ⟨ideal, hw, ?_⟩
      simp only [step, hpc, if_pos hword]
      rw [Endpoint.view, if_pos (hw.free _ hword)]
    · exact .inl ⟨rfl, rfl, if_neg hword⟩
  case prefillNext =>
    cases hs
    refine .inr ⟨ideal, ?_, ?_⟩
    · split_ifs <;> exact hw
    · simp only [step, hpc]
      split_ifs <;> rfl
  case waitPending =>
    refine .inr ⟨ideal, ?_, ?_⟩
    · split_ifs at hs <;> cases hs <;> exact hw
    · simp only [step, hpc]
      split_ifs at hs with hlen hok hc <;> cases hs
      · rw [if_pos hlen, if_pos hok, if_pos hc.view]
      · rw [if_pos hlen, if_neg hok]
      · rw [if_neg hlen]
  case finalWait =>
    refine .inr ⟨ideal, ?_, ?_⟩
    · split_ifs at hs <;> cases hs <;> exact hw
    · simp only [step, hpc]
      split_ifs at hs with hok hc <;> cases hs
      · rw [if_pos hok, if_pos hc.view]
      · rw [if_neg hok]
  case done => cases hs

/-- A step of `uhm_recv` is one on the call's view. -/
theorem RecvCall.step_view {c : RecvCall} {ok : Bool} {e e' : Endpoint} {t t' : Receiver}
    {base : ℕ} (hb : base ≤ e.nic.next) (hs : c.step ok e t = some (e', t')) :
    c.step ok (e.view base e.uhm.state) t = some (e'.view base e'.uhm.state, t') := by
  cases hpc : t.pc <;> simp only [step, hpc] at hs ⊢
  case postFlag =>
    split_ifs at hs with hok <;> cases hs
    · rw [if_pos hok, Endpoint.view_postWrite hb]
      rfl
    · rw [if_neg hok]
      rfl
  case waitPending =>
    split_ifs at hs with hlen hok hc <;> cases hs
    · rw [if_pos hlen, if_pos hok, if_pos hc.view]
    · rw [if_pos hlen, if_neg hok]
    · rw [if_neg hlen]
  case finalWait =>
    split_ifs at hs with hok hc <;> cases hs
    · rw [if_pos hok, if_pos hc.view]
    · rw [if_neg hok]
  case done => cases hs
  all_goals
    cases hs
    rfl

/-! ### Posts -/

/-- A step of `uhm_send` posts at most one write. -/
theorem SendCall.nic_step {c : SendCall} {ok : Bool} {e e' : Endpoint} {t t' : Sender}
    (hs : c.step ok e t = some (e', t')) :
    e'.nic = e.nic ∨ ∃ q r, e'.nic = e.nic.post q r := by
  cases hpc : t.pc <;> simp only [step, hpc] at hs <;> try split_ifs at hs
  all_goals cases hs
  all_goals first
    | exact .inl rfl
    | exact .inr ⟨_, _, rfl⟩

/-- A step of `uhm_recv` posts at most one write-back. -/
theorem RecvCall.nic_step {c : RecvCall} {ok : Bool} {e e' : Endpoint} {t t' : Receiver}
    (hs : c.step ok e t = some (e', t')) :
    e'.nic = e.nic ∨ ∃ q r, e'.nic = e.nic.post q r := by
  cases hpc : t.pc <;> simp only [step, hpc] at hs <;> try split_ifs at hs
  all_goals cases hs
  all_goals first
    | exact .inl rfl
    | exact .inr ⟨_, _, rfl⟩

theorem SendCall.loopHead_done {c : SendCall} {t : Sender}
    (h : (c.loopHead t).pc = .done .success) : ¬ t.currentChunk < c.numSendChunks := by
  intro hlt
  rw [loopHead, if_pos hlt] at h
  cases h

/-- A `uhm_send` that goes through its chunk loop and succeeds has posted the header and two
writes for each chunk. -/
theorem SenderInv.posted_of_success {c : SendCall} {e e' : Endpoint} {t t' : Sender}
    {granted : ℕ → Prop} {m : ℕ} {ok : Bool}
    (h : SenderInv c e.nic e.uhm.state t granted m) (hs : c.step ok e t = some (e', t'))
    (ht : t'.pc = .done .success) : e'.nic.next = 1 + 2 * c.numSendChunks := by
  have hp := h.place
  cases hpc : t.pc <;> simp only [SendCall.step, hpc] at hs <;> simp only [hpc, SendPc.At] at hp
  case waitState =>
    split_ifs at hs <;> cases hs
    · have := SendCall.loopHead_done ht
      omega
    · cases ht
  case waitPending =>
    split_ifs at hs <;> cases hs
    · have := SendCall.loopHead_done ht
      simp only at this
      omega
    · cases ht
    · have := SendCall.loopHead_done ht
      simp only at this
      omega
  case finalWait =>
    split_ifs at hs <;> cases hs
    · omega
    · cases ht
  case postFlag =>
    split_ifs at hs <;> cases hs
    · unfold SendCall.flagPosted at ht
      split_ifs at ht
    · cases ht
  case spin =>
    cases hs
    split_ifs at ht
    · cases ht
    · rw [hpc] at ht
      cases ht
  case done => cases hs
  all_goals
    try split_ifs at hs
    all_goals
      cases hs
      cases ht

/-! ### The header -/

/-- The sender's memory holds the header of the call while it is prepared and once it is
posted. -/
structure Announced (c : SendCall) (e : Endpoint) (t : Sender) : Prop where
  length : t.pc = .initChunkBytes → e.uhm.length = wrap32 c.sendFlags
  header : t.pc = .postState ∨ 0 < e.nic.next →
    e.uhm.length = wrap32 c.sendFlags ∧ e.uhm.chunkBytes = wrap32 c.chunkSize

/-- What the receiver may find of a header that has arrived: it has cleared each of the two
fields, or not. -/
structure Header (s : SendCall) (u : UHMBufferState) : Prop where
  length : u.length = 0 ∨ u.length = wrap32 s.sendFlags
  chunkBytes : u.chunkBytes = 0 ∨ u.chunkBytes = wrap32 s.chunkSize

/-- `uhm_recv` only clears the header. -/
theorem Header.recv_step {s : SendCall} {c : RecvCall} {ok : Bool} {e e' : Endpoint}
    {t t' : Receiver} (h : Header s e.uhm) (hs : c.step ok e t = some (e', t')) :
    Header s e'.uhm := by
  cases hpc : t.pc <;> simp only [RecvCall.step, hpc] at hs <;> try split_ifs at hs
  all_goals cases hs
  case initLength => exact ⟨.inl rfl, h.chunkBytes⟩
  case initChunkBytes => exact ⟨h.length, .inl rfl⟩
  all_goals exact ⟨h.length, h.chunkBytes⟩

theorem SendCall.sendFlags_of_enter {c : SendCall} (h : c.enter.pc = .done .success) :
    c.sendFlags = 0 := by
  unfold enter at h
  dsimp only at h
  split_ifs at h with hz
  · exact hz
  all_goals cases h

namespace Announced

variable {c : SendCall} {e e' : Endpoint} {t t' : Sender} {granted : ℕ → Prop} {m : ℕ}
  {words : ℕ → ℕ}

theorem enter (c : SendCall) (h : e.nic.next = 0) : Announced c e c.enter := by
  obtain hpc | ⟨ret, hpc⟩ := c.enter_pc
  · exact ⟨by simp [hpc], by simp [hpc, h]⟩
  · exact ⟨by simp [hpc], by simp [hpc, h]⟩

/-- Behind the header write nothing changes the header any more. -/
theorem keep (h : Announced c e t) (hn : 0 < e.nic.next)
    (hl : e'.uhm.length = e.uhm.length) (hc : e'.uhm.chunkBytes = e.uhm.chunkBytes)
    (hpc : t'.pc ≠ .initChunkBytes) : Announced c e' t' := by
  refine ⟨fun hp => absurd hp hpc, fun _ => ?_⟩
  rw [hl, hc]
  exact h.header (.inr hn)

/-- **One step** of `uhm_send`: the header that it has prepared stays in its memory. -/
theorem step (h : Announced c e t) (ho : SenderInv c e.nic words t granted m) {ok : Bool}
    (hs : c.step ok e t = some (e', t')) : Announced c e' t' := by
  have hp := ho.place
  have hloop : ∀ t : Sender, (c.loopHead t).pc ≠ .initChunkBytes := by
    intro t
    obtain ⟨heq, -⟩ | ⟨heq, -⟩ | heq := c.loopHead_cases t <;> rw [heq] <;> simp [Sender.goto]
  cases hpc : t.pc <;> simp only [SendCall.step, hpc] at hs <;> simp only [hpc, SendPc.At] at hp
  case initState0 | initState1 =>
    cases hs
    exact ⟨by simp [Sender.goto], by simp [Sender.goto, hp.2.1]⟩
  case initLength =>
    cases hs
    exact ⟨fun _ => rfl, by simp [Sender.goto, Endpoint.setLength, hp.2.1]⟩
  case initChunkBytes =>
    cases hs
    exact ⟨by simp [Sender.goto], fun _ => ⟨h.length hpc, rfl⟩⟩
  case postState =>
    have hh := h.header (.inl hpc)
    split_ifs at hs <;> cases hs
    · exact ⟨by simp, fun _ => hh⟩
    · exact ⟨by simp [Sender.goto], fun _ => hh⟩
  case postFlag =>
    split_ifs at hs <;> cases hs
    · refine h.keep (by omega) rfl rfl ?_
      unfold SendCall.flagPosted
      split_ifs <;> simp
    · exact h.keep (by omega) rfl rfl (by simp [Sender.goto])
  case waitState =>
    split_ifs at hs <;> cases hs
    · exact h.keep (by omega) rfl rfl (hloop _)
    · exact h.keep (by omega) rfl rfl (by simp [Sender.goto])
  case waitPending =>
    split_ifs at hs <;> cases hs
    · exact h.keep (by omega) rfl rfl (hloop _)
    · exact h.keep (by omega) rfl rfl (by simp [Sender.goto])
    · exact h.keep (by omega) rfl rfl (hloop _)
  case spin =>
    cases hs
    refine h.keep (by omega) rfl rfl ?_
    split_ifs <;> simp [Sender.goto, hpc]
  case prefillNext =>
    cases hs
    refine h.keep (by omega) ?_ ?_ (by simp [Sender.goto]) <;> split_ifs <;> rfl
  case done => cases hs
  all_goals
    try split_ifs at hs
    all_goals
      cases hs
      exact h.keep (by omega) rfl rfl (by simp [Sender.goto])

end Announced

/-! ### What the receiver takes from the header -/

/-- The locations behind the header, up to the return. -/
def RecvPc.counting : RecvPc → Bool
  | .storeState0 | .storeState1 | .finalWait | .done .success => true
  | pc => pc.inLoop

/-- The receiver counts no more chunks than the sender `s`; `last` holds once it has copied its
last chunk out, so before its last write-back is posted. -/
structure Taken (s : SendCall) (posted : ℕ) (t : Receiver) (last : Prop) : Prop where
  read : t.pc = .readChunkBytes → t.recvFlags = 0 ∨ t.recvFlags = wrap32 s.sendFlags
  posted_le : posted ≤ t.numRecvChunks
  chunks_le : t.numRecvChunks ≤ s.numSendChunks
  pos : t.pc.counting = true → 0 < t.numRecvChunks
  last : 0 < t.numRecvChunks → t.numRecvChunks = posted ∨
    (t.pc = .markWritable ∨ t.pc = .postFlag) ∧ t.currentChunk + 1 = t.numRecvChunks → last

/-- A shorter message in larger chunks has no more of them. -/
theorem numChunks_mono {n n' c c' : ℕ} (hc : 0 < c') (hcc : c' ≤ c) (hn : n ≤ n') :
    numChunks n c ≤ numChunks n' c' := by
  by_contra hlt
  have hi := (lt_numChunks_iff (by omega)).mp (Nat.not_le.mp hlt)
  have hmul := Nat.mul_le_mul_left (numChunks n' c') hcc
  have := (lt_numChunks_iff hc).mpr (show numChunks n' c' * c' < n' by omega)
  omega

/-- Whatever the receiver has cleared of the header, it counts no more chunks than the sender. -/
theorem RecvCall.numChunks_le {c : RecvCall} {s : SendCall} {u : UHMBufferState} {flags : ℕ}
    (hfit : s.chunkSize ≤ c.halfBufferSize) (hh : Header s u)
    (hf : flags = 0 ∨ flags = wrap32 s.sendFlags) :
    numChunks flags (c.chunkSizeOf u.chunkBytes) ≤ s.numSendChunks := by
  have hpos := s.chunkSize_pos
  refine numChunks_mono hpos ?_ ?_
  · rw [chunkSizeOf]
    obtain hc | hc := hh.chunkBytes
    · rw [if_pos hc]
      omega
    · rw [hc, wrap32_of_lt s.chunkSize_lt]
      split_ifs <;> omega
  · have : wrap32 s.sendFlags ≤ s.sendFlags := Nat.mod_le _ _
    omega

namespace Taken

variable {s : SendCall} {c : RecvCall} {e e' : Endpoint} {t t' : Receiver} {last last' : Prop}
  {booted : Prop} {flagged : ℕ → Prop} {m posted : ℕ}

theorem mono (h : Taken s posted t last) (hl : last → last') : Taken s posted t last' :=
  { h with last := fun hn hp => hl (h.last hn hp) }

theorem enter (s : SendCall) (c : RecvCall) (output : Bytes) (recvFlags : ℕ) (last : Prop) :
    Taken s 0 (c.enter output recvFlags) last where
  read hpc := by
    unfold RecvCall.enter at hpc
    dsimp only at hpc
    split_ifs at hpc
  posted_le := Nat.zero_le _
  chunks_le := Nat.zero_le _
  pos hpc := by
    unfold RecvCall.enter at hpc
    dsimp only at hpc
    split_ifs at hpc <;> simp [RecvPc.counting, RecvPc.inLoop] at hpc
  last hn := absurd hn (Nat.lt_irrefl 0)

/-- A step that keeps the count and does not stand between the copy and the write-back. -/
theorem keep (h : Taken s posted t last) (hnum : t'.numRecvChunks = t.numRecvChunks)
    (hread : t'.pc ≠ .readChunkBytes) (hpc : t'.pc ≠ .markWritable ∧ t'.pc ≠ .postFlag)
    (hpos : t'.pc.counting = true → 0 < t.numRecvChunks) : Taken s posted t' last where
  read hp := absurd hp hread
  posted_le := by
    rw [hnum]
    exact h.posted_le
  chunks_le := by
    rw [hnum]
    exact h.chunks_le
  pos hp := by
    rw [hnum]
    exact hpos hp
  last hn hp := by
    rw [hnum] at hn hp
    refine h.last hn (hp.imp_right fun hp => ?_)
    exact (hp.1.elim hpc.1 hpc.2).elim

/-- The head of the receiver's loop keeps the count. -/
theorem loopHead (h : Taken s posted t last) (hnum : t'.numRecvChunks = t.numRecvChunks)
    (hpos : 0 < t.numRecvChunks) : Taken s posted t'.loopHead last := by
  unfold Receiver.loopHead
  split_ifs <;> exact h.keep hnum (by simp [Receiver.goto]) (by simp [Receiver.goto]) fun _ => hpos

/-- The chunks are counted: there are no more of them than the sender has, and none is posted. -/
theorem headerRead (h : Taken s posted t last)
    (ho : ReceiverInv c e.nic e.uhm.state t booted flagged m)
    (hfit : s.chunkSize ≤ c.halfBufferSize) (hh : booted → Header s e.uhm)
    (hpc : t.pc = .readChunkBytes) (hposted : posted = 0) :
    Taken s posted (c.headerRead t e.uhm.chunkBytes) last := by
  unfold RecvCall.headerRead
  split_ifs with hz
  · exact h.keep rfl (by simp [Receiver.goto]) (by simp [Receiver.goto])
      (by simp [Receiver.goto, RecvPc.counting, RecvPc.inLoop])
  · have hcount : 0 < numChunks t.recvFlags (c.chunkSizeOf e.uhm.chunkBytes) := by
      refine numChunks_pos ?_ (Nat.pos_of_ne_zero hz)
      rw [RecvCall.chunkSizeOf]
      omega
    exact
      { read := by simp
        posted_le := by omega
        chunks_le := RecvCall.numChunks_le hfit (hh (ho.booted (.inr (by rw [hpc]; rfl))))
          (h.read hpc)
        pos := fun _ => hcount
        last := fun hn hl => by
          simp only [hposted, reduceCtorEq, false_and, or_false] at hn hl
          omega }

/-- A chunk is copied out, or the call fails; `hcopy` is what the copy of the last chunk brings. -/
theorem copyOut (h : Taken s posted t last) (hpos : 0 < t.numRecvChunks) {ok : Bool}
    (hcopy : t.currentChunk + 1 = t.numRecvChunks → (c.copyOut e t ok).pc = .markWritable → last) :
    Taken s posted (c.copyOut e t ok) last := by
  unfold RecvCall.copyOut at hcopy ⊢
  dsimp only at hcopy ⊢
  split_ifs at hcopy ⊢ with h₁ h₂ h₃
  · exact h.keep rfl (by simp [Receiver.goto]) (by simp [Receiver.goto]) fun _ => hpos
  · exact h.keep rfl (by simp [Receiver.goto]) (by simp [Receiver.goto]) fun _ => hpos
  · exact h.keep rfl (by simp [Receiver.goto]) (by simp [Receiver.goto]) fun _ => hpos
  · exact
      { read := by simp
        posted_le := h.posted_le
        chunks_le := h.chunks_le
        pos := fun _ => hpos
        last := fun hn hl => hl.elim (fun hl => h.last hn (.inl hl)) fun hl => hcopy hl.2 rfl }

/-- The write-back of a chunk is posted; that of the last one follows its copy. -/
theorem flagPosted (h : Taken s posted t last) (hpc : t.pc = .postFlag)
    (hlt : t.currentChunk < t.numRecvChunks) (hposted : posted = t.currentChunk) (id : ℕ) :
    Taken s (posted + 1) (c.flagPosted t id) last := by
  have hnum : (c.flagPosted t id).numRecvChunks = t.numRecvChunks := by
    unfold RecvCall.flagPosted
    split_ifs <;> rfl
  have hwait : (c.flagPosted t id).pc = .waitPending := by
    unfold RecvCall.flagPosted
    split_ifs <;> rfl
  refine ⟨by simp [hwait], by omega, hnum ▸ h.chunks_le, fun _ => by omega, fun hn hl => ?_⟩
  rw [hnum, hwait] at hl
  simp only [reduceCtorEq, or_self, false_and, or_false] at hl
  exact h.last (by omega) (.inr ⟨.inr hpc, by omega⟩)

/-- **One step of `uhm_recv`** keeps the count, when a sender's chunk fits into a half. -/
theorem step (h : Taken s e.nic.next t last)
    (ho : ReceiverInv c e.nic e.uhm.state t booted flagged m)
    (hfit : s.chunkSize ≤ c.halfBufferSize) (hh : booted → Header s e.uhm)
    (hlast : last → last') {ok : Bool}
    (hcopy : t.pc = .copyOut → t.currentChunk + 1 = t.numRecvChunks →
      (c.copyOut e t ok).pc = .markWritable → last')
    (hs : c.step ok e t = some (e', t')) : Taken s e'.nic.next t' last' := by
  have hp := ho.place
  have hpos := h.pos
  have hk := h.mono hlast
  cases hpc : t.pc <;> simp only [RecvCall.step, hpc] at hs <;> simp only [hpc, RecvPc.At] at hp
  case readLength =>
    cases hs
    exact
      { hk with
        read := fun _ => (hh (ho.booted (.inr (by rw [hpc]; rfl)))).length
        pos := by simp [RecvPc.counting, RecvPc.inLoop]
        last := fun hn hl => hk.last hn (hl.imp_right fun hl => by simp at hl) }
  case readChunkBytes =>
    cases hs
    exact hk.headerRead ho hfit hh hpc hp.2.1
  case storeState1 =>
    cases hs
    exact hk.loopHead rfl (hpos (by rw [hpc]; rfl))
  case spin =>
    cases hs
    split_ifs
    · exact hk.keep rfl (by simp [Receiver.goto]) (by simp [Receiver.goto])
        fun _ => hpos (by rw [hpc]; rfl)
    · exact hk
  case copyOut =>
    cases hs
    exact hk.copyOut (hpos (by rw [hpc]; rfl)) (hcopy hpc)
  case markWritable =>
    cases hs
    exact
      { read := by simp [Receiver.goto]
        posted_le := h.posted_le
        chunks_le := h.chunks_le
        pos := fun _ => hpos (by rw [hpc]; rfl)
        last := fun hn hl => hk.last hn (hl.imp_right fun hl => ⟨.inl hpc, hl.2⟩) }
  case postFlag =>
    split_ifs at hs <;> cases hs
    · exact hk.flagPosted hpc (by omega) (by omega) _
    · exact hk.keep rfl (by simp [Receiver.goto]) (by simp [Receiver.goto])
        (by simp [Receiver.goto, RecvPc.counting, RecvPc.inLoop])
  case waitPending =>
    have hcount := hpos (by rw [hpc]; rfl)
    split_ifs at hs <;> cases hs
    · exact hk.loopHead rfl hcount
    · exact hk.keep rfl (by simp [Receiver.goto]) (by simp [Receiver.goto]) fun _ => hcount
    · exact hk.loopHead rfl hcount
  case finalWait =>
    have hcount := hpos (by rw [hpc]; rfl)
    split_ifs at hs <;> cases hs <;>
      exact hk.keep rfl (by simp [Receiver.goto]) (by simp [Receiver.goto]) fun _ => hcount
  case storeState0 =>
    cases hs
    exact hk.keep rfl (by simp [Receiver.goto]) (by simp [Receiver.goto])
      fun _ => hpos (by rw [hpc]; rfl)
  case readState =>
    cases hs
    split_ifs
    · exact hk.keep rfl (by simp [Receiver.goto]) (by simp [Receiver.goto])
        (by simp [Receiver.goto, RecvPc.counting, RecvPc.inLoop])
    · exact hk
  case done => cases hs
  all_goals
    cases hs
    exact hk.keep rfl (by simp [Receiver.goto]) (by simp [Receiver.goto])
      (by simp [Receiver.goto, RecvPc.counting, RecvPc.inLoop])

end Taken

end HMC.Uhm
