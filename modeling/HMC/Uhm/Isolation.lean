import HMC.Uhm.Calls

/-!
# Consecutive transfers are isolated when both halves are given back

Suppose that a thread goes on to its next call only after a call that succeeded, and that a
send goes on only when both of its state words are `CAN_WRITE` again (`Session.Settled`).
Then every transfer of the session starts with nothing of the earlier ones in flight, and
`isolated_of_settled` is the claim: no write of a send lands too early and no write-back of a
receive too late.

While send `i` is current the receiver is in one of three places (`Place`): in receive `i`,
in the last waits of receive `i - 1`, or already in receive `i + 1`, where it waits for a
header. In the last case its late write-backs carry whatever the new call has stored, so the
sender's invariant is about ideal words that the real ones shadow.

The single transfer is not proved again. Each call is looked at through its own view, which numbers
its posts from zero (`Endpoint.view`), and a step of the session is a step of the transfer on
the view (`HMC.Uhm.Calls`); so `SenderInv` and `ReceiverInv` are kept by the lemmas that they have.
What is new is the end of a transfer: when a send has succeeded and both words are `CAN_WRITE`,
each chunk was given back, so nothing of it is in flight (`granted_of_settled`, `not_pending_snd`),
and the next send may start its own view.
-/

namespace HMC.Uhm

open HMC.Machine

/-! ### Where the receiver stands -/

/-- A receive that has given all its chunks back: only its waits are left. -/
def Receiver.Finishing (t : Receiver) : Prop :=
  t.pc = .waitPending ∧ t.currentChunk + 1 = t.numRecvChunks ∨ t.pc = .finalWait ∨
    ∃ ret, t.pc = .done ret

/-- A receiver that is past its last post leaves its endpoint as it is. -/
theorem Receiver.Finishing.step {c : RecvCall} {ok : Bool} {e e' : Endpoint} {t t' : Receiver}
    (h : t.Finishing) (hs : c.step ok e t = some (e', t')) : t'.Finishing ∧ e' = e := by
  have hlast : ∀ t : Receiver, t.currentChunk + 1 = t.numRecvChunks → t.nextChunk.Finishing := by
    intro t ht
    unfold Receiver.nextChunk Receiver.loopHead
    rw [if_neg (by simp only; omega)]
    split_ifs
    · exact .inr (.inl rfl)
    · exact .inr (.inr ⟨_, rfl⟩)
  obtain ⟨hpc, hend⟩ | hpc | ⟨ret, hpc⟩ := h <;> simp only [RecvCall.step, hpc] at hs
  · split_ifs at hs <;> cases hs
    · exact ⟨hlast _ hend, rfl⟩
    · exact ⟨.inr (.inr ⟨_, rfl⟩), rfl⟩
    · exact ⟨hlast _ hend, rfl⟩
  · split_ifs at hs <;> cases hs <;> exact ⟨.inr (.inr ⟨_, rfl⟩), rfl⟩
  · cases hs

/-- A receive all of whose write-backs are posted is finishing. -/
theorem ReceiverInv.finishing {c : RecvCall} {nic : SendQueues WorkRequest} {words : ℕ → ℕ}
    {t : Receiver} {booted : Prop} {flagged : ℕ → Prop} {m : ℕ}
    (h : ReceiverInv c nic words t booted flagged m) (hn : nic.next = t.numRecvChunks)
    (hpos : 0 < nic.next) : t.Finishing := by
  have hp := h.place
  cases hpc : t.pc <;> simp only [hpc, RecvPc.At] at hp
  case waitPending => exact .inl ⟨hpc, by omega⟩
  case finalWait => exact .inr (.inl hpc)
  case done => exact .inr (.inr ⟨_, hpc⟩)
  all_goals omega

/-- Receive `i`, whose posts are those from number `b` on, is over: each of its write-backs
answers a flag of send `i`. -/
structure GivenBack (S : Session) (i : ℕ) (nic : SendQueues WorkRequest) (b : ℕ) (booted : Prop)
    (flagged : ℕ → Prop) : Prop where
  booted : booted
  queued : ∀ {k r q}, (nic.since b).Queued k r q → r.write = .flag (k % 2)
  flagged : ∀ k < nic.next - b, flagged k
  posted_le : nic.next - b ≤ (S.send i).numSendChunks

/-- The receiver's thread, in call `j`, beside send `i`. The posts of receive `i` are those from
number `b` on, `booted` and `flagged` say which writes of send `i` have executed, and `last k`
that receive `k` has copied its last chunk out. -/
inductive Place (S : Session) (i j : ℕ) (rcv : Endpoint) (t : Receiver) (b : ℕ) (booted : Prop)
    (flagged last : ℕ → Prop) : Prop
  | same (m : ℕ) (call : j = i)
      (inv : ReceiverInv (S.recv i) (rcv.nic.since b) rcv.uhm.state t booted flagged m)
      (taken : Taken (S.send i) (rcv.nic.next - b) t (last i))
  | ahead (m : ℕ) (call : j = i + 1)
      (inv : ReceiverInv (S.recv (i + 1)) (rcv.nic.since rcv.nic.next) rcv.uhm.state t False
        (fun _ => False) m)
      (taken : Taken (S.send (i + 1)) 0 t (last (i + 1)))
      (back : GivenBack S i rcv.nic b booted flagged) (copied : last i)
  | behind (call : j + 1 = i) (posted : rcv.nic.next = b) (finishing : t.Finishing)

/-- The invariant of a session whose steps are settled. The posts of the current send are those from
number `a` on, and `ideal` are the words of the sender if every write-back carried `CAN_WRITE`.
Every write in flight belongs to the current send or answers it, which is what the owner fields say,
and the receiver stands in one of the places beside it. -/
structure SessionInv (S : Session) (w : SessionWorld) (last : ℕ → Prop) (a b m : ℕ)
    (ideal : ℕ → ℕ) : Prop where
  snd : w.snd.nic.NoneBefore a
  rcv : w.rcv.nic.NoneBefore b
  snd_owner : ∀ n, a ≤ n → w.sndOwner n = w.sendCall
  rcv_owner : ∀ n, b ≤ n → n < w.rcv.nic.next → w.rcvOwner n = w.sendCall
  rcv_owner_next : ∀ n, w.rcv.nic.next ≤ n → w.rcvOwner n = w.recvCall
  shadows : Shadows w.snd.uhm.state ideal
  sender : SenderInv (S.send w.sendCall) (w.snd.nic.since a) ideal w.sender
    (w.rcv.nic.since b).Executed m
  announced : Announced (S.send w.sendCall) (w.snd.view a ideal) w.sender
  header : (w.snd.nic.since a).Executed 0 → Header (S.send w.sendCall) w.rcv.uhm
  posted : w.sender.pc = .done .success → 0 < (S.send w.sendCall).sendFlags →
    w.snd.nic.next - a = 1 + 2 * (S.send w.sendCall).numSendChunks
  place : Place S w.sendCall w.recvCall w.rcv w.receiver b ((w.snd.nic.since a).Executed 0)
    (fun k => (w.snd.nic.since a).Executed (2 + 2 * k)) last
  copied : ∀ k < w.sendCall, last k

namespace Place

variable {S : Session} {i j b : ℕ} {rcv rcv' : Endpoint} {t t' : Receiver} {booted : Prop}
  {flagged last last' : ℕ → Prop}

theorem mono (h : Place S i j rcv t b booted flagged last) (hl : ∀ k, last k → last' k) :
    Place S i j rcv t b booted flagged last' := by
  cases h with
  | same m call inv taken => exact .same m call inv (taken.mono (hl _))
  | ahead m call inv taken back copied =>
    exact .ahead m call inv (taken.mono (hl _)) back (hl _ copied)
  | behind call posted finishing => exact .behind call posted finishing

/-- Every write-back in flight is the one with its number. -/
theorem queued (h : Place S i j rcv t b booted flagged last) (hb : rcv.nic.NoneBefore b)
    {k q : ℕ} {r : WorkRequest} (hq : (rcv.nic.since b).Queued k r q) :
    r.write = .flag (k % 2) := by
  cases h with
  | same m call inv taken => exact (inv.queued hq).1
  | ahead m call inv taken back copied => exact back.queued hq
  | behind call posted finishing =>
    have := hb.ordered.lt_next (SendQueues.queued_since.mp hq)
    omega

/-- A posted write-back answers a flag of the current send. -/
theorem flagged_of_lt (h : Place S i j rcv t b booted flagged last) {k : ℕ}
    (hk : k < rcv.nic.next - b) : flagged k := by
  cases h with
  | same m call inv taken =>
    have hle := inv.posted_le
    rw [SendQueues.since_next] at hle
    refine (inv.slots (.inl ?_)).flagged_of_lt k (by omega)
    rw [SendQueues.since_next]
    omega
  | ahead m call inv taken back copied => exact back.flagged k hk
  | behind call posted finishing => omega

/-- No more write-backs are posted than the send has chunks. -/
theorem posted_le (h : Place S i j rcv t b booted flagged last) :
    rcv.nic.next - b ≤ (S.send i).numSendChunks := by
  cases h with
  | same m call inv taken => exact Nat.le_trans taken.posted_le taken.chunks_le
  | ahead m call inv taken back copied => exact back.posted_le
  | behind call posted finishing => omega

/-! ### Executions -/

/-- Only the queues and the flag words of the endpoint matter. -/
theorem of_eq (h : Place S i j rcv t b booted flagged last) (hn : rcv'.nic = rcv.nic)
    (hu : rcv'.uhm = rcv.uhm) : Place S i j rcv' t b booted flagged last := by
  obtain ⟨bytes, uhm, nextWrId, nic⟩ := rcv'
  obtain rfl : nic = rcv.nic := hn
  obtain rfl : uhm = rcv.uhm := hu
  cases h with
  | same m call inv taken => exact .same m call inv taken
  | ahead m call inv taken back copied => exact .ahead m call inv taken back copied
  | behind call posted finishing => exact .behind call posted finishing

/-- The header of the send arrives. -/
theorem header (h : Place S i j rcv t b booted flagged last) (hnb : ¬ booted)
    (u : UHMBufferState) :
    Place S i j { rcv with uhm := u } t b True flagged last := by
  cases h with
  | same m call inv taken => exact .same m call (inv.header hnb u.state) taken
  | ahead m call inv taken back copied => exact absurd back.booted hnb
  | behind call posted finishing => exact .behind call posted finishing

/-- The flag of chunk `k` arrives. It carries `CAN_READ`. -/
theorem flag (h : Place S i j rcv t b booted flagged last) (hb : booted) {k v : ℕ}
    (hk : ∀ n, rcv.nic.next - b ≤ n → k < n + 2) (hn : ¬ flagged k) (hv : v = canRead) :
    Place S i j (rcv.setState (k % 2) v) t b booted (fun l => flagged l ∨ l = k) last := by
  cases h with
  | same m call inv taken => exact .same m call (inv.flag hb (hk m inv.posted_le) hn v) taken
  | ahead m call inv taken back copied =>
    refine .ahead m call ?_ taken ⟨back.booted, back.queued, fun l hl => .inl (back.flagged l hl),
      back.posted_le⟩ copied
    -- the new call still waits for its header, and the flag does not look like one
    refine
      { inv with
        unseen := fun hpc hnb => ?_
        second := fun hpc => (inv.booted (.inr (by rw [hpc]; rfl))).elim
        slots := fun hn => (inv.booted (hn.imp_right fun hl => ?_)).elim }
    · by_cases he : 0 = k % 2
      · rw [Endpoint.setState_state, he, Function.update_self, hv]
      · rw [Endpoint.setState_state, Function.update_of_ne he]
        exact inv.unseen hpc hnb
    · cases hpc : t.pc <;> simp_all [RecvPc.inLoop, RecvPc.headerSeen]
  | behind call posted finishing => exact .behind call posted finishing

/-- The receiver's card executes a write-back. -/
theorem pop (h : Place S i j rcv t b booted flagged last) (hb : rcv.nic.NoneBefore b) {q n : ℕ}
    {r : WorkRequest} {nic : SendQueues WorkRequest} (hp : rcv.nic.pop q = some ((b + n, r), nic)) :
    Place S i j { rcv with nic := nic } t b booted flagged last := by
  have hnext := (hb.ordered.pop_spec hp).2.1
  cases h with
  | same m call inv taken =>
    refine .same m call (inv.pop (SendQueues.since_pop hp)) ?_
    simpa only [hnext] using taken
  | ahead m call inv taken back copied =>
    have hempty : nic.since nic.next = rcv.nic.since rcv.nic.next := by
      rw [(hb.ordered.pop hp).since_next_eq, hb.ordered.since_next_eq]
    refine .ahead m call (by rw [hempty]; exact inv) taken
      ⟨back.booted, fun hq => ?_, ?_, ?_⟩ copied
    · rw [SendQueues.queued_since] at hq
      have hqueued := ((hb.ordered.pop_spec hp).2.2.1 _ _ _).mp hq
      exact back.queued (SendQueues.queued_since.mpr hqueued.1)
    · rw [hnext]
      exact back.flagged
    · rw [hnext]
      exact back.posted_le
  | behind call posted finishing => exact .behind call (hnext.trans posted) finishing

/-! ### Steps of the receiver's thread -/

/-- A step of the receiver's thread inside a call. -/
theorem step (h : Place S i j rcv t b booted flagged last) (hb : rcv.nic.NoneBefore b)
    (hfit : S.Fits) (hh : booted → Header (S.send i) rcv.uhm) (hl : ∀ k, last k → last' k)
    {ok : Bool}
    (hcopy : t.pc = .copyOut → t.currentChunk + 1 = t.numRecvChunks →
      ((S.recv j).copyOut rcv t ok).pc = .markWritable → last' j)
    (hs : (S.recv j).step ok rcv t = some (rcv', t')) :
    Place S i j rcv' t' b booted flagged last' ∧
      (rcv'.nic = rcv.nic ∨ j = i ∧ ∃ q r, rcv'.nic = rcv.nic.post q r) := by
  cases h with
  | same m call inv taken =>
    subst call
    have hv := RecvCall.step_view hb.base_le hs
    obtain ⟨m', inv'⟩ := ReceiverInv.step (e := rcv.view b rcv.uhm.state) inv hv
    refine ⟨.same m' rfl inv' ?_, ?_⟩
    · exact Taken.step (e := rcv.view b rcv.uhm.state) taken inv (hfit j)
        (fun hbo => ⟨(hh hbo).length, (hh hbo).chunkBytes⟩) (hl j) hcopy hv
    · exact (RecvCall.nic_step hs).imp_right fun hpost => ⟨rfl, hpost⟩
  | ahead m call inv taken back copied =>
    subst call
    have hv := RecvCall.step_view (Nat.le_refl _) hs
    obtain ⟨m', inv'⟩ := ReceiverInv.step (e := rcv.view rcv.nic.next rcv.uhm.state) inv hv
    have htaken := Taken.step (e := rcv.view rcv.nic.next rcv.uhm.state) (s := S.send (i + 1))
      (by simpa [Endpoint.view] using taken) inv (hfit (i + 1)) (fun hf => hf.elim)
      (hl (i + 1)) hcopy hv
    -- nothing is posted before the header of the next send has come
    have hnic : rcv'.nic = rcv.nic := by
      obtain hnic | ⟨q, r, hpost⟩ := RecvCall.nic_step hs
      · exact hnic
      · refine (inv'.booted (.inl ?_)).elim
        simp [Endpoint.view, hpost]
    refine ⟨.ahead m' rfl ?_ ?_ ?_ (hl i copied), .inl hnic⟩
    · rw [hnic]
      simpa [Endpoint.view, hnic] using inv'
    · simpa [Endpoint.view, hnic] using htaken
    · rw [hnic]
      exact back
  | behind call posted finishing =>
    obtain ⟨hfin, rfl⟩ := finishing.step hs
    exact ⟨.behind call posted hfin, .inl rfl⟩

/-- The receiver enters its next call, after one that succeeded. -/
theorem next (h : Place S i j rcv t b booted flagged last) (hb : rcv.nic.NoneBefore b)
    (ht : t.pc = .done .success) :
    Place S i (j + 1) rcv (S.enterRecv (j + 1)) b booted flagged last := by
  cases h with
  | same m call inv taken =>
    subst call
    have hp := inv.place
    simp only [ht, RecvPc.At, SendQueues.since_next] at hp
    have hpos := taken.pos (by rw [ht]; rfl)
    have hflag : ∀ k < rcv.nic.next - b, flagged k := fun k hk =>
      (Place.same m rfl inv taken).flagged_of_lt hk
    refine .ahead 0 rfl ?_ (Taken.enter _ _ _ _ _) ⟨?_, ?_, hflag, ?_⟩ ?_
    · rw [hb.ordered.since_next_eq]
      exact .enter _ _ _ _ _ _
    · refine inv.booted (.inl ?_)
      rw [SendQueues.since_next]
      omega
    · intro k r q hq
      exact (inv.queued hq).1
    · exact Nat.le_trans taken.posted_le taken.chunks_le
    · exact taken.last hpos (.inl (by omega))
  | ahead m call inv taken back copied =>
    have hp := inv.place
    have hpos := taken.pos (by rw [ht]; rfl)
    simp only [ht, RecvPc.At, SendQueues.since_next] at hp
    omega
  | behind call posted finishing =>
    refine .same 0 call ?_ ?_
    · rw [← posted, hb.ordered.since_next_eq, ← call]
      exact .enter _ _ _ _ _ _
    · rw [posted, Nat.sub_self]
      exact Taken.enter _ _ _ _ _

end Place

namespace SessionInv

variable {S : Session} {w w' : SessionWorld} {last last' : ℕ → Prop} {a b m : ℕ}
  {ideal : ℕ → ℕ}

theorem initial (h : S.Initial w) :
    SessionInv S w (fun _ => False) 0 0 0 w.snd.uhm.state where
  snd := by
    rw [h.snd_nic]
    exact .of_not_pending SendQueues.ordered_empty fun _ => SendQueues.not_pending_empty
  rcv := by
    rw [h.rcv_nic]
    exact .of_not_pending SendQueues.ordered_empty fun _ => SendQueues.not_pending_empty
  snd_owner n _ := by rw [h.sndOwner, h.sendCall]
  rcv_owner n _ _ := by rw [h.rcvOwner, h.sendCall]
  rcv_owner_next n _ := by rw [h.rcvOwner, h.recvCall]
  shadows := .refl _
  sender := by
    rw [h.snd_nic, h.rcv_nic, h.sender, h.sendCall]
    refine .enter _ _ fun k hk => ?_
    simp [SendQueues.Executed, SendQueues.empty] at hk
  announced := by
    rw [h.sender, h.sendCall]
    refine .enter _ ?_
    simp [Endpoint.view, h.snd_nic, SendQueues.empty]
  header hx := by
    rw [h.snd_nic] at hx
    simp [SendQueues.Executed, SendQueues.empty] at hx
  posted hd hn := by
    rw [h.sender] at hd
    rw [h.sendCall, SendCall.sendFlags_of_enter hd] at hn
    exact absurd hn (Nat.lt_irrefl 0)
  place := by
    rw [h.sendCall, h.recvCall, h.receiver]
    refine .same 0 rfl ?_ ?_ <;> rw [h.rcv_nic]
    · exact .enter _ _ _ _ _ _
    · exact .enter _ _ _ _ _
  copied k hk := by
    rw [h.sendCall] at hk
    exact absurd hk (Nat.not_lt_zero k)

/-- Recording that more receives have copied their last chunk out. -/
theorem mono (h : SessionInv S w last a b m ideal) (hl : ∀ k, last k → last' k) :
    SessionInv S w last' a b m ideal :=
  { h with
    place := h.place.mono hl
    copied := fun k hk => hl k (h.copied k hk) }

/-! ### The end of a transfer -/

/-- When a send has returned and both its words are `CAN_WRITE`, every chunk was given back. -/
theorem granted_of_settled (h : SessionInv S w last a b m ideal)
    (ht : w.sender.pc = .done .success) (hlen : 0 < (S.send w.sendCall).sendFlags)
    (h0 : w.snd.uhm.state 0 = canWrite) (h1 : w.snd.uhm.state 1 = canWrite) {k : ℕ}
    (hk : k < (S.send w.sendCall).numSendChunks) : (w.rcv.nic.since b).Executed k := by
  have hn := h.posted ht hlen
  have hs := h.sender
  by_contra hg
  have hslots := hs.slots (.inl (by rw [SendQueues.since_next]; omega))
  have hkm : k < m := hs.marked k (by rw [SendQueues.since_next]; omega)
  have hfull := h.shadows.full _ (hslots.word_full k hkm hg)
  obtain hpar | hpar := Nat.mod_two_eq_zero_or_one k <;> rw [hpar] at hfull
  · exact canRead_ne_canWrite (hfull.symm.trans h0)
  · exact canRead_ne_canWrite (hfull.symm.trans h1)

/-- Every write of a send all of whose chunks were given back has executed. -/
theorem not_pending_snd (h : SessionInv S w last a b m ideal)
    (hn : w.snd.nic.next - a = 1 + 2 * (S.send w.sendCall).numSendChunks)
    (hpos : 0 < (S.send w.sendCall).numSendChunks)
    (hg : ∀ k < (S.send w.sendCall).numSendChunks, (w.rcv.nic.since b).Executed k) (n : ℕ) :
    ¬ w.snd.nic.Pending n := by
  refine h.snd.not_pending (fun n hp => ?_) n
  have hlt : n < w.snd.nic.next - a := h.sender.ordered.lt_next hp.choose_spec.choose_spec
  have hflag : ∀ k < (S.send w.sendCall).numSendChunks,
      (w.snd.nic.since a).Executed (2 + 2 * k) := fun k hk => h.place.flagged_of_lt (hg k hk).1
  obtain rfl | ⟨k, rfl⟩ | ⟨k, rfl⟩ := SendCall.post_cases n
  · refine (h.sender.booted (.inl ?_)).not_pending hp
    rw [SendQueues.since_next]
    omega
  · exact (h.sender.flag_data (hflag k (by omega))).not_pending hp
  · exact (hflag k (by omega)).not_pending hp

/-- The next send finds nothing in flight, and the receive before it at its last waits. -/
theorem next_send (h : SessionInv S w last a b m ideal) (ht : w.sender.pc = .done .success)
    (hlen : 0 < (S.send w.sendCall).sendFlags) (h0 : w.snd.uhm.state 0 = canWrite)
    (h1 : w.snd.uhm.state 1 = canWrite) :
    SessionInv S
      { w with
        sendCall := w.sendCall + 1
        sender := (S.send (w.sendCall + 1)).enter
        sndOwner := ownFrom w.sndOwner w.snd.nic.next (w.sendCall + 1) }
      last w.snd.nic.next w.rcv.nic.next 0 w.snd.uhm.state := by
  have hn := h.posted ht hlen
  have hpos : 0 < (S.send w.sendCall).numSendChunks :=
    numChunks_pos (S.send w.sendCall).chunkSize_pos hlen
  have hg : ∀ k < (S.send w.sendCall).numSendChunks, (w.rcv.nic.since b).Executed k :=
    fun k hk => h.granted_of_settled ht hlen h0 h1 hk
  have hsnd := h.not_pending_snd hn hpos hg
  have hposted : w.rcv.nic.next - b = (S.send w.sendCall).numSendChunks := by
    have hle := h.place.posted_le
    have := (hg _ (Nat.sub_lt hpos Nat.one_pos)).1
    rw [SendQueues.since_next] at this
    omega
  have hrcv : ∀ n, ¬ w.rcv.nic.Pending n := h.rcv.not_pending fun n hp => by
    obtain ⟨r, q, hq⟩ := hp
    have := h.rcv.ordered.lt_next (SendQueues.queued_since.mp hq)
    exact (hg n (by omega)).not_pending hq.pending
  have hview : w.snd.nic.since w.snd.nic.next = .empty := h.snd.ordered.since_next_eq
  have hview' : w.rcv.nic.since w.rcv.nic.next = .empty := h.rcv.ordered.since_next_eq
  obtain ⟨hlast, hplace⟩ : last w.sendCall ∧
      Place S (w.sendCall + 1) w.recvCall w.rcv w.receiver w.rcv.nic.next False
        (fun _ => False) last := by
    cases h.place with
    | same m call inv taken =>
      have hle := taken.posted_le
      have hle' := taken.chunks_le
      have hnum : w.receiver.numRecvChunks = w.rcv.nic.next - b := by omega
      refine ⟨taken.last (by omega) (.inl hnum), .behind (by rw [call]) rfl ?_⟩
      exact inv.finishing hnum.symm (by rw [SendQueues.since_next]; omega)
    | ahead m call inv taken back copied =>
      refine ⟨copied, .same m call inv ?_⟩
      rwa [Nat.sub_self]
    | behind call posted finishing => omega
  have hex : ∀ n, ¬ (SendQueues.empty : SendQueues WorkRequest).Executed n := fun n hx =>
    absurd hx.1 (Nat.not_lt_zero n)
  exact
    { snd := .of_not_pending h.snd.ordered hsnd
      rcv := .of_not_pending h.rcv.ordered hrcv
      snd_owner := fun n hle => if_neg (Nat.not_lt.mpr hle)
      rcv_owner := fun n hle hlt => absurd hlt (Nat.not_lt.mpr hle)
      rcv_owner_next := h.rcv_owner_next
      shadows := .refl _
      sender := by
        rw [hview, hview']
        exact .enter _ _ hex
      announced := .enter _ (by rw [Endpoint.view, hview]; rfl)
      header := fun hx => by
        rw [hview] at hx
        exact absurd hx (hex 0)
      posted := fun hd hl => by
        rw [SendCall.sendFlags_of_enter hd] at hl
        exact absurd hl (Nat.lt_irrefl 0)
      place := by
        simpa only [hview, hex] using hplace
      copied := fun k hk => by
        obtain hk | rfl := Nat.lt_or_eq_of_le (Nat.le_of_lt_succ hk)
        · exact h.copied k hk
        · exact hlast }

/-! ### Steps -/

/-- The thread in `uhm_send` moves. -/
theorem send (h : SessionInv S w last a b m ideal) {ok : Bool} {e : Endpoint} {t : Sender}
    (hs : (S.send w.sendCall).step ok w.snd w.sender = some (e, t)) :
    ∃ m' ideal', SessionInv S { w with snd := e, sender := t } last a b m' ideal' := by
  obtain ⟨-, rfl, rfl⟩ | ⟨ideal', hsh, hv⟩ := SendCall.step_view h.snd.base_le h.shadows hs
  · exact ⟨m, ideal, h⟩
  · obtain ⟨m', hm'⟩ := SenderInv.step (e := w.snd.view a ideal) h.sender hv
    have hex : ∀ n, (e.nic.since a).Executed n ↔ (w.snd.nic.since a).Executed n :=
      SendCall.executed_step hv
    refine ⟨m', ideal', ?_⟩
    exact
      { h with
        snd := by
          obtain hnic | ⟨q, r, hnic⟩ := SendCall.nic_step hs
          · simpa only [hnic] using h.snd
          · simpa only [hnic] using h.snd.post q r
        shadows := hsh
        sender := hm'
        announced := h.announced.step h.sender hv
        header := fun hx => h.header ((hex 0).mp hx)
        posted := fun hd _ => SenderInv.posted_of_success (e := w.snd.view a ideal) h.sender hv hd
        place := by simpa only [hex] using h.place }

/-- The thread in `uhm_recv` moves. -/
theorem recv (h : SessionInv S w last a b m ideal) (hfit : S.Fits) (hl : ∀ k, last k → last' k)
    {ok : Bool} {e : Endpoint} {t : Receiver}
    (hcopy : w.receiver.pc = .copyOut →
      w.receiver.currentChunk + 1 = w.receiver.numRecvChunks →
      ((S.recv w.recvCall).copyOut w.rcv w.receiver ok).pc = .markWritable → last' w.recvCall)
    (hs : (S.recv w.recvCall).step ok w.rcv w.receiver = some (e, t)) :
    SessionInv S { w with rcv := e, receiver := t } last' a b m ideal := by
  obtain ⟨hplace, hnic⟩ := h.place.step h.rcv hfit h.header hl hcopy hs
  have hexec : (e.nic.since b).Executed = (w.rcv.nic.since b).Executed := by
    refine funext fun n => propext ?_
    rw [SendQueues.executed_since, SendQueues.executed_since]
    exact RecvCall.executed_step hs _
  have hrcv : e.nic.NoneBefore b := by
    obtain hnic | ⟨-, q, r, hnic⟩ := hnic <;> rw [hnic]
    · exact h.rcv
    · exact h.rcv.post q r
  exact
    { h with
      rcv := hrcv
      rcv_owner := fun n hle hlt => by
        obtain hnic | ⟨hij, q, r, hnic⟩ := hnic <;> simp only [hnic] at hlt
        · exact h.rcv_owner n hle hlt
        · obtain hlt | rfl := Nat.lt_or_eq_of_le (Nat.le_of_lt_succ hlt)
          · exact h.rcv_owner n hle hlt
          · rw [h.rcv_owner_next _ (Nat.le_refl _), hij]
      rcv_owner_next := fun n hle => by
        refine h.rcv_owner_next n (Nat.le_trans ?_ hle)
        obtain hnic | ⟨-, q, r, hnic⟩ := hnic <;> simp [hnic]
      sender := by
        simp only [hexec]
        exact h.sender
      header := fun hx => (h.header hx).recv_step hs
      place := hplace
      copied := fun k hk => hl k (h.copied k hk) }

/-- The receiver's thread enters its next call. -/
theorem next_recv (h : SessionInv S w last a b m ideal) (ht : w.receiver.pc = .done .success) :
    SessionInv S
      { w with
        recvCall := w.recvCall + 1
        receiver := S.enterRecv (w.recvCall + 1)
        rcvOwner := ownFrom w.rcvOwner w.rcv.nic.next (w.recvCall + 1) }
      last a b m ideal :=
  { h with
    rcv_owner := fun n hle hlt => (if_pos hlt).trans (h.rcv_owner n hle hlt)
    rcv_owner_next := fun _ hle => if_neg (Nat.not_lt.mpr hle)
    place := h.place.next h.rcv ht }

/-- A flag write that still waits reads `CAN_READ` when it executes. -/
theorem flag_word (h : SessionInv S w last a b m ideal) {k : ℕ}
    (hp : (w.snd.nic.since a).Pending (2 + 2 * k)) : w.snd.uhm.state (k % 2) = canRead := by
  have hs := h.sender
  have hlt : 2 + 2 * k < (w.snd.nic.since a).next :=
    hs.ordered.lt_next hp.choose_spec.choose_spec
  refine h.shadows.full _ ((hs.slots (.inl (by omega))).word_full k (hs.marked k hlt) fun hg => ?_)
  exact (h.place.flagged_of_lt hg.1).not_pending hp

/-- The sender's card executes a write. It is one of the current send. -/
theorem nicSend (h : SessionInv S w last a b m ideal) {q n : ℕ} {r : WorkRequest}
    {nic : SendQueues WorkRequest} (hp : w.snd.nic.pop q = some ((n, r), nic)) :
    w.sndOwner n = w.sendCall ∧
      SessionInv S
        { w with snd := { w.snd with nic := nic }, rcv := execWrite r.write w.snd w.rcv } last a b m
        ideal := by
  obtain ⟨n, rfl, hv⟩ := h.snd.pop_since hp
  refine ⟨h.snd_owner _ (Nat.le_add_right _ _), ?_⟩
  have hs := h.sender
  have hhead := (hs.ordered.pop_spec hv).1
  have hnext := (hs.ordered.pop_spec hv).2.1
  have hlt : n < w.snd.nic.next - a := hs.ordered.lt_next hhead
  have hexec : ∀ i, (nic.since a).Executed i ↔ (w.snd.nic.since a).Executed i ∨ i = n := fun i =>
    hs.ordered.executed_pop hv
  obtain ⟨hheader, hplace⟩ : ((nic.since a).Executed 0 →
        Header (S.send w.sendCall) (execWrite r.write w.snd w.rcv).uhm) ∧
      Place S w.sendCall w.recvCall (execWrite r.write w.snd w.rcv) w.receiver b
        ((nic.since a).Executed 0) (fun k => (nic.since a).Executed (2 + 2 * k)) last := by
    rw [hs.queued hhead]
    obtain rfl | ⟨k, rfl⟩ | ⟨k, rfl⟩ := SendCall.post_cases n
    · -- the header
      have hnb : ¬ (w.snd.nic.since a).Executed 0 := fun hx => hx.not_pending hhead.pending
      have hh := h.announced.header (.inr hlt)
      refine ⟨fun _ => ⟨.inr hh.1, .inr hh.2⟩, ?_⟩
      have hflag : ∀ i, 2 + 2 * i ≠ 0 := fun i => by omega
      simpa only [hexec, hflag, or_false, or_true, SendCall.writeOf_zero, execWrite] using
        h.place.header hnb w.snd.uhm
    · -- a data write
      have hzero : 0 ≠ 1 + 2 * k := by omega
      have hflag : ∀ i, 2 + 2 * i ≠ 1 + 2 * k := fun i => by omega
      rw [SendCall.writeOf_data]
      simp only [hexec, hzero, hflag, or_false, SendCall.dataWrite, execWrite]
      exact ⟨h.header, h.place.of_eq rfl rfl⟩
    · -- a flag write
      have hb : (w.snd.nic.since a).Executed 0 :=
        hs.booted (.inl (by rw [SendQueues.since_next]; omega))
      have hnf : ¬ (w.snd.nic.since a).Executed (2 + 2 * k) :=
        fun hx => hx.not_pending hhead.pending
      have hwindow : ∀ i, w.rcv.nic.next - b ≤ i → k < i + 2 := fun i hi => by
        by_contra hk
        have hg := (hs.data_granted (k - 2) (by rw [SendQueues.since_next]; omega)).1
        rw [SendQueues.since_next] at hg
        omega
      have hzero : 0 ≠ 2 + 2 * k := by omega
      have hinj : ∀ i, 2 + 2 * i = 2 + 2 * k ↔ i = k := fun i => by omega
      rw [SendCall.writeOf_flag]
      simp only [hexec, hzero, hinj, or_false, execWrite]
      exact ⟨fun hx => ⟨(h.header hx).length, (h.header hx).chunkBytes⟩,
        h.place.flag hb hwindow hnf (h.flag_word hhead.pending)⟩
  have hnic := execWrite_nic r.write w.snd w.rcv
  generalize execWrite r.write w.snd w.rcv = rcv' at hheader hplace hnic ⊢
  obtain ⟨bytes, uhm, nextWrId, nic'⟩ := rcv'
  obtain rfl : nic' = w.rcv.nic := hnic
  exact
    { h with
      snd := h.snd.pop hp
      sender := hs.pop hv
      announced := by
        refine ⟨h.announced.length, fun hn => h.announced.header (hn.imp_right fun hn => ?_)⟩
        exact Nat.lt_of_lt_of_eq hn hnext
      header := hheader
      posted := fun hd hl => hnext.trans (h.posted hd hl)
      place := hplace }

/-- The receiver's card executes a write-back. It answers the current send. -/
theorem nicRecv (h : SessionInv S w last a b m ideal) {q n : ℕ} {r : WorkRequest}
    {nic : SendQueues WorkRequest} (hp : w.rcv.nic.pop q = some ((n, r), nic)) :
    w.rcvOwner n = w.sendCall ∧
      ∃ ideal', SessionInv S
        { w with rcv := { w.rcv with nic := nic }, snd := execWrite r.write w.rcv w.snd } last a b m
        ideal' := by
  have hlt := h.rcv.ordered.lt_next (h.rcv.ordered.pop_spec hp).1
  have hnext := (h.rcv.ordered.pop_spec hp).2.1
  obtain ⟨k, rfl, hv⟩ := h.rcv.pop_since hp
  refine ⟨h.rcv_owner _ (Nat.le_add_right _ _) hlt,
    Function.update ideal (k % 2) canWrite, ?_⟩
  have hord := h.rcv.ordered.since b
  have hhead := (hord.pop_spec hv).1
  have hexec : (nic.since b).Executed = fun i => (w.rcv.nic.since b).Executed i ∨ i = k :=
    funext fun i => propext (hord.executed_pop hv)
  have hng : ¬ (w.rcv.nic.since b).Executed k := fun hx => hx.not_pending hhead.pending
  have hflag := (h.place.flagged_of_lt (show k < w.rcv.nic.next - b by omega)).1
  rw [h.place.queued h.rcv hhead]
  exact
    { h with
      rcv := h.rcv.pop hp
      rcv_owner := fun i hle hlt => h.rcv_owner i hle (by rwa [hnext] at hlt)
      rcv_owner_next := fun i hle => h.rcv_owner_next i (by rwa [hnext] at hle)
      shadows := h.shadows.grant _ _
      sender := by
        simp only [hexec]
        exact h.sender.grant hflag hng
      announced := ⟨h.announced.length, h.announced.header⟩
      place := h.place.pop h.rcv hp }

/-- **One settled step** keeps the invariant, logs a write or a write-back of the current
transfer only, and leaves no send. -/
theorem step (h : SessionInv S w last a b m ideal) (hfit : S.Fits) {x : Act}
    (hok : S.Settled w x) (hs : S.step w x = some w') (hl : ∀ k, last k → last' k)
    (hev : ∀ k, S.event w x = some (.copiedLast k) → last' k) :
    (∃ a b m ideal, SessionInv S w' last' a b m ideal) ∧ w.sendCall ≤ w'.sendCall ∧
      ∀ k, S.event w x = some (.reset k) ∨ S.event w x = some (.sendWrite k) ∨
        S.event w x = some (.writeBack k) → k = w.sendCall := by
  cases x with
  | send ok =>
    simp only [Session.step] at hs
    simp only [Session.event, Option.ite_none_right_eq_some, Option.some.injEq,
      SessionEvent.reset.injEq, reduceCtorEq, and_false, or_false]
    split at hs
    · rename_i ret hret
      cases hs
      obtain ⟨rfl, hlen, h0, h1⟩ := hok ret hret
      have ht : w.sender.pc = .done .success := by
        cases hpc : w.sender.pc <;> simp_all [SendPc.returned]
      exact ⟨⟨_, _, _, _, (h.next_send ht hlen h0 h1).mono hl⟩, Nat.le_succ _,
        fun k hk => hk.2.symm⟩
    · obtain ⟨⟨e, t⟩, hstep, rfl⟩ := Option.map_eq_some_iff.mp hs
      obtain ⟨m', ideal', hinv⟩ := h.send hstep
      exact ⟨⟨a, b, m', ideal', hinv.mono hl⟩, Nat.le_refl _, fun k hk => hk.2.symm⟩
  | recv ok =>
    simp only [Session.step] at hs
    refine ⟨?_, ?_, fun k hk => ?_⟩
    · split at hs
      · rename_i ret hret
        cases hs
        obtain rfl := hok ret hret
        have ht : w.receiver.pc = .done .success := by
          cases hpc : w.receiver.pc <;> simp_all [RecvPc.returned]
        exact ⟨a, b, m, ideal, (h.next_recv ht).mono hl⟩
      · obtain ⟨⟨e, t⟩, hstep, rfl⟩ := Option.map_eq_some_iff.mp hs
        refine ⟨a, b, m, ideal, h.recv hfit hl (fun hpc hlast hcopy => hev _ ?_) hstep⟩
        exact if_pos ⟨hpc, hlast, hcopy⟩
    · split at hs
      · cases hs
        exact Nat.le_refl _
      · obtain ⟨⟨e, t⟩, -, rfl⟩ := Option.map_eq_some_iff.mp hs
        exact Nat.le_refl _
    · simp only [Session.event, Option.ite_none_right_eq_some, Option.some.injEq, reduceCtorEq,
        and_false, or_self] at hk
  | nicSend q =>
    obtain ⟨⟨⟨n, r⟩, nic⟩, hp, rfl⟩ := Option.map_eq_some_iff.mp hs
    obtain ⟨howner, hinv⟩ := h.nicSend hp
    refine ⟨⟨a, b, m, ideal, hinv.mono hl⟩, Nat.le_refl _, fun k hk => ?_⟩
    simpa [Session.event, SendQueues.head?_of_pop hp, howner, eq_comm] using hk
  | nicRecv q =>
    obtain ⟨⟨⟨n, r⟩, nic⟩, hp, rfl⟩ := Option.map_eq_some_iff.mp hs
    obtain ⟨howner, ideal', hinv⟩ := h.nicRecv hp
    refine ⟨⟨a, b, m, ideal', hinv.mono hl⟩, ?_, fun k hk => ?_⟩
    · exact Nat.le_refl _
    · simpa [Session.event, SendQueues.head?_of_pop hp, howner, eq_comm] using hk

end SessionInv

/-! ### The claim -/

/-- **Isolation of consecutive transfers.** In every run whose steps are settled, of a session
whose chunks fit, each transfer's writes execute after the receive before it has copied out its
last chunk, and no write-back executes after the next send has reset its words.

The induction carries `SessionInv` and that only the sends up to the current one have reset their
words. Every write that is logged is one of the current send and every write-back answers it, so
what is claimed of a new event is read off the invariant: send `k + 1` is current only when receive
`k` has copied its last chunk out. -/
theorem isolated_of_settled (S : Session) (hfit : S.Fits) {w₀ : SessionWorld}
    {w : Logged SessionWorld SessionEvent} (h₀ : S.Initial w₀)
    (hr : Reach (logStep S.step S.event) (onState S.Settled) ⟨w₀, []⟩ w) :
    Session.Isolated w.log := by
  suffices h : (∃ a b m ideal, SessionInv S w.state (fun k => .copiedLast k ∈ w.log) a b m ideal) ∧
      (∀ k, .reset k ∈ w.log → k ≤ w.state.sendCall) ∧ Session.Isolated w.log from h.2.2
  induction hr with
  | refl =>
    exact ⟨⟨0, 0, 0, _, (SessionInv.initial h₀).mono fun _ hf => hf.elim⟩, by simp,
      fun _ => preceded_nil, fun _ => barred_nil⟩
  | @tail v v' x _ hok hst ih =>
    obtain ⟨⟨a, b, m, ideal, hinv⟩, hreset, hiso⟩ := ih
    obtain ⟨hst, hlog⟩ := logStep_eq_some.mp hst
    have hmem : ∀ e, e ∈ v'.log ↔ e ∈ v.log ∨ S.event v.state x = some e := by
      intro e
      rw [hlog, List.mem_append, Option.mem_toList]
    obtain ⟨hinv', hle, hcall⟩ := hinv.step hfit hok hst (fun k hk => (hmem _).mpr (.inl hk))
      (fun k hk => (hmem _).mpr (.inr hk))
    refine ⟨hinv', fun k hk => ?_, ⟨fun k => ?_, fun k => ?_⟩⟩
    · obtain hk | hk := (hmem _).mp hk
      · exact Nat.le_trans (hreset k hk) hle
      · exact hcall k (.inl hk) ▸ hle
    · rw [hlog]
      refine (hiso.copied k).append fun e he heq => hinv.copied k ?_
      rw [← hcall (k + 1) (.inr (.inl (heq ▸ he)))]
      exact Nat.lt_succ_self k
    · rw [hlog]
      refine (hiso.quiet k).append fun e he heq hk => ?_
      have := hreset _ hk
      rw [← hcall k (.inr (.inr (heq ▸ he)))] at this
      omega

/-- Two messages of one byte: the second send starts when the first chunk was given back. -/
def settledRun : List Act := schedule
  [(4, .recv true), (5, .send true), (1, .nicSend 0), (5, .recv true), (4, .send true),
    (1, .nicSend 0), (2, .send true), (1, .nicSend 0), (3, .send true), (4, .recv true),
    (1, .nicRecv 0), (2, .recv true), (1, .recv true), (4, .recv true),
    -- the second transfer
    (6, .send true), (1, .nicSend 0), (5, .recv true), (4, .send true), (1, .nicSend 0),
    (2, .send true), (1, .nicSend 0), (3, .send true), (4, .recv true), (1, .nicRecv 0)]

theorem isolated_byteSession :
    ∃ w, byteSession.Fits ∧ byteSession.Initial byteSession.start ∧
      Reach (logStep byteSession.step byteSession.event) (onState byteSession.Settled)
        ⟨byteSession.start, []⟩ w ∧
      .writeBack 1 ∈ w.log ∧ Session.Isolated w.log := by
  have hfit : byteSession.Fits := by
    intro k
    show (byteSession.send 0).chunkSize ≤ (byteSession.recv 0).halfBufferSize
    decide
  obtain ⟨w, hr, hmem⟩ : ∃ w, Reach (logStep byteSession.step byteSession.event)
      (onState byteSession.Settled) ⟨byteSession.start, []⟩ w ∧ .writeBack 1 ∈ w.log :=
    exists_reach_of_execOk settledRun (by decide +kernel)
  exact ⟨w, hfit, byteSession.initial_start, hr, hmem,
    isolated_of_settled _ hfit byteSession.initial_start hr⟩

end HMC.Uhm
