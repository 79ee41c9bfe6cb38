import HMC.Uhm.ReceiverOrder
import HMC.Uhm.SenderOrder

/-!
# The order of a transfer

What holds in every run of a transfer, whatever the cards delay and however the handshake
goes: each half is handed back and forth by its flag word, so

* the flag write of a chunk executes after its data write,
* the receiver works on chunk `k` only after the flag write of chunk `k` has executed, and
* the data write of chunk `k + 2` is posted only after the write-back of chunk `k` has
  executed at the sender.

`OrderInv` joins the two sides: what arrived at one of them is what the card of the other has
executed. A thread keeps its own side, and an execution connects the two.

A flag write copies the sender's own word at the time it executes, not at the time it was posted,
so what it delivers has to be known then. `flag_word` says that it delivers `CAN_READ`: the word was
set before the post, and only the write-back of the same chunk clears it, which cannot have come
before the flag. `flag_window` bounds how far ahead of the receiver a flag may be, which is what
keeps two flags of one half from being under way together. `grant_word` and `flagged_of_granted` are
the same for the write-backs.
-/

namespace HMC.Uhm

open HMC.Machine

/-- Both sides of a transfer, joined by what their cards have executed: to the sender a write-back
has arrived when the receiver's card has executed it, and to the receiver the header and the flags
have arrived when the sender's card has executed them. -/
structure OrderInv (T : Transfer) (w : World) : Prop where
  sender : ∃ m, SenderInv T.send w.snd.nic w.snd.uhm.state w.sender w.rcv.nic.Executed m
  receiver : ∃ m, ReceiverInv T.recv w.rcv.nic w.rcv.uhm.state w.receiver
    (w.snd.nic.Executed 0) (fun k => w.snd.nic.Executed (2 + 2 * k)) m

namespace OrderInv

variable {T : Transfer} {w w' : World}

theorem initial (h : T.Initial w) : OrderInv T w := by
  obtain ⟨output, recvFlags, hr⟩ := h.receiver
  refine ⟨⟨0, ?_⟩, ⟨0, ?_⟩⟩
  · rw [h.snd_nic, h.rcv_nic, h.sender]
    exact .enter T.send _ fun k hk => absurd hk.1 (Nat.not_lt_zero _)
  · rw [h.rcv_nic, h.snd_nic, hr]
    exact .enter T.recv output recvFlags _ _ _

/-! ### What an executed write reads -/

/-- A flag write that still waits reads `CAN_READ` when it executes. -/
theorem flag_word (h : OrderInv T w) {k : ℕ} (hp : w.snd.nic.Pending (2 + 2 * k)) :
    w.snd.uhm.state (k % 2) = canRead := by
  obtain ⟨m, hs⟩ := h.sender
  obtain ⟨m', hr⟩ := h.receiver
  have hlt : 2 + 2 * k < w.snd.nic.next := hs.ordered.lt_next hp.choose_spec.choose_spec
  refine (hs.slots (.inl (by omega))).word_full k (hs.marked k hlt) fun hg => ?_
  have hpos : 0 < w.rcv.nic.next := Nat.lt_of_le_of_lt (Nat.zero_le _) hg.1
  have hf := (hr.slots (.inl hpos)).flagged_of_lt k (Nat.lt_of_lt_of_le hg.1 hr.posted_le)
  exact hf.not_pending hp

/-- A flag write that still waits is at most two chunks ahead of the receiver. -/
theorem flag_window (h : OrderInv T w) {k m : ℕ} (hp : w.snd.nic.Pending (2 + 2 * k))
    (hm : w.rcv.nic.next ≤ m) : k < m + 2 := by
  obtain ⟨m', hs⟩ := h.sender
  by_contra hk
  have hlt : 2 + 2 * k < w.snd.nic.next := hs.ordered.lt_next hp.choose_spec.choose_spec
  have hg := hs.data_granted (k - 2) (by omega)
  have := hg.1
  omega

/-- A write-back that still waits reads `CAN_WRITE` when it executes. -/
theorem grant_word (h : OrderInv T w) {k : ℕ} (hp : w.rcv.nic.Pending k) :
    w.rcv.uhm.state (k % 2) = canWrite := by
  obtain ⟨m, hs⟩ := h.sender
  obtain ⟨m', hr⟩ := h.receiver
  have hlt : k < w.rcv.nic.next := hr.ordered.lt_next hp.choose_spec.choose_spec
  have hslots := hr.slots (.inl (by omega))
  have hnf : ¬ w.snd.nic.Executed (2 + 2 * (k + 2)) := fun hf =>
    (hs.data_granted k (by have := hf.1; omega)).not_pending hp
  have hle : m' ≤ k + 2 := by
    by_contra hlt'
    exact hnf (hslots.flagged_of_lt (k + 2) (by omega))
  have hw := hslots.word_free (k + 2) hle (by have := hr.posted_le; omega) hnf
  rwa [Nat.add_mod_right] at hw

/-- The flag write of a chunk whose write-back was posted has executed. -/
theorem flagged_of_granted (h : OrderInv T w) {k : ℕ} (hk : k < w.rcv.nic.next) :
    w.snd.nic.Executed (2 + 2 * k) := by
  obtain ⟨m', hr⟩ := h.receiver
  exact (hr.slots (.inl (by omega))).flagged_of_lt k (Nat.lt_of_lt_of_le hk hr.posted_le)

/-! ### Steps -/

theorem send (h : OrderInv T w) {ok : Bool} {e : Endpoint} {t : Sender}
    (hs : T.send.step ok w.snd w.sender = some (e, t)) :
    OrderInv T { w with snd := e, sender := t } := by
  obtain ⟨m, hm⟩ := h.sender
  obtain ⟨m', hm'⟩ := h.receiver
  refine ⟨hm.step hs, m', ?_⟩
  have hexec : ∀ n, e.nic.Executed n ↔ w.snd.nic.Executed n := T.send.executed_step hs
  simpa only [hexec] using hm'

theorem recv (h : OrderInv T w) {ok : Bool} {e : Endpoint} {t : Receiver}
    (hs : T.recv.step ok w.rcv w.receiver = some (e, t)) :
    OrderInv T { w with rcv := e, receiver := t } := by
  obtain ⟨m, hm⟩ := h.sender
  obtain ⟨m', hm'⟩ := h.receiver
  refine ⟨⟨m, ?_⟩, hm'.step hs⟩
  have hexec : e.nic.Executed = w.rcv.nic.Executed :=
    funext fun n => propext (T.recv.executed_step hs n)
  rw [hexec]
  exact hm

/-- The sender's card executes a write. A data write changes no word; the header and the flags
arrive at the receiver, where `ReceiverInv.header` and `ReceiverInv.flag` say what they do. -/
theorem nicSend (h : OrderInv T w) {q n : ℕ} {r : WorkRequest} {nic : SendQueues WorkRequest}
    (hp : w.snd.nic.pop q = some ((n, r), nic)) :
    OrderInv T
      { w with snd := { w.snd with nic := nic }, rcv := execWrite r.write w.snd w.rcv } := by
  obtain ⟨m, hm⟩ := h.sender
  obtain ⟨m', hm'⟩ := h.receiver
  have hhead := (hm.ordered.pop_spec hp).1
  have hexec : ∀ i, nic.Executed i ↔ w.snd.nic.Executed i ∨ i = n := fun i =>
    hm.ordered.executed_pop hp
  refine ⟨⟨m, by simpa only [execWrite_nic] using hm.pop hp⟩, m', ?_⟩
  rw [hm.queued hhead, execWrite_nic]
  obtain rfl | ⟨k, rfl⟩ | ⟨k, rfl⟩ := SendCall.post_cases n
  · -- the header
    have hnb : ¬ w.snd.nic.Executed 0 := fun hx => hx.not_pending hhead.pending
    simpa [hexec, execWrite] using hm'.header hnb w.snd.uhm.state
  · -- a data write
    have hzero : 0 ≠ 1 + 2 * k := by omega
    have hflag : ∀ i, 2 + 2 * i ≠ 1 + 2 * k := fun i => by omega
    simpa [hexec, hzero, hflag, SendCall.writeOf_data, SendCall.dataWrite, execWrite] using hm'
  · -- a flag write
    have hb : w.snd.nic.Executed 0 :=
      hm.booted (.inl (by have := hm.ordered.lt_next hhead; omega))
    have hnf : ¬ w.snd.nic.Executed (2 + 2 * k) := fun hx => hx.not_pending hhead.pending
    have hflag := hm'.flag hb (h.flag_window hhead.pending hm'.posted_le) hnf
      (w.snd.uhm.state (k % 2))
    have hzero : 0 ≠ 2 + 2 * k := by omega
    have hinj : ∀ i, 2 + 2 * i = 2 + 2 * k ↔ i = k := fun i => by omega
    simpa only [hexec, hzero, hinj, or_false, SendCall.writeOf_flag, execWrite,
      Endpoint.setState_state] using hflag

/-- The receiver's card executes a write-back. -/
theorem nicRecv (h : OrderInv T w) {q n : ℕ} {r : WorkRequest} {nic : SendQueues WorkRequest}
    (hp : w.rcv.nic.pop q = some ((n, r), nic)) :
    OrderInv T
      { w with rcv := { w.rcv with nic := nic }, snd := execWrite r.write w.rcv w.snd } := by
  obtain ⟨m, hm⟩ := h.sender
  obtain ⟨m', hm'⟩ := h.receiver
  have hhead := (hm'.ordered.pop_spec hp).1
  have hexec : nic.Executed = fun i => w.rcv.nic.Executed i ∨ i = n :=
    funext fun i => propext (hm'.ordered.executed_pop hp)
  have hng : ¬ w.rcv.nic.Executed n := fun hx => hx.not_pending hhead.pending
  have hflag := h.flagged_of_granted (hm'.ordered.lt_next hhead)
  have hword := h.grant_word hhead.pending
  rw [(hm'.queued hhead).1]
  refine ⟨⟨m, ?_⟩, m', hm'.pop hp⟩
  have hgrant := hm.grant hflag.1 hng
  simpa [execWrite, hexec, hword] using hgrant

/-- **One step** of a call or of a card keeps the order. Nothing is assumed of it. -/
theorem step (h : OrderInv T w) {a : Act} (hs : T.step w a = some w') : OrderInv T w' := by
  cases a with
  | send ok =>
    obtain ⟨⟨e, t⟩, hst, rfl⟩ := Option.map_eq_some_iff.mp hs
    exact h.send hst
  | recv ok =>
    obtain ⟨⟨e, t⟩, hst, rfl⟩ := Option.map_eq_some_iff.mp hs
    exact h.recv hst
  | nicSend q =>
    obtain ⟨⟨⟨n, r⟩, nic⟩, hp, rfl⟩ := Option.map_eq_some_iff.mp hs
    exact h.nicSend hp
  | nicRecv q =>
    obtain ⟨⟨⟨n, r⟩, nic⟩, hp, rfl⟩ := Option.map_eq_some_iff.mp hs
    exact h.nicRecv hp

/-- **Order.** Every state of every run keeps both sides' invariants, whatever condition its steps
meet. All results about a transfer start from here. -/
theorem reach {ok : World → Act → Prop} {w₀ : World} (h₀ : T.Initial w₀)
    (hr : Reach T.step ok w₀ w) : OrderInv T w :=
  hr.invariant (initial h₀) fun _ _ _ _ h _ hs => h.step hs

end OrderInv

end HMC.Uhm
