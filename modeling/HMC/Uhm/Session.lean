import HMC.Machine.Log
import HMC.Uhm.Model

/-!
# Consecutive transfers

A `Session` is a sequence of `uhm_send` calls on one endpoint and a sequence of `uhm_recv`
calls on its peer. Memory, id counters and send queues stay between the calls; a thread that
has returned enters its next call at any later moment, whatever is still in flight.

The log records what the transfers have to agree on: when a send has reset its state words,
when a receive has copied out its last chunk, and which call posted a write that executes.
`Session.Isolated` is the claim on the log.

It fails (`not_isolated_of_returned`): `uhm_send` returns when its own flag writes have
completed, not when the receiver has given the last halves back. `Session.Settled` is the
step condition under which consecutive transfers are isolated; that is the subject of
`HMC.Uhm.Isolation`.

A write belongs to the call that has posted it. Since the queues are shared by all calls of an
endpoint, the state carries the owner of each request number (`ownFrom`), which is set when a call
is entered and read when the card executes the request; it is there for the log only, no step
depends on it.
-/

namespace HMC.Uhm

open HMC.Machine

/-- The `uhm_send` calls of one endpoint and the `uhm_recv` calls of its peer, with what each
receive finds behind its out-parameters. -/
structure Session where
  send : ℕ → SendCall
  recv : ℕ → RecvCall
  output : ℕ → Bytes
  recvFlags : ℕ → ℕ

/-- Both endpoints and both threads, each in its current call. The owners say which call has
posted, or would post, each request number. -/
structure SessionWorld where
  snd : Endpoint
  rcv : Endpoint
  sendCall : ℕ
  sender : Sender
  recvCall : ℕ
  receiver : Receiver
  sndOwner : ℕ → ℕ
  rcvOwner : ℕ → ℕ

/-- What a session records: send `k` has reset both state words, a write of send `k` executes
at the receiver, receive `k` has copied out its last chunk, a write-back of receive `k` executes
at the sender. -/
inductive SessionEvent
  | reset (k : ℕ)
  | sendWrite (k : ℕ)
  | copiedLast (k : ℕ)
  | writeBack (k : ℕ)
  deriving DecidableEq

/-- The status a thread has returned with. -/
def SendPc.returned : SendPc → Option Status
  | .done ret => some ret
  | _ => none

/-- The status a thread has returned with. -/
def RecvPc.returned : RecvPc → Option Status
  | .done ret => some ret
  | _ => none

/-- From request number `n` on, posts are those of call `k`. -/
def ownFrom (owner : ℕ → ℕ) (n k : ℕ) : ℕ → ℕ := fun i => if i < n then owner i else k

namespace Session

variable (S : Session)

/-- The thread of `uhm_recv` at the start of call `k`. -/
def enterRecv (k : ℕ) : Receiver := (S.recv k).enter (S.output k) (S.recvFlags k)

/-- One step of the session. -/
def step (w : SessionWorld) : Act → Option SessionWorld
  | .send ok =>
    match w.sender.pc.returned with
    | some _ =>
      some { w with
        sendCall := w.sendCall + 1
        sender := (S.send (w.sendCall + 1)).enter
        sndOwner := ownFrom w.sndOwner w.snd.nic.next (w.sendCall + 1) }
    | none =>
      ((S.send w.sendCall).step ok w.snd w.sender).map fun p =>
        { w with snd := p.1, sender := p.2 }
  | .recv ok =>
    match w.receiver.pc.returned with
    | some _ =>
      some { w with
        recvCall := w.recvCall + 1
        receiver := S.enterRecv (w.recvCall + 1)
        rcvOwner := ownFrom w.rcvOwner w.rcv.nic.next (w.recvCall + 1) }
    | none =>
      ((S.recv w.recvCall).step ok w.rcv w.receiver).map fun p =>
        { w with rcv := p.1, receiver := p.2 }
  | .nicSend q => (w.snd.nic.pop q).map fun p =>
    { w with snd := { w.snd with nic := p.2 }, rcv := execWrite p.1.2.write w.snd w.rcv }
  | .nicRecv q => (w.rcv.nic.pop q).map fun p =>
    { w with rcv := { w.rcv with nic := p.2 }, snd := execWrite p.1.2.write w.rcv w.snd }

/-- The event of a step. -/
def event (w : SessionWorld) : Act → Option SessionEvent
  | .send _ => if w.sender.pc = .initState1 then some (.reset w.sendCall) else none
  | .recv ok =>
    if w.receiver.pc = .copyOut ∧ w.receiver.currentChunk + 1 = w.receiver.numRecvChunks ∧
        ((S.recv w.recvCall).copyOut w.rcv w.receiver ok).pc = .markWritable then
      some (.copiedLast w.recvCall)
    else none
  | .nicSend q => (w.snd.nic.queue q).head?.map fun e => .sendWrite (w.sndOwner e.1)
  | .nicRecv q => (w.rcv.nic.queue q).head?.map fun e => .writeBack (w.rcvOwner e.1)

/-- Both first calls are about to start and no write is in flight; the memory of both sides is
arbitrary. -/
structure Initial (w : SessionWorld) : Prop where
  snd_nic : w.snd.nic = .empty
  rcv_nic : w.rcv.nic = .empty
  sendCall : w.sendCall = 0
  sender : w.sender = (S.send 0).enter
  recvCall : w.recvCall = 0
  receiver : w.receiver = S.enterRecv 0
  sndOwner : w.sndOwner = fun _ => 0
  rcvOwner : w.rcvOwner = fun _ => 0

/-- **Isolation.** No write of send `k + 1` executes at the receiver before receive `k` has
copied out its last chunk, and no write-back of receive `k` executes at the sender after send
`k + 1` has reset its state words. -/
structure Isolated (log : List SessionEvent) : Prop where
  copied : ∀ k, Preceded (.copiedLast k) (.sendWrite (k + 1)) log
  quiet : ∀ k, Barred (.reset (k + 1)) (.writeBack k) log

/-- A call follows a call that succeeded, and a send follows a send that moved a message and
whose two halves have both been given back: both state words of the sender are `CAN_WRITE`. -/
def Settled (w : SessionWorld) : Act → Prop
  | .send _ => ∀ ret ∈ w.sender.pc.returned,
      ret = .success ∧ 0 < (S.send w.sendCall).sendFlags ∧
        w.snd.uhm.state 0 = canWrite ∧ w.snd.uhm.state 1 = canWrite
  | .recv _ => ∀ ret ∈ w.receiver.pc.returned, ret = .success
  | _ => True

instance (w : SessionWorld) : ∀ a, Decidable (S.Settled w a)
  | .send _ => inferInstanceAs (Decidable (∀ ret ∈ w.sender.pc.returned,
      ret = .success ∧ 0 < (S.send w.sendCall).sendFlags ∧
        w.snd.uhm.state 0 = canWrite ∧ w.snd.uhm.state 1 = canWrite))
  | .recv _ => inferInstanceAs (Decidable (∀ ret ∈ w.receiver.pc.returned, ret = .success))
  | .nicSend _ | .nicRecv _ => inferInstanceAs (Decidable True)

/-- Every chunk that a send cuts fits into a half of the receive it is matched with. -/
def Fits : Prop := ∀ k, (S.send k).chunkSize ≤ (S.recv k).halfBufferSize

/-- The first calls of `S` about to start on fresh endpoints. -/
def start : SessionWorld :=
  ⟨.fresh, .fresh, 0, (S.send 0).enter, 0, S.enterRecv 0, fun _ => 0, fun _ => 0⟩

theorem initial_start : S.Initial S.start := ⟨rfl, rfl, rfl, rfl, rfl, rfl, rfl, rfl⟩

end Session

/-! ### A send that returns too early -/

/-- Messages of one byte over connection buffers of two, on one queue pair. -/
def byteSession : Session where
  send _ := { shortTransfer.send with sendFlags := 1 }
  recv _ := { shortTransfer.recv with bufferSize := 1 }
  output _ := fun _ => 0
  recvFlags _ := 0

/-- A run of the byte session in which each write executes as soon as it is posted. The first
send returns while the first receive has not yet copied its chunk out. -/
def returnedRun : List Act := schedule
  [(4, .recv true), (5, .send true), (1, .nicSend 0), (5, .recv true), (4, .send true),
    (1, .nicSend 0), (2, .send true), (1, .nicSend 0), (3, .send true), (1, .recv true),
    -- the second send: reset and header
    (6, .send true), (1, .nicSend 0),
    -- the first receive copies out and writes back
    (3, .recv true), (1, .nicRecv 0)]

/-- **Consecutive transfers are not isolated.** Though every write executes at once, the header
of the second send lands before the first receive has copied its only chunk out, and the
write-back of that chunk lands after the second send has reset its words. -/
theorem not_isolated_of_returned :
    ∃ w, Reach (logStep byteSession.step byteSession.event) (onState Free)
        ⟨byteSession.start, []⟩ w ∧
      ¬ Preceded (.copiedLast 0) (.sendWrite 1) w.log ∧
      ¬ Barred (.reset 1) (.writeBack 0) w.log := by
  obtain ⟨w, hr, hlog⟩ : ∃ w, Reach (logStep byteSession.step byteSession.event) (onState Free)
      ⟨byteSession.start, []⟩ w ∧
      w.log = [.reset 0, .sendWrite 0, .sendWrite 0, .sendWrite 0, .reset 1, .sendWrite 1,
        .copiedLast 0, .writeBack 0] :=
    exists_reach_of_exec returnedRun (by decide +kernel)
  refine ⟨w, hr, fun hp => ?_, fun hb => ?_⟩
  · have hmem := hp [.reset 0, .sendWrite 0, .sendWrite 0, .sendWrite 0, .reset 1]
      [.copiedLast 0, .writeBack 0] hlog
    revert hmem
    decide
  · refine hb [.reset 0, .sendWrite 0, .sendWrite 0, .sendWrite 0]
      [.sendWrite 1, .copiedLast 0, .writeBack 0] hlog ?_
    decide

end HMC.Uhm
