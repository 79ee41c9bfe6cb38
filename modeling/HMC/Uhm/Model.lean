import HMC.Core.Chunks
import HMC.Core.ConnBuffer
import HMC.Machine.Run
import HMC.Machine.SendQueues

/-!
# UHM transfers: the two endpoints and the network card

`uhm_send` and `uhm_recv` move a byte string between two RDMA endpoints through the two
halves of their connection buffers. Each half is guarded by a flag word in the
`UHMBufferState` of *both* sides: a side changes its own copy with a plain store and the
peer's copy with an RDMA write that reads the local copy when it executes.

The model has four movers, interleaved freely by `Transfer.step`:

* the thread in `uhm_send` (`SendCall.step`) and the thread in `uhm_recv`
  (`RecvCall.step`), one load, store, staging copy or verbs call at a time. The Boolean of
  their action is the outcome of the call made in that step (a post, a wait or a staging
  copy); it is ignored by the steps that make none;
* the network card of each side, which executes the head of one of its send queues
  (`execWrite`) at any moment after the post.

A wait returns only after the requests it names have left their queues; it may also fail.
An endpoint owns `max numQps 1` queues.

What is left to chance is what the hardware and the memory leave to chance: when a card executes a
write, in which order the queues of different queue pairs advance, and whether a call fails. Within
a queue writes execute in the order of their posts. A write reads its source when it executes, so
the model can show a half that was refilled too early, or a flag word that has changed since the
post. The completions that a wait consumes are not modelled here but in `HMC.Rdma.Completion`.
-/

namespace HMC.Uhm

open HMC.Machine

/-! ### Shared memory -/

/-- `UHM_BUFFER_CAN_WRITE`. -/
def canWrite : ℕ := 0

/-- `UHM_BUFFER_CAN_READ`. -/
def canRead : ℕ := 1

theorem canRead_ne_canWrite : canRead ≠ canWrite := by decide

/-- `UHMBufferState`: one flag word per half and the header of the transfer. -/
structure UHMBufferState where
  state : ℕ → ℕ
  length : ℕ
  chunkBytes : ℕ

/-- What an RDMA write posted by a transfer copies: all of `uhm_buffer_state`, a range of the
connection buffer, or one flag word. -/
inductive RdmaWrite
  | bufferState
  | data (localOff remoteOff size : ℕ)
  | flag (idx : ℕ)
  deriving DecidableEq

/-- `ibv_send_wr`, as far as a transfer fills it in. -/
structure WorkRequest where
  write : RdmaWrite
  wrId : ℕ
  signaled : Bool
  deriving DecidableEq

/-- The part of an `RDMAEndpoint` that a transfer works on: the connection buffer's bytes,
`uhm_buffer_state`, `next_wr_id_` and the send queues. -/
structure Endpoint where
  bytes : Bytes
  uhm : UHMBufferState
  nextWrId : ℕ
  nic : SendQueues WorkRequest

namespace Endpoint

variable (e : Endpoint)

/-- Store `v` to flag word `i`. -/
def setState (i v : ℕ) : Endpoint :=
  { e with uhm := { e.uhm with state := Function.update e.uhm.state i v } }

/-- Store the header length. -/
def setLength (v : ℕ) : Endpoint := { e with uhm := { e.uhm with length := v } }

/-- Store the header chunk size. -/
def setChunkBytes (v : ℕ) : Endpoint := { e with uhm := { e.uhm with chunkBytes := v } }

/-- `next_wr_id_.fetch_add(1)`. -/
def takeWrId : Endpoint := { e with nextWrId := wrap64 (e.nextWrId + 1) }

/-- Take the next id and `postWrite` on queue `q`. -/
def postWrite (q : ℕ) (write : RdmaWrite) (signaled : Bool) : Endpoint :=
  { e.takeWrId with nic := e.nic.post q ⟨write, e.nextWrId, signaled⟩ }

@[simp] theorem setState_state (i v : ℕ) :
    (e.setState i v).uhm.state = Function.update e.uhm.state i v := rfl

@[simp] theorem setState_nic (i v : ℕ) : (e.setState i v).nic = e.nic := rfl

@[simp] theorem setState_bytes (i v : ℕ) : (e.setState i v).bytes = e.bytes := rfl

@[simp] theorem postWrite_nic (q : ℕ) (write : RdmaWrite) (signaled : Bool) :
    (e.postWrite q write signaled).nic = e.nic.post q ⟨write, e.nextWrId, signaled⟩ := rfl

/-- The request with this id has left the first `queues` send queues. -/
def Completed (queues id : ℕ) : Prop := ∀ q < queues, ∀ r ∈ e.nic.queue q, r.2.wrId ≠ id

instance (queues id : ℕ) : Decidable (e.Completed queues id) :=
  inferInstanceAs (Decidable (∀ q < queues, ∀ r ∈ e.nic.queue q, r.2.wrId ≠ id))

/-- All the named requests have left their queues. -/
def AllCompleted (queues : ℕ) (ids : List ℕ) : Prop := ∀ id ∈ ids, e.Completed queues id

instance (queues : ℕ) (ids : List ℕ) : Decidable (e.AllCompleted queues ids) :=
  inferInstanceAs (Decidable (∀ id ∈ ids, e.Completed queues id))

end Endpoint

/-- The network card of `src` executes a write: it reads the memory of `src` as it is now. -/
def execWrite (write : RdmaWrite) (src dst : Endpoint) : Endpoint :=
  match write with
  | .bufferState => { dst with uhm := src.uhm }
  | .data localOff remoteOff size =>
    { dst with bytes := blit dst.bytes remoteOff (fun k => src.bytes (localOff + k)) size }
  | .flag idx => dst.setState idx (src.uhm.state idx)

@[simp] theorem execWrite_nic (write : RdmaWrite) (src dst : Endpoint) :
    (execWrite write src dst).nic = dst.nic := by
  cases write <;> rfl

/-! ### `uhm_send` -/

/-- The arguments of a `uhm_send` call and the environment it reads. `inputBuffer` is `none`
for a null pointer. -/
structure SendCall where
  buffer : ConnBuffer
  numQps : ℕ
  uhmChunk : Option ℕ
  uhmSignalInterval : Option ℕ
  uhmPendingSignal : Option ℕ
  inputBuffer : Option Bytes
  sendFlags : ℕ
  memType : MemoryType

/-- Where the thread stands in `uhm_send`. -/
inductive SendPc
  | initState0
  | initState1
  | initLength
  | initChunkBytes
  | postState
  | prefillFirst
  | waitState
  | spin
  | postData
  | markReadable
  | postFlag
  | prefillNext
  | waitPending
  | finalWait
  | done (ret : Status)
  deriving DecidableEq

/-- The local variables of `uhm_send`; `stateWrId` is `wr_id`. -/
structure Sender where
  pc : SendPc
  currentChunk : ℕ
  stateWrId : ℕ
  pendingSignaled : List ℕ
  sinceLastSignal : ℕ

/-- Continue at `pc`. -/
def Sender.goto (t : Sender) (pc : SendPc) : Sender := { t with pc := pc }

namespace SendCall

variable (c : SendCall)

def halfBufferSize : ℕ := c.buffer.bufferSize / 2

def chunkSize : ℕ :=
  max 1 (min (envU32OrDefault c.uhmChunk (wrap32 c.halfBufferSize)) c.halfBufferSize)

def signalInterval : ℕ := max 1 (envU32OrDefault c.uhmSignalInterval 16)

def maxPendingSignal : ℕ := max 1 (envU32OrDefault c.uhmPendingSignal 8)

def numSendChunks : ℕ := numChunks c.sendFlags c.chunkSize

def queues : ℕ := max c.numQps 1

def qpIdx (chunk : ℕ) : ℕ := chunk % c.queues

/-- The bytes behind `input_buffer`. -/
def input : Bytes := c.inputBuffer.getD fun _ => 0

/-- `signal_flag`. -/
def signalFlag (t : Sender) : Bool :=
  decide (c.signalInterval ≤ 1) || decide (t.currentChunk + 1 ≥ c.numSendChunks) ||
    decide (t.sinceLastSignal + 1 ≥ c.signalInterval)

/-- The data write of chunk `i`: the same offset on both sides; `ibv_sge.length` has 32
bits. -/
def dataWrite (i : ℕ) : RdmaWrite :=
  .data (i % 2 * c.halfBufferSize) (i % 2 * c.halfBufferSize)
    (wrap32 (chunkLen c.sendFlags c.chunkSize i))

/-- Stage chunk `i` into its half of the local buffer; the status is dropped. -/
def prefill (e : Endpoint) (i : ℕ) (copied : Bool) : Endpoint :=
  { e with
    bytes := (c.buffer.stageIn c.memType e.bytes (fun k => c.input (i * c.chunkSize + k))
      (chunkLen c.sendFlags c.chunkSize i) (i % 2 * c.halfBufferSize) copied).2 }

@[simp] theorem prefill_nic (e : Endpoint) (i : ℕ) (copied : Bool) :
    (c.prefill e i copied).nic = e.nic := rfl

@[simp] theorem prefill_uhm (e : Endpoint) (i : ℕ) (copied : Bool) :
    (c.prefill e i copied).uhm = e.uhm := rfl

/-- The head of the chunk loop, and what follows it. -/
def loopHead (t : Sender) : Sender :=
  if t.currentChunk < c.numSendChunks then t.goto .spin
  else if t.pendingSignaled ≠ [] then t.goto .finalWait
  else t.goto (.done .success)

/-- The call up to its first access to shared memory. -/
def enter : Sender where
  pc :=
    -- an empty message is a success without any communication
    if c.sendFlags = 0 then .done .success
    else if c.inputBuffer = none then .done .error
    else if c.halfBufferSize = 0 then .done .error
    else if c.sendFlags > 2 ^ 32 - 1 then .done .error
    else .initState0
  currentChunk := 0
  stateWrId := 0
  pendingSignaled := []
  sinceLastSignal := 0

/-- The flag of the current chunk was posted under `flagWrId`. -/
def flagPosted (t : Sender) (flagWrId : ℕ) : Sender :=
  if c.signalFlag t then
    { t with
      pc := .prefillNext
      pendingSignaled := t.pendingSignaled ++ [flagWrId]
      sinceLastSignal := 0 }
  else { t with pc := .prefillNext, sinceLastSignal := t.sinceLastSignal + 1 }

/-- One step of the thread in `uhm_send`. -/
def step (ok : Bool) (e : Endpoint) (t : Sender) : Option (Endpoint × Sender) :=
  match t.pc with
  -- the header is prepared in place and sent as it is when the card gets to it
  | .initState0 => some (e.setState 0 canWrite, t.goto .initState1)
  | .initState1 => some (e.setState 1 canWrite, t.goto .initLength)
  | .initLength => some (e.setLength (wrap32 c.sendFlags), t.goto .initChunkBytes)
  | .initChunkBytes => some (e.setChunkBytes (wrap32 c.chunkSize), t.goto .postState)
  | .postState =>
    -- the id is taken before the post, so a refused post spends it as well
    if ok then
      some (e.postWrite 0 .bufferState true,
        { t with pc := .prefillFirst, stateWrId := e.nextWrId })
    else some (e.takeWrId, t.goto (.done .error))
  | .prefillFirst => some (c.prefill e 0 ok, t.goto .waitState)
  | .waitState =>
    if ok then
      if e.Completed c.queues t.stateWrId then some (e, c.loopHead t) else none
    else some (e, t.goto (.done .error))
  | .spin =>
    -- one look at the word; the thread comes back until it is `CAN_WRITE`
    some (e, if e.uhm.state (t.currentChunk % 2) = canWrite then t.goto .postData else t)
  | .postData =>
    -- unsignaled: the flag write behind it stands for both
    if ok then
      some (e.postWrite (c.qpIdx t.currentChunk) (c.dataWrite t.currentChunk) false,
        t.goto .markReadable)
    else some (e.takeWrId, t.goto (.done .error))
  | .markReadable => some (e.setState (t.currentChunk % 2) canRead, t.goto .postFlag)
  | .postFlag =>
    if ok then
      some (e.postWrite (c.qpIdx t.currentChunk) (.flag (t.currentChunk % 2)) (c.signalFlag t),
        c.flagPosted t e.nextWrId)
    else some (e.takeWrId, t.goto (.done .error))
  | .prefillNext =>
    -- the other half is refilled whether or not its last data write has left
    some (if t.currentChunk + 1 < c.numSendChunks then c.prefill e (t.currentChunk + 1) ok else e,
      t.goto .waitPending)
  | .waitPending =>
    if t.pendingSignaled.length ≥ c.maxPendingSignal then
      if ok then
        if e.AllCompleted c.queues t.pendingSignaled then
          some (e, c.loopHead { t with pendingSignaled := [], currentChunk := t.currentChunk + 1 })
        else none
      else some (e, t.goto (.done .error))
    else some (e, c.loopHead { t with currentChunk := t.currentChunk + 1 })
  | .finalWait =>
    if ok then
      if e.AllCompleted c.queues t.pendingSignaled then some (e, t.goto (.done .success)) else none
    else some (e, t.goto (.done .error))
  | .done _ => none

end SendCall

/-! ### `uhm_recv` -/

/-- The arguments of a `uhm_recv` call and the environment it reads; `nullArgs` says that
`output_buffer` or `recv_flags` is null. -/
structure RecvCall where
  buffer : ConnBuffer
  numQps : ℕ
  uhmSignalInterval : Option ℕ
  uhmPendingSignal : Option ℕ
  nullArgs : Bool
  bufferSize : ℕ
  memType : MemoryType

/-- Where the thread stands in `uhm_recv`. -/
inductive RecvPc
  | initState0
  | initState1
  | initLength
  | initChunkBytes
  | readState
  | readLength
  | readChunkBytes
  | storeState0
  | storeState1
  | spin
  | copyOut
  | markWritable
  | postFlag
  | waitPending
  | finalWait
  | done (ret : Status)
  deriving DecidableEq

/-- The local variables of `uhm_recv`, with the memory behind its two out-parameters. -/
structure Receiver where
  pc : RecvPc
  currentChunk : ℕ
  accumulatedSize : ℕ
  recvSize : ℕ
  recvChunkSize : ℕ
  numRecvChunks : ℕ
  pendingSignaled : List ℕ
  sinceLastSignal : ℕ
  recvFlags : ℕ
  output : Bytes

/-- Continue at `pc`. -/
def Receiver.goto (t : Receiver) (pc : RecvPc) : Receiver := { t with pc := pc }

/-- `recv_size` of the current chunk. -/
def Receiver.recvSizeOf (t : Receiver) : ℕ :=
  if t.currentChunk + 1 = t.numRecvChunks then
    -- `size_t` subtraction
    wrap64 (2 ^ 64 + t.recvFlags - t.accumulatedSize)
  else t.recvChunkSize

/-- The head of the chunk loop, and what follows it. -/
def Receiver.loopHead (t : Receiver) : Receiver :=
  if t.currentChunk < t.numRecvChunks then t.goto .spin
  else if t.pendingSignaled ≠ [] then t.goto .finalWait
  else t.goto (.done .success)

/-- The end of a loop iteration. -/
def Receiver.nextChunk (t : Receiver) : Receiver :=
  Receiver.loopHead
    { t with
      accumulatedSize := wrap64 (t.accumulatedSize + t.recvSize)
      currentChunk := t.currentChunk + 1 }

namespace RecvCall

variable (c : RecvCall)

def halfBufferSize : ℕ := c.buffer.bufferSize / 2

def signalInterval : ℕ := max 1 (envU32OrDefault c.uhmSignalInterval 16)

def maxPendingSignal : ℕ := max 1 (envU32OrDefault c.uhmPendingSignal 8)

def queues : ℕ := max c.numQps 1

def qpIdx (chunk : ℕ) : ℕ := chunk % c.queues

/-- `signal_flag`. -/
def signalFlag (t : Receiver) : Bool :=
  decide (c.signalInterval ≤ 1) || decide (t.currentChunk + 1 ≥ t.numRecvChunks) ||
    decide (t.sinceLastSignal + 1 ≥ c.signalInterval)

/-- `recv_chunk_size`, from the header's `chunk_bytes`. -/
def chunkSizeOf (chunkBytes : ℕ) : ℕ :=
  max 1 (min (if chunkBytes = 0 then c.halfBufferSize else chunkBytes) c.halfBufferSize)

/-- The call up to its first access to shared memory; `output` and `recvFlags` are the
contents of the caller's memory. -/
def enter (output : Bytes) (recvFlags : ℕ) : Receiver where
  pc :=
    if c.nullArgs then .done .error
    else if c.halfBufferSize = 0 then .done .error
    else .initState0
  currentChunk := 0
  accumulatedSize := 0
  recvSize := 0
  recvChunkSize := c.halfBufferSize
  numRecvChunks := 0
  pendingSignaled := []
  sinceLastSignal := 0
  recvFlags := recvFlags
  output := output

/-- The header was read: take its length, or fail on length zero. -/
def headerRead (t : Receiver) (chunkBytes : ℕ) : Receiver :=
  if t.recvFlags = 0 then t.goto (.done .error)
  else
    { t with
      pc := .storeState0
      recvChunkSize := c.chunkSizeOf chunkBytes
      numRecvChunks := numChunks t.recvFlags (c.chunkSizeOf chunkBytes) }

/-- `bias`, the start of the current half. -/
def bias (t : Receiver) : ℕ := t.currentChunk % 2 * c.halfBufferSize

/-- The boundary checks and the copy out of the current half. -/
def copyOut (e : Endpoint) (t : Receiver) (copied : Bool) : Receiver :=
  let size := t.recvSizeOf
  if size = 0 then t.goto (.done .error)
  else if size > c.bufferSize then t.goto (.done .error)
  else if wrap64 (t.accumulatedSize + size) > c.bufferSize then t.goto (.done .error)
  else
    { t with
      pc := .markWritable
      recvSize := size
      output := (c.buffer.stageOut c.memType e.bytes t.output t.accumulatedSize size (c.bias t)
        copied).2 }

/-- The write-back of the current chunk was posted under `flagWrId`. -/
def flagPosted (t : Receiver) (flagWrId : ℕ) : Receiver :=
  if c.signalFlag t then
    { t with
      pc := .waitPending
      pendingSignaled := t.pendingSignaled ++ [flagWrId]
      sinceLastSignal := 0 }
  else { t with pc := .waitPending, sinceLastSignal := t.sinceLastSignal + 1 }

/-- One step of the thread in `uhm_recv`. The copy `tmp` of `uhm_buffer_state` is made word
by word; only its first flag word, its length and its chunk size are used. -/
def step (ok : Bool) (e : Endpoint) (t : Receiver) : Option (Endpoint × Receiver) :=
  match t.pc with
  -- stores to the words that the sender writes too
  | .initState0 => some (e.setState 0 canRead, t.goto .initState1)
  | .initState1 => some (e.setState 1 canRead, t.goto .initLength)
  | .initLength => some (e.setLength 0, t.goto .initChunkBytes)
  | .initChunkBytes => some (e.setChunkBytes 0, t.goto .readState)
  | .readState => some (e, if e.uhm.state 0 = canWrite then t.goto .readLength else t)
  | .readLength => some (e, { t with pc := .readChunkBytes, recvFlags := e.uhm.length })
  | .readChunkBytes => some (e, c.headerRead t e.uhm.chunkBytes)
  | .storeState0 => some (e.setState 0 canWrite, t.goto .storeState1)
  | .storeState1 => some (e.setState 1 canWrite, t.loopHead)
  | .spin =>
    some (e, if e.uhm.state (t.currentChunk % 2) = canRead then t.goto .copyOut else t)
  -- the half is copied out before it is given back
  | .copyOut => some (e, c.copyOut e t ok)
  | .markWritable => some (e.setState (t.currentChunk % 2) canWrite, t.goto .postFlag)
  | .postFlag =>
    if ok then
      some (e.postWrite (c.qpIdx t.currentChunk) (.flag (t.currentChunk % 2)) (c.signalFlag t),
        c.flagPosted t e.nextWrId)
    else some (e.takeWrId, t.goto (.done .error))
  | .waitPending =>
    if t.pendingSignaled.length ≥ c.maxPendingSignal then
      if ok then
        if e.AllCompleted c.queues t.pendingSignaled then
          some (e, Receiver.nextChunk { t with pendingSignaled := [] })
        else none
      else some (e, t.goto (.done .error))
    else some (e, t.nextChunk)
  | .finalWait =>
    if ok then
      if e.AllCompleted c.queues t.pendingSignaled then some (e, t.goto (.done .success)) else none
    else some (e, t.goto (.done .error))
  | .done _ => none

end RecvCall

/-! ### One transfer -/

/-- A `uhm_send` call on one endpoint and a `uhm_recv` call on its peer. -/
structure Transfer where
  send : SendCall
  recv : RecvCall

/-- Both endpoints and both threads. -/
structure World where
  snd : Endpoint
  rcv : Endpoint
  sender : Sender
  receiver : Receiver

/-- Who moves: a thread, with the outcome of the call it makes, or the card of one side
executing the head of one of its send queues. -/
inductive Act
  | send (ok : Bool)
  | recv (ok : Bool)
  | nicSend (q : ℕ)
  | nicRecv (q : ℕ)
  deriving DecidableEq

namespace Transfer

variable (T : Transfer)

/-- One step of the whole system. -/
def step (w : World) : Act → Option World
  | .send ok => (T.send.step ok w.snd w.sender).map fun p => { w with snd := p.1, sender := p.2 }
  | .recv ok =>
    (T.recv.step ok w.rcv w.receiver).map fun p => { w with rcv := p.1, receiver := p.2 }
  | .nicSend q => (w.snd.nic.pop q).map fun p =>
    { w with snd := { w.snd with nic := p.2 }, rcv := execWrite p.1.2.write w.snd w.rcv }
  | .nicRecv q => (w.rcv.nic.pop q).map fun p =>
    { w with rcv := { w.rcv with nic := p.2 }, snd := execWrite p.1.2.write w.rcv w.snd }

/-- A state in which both calls are about to start and no write is in flight; the memory of
both sides is arbitrary. -/
structure Initial (w : World) : Prop where
  snd_nic : w.snd.nic = .empty
  rcv_nic : w.rcv.nic = .empty
  sender : w.sender = T.send.enter
  receiver : ∃ output recvFlags, w.receiver = T.recv.enter output recvFlags

end Transfer

/-! ### A small transfer -/

/-- Three bytes over connection buffers of two bytes, on one queue pair. -/
def shortTransfer : Transfer where
  send :=
    { buffer := ⟨2, .cpu⟩
      numQps := 1
      uhmChunk := none
      uhmSignalInterval := none
      uhmPendingSignal := none
      inputBuffer := some fun a => UInt8.ofNat (a + 1)
      sendFlags := 3
      memType := .cpu }
  recv :=
    { buffer := ⟨2, .cpu⟩
      numQps := 1
      uhmSignalInterval := none
      uhmPendingSignal := none
      nullArgs := false
      bufferSize := 3
      memType := .cpu }

/-- An endpoint whose memory is zero and whose first id is `1`. -/
def Endpoint.fresh : Endpoint := ⟨fun _ => 0, ⟨fun _ => 0, 0, 0⟩, 1, .empty⟩

/-- Both calls of `T` about to start on fresh endpoints. -/
def Transfer.start (T : Transfer) : World :=
  ⟨.fresh, .fresh, T.send.enter, T.recv.enter (fun _ => 0) 0⟩

theorem Transfer.initial_start (T : Transfer) : T.Initial T.start :=
  ⟨rfl, rfl, rfl, _, _, rfl⟩

/-- A run of the short transfer in which each write executes as soon as it is posted. -/
def promptRun : List Act := schedule
  [(4, .recv true), (5, .send true), (1, .nicSend 0), (5, .recv true), (7, .send true),
    (2, .nicSend 0), (5, .recv true), (1, .nicRecv 0), (6, .send true), (2, .nicSend 0),
    (5, .recv true), (1, .nicRecv 0), (7, .send true), (2, .nicSend 0), (4, .recv true),
    (1, .nicRecv 0), (2, .recv true), (1, .send true)]

end HMC.Uhm
