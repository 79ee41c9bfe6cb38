import HMC.Core.Chunks
import HMC.Machine.Run
import HMC.Rdma.Endpoint

/-!
# The chunked pipelines

`writeDataPipeline` and `readDataPipeline` cut a request into chunks, post them through the
non-blocking operations, signal every `signal_interval`-th chunk and the last one, and wait
for the signaled ones when `max_inflight` chunks have been posted and at the end.

The chunks go round-robin over the queue pairs, and a completion says something about its own
queue pair only. A call that returns `SUCCESS` therefore has moved all its bytes exactly when
each chunk is followed, on its own queue pair, by a signaled one (`pipeline_executed_iff`).

`PipelineInv` follows a call from its first post: after `k` posts, what the thread holds, what waits
in the queues and what has completed are known, for every run. In one direction a return with
`SUCCESS` has seen a completion of every signaled chunk, and a queue pair executes in order. In
the other direction a run is built that returns `SUCCESS` without executing a given chunk: the card
is spared that queue pair from this chunk on (`PipelineCall.Spare`), no wait needs it, and a measure
shows that the call comes to its end.
-/

namespace HMC.Rdma

open HMC.Machine

/-- The arguments of a pipeline call on an endpoint and the environment it reads. -/
structure PipelineCall where
  config : EndpointConfig
  opcode : Opcode
  localOff : ℕ
  remoteOff : ℕ
  size : ℕ
  chunkSize : ℕ
  maxInflight : ℕ
  pipelineChunk : Option ℕ
  pipelineInflight : Option ℕ
  pipelineSignalInterval : Option ℕ

/-- Before a post, before the wait that may follow it, or back at the caller. -/
inductive PipelinePc
  | post
  | wait
  | done (ret : Status)
  deriving DecidableEq

/-- The endpoint and the local variables of a pipeline call. -/
structure Pipeline where
  ep : Endpoint
  pc : PipelinePc
  offset : ℕ
  pendingWrs : List ℕ
  inflightPosts : ℕ
  sinceLastSignal : ℕ

/-- The thread moves, with the outcome of its post or wait, or the card executes the head of
a queue. -/
inductive PipelineAct
  | run (ok : Bool)
  | nic (q : ℕ)
  deriving DecidableEq

namespace PipelineCall

variable (c : PipelineCall)

/-- `chunk_size`, with its default. -/
def chunkBytes : ℕ :=
  let chunk :=
    if c.chunkSize = 0 then envU32OrDefault c.pipelineChunk (4 * 1024 * 1024) else c.chunkSize
  if chunk = 0 then 4 * 1024 * 1024 else chunk

/-- `max_inflight`, with its default. -/
def window : ℕ :=
  let inflight :=
    if c.maxInflight = 0 then
      envU32OrDefault c.pipelineInflight (max 32 (c.config.maxWr / 2))
    else c.maxInflight
  if inflight = 0 then 32 else inflight

def signalInterval : ℕ :=
  min (max 1 (envU32OrDefault c.pipelineSignalInterval 16)) c.window

def currentChunkSize (w : Pipeline) : ℕ := min c.chunkBytes (c.size - w.offset)

def isLast (w : Pipeline) : Bool := decide (w.offset + c.currentChunkSize w ≥ c.size)

def signaled (w : Pipeline) : Bool :=
  decide (c.signalInterval ≤ 1) || c.isLast w || decide (w.sinceLastSignal + 1 ≥ c.signalInterval)

/-- The head of the loop. -/
def loopHead (w : Pipeline) : Pipeline :=
  { w with pc := if w.offset < c.size then .post else .done .success }

/-- The call up to its first post. -/
def enter (e : Endpoint) : Pipeline :=
  let w : Pipeline := ⟨e, .done .error, 0, [], 0, 0⟩
  if c.config.inRange c.localOff c.remoteOff c.size then c.loopHead w else w

/-- Count a posted chunk; `wrId` is what the operation left in `wr_id`. -/
def record (w : Pipeline) (wrId : ℕ) (e : Endpoint) : Pipeline where
  ep := e
  pc := .wait
  offset := w.offset + c.currentChunkSize w
  pendingWrs := if c.signaled w ∧ wrId ≠ 0 then w.pendingWrs ++ [wrId] else w.pendingWrs
  inflightPosts := w.inflightPosts + 1
  sinceLastSignal := if c.signaled w ∧ wrId ≠ 0 then 0 else w.sinceLastSignal + 1

/-- A chunk was posted: wait when the window is full or the chunk was the last. -/
def chunkPosted (w : Pipeline) (wrId : ℕ) (e : Endpoint) : Pipeline :=
  if (c.record w wrId e).inflightPosts ≥ c.window ∨ c.isLast w then c.record w wrId e
  else c.loopHead (c.record w wrId e)

/-- One step of the call, or of the card. -/
def step (w : Pipeline) : PipelineAct → Option Pipeline
  | .run ok =>
    match w.pc with
    | .post =>
      match c.config.dataNBInternal c.opcode w.ep (wrap64 (c.localOff + w.offset))
          (wrap64 (c.remoteOff + w.offset)) (c.currentChunkSize w) (c.signaled w) ok with
      | (.success, wrId, e) => some (c.chunkPosted w wrId e)
      | (_, _, e) => some { w with ep := e, pc := .done .error }
    | .wait =>
      if w.pendingWrs = [] then some (c.loopHead { w with inflightPosts := 0 })
      else if ok then
        (w.ep.reap w.pendingWrs).map fun e =>
          c.loopHead { w with ep := e, pendingWrs := [], inflightPosts := 0 }
      else some { w with pc := .done .error }
    | .done _ => none
  | .nic q => (w.ep.execute q).map fun e => { w with ep := e }

end PipelineCall

/-- `RDMAEndpoint::writeDataPipeline`. -/
def writeDataPipeline (config : EndpointConfig) (localOff remoteOff size chunkSize maxInflight : ℕ)
    (pipelineChunk pipelineInflight pipelineSignalInterval : Option ℕ) : PipelineCall where
  config := config
  opcode := .write
  localOff := localOff
  remoteOff := remoteOff
  size := size
  chunkSize := chunkSize
  maxInflight := maxInflight
  pipelineChunk := pipelineChunk
  pipelineInflight := pipelineInflight
  pipelineSignalInterval := pipelineSignalInterval

/-- `RDMAEndpoint::readDataPipeline`: the same loop around `readDataNBInternal`. -/
def readDataPipeline (config : EndpointConfig) (localOff remoteOff size chunkSize maxInflight : ℕ)
    (pipelineChunk pipelineInflight pipelineSignalInterval : Option ℕ) : PipelineCall :=
  { writeDataPipeline config localOff remoteOff size chunkSize maxInflight pipelineChunk
      pipelineInflight pipelineSignalInterval with opcode := .read }

/-- Every request that a call has posted since it started on the endpoint `e` is executed. -/
def Pipeline.AllExecuted (w : Pipeline) (e : Endpoint) : Prop :=
  ∀ t, e.nic.next ≤ t → t < w.ep.nic.next → w.ep.nic.Executed t

namespace PipelineCall

variable (c : PipelineCall)

/-! ### The posts of a call -/

/-- How many chunks the request is cut into. -/
def chunks : ℕ := numChunks c.size c.chunkBytes

/-- The counters after `i` posts. -/
def countersAt (e : Endpoint) (i : ℕ) : Counters := (c.config.take)^[i] e.toCounters

/-- The queue pair of chunk `i`. -/
def queueOf (e : Endpoint) (i : ℕ) : ℕ := c.config.nextQp (c.countersAt e i)

/-- The id of chunk `i`. -/
def idOf (e : Endpoint) (i : ℕ) : ℕ := c.config.nextId (c.countersAt e i)

/-- The ids of the call are good names: nonzero, distinct, and not in use when it starts. -/
structure FreshIds (e : Endpoint) : Prop where
  ne_zero : ∀ i < c.chunks, c.idOf e i ≠ 0
  injective : ∀ i < c.chunks, ∀ j < c.chunks, c.idOf e i = c.idOf e j → i = j
  unrecorded : ∀ i < c.chunks, c.idOf e i ∉ e.completed
  unqueued : ∀ i < c.chunks, ∀ t r q, e.nic.Queued t r q → r.wrId ≠ c.idOf e i

/-- The range check of chunk `i`. -/
def chunkInRange (i : ℕ) : Bool :=
  c.config.inRange (wrap64 (c.localOff + i * c.chunkBytes))
    (wrap64 (c.remoteOff + i * c.chunkBytes)) (chunkLen c.size c.chunkBytes i)

/-- The request and each of its chunks pass the range checks. -/
def Accepted : Prop :=
  c.config.inRange c.localOff c.remoteOff c.size = true ∧ ∀ i < c.chunks, c.chunkInRange i = true

/-- Each chunk is followed, on its own queue pair, by a signaled one (or is one). -/
def Covered (e : Endpoint) : Prop :=
  ∀ i < c.chunks, ∃ j < c.chunks, i ≤ j ∧ c.queueOf e j = c.queueOf e i ∧
    signalAt c.signalInterval c.chunks j

theorem chunkBytes_pos : 0 < c.chunkBytes := by
  unfold chunkBytes
  dsimp only
  split_ifs <;> omega

theorem window_pos : 0 < c.window := by
  unfold window
  dsimp only
  split_ifs <;> omega

theorem signalInterval_pos : 0 < c.signalInterval := by
  have := c.window_pos
  unfold signalInterval
  omega

theorem countersAt_succ (e : Endpoint) (i : ℕ) :
    c.countersAt e (i + 1) = c.config.take (c.countersAt e i) :=
  Function.iterate_succ_apply' _ _ _

theorem queueOf_lt (e : Endpoint) (i : ℕ) : c.queueOf e i < max c.config.numQps 1 :=
  c.config.nextQp_lt _

/-- The call is about to post chunk `k`. -/
structure AtChunk (w : Pipeline) (k : ℕ) : Prop where
  lt_chunks : k < c.chunks
  offset : w.offset = min (k * c.chunkBytes) c.size

end PipelineCall

namespace PipelineCall.AtChunk

variable {c : PipelineCall} {w : Pipeline} {k : ℕ} (h : c.AtChunk w k)

include h

theorem offset_eq : w.offset = k * c.chunkBytes := by
  have := (lt_numChunks_iff c.chunkBytes_pos).mp h.lt_chunks
  rw [h.offset]
  omega

theorem currentChunkSize_eq : c.currentChunkSize w = chunkLen c.size c.chunkBytes k := by
  rw [PipelineCall.currentChunkSize, h.offset_eq, chunkLen]

theorem isLast_iff : c.isLast w = true ↔ k + 1 = c.chunks := by
  rw [PipelineCall.isLast, decide_eq_true_iff, h.offset_eq, h.currentChunkSize_eq]
  exact le_chunk_end_iff c.chunkBytes_pos h.lt_chunks

theorem chunkInRange_eq : c.chunkInRange k =
    c.config.inRange (wrap64 (c.localOff + w.offset)) (wrap64 (c.remoteOff + w.offset))
      (c.currentChunkSize w) := by
  rw [PipelineCall.chunkInRange, h.offset_eq, h.currentChunkSize_eq]

theorem offset_succ : w.offset + c.currentChunkSize w = min ((k + 1) * c.chunkBytes) c.size := by
  have := (lt_numChunks_iff c.chunkBytes_pos).mp h.lt_chunks
  rw [h.offset_eq, h.currentChunkSize_eq, chunkLen, Nat.add_mul, Nat.one_mul]
  omega

theorem currentChunkSize_pos : 0 < c.currentChunkSize w := by
  rw [h.currentChunkSize_eq]
  exact chunkLen_pos c.chunkBytes_pos h.lt_chunks

/-- A chunk in range is posted when the card takes it. -/
theorem post_succeeds (hpc : w.pc = .post) (hin : c.chunkInRange k = true) :
    ∃ wrId ep, c.step w (.run true) = some (c.chunkPosted w wrId ep) ∧
      ∃ r, ep.nic = w.ep.nic.post (c.config.nextQp w.ep.toCounters) r := by
  rw [h.chunkInRange_eq] at hin
  rcases c.config.dataNBInternal_cases c.opcode w.ep (wrap64 (c.localOff + w.offset))
    (wrap64 (c.remoteOff + w.offset)) (c.currentChunkSize w) (c.signaled w) true with
    ⟨k', -, heq⟩ | ⟨-, -, heq⟩
  · have hne : (c.config.dataNBInternal c.opcode w.ep (wrap64 (c.localOff + w.offset))
        (wrap64 (c.remoteOff + w.offset)) (c.currentChunkSize w) (c.signaled w) true).1 =
        .success := by
      simp [EndpointConfig.dataNBInternal, hin]
    rw [heq] at hne
    cases hne
  · simp only [PipelineCall.step, hpc, heq]
    exact ⟨_, _, rfl, _, rfl⟩

end PipelineCall.AtChunk

/-! ### The invariant of a call -/

/-- Where a call with `n` chunks stands after `k` posts. -/
def PipelinePc.At (n k : ℕ) (pending : List ℕ) : PipelinePc → Prop
  | .post => k < n
  | .wait => k ≤ n
  | .done ret => ret = .success → k = n ∧ pending = []

/-- A call that started on the endpoint `e` has made `k` posts. -/
structure PipelineInv (c : PipelineCall) (e : Endpoint) (w : Pipeline) (k : ℕ) : Prop where
  place : w.pc.At c.chunks k w.pendingWrs
  le_chunks : k ≤ c.chunks
  accepted : w.pc ≠ .done .error →
    c.config.inRange c.localOff c.remoteOff c.size = true ∧ ∀ i < k, c.chunkInRange i = true
  offset : w.offset = min (k * c.chunkBytes) c.size
  counters : w.pc ≠ .done .error → w.ep.toCounters = c.countersAt e k
  since : w.pc ≠ .done .error → k < c.chunks → w.sinceLastSignal = k % c.signalInterval
  posted : w.ep.nic.next = e.nic.next + k
  fifo : w.ep.nic.Fifo e.nic.next fun t => c.queueOf e (t - e.nic.next)
  queued : ∀ {i r q}, w.ep.nic.Queued (e.nic.next + i) r q →
    r.wrId = c.idOf e i ∧ (r.signaled = true ↔ signalAt c.signalInterval c.chunks i)
  old : ∀ {t r q}, t < e.nic.next → w.ep.nic.Queued t r q → ∀ i < c.chunks, r.wrId ≠ c.idOf e i
  completed : ∀ i < c.chunks, c.idOf e i ∈ w.ep.completed → w.ep.nic.Executed (e.nic.next + i)
  pending : ∀ i < k, signalAt c.signalInterval c.chunks i →
    c.idOf e i ∈ w.pendingWrs ∨ w.ep.nic.Executed (e.nic.next + i)
  named : ∀ id ∈ w.pendingWrs, ∃ i < k, signalAt c.signalInterval c.chunks i ∧ id = c.idOf e i
  recorded : ∀ i < k, signalAt c.signalInterval c.chunks i → c.idOf e i ∈ w.pendingWrs →
    w.ep.nic.Executed (e.nic.next + i) → c.idOf e i ∈ w.ep.completed

namespace PipelineInv

variable {c : PipelineCall} {e : Endpoint} {w w' : Pipeline} {k : ℕ}

/-- The head of the loop only decides where the call goes on. -/
theorem loopHead (h : PipelineInv c e w k) (hpc : w.pc ≠ .done .error)
    (hp : k = c.chunks → w.pendingWrs = []) : PipelineInv c e (c.loopHead w) k := by
  have hlt : w.offset < c.size ↔ k < c.chunks := by
    rw [h.offset, PipelineCall.chunks, lt_numChunks_iff c.chunkBytes_pos]
    omega
  have hle := h.le_chunks
  refine
    { h with
      place := ?_
      accepted := fun _ => h.accepted hpc
      counters := fun _ => h.counters hpc
      since := fun _ => h.since hpc }
  by_cases hw : w.offset < c.size
  · rw [PipelineCall.loopHead, if_pos hw]
    exact hlt.mp hw
  · rw [PipelineCall.loopHead, if_neg hw]
    intro _
    have hk : k = c.chunks := by
      have := mt hlt.mpr hw
      omega
    exact ⟨hk, hp hk⟩

theorem initial (hord : e.nic.Ordered) (hfresh : c.FreshIds e) :
    PipelineInv c e (c.enter e) 0 := by
  have hbase : ∀ pc, PipelinePc.At c.chunks 0 [] pc →
      (pc ≠ .done .error → c.config.inRange c.localOff c.remoteOff c.size = true) →
      PipelineInv c e ⟨e, pc, 0, [], 0, 0⟩ 0 := fun pc hpc hin =>
    { place := hpc
      accepted := fun hne => ⟨hin hne, fun i hi => absurd hi (Nat.not_lt_zero i)⟩
      le_chunks := Nat.zero_le _
      offset := by simp
      counters := fun _ => rfl
      since := fun _ _ => (Nat.zero_mod _).symm
      posted := rfl
      fifo := .start hord rfl
      queued := fun hq => absurd (hord.lt_next hq) (by omega)
      old := fun _ hq i hi => hfresh.unqueued i hi _ _ _ hq
      completed := fun i hi hm => absurd hm (hfresh.unrecorded i hi)
      pending := fun i hi => absurd hi (Nat.not_lt_zero i)
      named := by simp
      recorded := by simp }
  unfold PipelineCall.enter
  split_ifs with hin
  · exact (hbase .wait (Nat.zero_le _) fun _ => hin).loopHead (by simp) fun _ => rfl
  · exact hbase _ (by simp [PipelinePc.At]) fun hne => absurd rfl hne

/-! ### A post -/

section Post

variable (h : PipelineInv c e w k) (hpc : w.pc = .post)

include h hpc

theorem lt_chunks : k < c.chunks := by
  have hp := h.place
  rwa [hpc] at hp

theorem atChunk : c.AtChunk w k := ⟨h.lt_chunks hpc, h.offset⟩

/-- The signals are spaced as the interval says. -/
theorem signaled_iff : c.signaled w = true ↔ signalAt c.signalInterval c.chunks k := by
  have hne : w.pc ≠ .done .error := by simp [hpc]
  rw [← interval_test_iff c.signalInterval_pos, ← (h.atChunk hpc).isLast_iff,
    PipelineCall.signaled,
    h.since hne (h.lt_chunks hpc)]
  simp only [Bool.or_eq_true, decide_eq_true_iff, or_assoc, ge_iff_le]

end Post

/-- What the loop knows about the id it was given for chunk `k`. -/
theorem recorded_iff (hfresh : c.FreshIds e) (h : PipelineInv c e w k) (hpc : w.pc = .post)
    {wrId : ℕ} (hid : wrId = if c.signaled w then c.idOf e k else 0) :
    (c.signaled w = true ∧ wrId ≠ 0 ↔ signalAt c.signalInterval c.chunks k) ∧
      (signalAt c.signalInterval c.chunks k → wrId = c.idOf e k) := by
  have hiff := h.signaled_iff hpc
  have heq : signalAt c.signalInterval c.chunks k → wrId = c.idOf e k := fun hs => by
    rw [hid, if_pos (hiff.mpr hs)]
  refine ⟨⟨fun hs => hiff.mp hs.1, fun hs => ⟨hiff.mpr hs, ?_⟩⟩, heq⟩
  rw [heq hs]
  exact hfresh.ne_zero k (h.lt_chunks hpc)

/-- A chunk was posted to its queue pair under its id. -/
theorem record (hfresh : c.FreshIds e) (h : PipelineInv c e w k) (hpc : w.pc = .post)
    (hin : c.chunkInRange k = true) {r : OneSided} {wrId : ℕ} (hr : r.wrId = c.idOf e k)
    (hsig : r.signaled = c.signaled w) (hid : wrId = if c.signaled w then c.idOf e k else 0) :
    PipelineInv c e
      (c.record w wrId { w.ep with
        toCounters := c.config.take w.ep.toCounters
        nic := w.ep.nic.post (c.config.nextQp w.ep.toCounters) r }) (k + 1) := by
  have hk := h.lt_chunks hpc
  have hne : w.pc ≠ .done .error := by simp [hpc]
  have hctr := h.counters hne
  obtain ⟨hcond, heq⟩ := h.recorded_iff hfresh hpc hid
  exact
    { place := hk
      le_chunks := hk
      accepted := fun _ => by
        refine ⟨(h.accepted hne).1, fun i hi => ?_⟩
        obtain hi | rfl := Nat.lt_succ_iff_lt_or_eq.mp hi
        · exact (h.accepted hne).2 i hi
        · exact hin
      offset := (h.atChunk hpc).offset_succ
      counters := fun _ => by rw [c.countersAt_succ, ← hctr]; rfl
      since := fun _ hlt => by
        simp only [PipelineCall.record, hcond]
        split_ifs with hc
        · have hd : c.signalInterval ∣ k + 1 := hc.resolve_left (by omega)
          rw [Nat.mod_eq_zero_of_dvd hd]
        · rw [h.since hne hk, succ_mod_of_not_dvd fun hd => hc (.inr hd)]
      posted := by
        simp only [PipelineCall.record, SendQueues.post_next]
        rw [h.posted, Nat.add_assoc]
      fifo := h.fifo.post (by rw [h.posted, Nat.add_sub_cancel_left, hctr]; rfl) _
      queued := fun {i _ _} hq => by
        obtain hq | ⟨hi, rfl, -⟩ := SendQueues.queued_post.mp hq
        · exact h.queued hq
        · have hik : i = k := by have := h.posted; omega
          rw [hik, hsig]
          exact ⟨hr, h.signaled_iff hpc⟩
      old := fun ht hq => by
        obtain hq | ⟨hi, -, -⟩ := SendQueues.queued_post.mp hq
        · exact h.old ht hq
        · have := h.posted
          omega
      completed := fun i hi hm => SendQueues.executed_post.mpr (h.completed i hi hm)
      pending := fun i hi hs => by
        simp only [PipelineCall.record, SendQueues.executed_post, hcond]
        obtain hi | rfl := Nat.lt_succ_iff_lt_or_eq.mp hi
        · refine (h.pending i hi hs).imp_left fun hm => ?_
          split_ifs <;> simp [hm]
        · rw [if_pos hs, heq hs]
          simp
      named := fun id hm => by
        simp only [PipelineCall.record, hcond] at hm
        split_ifs at hm with hc
        · obtain hm | hm := List.mem_append.mp hm
          · obtain ⟨i, hi, hs, rfl⟩ := h.named id hm
            exact ⟨i, by omega, hs, rfl⟩
          · rw [List.mem_singleton.mp hm, heq hc]
            exact ⟨k, by omega, hc, rfl⟩
        · obtain ⟨i, hi, hs, rfl⟩ := h.named id hm
          exact ⟨i, by omega, hs, rfl⟩
      recorded := fun i hi hs hm hx => by
        have hx' := SendQueues.executed_post.mp hx
        -- what was just posted has not been executed
        have hik : i < k := by
          have := hx'.1
          have := h.posted
          omega
        simp only [PipelineCall.record, hcond] at hm
        refine h.recorded i hik hs ?_ hx'
        split_ifs at hm with hc
        · refine (List.mem_append.mp hm).resolve_right fun hm => ?_
          rw [List.mem_singleton, heq hc] at hm
          have := hfresh.injective i (by omega) k hk hm
          omega
        · exact hm }

/-- A post, and the decision whether to wait after it. -/
theorem chunkPosted (hfresh : c.FreshIds e) (h : PipelineInv c e w k) (hpc : w.pc = .post)
    (hin : c.chunkInRange k = true) {r : OneSided} {wrId : ℕ} (hr : r.wrId = c.idOf e k)
    (hsig : r.signaled = c.signaled w) (hid : wrId = if c.signaled w then c.idOf e k else 0) :
    PipelineInv c e
      (c.chunkPosted w wrId { w.ep with
        toCounters := c.config.take w.ep.toCounters
        nic := w.ep.nic.post (c.config.nextQp w.ep.toCounters) r }) (k + 1) := by
  have hnew := h.record hfresh hpc hin hr hsig hid
  unfold PipelineCall.chunkPosted
  split_ifs with hw
  · exact hnew
  · refine hnew.loopHead (by simp [PipelineCall.record]) fun hlast => ?_
    exact absurd (.inr ((h.atChunk hpc).isLast_iff.mpr hlast)) hw

/-! ### The other steps -/

/-- A call that fails leaves its posts as they are. -/
theorem toError (h : PipelineInv c e w k) (k' : Counters) :
    PipelineInv c e { w with ep := { w.ep with toCounters := k' }, pc := .done .error } k :=
  { h with
    place := fun hr => by cases hr
    accepted := fun hne => absurd rfl hne
    counters := fun hne => absurd rfl hne
    since := fun hne => absurd rfl hne }

/-- A wait that returns has seen the completions of all the requests it named. -/
theorem reaped (h : PipelineInv c e w k) (hpc : w.pc = .wait) {ep : Endpoint}
    (hr : w.ep.reap w.pendingWrs = some ep) :
    PipelineInv c e
      (c.loopHead { w with ep := ep, pendingWrs := [], inflightPosts := 0 }) k := by
  obtain ⟨hall, rfl⟩ := Endpoint.reap_eq hr
  have hp := h.place
  rw [hpc] at hp
  have hnew : PipelineInv c e
      { w with
        ep := { w.ep with completed := w.ep.completed.filter (· ∉ w.pendingWrs) }
        pendingWrs := []
        inflightPosts := 0 } k :=
    { h with
      place := by rw [hpc]; exact hp
      completed := fun i hi hm => h.completed i hi (List.mem_filter.mp hm).1
      pending := fun i hi hs => .inr <| by
        obtain hm | hx := h.pending i hi hs
        · exact h.completed i (Nat.lt_of_lt_of_le hi h.le_chunks) (hall _ hm)
        · exact hx
      named := by simp
      recorded := by simp }
  exact hnew.loopHead (by simp [hpc]) fun _ => rfl

/-- The card executes a request; a signaled one of the call leaves its completion. -/
theorem nic (hfresh : c.FreshIds e) (h : PipelineInv c e w k) {q : ℕ} {ep : Endpoint}
    (he : w.ep.execute q = some ep) : PipelineInv c e { w with ep := ep } k := by
  obtain ⟨t, r, nic, hp, rfl⟩ := Endpoint.execute_eq he
  obtain ⟨hhead, hnext, hqueued, -⟩ := h.fifo.ordered.pop_spec hp
  have hexec : ∀ i, nic.Executed i ↔ w.ep.nic.Executed i ∨ i = t := fun i =>
    h.fifo.ordered.executed_pop hp
  exact
    { h with
      posted := by rw [← h.posted, ← hnext]
      fifo := h.fifo.pop hp
      queued := fun hq => h.queued ((hqueued _ _ _).mp hq).1
      old := fun ht hq => h.old ht ((hqueued _ _ _).mp hq).1
      completed := fun i hi hm => by
        rw [hexec]
        dsimp only at hm
        split_ifs at hm with hs
        · obtain hm | hm := List.mem_append.mp hm
          · exact .inl (h.completed i hi hm)
          · refine .inr ?_
            rw [List.mem_singleton] at hm
            obtain ht | ht := Nat.lt_or_ge t e.nic.next
            · exact absurd hm.symm (h.old ht hhead i hi)
            · obtain ⟨j, rfl⟩ := Nat.exists_eq_add_of_le ht
              have hj : j < c.chunks := by
                have := h.fifo.ordered.lt_next hhead
                have := h.posted
                have := h.le_chunks
                omega
              rw [(h.queued hhead).1] at hm
              rw [hfresh.injective i hi j hj hm]
        · exact .inl (h.completed i hi hm)
      pending := fun i hi hs => (h.pending i hi hs).imp_right fun hx => (hexec _).mpr (.inl hx)
      recorded := fun i hi hs hm hx => by
        dsimp only
        obtain hx | rfl := (hexec _).mp hx
        · have := h.recorded i hi hs hm hx
          split_ifs <;> simp [this]
        · obtain ⟨hid, hsig⟩ := h.queued hhead
          rw [if_pos (hsig.mpr hs), hid]
          simp }

/-- **One step of a pipeline call** keeps the invariant. -/
theorem step (hfresh : c.FreshIds e) (h : PipelineInv c e w k) {a : PipelineAct}
    (hs : c.step w a = some w') : ∃ k', PipelineInv c e w' k' := by
  obtain ok | q := a
  · cases hpc : w.pc with
    | post =>
      simp only [PipelineCall.step, hpc] at hs
      rcases c.config.dataNBInternal_cases c.opcode w.ep (wrap64 (c.localOff + w.offset))
        (wrap64 (c.remoteOff + w.offset)) (c.currentChunkSize w) (c.signaled w) ok with
        ⟨k', -, heq⟩ | ⟨-, hin, heq⟩
      · rw [heq] at hs
        cases hs
        exact ⟨k, h.toError k'⟩
      · rw [heq] at hs
        cases hs
        have hid : c.config.nextId w.ep.toCounters = c.idOf e k := by
          rw [h.counters (by simp [hpc])]
          rfl
        rw [← (h.atChunk hpc).chunkInRange_eq] at hin
        exact ⟨k + 1, h.chunkPosted hfresh hpc hin hid rfl (by rw [hid])⟩
    | wait =>
      simp only [PipelineCall.step, hpc] at hs
      split_ifs at hs with hnil hok
      · cases hs
        have hp := h.place
        rw [hpc] at hp
        have hne : w.pc ≠ .done .error := by simp [hpc]
        refine ⟨k, PipelineInv.loopHead ?_ (by simp) fun _ => hnil⟩
        exact { h with
          place := hp
          accepted := fun _ => h.accepted hne
          counters := fun _ => h.counters hne
          since := fun _ => h.since hne }
      · obtain ⟨ep, hr, rfl⟩ := Option.map_eq_some_iff.mp hs
        exact ⟨k, h.reaped hpc hr⟩
      · cases hs
        exact ⟨k, h.toError w.ep.toCounters⟩
    | done ret =>
      simp only [PipelineCall.step, hpc] at hs
      cases hs
  · obtain ⟨ep, he, rfl⟩ := Option.map_eq_some_iff.mp hs
    exact ⟨k, h.nic hfresh he⟩

/-- Every run of a pipeline call keeps the invariant. -/
theorem reach (hord : e.nic.Ordered) (hfresh : c.FreshIds e)
    {ok : Pipeline → PipelineAct → Prop} (hr : Reach c.step ok (c.enter e) w) :
    ∃ k, PipelineInv c e w k := by
  refine hr.invariant (I := fun w => ∃ k, PipelineInv c e w k) ⟨0, initial hord hfresh⟩ ?_
  rintro _ _ _ _ ⟨k, h⟩ _ hs
  exact h.step hfresh hs

/-- A call that has returned `SUCCESS` has seen a completion of each signaled chunk. -/
theorem signaled_executed (h : PipelineInv c e w k) (hpc : w.pc = .done .success) :
    k = c.chunks ∧ c.Accepted ∧ ∀ i < c.chunks, signalAt c.signalInterval c.chunks i →
      w.ep.nic.Executed (e.nic.next + i) := by
  have hp := h.place
  rw [hpc] at hp
  obtain ⟨rfl, hnil⟩ := hp rfl
  refine ⟨rfl, h.accepted (by simp [hpc]), fun i hi hs => (h.pending i hi hs).resolve_left ?_⟩
  rw [hnil]
  exact List.not_mem_nil

/-- A covered chunk is executed before a signaled one of its queue pair. -/
theorem allExecuted (h : PipelineInv c e w k) (hcov : c.Accepted → c.Covered e)
    (hpc : w.pc = .done .success) : w.AllExecuted e := by
  obtain ⟨rfl, hacc, hsig⟩ := h.signaled_executed hpc
  intro t ht hlt
  obtain ⟨i, rfl⟩ := Nat.exists_eq_add_of_le ht
  have hi : i < c.chunks := by
    have := h.posted
    omega
  obtain ⟨j, hj, hij, hq, hs⟩ := hcov hacc i hi
  refine h.fifo.executed ht (Nat.add_le_add_left hij _) ?_ (hsig j hj hs)
  simp only [Nat.add_sub_cancel_left, hq]

end PipelineInv

/-! ### An uncovered chunk can stay behind -/

/-- All calls of the thread succeed, and the card does not execute the requests of chunk `i`
and of the later chunks of its queue pair. -/
def PipelineCall.Spare (c : PipelineCall) (e : Endpoint) (i : ℕ) (w : Pipeline) :
    PipelineAct → Prop
  | .run ok => ok = true
  | .nic q => q = c.queueOf e i → ∀ p, (w.ep.nic.queue q).head? = some p → p.1 < e.nic.next + i

/-- A run that spares chunk `i` has not failed and has not executed the chunk. -/
structure SpareInv (c : PipelineCall) (e : Endpoint) (i : ℕ) (w : Pipeline) : Prop where
  inv : ∃ k, PipelineInv c e w k
  not_failed : ∀ ret, w.pc = .done ret → ret = .success
  kept : ¬ w.ep.nic.Executed (e.nic.next + i)

namespace SpareInv

variable {c : PipelineCall} {e : Endpoint} {i : ℕ} {w w' : Pipeline}

theorem loopHead_not_failed {w : Pipeline} (ret : Status)
    (h : (c.loopHead w).pc = .done ret) : ret = .success := by
  unfold PipelineCall.loopHead at h
  split_ifs at h
  cases h
  rfl

theorem initial (hord : e.nic.Ordered) (hfresh : c.FreshIds e) (hacc : c.Accepted) :
    SpareInv c e i (c.enter e) := by
  refine ⟨⟨0, .initial hord hfresh⟩, fun ret hr => ?_, fun hx => ?_⟩
  · unfold PipelineCall.enter at hr
    rw [if_pos hacc.1] at hr
    exact loopHead_not_failed ret hr
  · have hnext : (c.enter e).ep = e := by
      unfold PipelineCall.enter
      split_ifs <;> rfl
    have := hx.1
    rw [hnext] at this
    omega

/-- In a spared run every post is accepted. -/
theorem post_succeeds {k : ℕ} (h : PipelineInv c e w k) (hacc : c.Accepted) (hpc : w.pc = .post) :
    ∃ wrId ep, c.step w (.run true) = some (c.chunkPosted w wrId ep) ∧
      ∃ r, ep.nic = w.ep.nic.post (c.config.nextQp w.ep.toCounters) r :=
  (h.atChunk hpc).post_succeeds hpc (hacc.2 k (h.lt_chunks hpc))

theorem chunkPosted_ep (wrId : ℕ) (ep : Endpoint) : (c.chunkPosted w wrId ep).ep = ep := by
  unfold PipelineCall.chunkPosted
  split_ifs
  · rfl
  · rfl

theorem chunkPosted_offset (wrId : ℕ) (ep : Endpoint) :
    (c.chunkPosted w wrId ep).offset = w.offset + c.currentChunkSize w := by
  unfold PipelineCall.chunkPosted
  split_ifs
  · rfl
  · rfl

theorem chunkPosted_not_failed {wrId : ℕ} {ep : Endpoint} (ret : Status)
    (h : (c.chunkPosted w wrId ep).pc = .done ret) : ret = .success := by
  unfold PipelineCall.chunkPosted at h
  split_ifs at h
  · cases h
  · exact loopHead_not_failed ret h

/-- **One step** of a run that spares chunk `i` leaves it unexecuted. -/
theorem step (hfresh : c.FreshIds e) (hacc : c.Accepted) (h : SpareInv c e i w)
    {a : PipelineAct} (hok : c.Spare e i w a) (hs : c.step w a = some w') :
    SpareInv c e i w' := by
  obtain ⟨k, hinv⟩ := h.inv
  obtain ok | q := a
  · obtain rfl : ok = true := hok
    cases hpc : w.pc with
    | post =>
      obtain ⟨wrId, ep, heq, r, hnic⟩ := post_succeeds hinv hacc hpc
      refine ⟨hinv.step hfresh hs, ?_, ?_⟩ <;> rw [heq] at hs <;> cases hs
      · exact chunkPosted_not_failed
      · rw [chunkPosted_ep, hnic, SendQueues.executed_post]
        exact h.kept
    | wait =>
      refine ⟨hinv.step hfresh hs, ?_, ?_⟩ <;> simp only [PipelineCall.step, hpc] at hs <;>
        split_ifs at hs with hnil
      · cases hs
        exact loopHead_not_failed
      · obtain ⟨ep, -, rfl⟩ := Option.map_eq_some_iff.mp hs
        exact loopHead_not_failed
      · cases hs
        exact h.kept
      · obtain ⟨ep, hr, rfl⟩ := Option.map_eq_some_iff.mp hs
        obtain ⟨-, rfl⟩ := Endpoint.reap_eq hr
        exact h.kept
    | done ret =>
      simp only [PipelineCall.step, hpc] at hs
      cases hs
  · refine ⟨hinv.step hfresh hs, ?_, ?_⟩ <;>
      obtain ⟨ep, he, rfl⟩ := Option.map_eq_some_iff.mp hs
    · exact h.not_failed
    · obtain ⟨t, r, nic, hp, rfl⟩ := Endpoint.execute_eq he
      intro hx
      obtain hx | rfl := (hinv.fifo.ordered.executed_pop hp).mp hx
      · exact h.kept hx
      · have hq := hinv.fifo.queue_eq (Nat.le_add_right _ _)
          (hinv.fifo.ordered.pop_spec hp).1
        rw [Nat.add_sub_cancel_left] at hq
        exact absurd (hok hq _ (SendQueues.head?_of_pop hp)) (Nat.lt_irrefl _)

/-- What is left to do: bytes to post, a wait to make, requests to execute. -/
def todo (c : PipelineCall) (w : Pipeline) : ℕ :=
  3 * (c.size - w.offset) + (if w.pc = .wait then 1 else 0) +
    w.ep.nic.load (max c.config.numQps 1)

theorem todo_loopHead : todo c (c.loopHead w) =
    3 * (c.size - w.offset) + w.ep.nic.load (max c.config.numQps 1) := by
  have hpc : (c.loopHead w).pc ≠ .wait := by
    unfold PipelineCall.loopHead
    split_ifs
    · simp
    · simp
  rw [todo, if_neg hpc]
  rfl

/-- The post of a chunk in range brings the call forward. -/
theorem todo_post {k : ℕ} (hat : c.AtChunk w k) (hw : w.pc = .post)
    (hin : c.chunkInRange k = true) :
    ∃ w', c.step w (.run true) = some w' ∧ todo c w' < todo c w := by
  obtain ⟨wrId, ep, heq, r, hnic⟩ := hat.post_succeeds hw hin
  refine ⟨_, heq, ?_⟩
  have hpos := hat.currentChunkSize_pos
  have hle : c.currentChunkSize w ≤ c.size - w.offset := Nat.min_le_right _ _
  have hload : ep.nic.load (max c.config.numQps 1) =
      w.ep.nic.load (max c.config.numQps 1) + 1 := by
    rw [hnic, SendQueues.load_post (c.config.nextQp_lt _)]
  rw [todo, todo, chunkPosted_ep, chunkPosted_offset, hload]
  split_ifs <;> omega

/-- So does a wait that finds all its completions. -/
theorem todo_wait (hw : w.pc = .wait) (hall : ∀ id ∈ w.pendingWrs, id ∈ w.ep.completed) :
    ∃ w', c.step w (.run true) = some w' ∧ todo c w' < todo c w := by
  by_cases hnil : w.pendingWrs = []
  · have hstep : c.step w (.run true) = some (c.loopHead { w with inflightPosts := 0 }) := by
      simp only [PipelineCall.step, hw, if_pos hnil]
    refine ⟨_, hstep, ?_⟩
    rw [todo_loopHead, todo, if_pos hw]
    dsimp only
    omega
  · have hreap := Endpoint.reap_of_forall hall
    refine ⟨_, by simp only [PipelineCall.step, hw, if_neg hnil, if_true, hreap]; rfl, ?_⟩
    rw [todo_loopHead, todo, if_pos hw]
    dsimp only
    omega

/-- So does the card. -/
theorem todo_nic {q : ℕ} {p : ℕ × OneSided} {nic : SendQueues OneSided}
    (hq : q < max c.config.numQps 1) (hp : w.ep.nic.pop q = some (p, nic)) :
    ∃ w', c.step w (.nic q) = some w' ∧ todo c w' < todo c w := by
  refine ⟨_, by simp only [PipelineCall.step, Endpoint.execute, hp]; rfl, ?_⟩
  have := SendQueues.load_pop hq hp
  simp only [todo]
  omega

/-- A spared run goes on until the call returns. -/
theorem progress (hacc : c.Accepted) (h : SpareInv c e i w)
    (hlate : ∀ j < c.chunks, i ≤ j → c.queueOf e j = c.queueOf e i →
      ¬ signalAt c.signalInterval c.chunks j) (hpc : w.pc ≠ .done .success) :
    ∃ a w', c.Spare e i w a ∧ c.step w a = some w' ∧ todo c w' < todo c w := by
  obtain ⟨k, hinv⟩ := h.inv
  cases hw : w.pc with
  | post =>
    obtain ⟨w', heq, hlt⟩ := todo_post (hinv.atChunk hw) hw (hacc.2 k (hinv.lt_chunks hw))
    exact ⟨.run true, w', rfl, heq, hlt⟩
  | wait =>
    by_cases hall : ∀ id ∈ w.pendingWrs, id ∈ w.ep.completed
    · obtain ⟨w', heq, hlt⟩ := todo_wait hw hall
      exact ⟨.run true, w', rfl, heq, hlt⟩
    · -- some named request has not executed, and its queue pair may move
      push Not at hall
      obtain ⟨id, hid, hnot⟩ := hall
      obtain ⟨j, hj, hsig, rfl⟩ := hinv.named id hid
      have hpend := (SendQueues.executed_or_pending
        (show e.nic.next + j < w.ep.nic.next by rw [hinv.posted]; omega)).resolve_left
        fun hx => hnot (hinv.recorded j hj hsig hid hx)
      obtain ⟨r, q, hq⟩ := hpend
      have hqj := hinv.fifo.queue_eq (Nat.le_add_right _ _) hq
      rw [Nat.add_sub_cancel_left] at hqj
      obtain ⟨⟨t, r'⟩, nic, hp⟩ := hq.exists_pop
      have hle := (hinv.fifo.ordered.pop_spec hp).2.2.2 _ _ hq
      obtain ⟨w', heq, hlt⟩ := todo_nic (hqj ▸ c.queueOf_lt e j) hp
      refine ⟨.nic q, w', ?_, heq, hlt⟩
      intro hqi p hhead
      rw [SendQueues.head?_of_pop hp] at hhead
      cases hhead
      have hji : j < i := by
        by_contra hge
        have := hinv.le_chunks
        exact hlate j (by omega) (by omega) (by rw [← hqj, hqi]) hsig
      dsimp only
      omega
  | done ret =>
    exact absurd (h.not_failed ret hw ▸ hw) hpc

end SpareInv

/-- A chunk without a signaled one behind it on its queue pair may be left unexecuted by a
call that returns `SUCCESS`. -/
theorem exists_unexecuted {c : PipelineCall} {e : Endpoint} (hord : e.nic.Ordered)
    (hfresh : c.FreshIds e) (hacc : c.Accepted) (hcov : ¬ c.Covered e) :
    ∃ w, Reach c.step Free (c.enter e) w ∧ w.pc = .done .success ∧ ¬ w.AllExecuted e := by
  unfold PipelineCall.Covered at hcov
  push Not at hcov
  obtain ⟨i, hi, hlate⟩ := hcov
  have hinv : ∀ w, Reach c.step (c.Spare e i) (c.enter e) w → SpareInv c e i w := fun w hr =>
    hr.invariant (.initial hord hfresh hacc) fun _ _ _ _ ih hok hs => ih.step hfresh hacc hok hs
  obtain ⟨w, hr, hpc⟩ : ∃ w, Reach c.step (c.Spare e i) (c.enter e) w ∧ w.pc = .done .success :=
    exists_reach_final (SpareInv.todo c) fun w hr hpc => (hinv w hr).progress hacc hlate hpc
  refine ⟨w, hr.free, hpc, fun hall => (hinv w hr).kept (hall _ (Nat.le_add_right _ _) ?_)⟩
  obtain ⟨k, h⟩ := (hinv w hr).inv
  obtain ⟨rfl, -, -⟩ := h.signaled_executed hpc
  rw [h.posted]
  omega

/-- **When `SUCCESS` means executed.** Whatever the card does, a pipeline call that returns
`SUCCESS` has executed all its requests, exactly when it is refused by a range check or each
of its chunks is followed, on its own queue pair, by a signaled one. The two directions are
`PipelineInv.allExecuted` and `exists_unexecuted`. -/
theorem pipeline_executed_iff {c : PipelineCall} {e : Endpoint} (hord : e.nic.Ordered)
    (hfresh : c.FreshIds e) :
    (∀ w, Reach c.step Free (c.enter e) w → w.pc = .done .success → w.AllExecuted e) ↔
      (c.Accepted → c.Covered e) := by
  constructor
  · intro hall hacc
    by_contra hcov
    obtain ⟨w, hr, hpc, hnot⟩ := exists_unexecuted hord hfresh hacc hcov
    exact hnot (hall w hr hpc)
  · intro hcov w hr hpc
    obtain ⟨k, h⟩ := PipelineInv.reach hord hfresh hr
    exact h.allExecuted hcov hpc

end HMC.Rdma
