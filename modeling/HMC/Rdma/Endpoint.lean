import HMC.Core.Basic
import HMC.Machine.SendQueues

/-!
# One-sided operations of an RDMA endpoint

`writeDataNBInternal` and `readDataNBInternal` check both ranges, pick a queue pair by the
round-robin counter `next_qp_idx_`, make an id from `next_wr_id_` and that queue pair, and
post one request. They differ in the opcode only, so both are `dataNBInternal`.

`completed` lists the ids of the signaled requests that have executed and that no wait has
reported yet, whether they are still in the completion queue or already in
`completed_wr_ids_`.

The range checks are `size_t` sums, of the own buffer and of the length that the peer has
advertised, and the length of the request loses what does not fit into 32 bits.
`dataNBInternal_cases` lists the three outcomes, which is all that the modules above need: a refused
call takes no id, a post that the card refuses takes one, and an accepted post puts one request into
the queue of its queue pair.
-/

namespace HMC.Rdma

open HMC.Machine

/-- `ibv_wr_opcode`, as far as one-sided operations use it. -/
inductive Opcode
  | write
  | read
  deriving DecidableEq

/-- `ibv_send_wr` of a one-sided operation; the offsets are relative to the two buffers and
the length is that of the `ibv_sge`, which has 32 bits. -/
structure OneSided where
  opcode : Opcode
  localOff : ℕ
  remoteOff : ℕ
  length : ℕ
  wrId : ℕ
  signaled : Bool
  deriving DecidableEq

/-- What an endpoint knows once it is connected: the size of its own buffer, the length its
peer advertised, and its capacities. -/
structure EndpointConfig where
  bufferSize : ℕ
  remoteLength : ℕ
  numQps : ℕ
  maxWr : ℕ

/-- `next_wr_id_` and `next_qp_idx_`. -/
structure Counters where
  nextWrId : ℕ
  nextQpIdx : ℕ
  deriving DecidableEq

/-- The counters of an `RDMAEndpoint`, its send queues and its unreported completions. -/
structure Endpoint extends Counters where
  nic : SendQueues OneSided
  completed : List ℕ

/-- `(id << 8) | qp_idx`. -/
def encodeId (counter qp : ℕ) : ℕ := wrap64 (counter * 2 ^ 8) ||| qp

/-- As long as nothing wraps around, an id is its counter and its queue pair. -/
theorem encodeId_eq {counter qp : ℕ} (hc : counter < 2 ^ 56) (hq : qp < 2 ^ 8) :
    encodeId counter qp = 2 ^ 8 * counter + qp := by
  rw [encodeId, wrap64_of_lt (by omega), Nat.mul_comm, Nat.two_pow_add_eq_or_of_lt hq]

namespace EndpointConfig

variable (g : EndpointConfig)

/-- `next_wr_id_.fetch_add(1)`, and `next_qp_idx_.fetch_add(1)` when there is a choice. -/
def take (k : Counters) : Counters where
  nextWrId := wrap64 (k.nextWrId + 1)
  nextQpIdx := if g.numQps > 1 then wrap32 (k.nextQpIdx + 1) else k.nextQpIdx

/-- The queue pair the next one-sided operation gets. -/
def nextQp (k : Counters) : ℕ := if g.numQps > 1 then k.nextQpIdx % g.numQps else 0

/-- The id the next one-sided operation gets. -/
def nextId (k : Counters) : ℕ := encodeId k.nextWrId (g.nextQp k)

theorem nextQp_lt (k : Counters) : g.nextQp k < max g.numQps 1 := by
  unfold nextQp
  split
  · have := Nat.mod_lt k.nextQpIdx (show g.numQps > 0 by omega)
    omega
  · omega

/-- Both range checks, as `size_t` sums. -/
def inRange (localOff remoteOff size : ℕ) : Bool :=
  decide (wrap64 (localOff + size) ≤ g.bufferSize) &&
    decide (wrap64 (remoteOff + size) ≤ g.remoteLength)

/-- The body of `writeDataNBInternal` and `readDataNBInternal`, with a non-null `wr_id`: the
status, the value left in `*wr_id`, and the endpoint. `posted` is the outcome of
`ibv_post_send`. -/
def dataNBInternal (opcode : Opcode) (e : Endpoint) (localOff remoteOff size : ℕ)
    (signaled posted : Bool) : Status × ℕ × Endpoint :=
  if g.inRange localOff remoteOff size = false then (.error, 0, e)
  else if posted = false then (.error, 0, { e with toCounters := g.take e.toCounters })
  else
    (.success, if signaled then g.nextId e.toCounters else 0,
      { e with
        toCounters := g.take e.toCounters
        nic := e.nic.post (g.nextQp e.toCounters)
          ⟨opcode, localOff, remoteOff, wrap32 size, g.nextId e.toCounters, signaled⟩ })

/-- `RDMAEndpoint::writeDataNBInternal`. -/
def writeDataNBInternal := g.dataNBInternal .write

/-- `RDMAEndpoint::readDataNBInternal`. -/
def readDataNBInternal := g.dataNBInternal .read

/-- The three outcomes of a non-blocking operation. -/
theorem dataNBInternal_cases (opcode : Opcode) (e : Endpoint)
    (localOff remoteOff size : ℕ) (signaled posted : Bool) :
    (∃ k, (k = e.toCounters ∨ k = g.take e.toCounters) ∧
        g.dataNBInternal opcode e localOff remoteOff size signaled posted =
          (.error, 0, { e with toCounters := k })) ∨
      posted = true ∧ g.inRange localOff remoteOff size = true ∧
      g.dataNBInternal opcode e localOff remoteOff size signaled posted =
        (.success, if signaled then g.nextId e.toCounters else 0,
          { e with
            toCounters := g.take e.toCounters
            nic := e.nic.post (g.nextQp e.toCounters) ⟨opcode, localOff, remoteOff, wrap32 size,
              g.nextId e.toCounters, signaled⟩ }) := by
  unfold dataNBInternal
  by_cases h₁ : g.inRange localOff remoteOff size = false
  · exact .inl ⟨e.toCounters, .inl rfl, by rw [if_pos h₁]⟩
  · by_cases h₂ : posted = false
    · exact .inl ⟨g.take e.toCounters, .inr rfl, by rw [if_neg h₁, if_pos h₂]⟩
    · exact .inr ⟨by simpa using h₂, by simpa using h₁, by rw [if_neg h₁, if_neg h₂]⟩

theorem inRange_iff {localOff remoteOff size : ℕ} :
    g.inRange localOff remoteOff size = true ↔
      Transfer.Checked ⟨localOff, remoteOff, size⟩ g.bufferSize g.remoteLength := by
  simp [inRange, Transfer.Checked]

/-- What a one-sided operation hands to `postWrite` or `postRead`, when the post is accepted. -/
def issued (localOff remoteOff size : ℕ) (posted : Bool) : Option Transfer :=
  if g.inRange localOff remoteOff size && posted then some ⟨localOff, remoteOff, size⟩ else none

/-- What is posted is what is issued. -/
theorem nic_dataNBInternal (opcode : Opcode) (e : Endpoint)
    (localOff remoteOff size : ℕ) (signaled posted : Bool) :
    (g.dataNBInternal opcode e localOff remoteOff size signaled posted).2.2.nic =
      match g.issued localOff remoteOff size posted with
      | none => e.nic
      | some t => e.nic.post (g.nextQp e.toCounters)
          ⟨opcode, t.localOff, t.remoteOff, wrap32 t.size, g.nextId e.toCounters, signaled⟩ := by
  unfold dataNBInternal issued
  cases g.inRange localOff remoteOff size
  · rfl
  · cases posted <;> rfl

theorem issued_eq_some {localOff remoteOff size : ℕ} {posted : Bool} {t : Transfer} :
    g.issued localOff remoteOff size posted = some t ↔
      t = ⟨localOff, remoteOff, size⟩ ∧ t.Checked g.bufferSize g.remoteLength ∧ posted = true := by
  unfold issued
  constructor
  · intro h
    split_ifs at h with hin
    obtain rfl := Option.some.inj h
    rw [Bool.and_eq_true, inRange_iff] at hin
    exact ⟨rfl, hin⟩
  · rintro ⟨rfl, h, rfl⟩
    rw [if_pos (by simpa using g.inRange_iff.mpr h)]

/-- A non-blocking operation fails without a trace in the queues, or issues its transfer. -/
theorem dataNBInternal_issued (opcode : Opcode) (e : Endpoint)
    (localOff remoteOff size : ℕ) (signaled posted : Bool) :
    (g.issued localOff remoteOff size posted = none ∧
        ∃ k, g.dataNBInternal opcode e localOff remoteOff size signaled posted =
          (.error, 0, { e with toCounters := k })) ∨
      g.issued localOff remoteOff size posted = some ⟨localOff, remoteOff, size⟩ ∧
      g.dataNBInternal opcode e localOff remoteOff size signaled posted =
        (.success, if signaled then g.nextId e.toCounters else 0,
          { e with
            toCounters := g.take e.toCounters
            nic := e.nic.post (g.nextQp e.toCounters) ⟨opcode, localOff, remoteOff, wrap32 size,
              g.nextId e.toCounters, signaled⟩ }) := by
  unfold dataNBInternal issued
  cases g.inRange localOff remoteOff size
  · exact .inl ⟨rfl, e.toCounters, rfl⟩
  · cases posted
    · exact .inl ⟨rfl, g.take e.toCounters, rfl⟩
    · exact .inr ⟨rfl, rfl⟩

/-- `RDMAEndpoint::writeDataNB`. -/
def writeDataNB (e : Endpoint) (localOff remoteOff size : ℕ) (posted : Bool) :=
  g.writeDataNBInternal e localOff remoteOff size true posted

/-- `RDMAEndpoint::readDataNB`. -/
def readDataNB (e : Endpoint) (localOff remoteOff size : ℕ) (posted : Bool) :=
  g.readDataNBInternal e localOff remoteOff size true posted

/-- The body of `writeData` and `readData`: the check, the non-blocking operation, which checks
again, and the wait. `finished` is the outcome of `waitWrId`; the endpoint is as the wait finds
it. -/
def data (opcode : Opcode) (e : Endpoint) (localOff remoteOff size : ℕ) (posted : Bool)
    (finished : Status) : Status × Endpoint :=
  if g.inRange localOff remoteOff size = false then (.error, e)
  else
    match g.dataNBInternal opcode e localOff remoteOff size true posted with
    | (.success, _, e') => (if finished = .success then .success else .error, e')
    | (_, _, e') => (.error, e')

/-- `RDMAEndpoint::writeData`. -/
def writeData := g.data .write

/-- `RDMAEndpoint::readData`. -/
def readData := g.data .read

/-- The blocking operations post what their non-blocking ones do. -/
theorem nic_data (opcode : Opcode) (e : Endpoint) (localOff remoteOff size : ℕ) (posted : Bool)
    (finished : Status) :
    (g.data opcode e localOff remoteOff size posted finished).2.nic =
      (g.dataNBInternal opcode e localOff remoteOff size true posted).2.2.nic := by
  unfold data
  by_cases h : g.inRange localOff remoteOff size = false
  · rw [if_pos h, dataNBInternal, if_pos h]
  · rw [if_neg h]
    split <;> rename_i heq <;> rw [heq]

end EndpointConfig

namespace Endpoint

variable {e e' : Endpoint}

/-- The card executes the head of queue `q`; a signaled request leaves a completion. -/
def execute (e : Endpoint) (q : ℕ) : Option Endpoint :=
  (e.nic.pop q).map fun p =>
    { e with
      nic := p.2
      completed := if p.1.2.signaled then e.completed ++ [p.1.2.wrId] else e.completed }

/-- A `waitWrIdMulti` that returns `SUCCESS`: each id has a completion, which it takes. -/
def reap (e : Endpoint) (ids : List ℕ) : Option Endpoint :=
  if ids.all (· ∈ e.completed) then
    some { e with completed := e.completed.filter (· ∉ ids) }
  else none

theorem execute_eq {q : ℕ} (h : e.execute q = some e') :
    ∃ t r nic, e.nic.pop q = some ((t, r), nic) ∧ e' = { e with
      nic := nic
      completed := if r.signaled then e.completed ++ [r.wrId] else e.completed } := by
  obtain ⟨⟨⟨t, r⟩, nic⟩, hp, rfl⟩ := Option.map_eq_some_iff.mp h
  exact ⟨t, r, nic, hp, rfl⟩

theorem reap_eq {ids : List ℕ} (h : e.reap ids = some e') :
    (∀ id ∈ ids, id ∈ e.completed) ∧
      e' = { e with completed := e.completed.filter (· ∉ ids) } := by
  unfold reap at h
  split at h
  · rename_i hall
    cases h
    exact ⟨by simpa using hall, rfl⟩
  · cases h

theorem reap_of_forall {ids : List ℕ} (h : ∀ id ∈ ids, id ∈ e.completed) :
    e.reap ids = some { e with completed := e.completed.filter (· ∉ ids) } := by
  rw [reap, if_pos (by simpa using h)]

end Endpoint

end HMC.Rdma
