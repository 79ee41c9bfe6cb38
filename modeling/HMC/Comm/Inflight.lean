import HMC.Machine.Run
import HMC.Rdma.Endpoint
import HMC.Ucx.Endpoint

/-!
# Handles of non-blocking operations

`Communicator::putNB` and `getNB` start an operation on the endpoint of a peer and note in
`inflight_ep_` which endpoint gave out the id; `wait` looks the endpoint up there. The table
belongs to the communicator, the id counters to the endpoints: an RDMA endpoint gives out
`(counter << 8) | qp`, a UCX endpoint its plain counter.

`outstanding` is not in the code: it lists the operations with a nonzero id that were issued
and not named by a wait since. Ids of one endpoint do not repeat, but two endpoints may give
out the same id (`ids_collide`). `routed_of_distinct` says that the table is right in runs in
which this does not happen to outstanding operations.

The step condition asks for it where an operation is issued: the next id of its endpoint is not that
of an operation which another endpoint has outstanding, and the endpoint's own counter has not come
around. The invariant (`Books`) is that the outstanding operations have different ids, each below
the counter of its endpoint, and that the tables know them. A wait takes an id out of both tables
and out of `outstanding` together, also when it fails, so what is left is as it was.
-/

namespace HMC.Comm

open HMC.Machine HMC.Rdma

/-- An `Endpoint *` that `inflight_ep_` holds: the endpoint of a peer, by transport. -/
inductive EndpointRef
  | rdma (key : PeerKey)
  | ucx (key : PeerKey)
  deriving DecidableEq

/-- An RDMA endpoint with what it knows of its connection. -/
structure RdmaPeer where
  config : EndpointConfig
  ep : Rdma.Endpoint

/-- An operation that was issued with a nonzero id. -/
structure Op where
  wrId : ℕ
  ep : EndpointRef
  deriving DecidableEq

/-- The endpoint maps, `inflight_ep_`, and the operations not yet waited for. -/
structure Communicator where
  rdma : PeerKey → Option RdmaPeer
  ucx : PeerKey → Option Ucx.Endpoint
  inflightEp : ℕ → Option EndpointRef
  outstanding : List Op

/-- A call. `posted` and `nbx` are what the verbs or the UCX call of an operation returns;
`finished` is how a wait of the endpoint ends. `wait` on a list walks the endpoints in the
order of a hash table, `visited`. -/
inductive Call
  | putNB (connType : ConnType) (key : PeerKey) (localOff remoteOff size : ℕ) (posted : Bool)
      (nbx : Ucx.NbxResult)
  | getNB (connType : ConnType) (key : PeerKey) (localOff remoteOff size : ℕ) (posted : Bool)
      (nbx : Ucx.NbxResult)
  | wait (wrId : ℕ) (finished : Status)
  | waitAll (wrIds : List ℕ) (visited : List EndpointRef) (finished : EndpointRef → Status)

namespace Communicator

variable (s : Communicator)

def setRdma (key : PeerKey) (p : RdmaPeer) : Communicator :=
  { s with rdma := Function.update s.rdma key (some p) }

def setUcx (key : PeerKey) (e : Ucx.Endpoint) : Communicator :=
  { s with ucx := Function.update s.ucx key (some e) }

/-- The callback of `putNB` and `getNB` after the endpoint's operation: note the endpoint under
a nonzero id. -/
def issue (ep : EndpointRef) (ret : Status) (id : ℕ) : Status × ℕ × Communicator :=
  if ret ≠ .success then (ret, 0, s)
  else if id ≠ 0 then
    (.success, id, { s with
      inflightEp := Function.update s.inflightEp id (some ep)
      outstanding := s.outstanding ++ [⟨id, ep⟩] })
  else (.success, id, s)

/-- The body of `putNB` and `getNB`: the status, `*wr_id` and the communicator. The callback
holds the endpoint's lock; `checkConn` looks up the same map first. -/
def dataNB (opcode : Opcode) (connType : ConnType) (key : PeerKey)
    (localOff remoteOff size : ℕ) (posted : Bool) (nbx : Ucx.NbxResult) :
    Status × ℕ × Communicator :=
  match connType with
  | .rdma =>
    match s.rdma key with
    | none => (.notFound, 0, s)
    | some p =>
      let r := p.config.dataNBInternal opcode p.ep localOff remoteOff size true posted
      (s.setRdma key ⟨p.config, r.2.2⟩).issue (.rdma key) r.1 r.2.1
  | .ucx =>
    match s.ucx key with
    | none => (.notFound, 0, s)
    | some e =>
      let r := e.dataNB localOff remoteOff size nbx
      (s.setUcx key r.2.2).issue (.ucx key) r.1 r.2.1
  | .p2p => (.invalidConfig, 0, s)

/-- `Communicator::putNB`. -/
def putNB := s.dataNB .write

/-- `Communicator::getNB`. -/
def getNB := s.dataNB .read

/-- Erase an id from `inflight_ep_`; its operation has been waited for. -/
def forget (id : ℕ) : Communicator :=
  { s with
    inflightEp := Function.update s.inflightEp id none
    outstanding := s.outstanding.filter (·.wrId ≠ id) }

/-- `ep->waitWrId(wr_id)`. The completion side of an RDMA endpoint plays no part here. -/
def waitOn (ep : EndpointRef) (id : ℕ) (finished : Status) : Status × Communicator :=
  match ep with
  | .rdma _ => (finished, s)
  | .ucx key =>
    match s.ucx key with
    | none => (.error, s)
    | some e => ((e.waitWrId id finished).1, s.setUcx key (e.waitWrId id finished).2)

/-- `Communicator::wait(uint64_t)`. -/
def wait (id : ℕ) (finished : Status) : Status × Communicator :=
  if id = 0 then (.success, s)
  else
    match s.inflightEp id with
    | none => (.notFound, s)
    | some ep => (s.forget id).waitOn ep id finished

/-- The locked loop of `wait` on a list: group the ids by endpoint and erase them, up to the
first unknown one. -/
def takeMany (s : Communicator) : List ℕ → List Op → Bool × List Op × Communicator
  | [], byEp => (true, byEp, s)
  | id :: ids, byEp =>
    if id = 0 then takeMany s ids byEp
    else
      match s.inflightEp id with
      | none => (false, byEp, s)
      | some ep => takeMany (s.forget id) ids (byEp ++ [⟨id, ep⟩])

/-- `ep->waitWrIdMulti(ids)`. -/
def waitManyOn (ep : EndpointRef) (ids : List ℕ) (finished : Status) : Status × Communicator :=
  match ep with
  | .rdma _ => (finished, s)
  | .ucx key =>
    match s.ucx key with
    | none => (.error, s)
    | some e => ((e.waitWrIdMulti ids finished).1, s.setUcx key (e.waitWrIdMulti ids finished).2)

/-- The second loop of `wait` on a list: one wait for each endpoint, up to the first failure. -/
def waitEach (s : Communicator) (byEp : List Op) (finished : EndpointRef → Status) :
    List EndpointRef → Status × Communicator
  | [] => (.success, s)
  | ep :: rest =>
    let r := s.waitManyOn ep ((byEp.filter (·.ep = ep)).map (·.wrId)) (finished ep)
    if r.1 ≠ .success then r else waitEach r.2 byEp finished rest

/-- `Communicator::wait(std::vector<uint64_t>)`. -/
def waitAll (ids : List ℕ) (visited : List EndpointRef) (finished : EndpointRef → Status) :
    Status × Communicator :=
  match s.takeMany ids [] with
  | (false, _, s') => (.notFound, s')
  | (true, byEp, s') => s'.waitEach byEp finished visited

/-- One call. -/
def step : Call → Option Communicator
  | .putNB connType key localOff remoteOff size posted nbx =>
    some (s.putNB connType key localOff remoteOff size posted nbx).2.2
  | .getNB connType key localOff remoteOff size posted nbx =>
    some (s.getNB connType key localOff remoteOff size posted nbx).2.2
  | .wait id finished => some (s.wait id finished).2
  | .waitAll ids visited finished => some (s.waitAll ids visited finished).2

/-- Nothing was issued yet; the endpoints are arbitrary. -/
structure Initial : Prop where
  inflightEp : s.inflightEp = fun _ => none
  outstanding : s.outstanding = []

/-- Every outstanding operation has an id of its own, under which `inflight_ep_` knows its
endpoint, so that a wait on the id goes to that endpoint and, at a UCX endpoint, finds it. -/
structure Routed : Prop where
  distinct : (s.outstanding.map (·.wrId)).Nodup
  routed : ∀ o ∈ s.outstanding, s.inflightEp o.wrId = some o.ep
  waits : ∀ o ∈ s.outstanding, ∀ finished,
    s.wait o.wrId finished = (s.forget o.wrId).waitOn o.ep o.wrId finished
  pending : ∀ o ∈ s.outstanding, ∀ key, o.ep = .ucx key →
    ∃ e, s.ucx key = some e ∧ o.wrId ∈ e.inflight

/-- The next id of the endpoint is not that of an operation that another endpoint has
outstanding, and the endpoint's ids have not wrapped around. -/
def Fresh (connType : ConnType) (key : PeerKey) : Prop :=
  match connType with
  | .rdma => ∀ p, s.rdma key = some p → p.config.numQps ≤ 2 ^ 8 ∧ p.ep.nextWrId < 2 ^ 56 ∧
      ∀ o ∈ s.outstanding, o.ep ≠ .rdma key → o.wrId ≠ p.config.nextId p.ep.toCounters
  | .ucx => ∀ e, s.ucx key = some e → e.nextWrid + 1 < 2 ^ 64 ∧
      ∀ o ∈ s.outstanding, o.ep ≠ .ucx key → o.wrId ≠ e.nextId
  | .p2p => True

/-- The step condition: operations are issued on fresh endpoints. -/
def Distinct : Call → Prop
  | .putNB connType key _ _ _ _ _ => s.Fresh connType key
  | .getNB connType key _ _ _ _ _ => s.Fresh connType key
  | .wait _ _ => True
  | .waitAll _ _ _ => True

end Communicator

/-! ### The books -/

/-- Where the id of an outstanding operation comes from: below the counter of its endpoint. -/
def Communicator.Issued (s : Communicator) (o : Op) : Prop :=
  match o.ep with
  | .rdma key => ∃ p, s.rdma key = some p ∧ o.wrId / 2 ^ 8 < p.ep.nextWrId
  | .ucx key => ∃ e, s.ucx key = some e ∧ o.wrId ≤ e.nextWrid ∧ o.wrId ∈ e.inflight

/-- The outstanding operations have ids of their own, and both tables know them. -/
structure Books (s : Communicator) : Prop where
  distinct : (s.outstanding.map (·.wrId)).Nodup
  ne_zero : ∀ o ∈ s.outstanding, o.wrId ≠ 0
  routed : ∀ o ∈ s.outstanding, s.inflightEp o.wrId = some o.ep
  issued : ∀ o ∈ s.outstanding, s.Issued o

namespace Books

variable {s s' : Communicator} {key : PeerKey}

theorem initial (h : s.Initial) : Books s := by
  constructor <;> rw [h.outstanding]
  · exact List.nodup_nil
  all_goals
    intro o ho
    cases ho

/-- An RDMA endpoint whose counter has not gone back keeps the books. -/
theorem setRdma (h : Books s) {p p' : RdmaPeer} (hp : s.rdma key = some p)
    (hle : p.ep.nextWrId ≤ p'.ep.nextWrId) : Books (s.setRdma key p') := by
  refine ⟨h.distinct, h.ne_zero, h.routed, fun o ho => ?_⟩
  have hi := h.issued o ho
  obtain ⟨id, key' | key'⟩ := o
  · obtain ⟨p₀, hp₀, hlt⟩ := hi
    by_cases hk : key' = key
    · subst hk
      obtain rfl : p₀ = p := by rw [hp] at hp₀; exact (Option.some.inj hp₀).symm
      exact ⟨p', Function.update_self _ _ _, Nat.lt_of_lt_of_le hlt hle⟩
    · exact ⟨p₀, (Function.update_of_ne hk _ _).trans hp₀, hlt⟩
  · exact hi

/-- A UCX endpoint that has dropped only requests which are not outstanding keeps the books. -/
theorem setUcx (h : Books s) {e e' : Ucx.Endpoint} (he : s.ucx key = some e)
    (hle : e.nextWrid ≤ e'.nextWrid)
    (hmem : ∀ o ∈ s.outstanding, o.wrId ∈ e.inflight → o.wrId ∈ e'.inflight) :
    Books (s.setUcx key e') := by
  refine ⟨h.distinct, h.ne_zero, h.routed, fun o ho => ?_⟩
  have hi := h.issued o ho
  obtain ⟨id, key' | key'⟩ := o
  · exact hi
  · obtain ⟨e₀, he₀, hid, hin⟩ := hi
    by_cases hk : key' = key
    · subst hk
      obtain rfl : e₀ = e := by rw [he] at he₀; exact (Option.some.inj he₀).symm
      exact ⟨e', Function.update_self _ _ _, Nat.le_trans hid hle, hmem _ ho hin⟩
    · exact ⟨e₀, (Function.update_of_ne hk _ _).trans he₀, hid, hin⟩

/-- A new operation is entered under an id that no outstanding one has. -/
theorem issue (h : Books s) {ep : EndpointRef} {ret : Status} {id : ℕ}
    (hnew : ret = .success → id ≠ 0 → (∀ o ∈ s.outstanding, o.wrId ≠ id) ∧ s.Issued ⟨id, ep⟩) :
    Books (s.issue ep ret id).2.2 := by
  unfold Communicator.issue
  split_ifs with hret hid
  · exact h
  · obtain ⟨hne, hi⟩ := hnew (not_not.mp hret) hid
    refine ⟨?_, fun o ho => ?_, fun o ho => ?_, fun o ho => ?_⟩
    · rw [List.map_append, List.nodup_append]
      refine ⟨h.distinct, by simp, ?_⟩
      rintro _ ha b hb rfl
      obtain ⟨o, ho, heq⟩ := List.mem_map.mp ha
      rw [List.map_singleton, List.mem_singleton] at hb
      exact hne o ho (heq.trans hb)
    · obtain ho | ho := List.mem_append.mp ho
      · exact h.ne_zero o ho
      · obtain rfl := List.mem_singleton.mp ho
        exact hid
    · obtain ho | ho := List.mem_append.mp ho
      · dsimp only
        rw [Function.update_of_ne (hne o ho)]
        exact h.routed o ho
      · obtain rfl := List.mem_singleton.mp ho
        exact Function.update_self _ _ _
    · obtain ho | ho := List.mem_append.mp ho
      · exact h.issued o ho
      · obtain rfl := List.mem_singleton.mp ho
        exact hi
  · exact h

/-- Forgetting an id takes its operation out of both tables. -/
theorem forget (h : Books s) (id : ℕ) : Books (s.forget id) := by
  refine ⟨h.distinct.sublist (List.filter_sublist.map _), fun o ho => ?_, fun o ho => ?_,
    fun o ho => ?_⟩
  · exact h.ne_zero o (List.mem_filter.mp ho).1
  · obtain ⟨ho, hne⟩ := List.mem_filter.mp ho
    simp only [Communicator.forget]
    rw [Function.update_of_ne (by simpa using hne)]
    exact h.routed o ho
  · exact h.issued o (List.mem_filter.mp ho).1

theorem ne_of_mem_forget {id : ℕ} {o : Op} (ho : o ∈ (s.forget id).outstanding) :
    o.wrId ≠ id := by
  simpa using (List.mem_filter.mp ho).2

/-! ### Calls -/

/-- An operation on an RDMA endpoint: its id lies above the endpoint's earlier ones, and the
step condition keeps it apart from those of other endpoints. -/
theorem dataNB_rdma (h : Books s) (hf : s.Fresh .rdma key) (opcode : Opcode)
    (localOff remoteOff size : ℕ) (posted : Bool) (nbx : Ucx.NbxResult) :
    Books (s.dataNB opcode .rdma key localOff remoteOff size posted nbx).2.2 := by
  unfold Communicator.dataNB
  cases hp : s.rdma key with
  | none => exact h
  | some p =>
    obtain ⟨hqps, hctr, hother⟩ := hf p hp
    have htake : (p.config.take p.ep.toCounters).nextWrId = p.ep.nextWrId + 1 :=
      wrap64_of_lt (by omega)
    dsimp only
    rcases p.config.dataNBInternal_cases opcode p.ep localOff remoteOff size true posted with
      ⟨k, hk, heq⟩ | ⟨-, -, heq⟩ <;> rw [heq]
    · refine issue (h.setRdma hp ?_) fun hret => by cases hret
      obtain rfl | rfl := hk
      · exact Nat.le_refl _
      · exact htake ▸ Nat.le_succ _
    · have hid : p.config.nextId p.ep.toCounters / 2 ^ 8 = p.ep.nextWrId := by
        have := p.config.nextQp_lt p.ep.toCounters
        rw [EndpointConfig.nextId, encodeId_eq hctr (by omega)]
        omega
      refine issue (h.setRdma hp (htake ▸ Nat.le_succ _)) fun _ _ => ⟨fun o ho he => ?_, ?_⟩
      · by_cases hep : o.ep = .rdma key
        · have hi := h.issued o ho
          simp only [Communicator.Issued, hep] at hi
          obtain ⟨p', hp', hlt⟩ := hi
          obtain rfl : p' = p := by rw [hp] at hp'; exact (Option.some.inj hp').symm
          rw [he] at hlt
          simp only [if_true] at hlt
          omega
        · exact hother o ho hep he
      · refine ⟨_, Function.update_self _ _ _, ?_⟩
        simp only [if_true]
        rw [hid, htake]
        exact Nat.lt_succ_self _

/-- An operation on a UCX endpoint that keeps a request. -/
theorem dataNB_ucx (h : Books s) (hf : s.Fresh .ucx key) (opcode : Opcode)
    (localOff remoteOff size : ℕ) (posted : Bool) (nbx : Ucx.NbxResult) :
    Books (s.dataNB opcode .ucx key localOff remoteOff size posted nbx).2.2 := by
  unfold Communicator.dataNB
  cases he : s.ucx key with
  | none => exact h
  | some e =>
    obtain ⟨hctr, hother⟩ := hf e he
    have hid : e.nextId = e.nextWrid + 1 := wrap64_of_lt hctr
    dsimp only
    rcases e.dataNB_cases localOff remoteOff size nbx with ⟨ret, heq⟩ | heq <;> rw [heq]
    · refine issue (h.setUcx he (Nat.le_refl _) fun _ _ => id) fun _ hne => absurd rfl hne
    · refine issue (h.setUcx he (by dsimp only; omega) fun _ _ hm => ?_) fun _ _ =>
        ⟨fun o ho heq' => ?_, ?_⟩
      · exact Finset.mem_insert_of_mem hm
      · by_cases hep : o.ep = .ucx key
        · have hi := h.issued o ho
          simp only [Communicator.Issued, hep] at hi
          obtain ⟨e', he', hle, -⟩ := hi
          obtain rfl : e' = e := by rw [he] at he'; exact (Option.some.inj he').symm
          dsimp only at heq'
          omega
        · exact hother o ho hep heq'
      · exact ⟨_, Function.update_self _ _ _, Nat.le_refl _, Finset.mem_insert_self _ _⟩

theorem dataNB (h : Books s) {connType : ConnType} (hf : s.Fresh connType key)
    (opcode : Opcode) (localOff remoteOff size : ℕ) (posted : Bool) (nbx : Ucx.NbxResult) :
    Books (s.dataNB opcode connType key localOff remoteOff size posted nbx).2.2 := by
  cases connType with
  | rdma => exact h.dataNB_rdma hf opcode localOff remoteOff size posted nbx
  | ucx => exact h.dataNB_ucx hf opcode localOff remoteOff size posted nbx
  | p2p => exact h

/-- A wait of an endpoint drops requests that are not outstanding any more. -/
theorem waitOn (h : Books s) (ep : EndpointRef) {id : ℕ}
    (hne : ∀ o ∈ s.outstanding, o.wrId ≠ id) (finished : Status) :
    Books (s.waitOn ep id finished).2 := by
  obtain key | key := ep
  · exact h
  · cases he : s.ucx key with
    | none => simpa only [Communicator.waitOn, he] using h
    | some e =>
      simp only [Communicator.waitOn, he]
      refine h.setUcx he ?_ fun o ho hm => ?_ <;> unfold Ucx.Endpoint.waitWrId <;> split_ifs
      · exact Nat.le_refl _
      · exact Nat.le_refl _
      · exact Finset.mem_erase.mpr ⟨hne o ho, hm⟩
      · exact hm

theorem wait (h : Books s) (id : ℕ) (finished : Status) : Books (s.wait id finished).2 := by
  unfold Communicator.wait
  split_ifs
  · exact h
  · split
    · exact h
    · exact (h.forget id).waitOn _ (fun _ => ne_of_mem_forget) finished

/-- The grouping loop forgets the ids it has grouped. -/
theorem takeMany (h : Books s) (ids : List ℕ) (byEp : List Op)
    (hby : ∀ b ∈ byEp, ∀ o ∈ s.outstanding, o.wrId ≠ b.wrId) :
    Books (s.takeMany ids byEp).2.2 ∧ ∀ b ∈ (s.takeMany ids byEp).2.1,
      ∀ o ∈ (s.takeMany ids byEp).2.2.outstanding, o.wrId ≠ b.wrId := by
  induction ids generalizing s byEp with
  | nil => exact ⟨h, hby⟩
  | cons id ids ih =>
    unfold Communicator.takeMany
    split_ifs
    · exact ih h _ hby
    · split
      · exact ⟨h, hby⟩
      · refine ih (h.forget id) _ fun b hb o ho => ?_
        obtain hb | hb := List.mem_append.mp hb
        · exact hby b hb o (List.mem_filter.mp ho).1
        · obtain rfl := List.mem_singleton.mp hb
          exact ne_of_mem_forget ho

theorem waitManyOn (h : Books s) (ep : EndpointRef) (ids : List ℕ)
    (hne : ∀ id ∈ ids, ∀ o ∈ s.outstanding, o.wrId ≠ id) (finished : Status) :
    Books (s.waitManyOn ep ids finished).2 ∧
      (s.waitManyOn ep ids finished).2.outstanding = s.outstanding := by
  obtain key | key := ep
  · exact ⟨h, rfl⟩
  · cases he : s.ucx key with
    | none => exact ⟨by simpa only [Communicator.waitManyOn, he] using h, by
        simp only [Communicator.waitManyOn, he]⟩
    | some e =>
      simp only [Communicator.waitManyOn, he]
      refine ⟨h.setUcx he (Nat.le_refl _) fun o ho hm => ?_, rfl⟩
      exact Ucx.Endpoint.mem_takeAll hm fun hid => hne _ hid o ho rfl

theorem waitEach (h : Books s) {byEp : List Op} (finished : EndpointRef → Status)
    (visited : List EndpointRef) (hby : ∀ b ∈ byEp, ∀ o ∈ s.outstanding, o.wrId ≠ b.wrId) :
    Books (s.waitEach byEp finished visited).2 := by
  induction visited generalizing s with
  | nil => exact h
  | cons ep rest ih =>
    obtain ⟨hb, ho⟩ := h.waitManyOn ep ((byEp.filter (·.ep = ep)).map (·.wrId))
      (fun id hid o ho => by
        obtain ⟨b, hb, rfl⟩ := List.mem_map.mp hid
        exact hby b (List.mem_filter.mp hb).1 o ho) (finished ep)
    unfold Communicator.waitEach
    dsimp only
    split_ifs
    · exact hb
    · exact ih hb (by rw [ho]; exact hby)

theorem waitAll (h : Books s) (ids : List ℕ) (visited : List EndpointRef)
    (finished : EndpointRef → Status) : Books (s.waitAll ids visited finished).2 := by
  obtain ⟨hb, hne⟩ := h.takeMany ids [] fun b hb => by cases hb
  unfold Communicator.waitAll
  split
  · rename_i heq
    rw [heq] at hb
    exact hb
  · rename_i heq
    rw [heq] at hb hne
    exact hb.waitEach finished visited hne

/-- **One call** keeps the books. -/
theorem step (h : Books s) {c : Call} (hd : s.Distinct c) (hs : s.step c = some s') :
    Books s' := by
  cases c <;> cases hs
  case putNB => exact h.dataNB hd _ _ _ _ _ _
  case getNB => exact h.dataNB hd _ _ _ _ _ _
  case wait => exact h.wait _ _
  case waitAll => exact h.waitAll _ _ _

/-- The books are kept in every run in which operations are issued on fresh endpoints. -/
theorem reach {s₀ : Communicator} (h₀ : s₀.Initial)
    (hr : Reach Communicator.step Communicator.Distinct s₀ s) : Books s :=
  hr.invariant (initial h₀) fun _ _ _ _ h hd hs => h.step hd hs

end Books

/-! ### The claim -/

/-- **Handles go to their issuer** in every run in which two endpoints never have the same id
outstanding: `inflight_ep_` has the endpoint of every outstanding operation, so a wait on its id is
made there, and a UCX endpoint finds the id in its own table. -/
theorem routed_of_distinct {s₀ s : Communicator} (h₀ : s₀.Initial)
    (hr : Reach Communicator.step Communicator.Distinct s₀ s) : s.Routed := by
  have h := Books.reach h₀ hr
  refine ⟨h.distinct, h.routed, fun o ho finished => ?_, fun o ho key hkey => ?_⟩
  · rw [Communicator.wait, if_neg (h.ne_zero o ho)]
    simp only [h.routed o ho]
  · have hi := h.issued o ho
    simp only [Communicator.Issued, hkey] at hi
    obtain ⟨e, he, -, hm⟩ := hi
    exact ⟨e, he, hm⟩

/-! ### Two endpoints, one id -/

/-- A communicator with new RDMA endpoints of one byte and one queue pair, at every address. -/
def newCommunicator : Communicator where
  rdma _ := some ⟨⟨1, 1, 1, 128⟩, ⟨⟨1, 0⟩, .empty, []⟩⟩
  ucx _ := none
  inflightEp _ := none
  outstanding := []

def peerA : PeerKey := ⟨"10.0.0.1", 2025⟩

def peerB : PeerKey := ⟨"10.0.0.2", 2025⟩

/-- Put one byte to a peer over RDMA. -/
def putByte (key : PeerKey) : Call := .putNB .rdma key 0 0 1 true .error

/-- The first operation has been waited for. -/
def firstDone : Communicator :=
  ((newCommunicator.putNB .rdma peerA 0 0 1 true .error).2.2.wait 256 .success).2

theorem routed_of_distinct_turns :
    ∃ s, Reach Communicator.step Communicator.Distinct newCommunicator s ∧
      s.outstanding = [⟨256, .rdma peerB⟩] ∧ s.Routed := by
  have h₁ : newCommunicator.Distinct (putByte peerA) := fun p hp => by
    obtain rfl := Option.some.inj hp
    exact ⟨by decide, by decide, fun o ho => by cases ho⟩
  have hr₁ : Reach Communicator.step Communicator.Distinct newCommunicator firstDone :=
    (Reach.refl.tail h₁ rfl).tail (a := .wait 256 .success) trivial rfl
  have h₂ : firstDone.Distinct (putByte peerB) := fun p hp => by
    have hB : firstDone.rdma peerB = newCommunicator.rdma peerB := rfl
    obtain rfl := Option.some.inj (hB.symm.trans hp)
    have hout : firstDone.outstanding = [] := rfl
    exact ⟨by decide, by decide, fun o ho => by rw [hout] at ho; cases ho⟩
  have hr := hr₁.tail h₂ rfl
  exact ⟨_, hr, rfl, routed_of_distinct ⟨rfl, rfl⟩ hr⟩

/-- **Two endpoints give out one id.** Both operations get the id 256, and `inflight_ep_` keeps
the second endpoint only. -/
theorem ids_collide :
    newCommunicator.Initial ∧
      ∃ s, Reach Communicator.step Free newCommunicator s ∧ ¬ s.Routed := by
  refine ⟨⟨rfl, rfl⟩, ?_⟩
  obtain ⟨s, hr, hdup⟩ : ∃ s, Reach Communicator.step Free newCommunicator s ∧
      ¬ (s.outstanding.map (·.wrId)).Nodup :=
    exists_reach_of_exec [putByte peerA, putByte peerB] (by decide +kernel)
  exact ⟨s, hr, fun h => hdup h.distinct⟩

end HMC.Comm
