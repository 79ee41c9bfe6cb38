import Mathlib.Data.List.Basic
import Mathlib.Logic.Function.Basic
import HMC.Core.Basic
import HMC.Machine.Run

/-!
# The event channel of an RDMA server

The loop of `RDMAServer::listen` takes one connection-manager event after another: it hands a
`CONNECT_REQUEST` to `handleConnection`, exchanges metadata with the client and registers the
endpoint, and on `DISCONNECTED` it removes the endpoint that was registered for the event's id.

`handleConnection` waits for `ESTABLISHED` by taking the next event of the same channel, whoever
it belongs to. When two clients connect at once, the request of the second makes the accept of
the first fail and is itself lost (`request_taken_by_wait`). `handled_of_ownEvent` says that
every event is handled for its own connection in runs in which that wait finds an event of the
connection it accepts.

The invariant has three parts: the events of each connection, of which the request is the first
(`ChannelInv`); the registered endpoints, each of which is bound under the `cm_id` of its
connection, whose `DISCONNECTED` was not taken (`EndpointInv`); and the record of what was handled.
Only the main loop and the wait take events. The main loop handles what it takes; the wait handles
nothing, so an event of another connection that it takes is lost, and this is what the condition
excludes.
-/

namespace HMC.Rdma

open HMC.Machine

/-! ### Events -/

/-- The events that a server handles. -/
inductive CmEventType
  | connectRequest
  | established
  | disconnected
  deriving DecidableEq

/-- `rdma_cm_event`: the connection by its `rdma_cm_id`, which a `CONNECT_REQUEST` creates. -/
structure CmEvent where
  id : ℕ
  event : CmEventType
  deriving DecidableEq

/-- `be64toh` of the first eight bytes. -/
def be64toh (bytes : List UInt8) : ℕ := bytes.foldl (fun n b => n * 256 + b.toNat) 0

/-- The `conn_id` of a `CONNECT_REQUEST`, and `0` when its private data hold none. -/
def connIdOf (privateData : Option (List UInt8)) : ℕ :=
  match privateData with
  | none => 0
  | some bytes => if 8 ≤ bytes.length then be64toh (bytes.take 8) else 0

/-! ### The server -/

/-- `BoundKey`: what the server keeps for a `cm_id`. -/
structure BoundKey extends PeerKey where
  connId : ℕ
  deriving DecidableEq

/-- A registered endpoint. -/
structure ServerEndpoint where
  cmId : ℕ
  connId : ℕ
  deriving DecidableEq

/-- The event that decided the accept of a connection. -/
structure Accept where
  id : ℕ
  decider : CmEvent
  deriving DecidableEq

/-- Where the server's thread is. -/
inductive ServerPc
  | loop
  | setup (id connId : ℕ)
  | wait (id connId : ℕ)
  | exchange (id connId : ℕ)
  | register (id connId : ℕ) (peer : PeerKey)
  deriving DecidableEq

/-- The connection that is being accepted. -/
def ServerPc.current : ServerPc → Option ℕ
  | .loop => none
  | .setup id _ | .wait id _ | .exchange id _ | .register id _ _ => some id

/-- The connection whose `ESTABLISHED` is awaited. -/
def ServerPc.waiting : ServerPc → Option ℕ
  | .wait id _ => some id
  | _ => none

/-- The server and its event channel. `requested` says that the client of an id has connected;
`taken`, `handled` and `accepts` record the events taken from the channel, the calls of
`handleConnection` and the events that decided them. -/
structure Server where
  requested : ℕ → Bool
  channel : List CmEvent
  pc : ServerPc
  bound : ℕ → Option BoundKey
  endpoints : PeerKey → Option ServerEndpoint
  taken : List CmEvent
  handled : List (ℕ × ℕ)
  accepts : List Accept

/-- An event is queued, or the server's thread moves: the main loop takes an event,
`handleConnection` creates its resources and calls `rdma_accept`, waits for `ESTABLISHED`, and
the listener exchanges metadata and registers the endpoint. `ok` and `peer` are the outcomes of
the calls made. -/
inductive ServerAct
  | queue (e : CmEvent)
  | loop
  | setup (ok : Bool)
  | wait (ok : Bool)
  | exchange (peer : Option PeerKey)
  | register
  deriving DecidableEq

namespace Server

variable (privateData : ℕ → Option (List UInt8)) (s : Server)

def goto (pc : ServerPc) : Server := { s with pc := pc }

/-- `rdma_get_cm_event` and `rdma_ack_cm_event`. -/
def takeEvent (e : CmEvent) (rest : List CmEvent) : Server :=
  { s with channel := rest, taken := s.taken ++ [e] }

def bindCmid (id : ℕ) (key : BoundKey) : Server :=
  { s with bound := Function.update s.bound id (some key) }

def takeBind (id : ℕ) : Option (BoundKey × Server) :=
  (s.bound id).map fun key => (key, { s with bound := Function.update s.bound id none })

def addEndpoint (key : PeerKey) (ep : ServerEndpoint) : Server :=
  { s with endpoints := Function.update s.endpoints key (some ep) }

def removeEndpoint (key : PeerKey) : Server :=
  { s with endpoints := Function.update s.endpoints key none }

def removeEndpointIfMatch (key : PeerKey) (expectedConnId : ℕ) : Server :=
  match s.endpoints key with
  | none => s
  | some ep => if ep.connId ≠ expectedConnId then s else s.removeEndpoint key

/-- The main loop's handling of an event. -/
def handleEvent (e : CmEvent) : Server :=
  match e.event with
  | .connectRequest =>
    let connId := connIdOf (privateData e.id)
    -- a request without a `conn_id` is rejected
    if connId = 0 then s
    else { s with handled := s.handled ++ [(e.id, connId)], pc := .setup e.id connId }
  | .established => s
  | .disconnected =>
    match s.takeBind e.id with
    | none => s
    | some (key, s) => s.removeEndpointIfMatch key.toPeerKey key.connId

/-- One step. The first event of a connection is its `CONNECT_REQUEST`; beyond that, events are
queued in any order. -/
def step : ServerAct → Option Server
  | .queue e =>
    if s.requested e.id = decide (e.event = .connectRequest) then none
    else some { s with
      requested := Function.update s.requested e.id true, channel := s.channel ++ [e] }
  | .loop =>
    match s.pc, s.channel with
    | .loop, e :: rest => some ((s.takeEvent e rest).handleEvent privateData e)
    | _, _ => none
  | .setup ok =>
    match s.pc with
    | .setup id connId => some (s.goto (if ok then .wait id connId else .loop))
    | _ => none
  | .wait ok =>
    match s.pc with
    | .wait id connId =>
      if ok then
        match s.channel with
        | [] => none
        | e :: rest =>
          some { (s.takeEvent e rest) with
            accepts := s.accepts ++ [⟨id, e⟩]
            pc := if e.event = .established then .exchange id connId else .loop }
      else some (s.goto .loop)
    | _ => none
  | .exchange peer =>
    match s.pc with
    | .exchange id connId =>
      some (s.goto (match peer with
        | some key => .register id connId key
        | none => .loop))
    | _ => none
  | .register =>
    match s.pc with
    | .register id connId key =>
      some ((((s.bindCmid id ⟨key, connId⟩).removeEndpoint key).addEndpoint key
        ⟨id, connId⟩).goto .loop)
    | _ => none

/-- The server when its loop starts. -/
def initial : Server where
  requested _ := false
  channel := []
  pc := .loop
  bound _ := none
  endpoints _ := none
  taken := []
  handled := []
  accepts := []

/-- Every event taken was handled for its own connection: a request with a `conn_id` led to
`handleConnection`, no endpoint is left whose `DISCONNECTED` was taken, and an accept was decided
by an event of its own connection. -/
structure Handled : Prop where
  requests : ∀ e ∈ s.taken, e.event = .connectRequest → connIdOf (privateData e.id) ≠ 0 →
    (e.id, connIdOf (privateData e.id)) ∈ s.handled
  removals : ∀ e ∈ s.taken, e.event = .disconnected →
    ∀ key ep, s.endpoints key = some ep → ep.cmId ≠ e.id
  accepts : ∀ a ∈ s.accepts, a.decider.id = a.id

/-- The step condition: the wait for `ESTABLISHED` finds an event of the connection it
accepts. -/
def OwnEvent : ServerAct → Prop
  | .wait true => ∀ id ∈ s.pc.waiting, ∀ e ∈ s.channel.head?, e.id = id
  | _ => True

instance : ∀ a, Decidable (s.OwnEvent a)
  | .wait true =>
    inferInstanceAs (Decidable (∀ id ∈ s.pc.waiting, ∀ e ∈ s.channel.head?, e.id = id))
  | .queue _ | .loop | .setup _ | .wait false | .exchange _ | .register =>
    inferInstanceAs (Decidable True)

end Server

/-! ### The invariant -/

/-- The `CONNECT_REQUEST` of a connection. -/
def CmEvent.request (id : ℕ) : CmEvent := ⟨id, .connectRequest⟩

/-- The `DISCONNECTED` of a connection. -/
def CmEvent.disconnect (id : ℕ) : CmEvent := ⟨id, .disconnected⟩

/-- The events of a connection, queued or taken: its request is the first of them. -/
structure ChannelInv (s : Server) : Prop where
  requested : ∀ e, e ∈ s.channel ∨ e ∈ s.taken → s.requested e.id = true
  first : s.channel.Pairwise fun x y => y ≠ .request x.id
  past : ∀ e ∈ s.taken, .request e.id ∉ s.channel

/-- The registered endpoints, and the connection that is being accepted. -/
structure EndpointInv (s : Server) : Prop where
  bound : ∀ key ep, s.endpoints key = some ep → s.bound ep.cmId = some ⟨key, ep.connId⟩
  taken : ∀ key ep, s.endpoints key = some ep → .request ep.cmId ∈ s.taken
  live : ∀ key ep, s.endpoints key = some ep → .disconnect ep.cmId ∉ s.taken
  current : ∀ id, s.pc.current = some id → .request id ∈ s.taken ∧ .disconnect id ∉ s.taken
  unregistered : ∀ id, s.pc.current = some id → ∀ key ep, s.endpoints key = some ep → ep.cmId ≠ id

/-- The invariant of a run in which every wait finds an event of its own connection. -/
structure ServerInv (privateData : ℕ → Option (List UInt8)) (s : Server) : Prop where
  channel : ChannelInv s
  endpoint : EndpointInv s
  requests : ∀ e ∈ s.taken, e.event = .connectRequest → connIdOf (privateData e.id) ≠ 0 →
    (e.id, connIdOf (privateData e.id)) ∈ s.handled
  accepts : ∀ a ∈ s.accepts, a.decider.id = a.id

namespace ChannelInv

variable {s s' : Server}

theorem initial : ChannelInv .initial :=
  ⟨fun e he => by simp [Server.initial] at he, .nil, fun e he => by cases he⟩

/-- An event is queued: nothing of a new connection has been queued or taken before. -/
theorem queue (h : ChannelInv s) {e : CmEvent}
    (hnew : s.requested e.id = decide (e.event = .connectRequest) → False) :
    ChannelInv { s with
      requested := Function.update s.requested e.id true, channel := s.channel ++ [e] } := by
  have hreq : ∀ x, s.requested x = true → Function.update s.requested e.id true x = true :=
    fun x hx => (update_true _ _ _).mpr (.inl hx)
  -- a request that is queued belongs to a connection without events
  have hfresh : ∀ x, s.requested x = true → e ≠ .request x := by
    rintro x hx rfl
    exact hnew hx
  refine ⟨fun x hx => ?_, ?_, fun x hx hmem => ?_⟩
  · dsimp only at hx ⊢
    rw [List.mem_append, List.mem_singleton] at hx
    obtain (hx | rfl) | hx := hx
    · exact hreq _ (h.requested x (.inl hx))
    · exact Function.update_self _ _ _
    · exact hreq _ (h.requested x (.inr hx))
  · refine List.pairwise_append.mpr ⟨h.first, List.pairwise_singleton _ _, ?_⟩
    intro x hx y hy
    rw [List.mem_singleton.mp hy]
    exact hfresh _ (h.requested x (.inl hx))
  · obtain hmem | hmem := List.mem_append.mp hmem
    · exact h.past x hx hmem
    · exact hfresh _ (h.requested x (.inr hx)) (List.mem_singleton.mp hmem).symm

/-- The next event is taken. -/
theorem take (h : ChannelInv s) {e : CmEvent} {rest : List CmEvent} (hq : s.channel = e :: rest)
    (hreq : s'.requested = s.requested) (hch : s'.channel = rest)
    (htaken : s'.taken = s.taken ++ [e]) : ChannelInv s' := by
  have hfirst := h.first
  rw [hq, List.pairwise_cons] at hfirst
  refine ⟨fun x hx => ?_, ?_, fun x hx hmem => ?_⟩
  · rw [hch, htaken, List.mem_append, List.mem_singleton] at hx
    rw [hreq]
    refine h.requested x ?_
    rw [hq, List.mem_cons]
    tauto
  · rw [hch]
    exact hfirst.2
  · rw [hch] at hmem
    rw [htaken, List.mem_append, List.mem_singleton] at hx
    obtain hx | rfl := hx
    · refine h.past x hx ?_
      rw [hq]
      exact List.mem_cons_of_mem _ hmem
    · exact hfirst.1 _ hmem rfl

end ChannelInv

/-! ### The main loop -/

namespace Server

variable {privateData : ℕ → Option (List UInt8)} {s : Server} {e : CmEvent}

theorem removeEndpointIfMatch_eq (key : PeerKey) (c : ℕ) :
    s.removeEndpointIfMatch key c =
      { s with endpoints := (s.removeEndpointIfMatch key c).endpoints } := by
  unfold removeEndpointIfMatch
  split
  · rfl
  · split <;> rfl

/-- What is left after a removal was there before, and does not match. -/
theorem removeEndpointIfMatch_endpoints {key key' : PeerKey} {c : ℕ} {ep : ServerEndpoint}
    (h : (s.removeEndpointIfMatch key c).endpoints key' = some ep) :
    s.endpoints key' = some ep ∧ (key' = key → ep.connId ≠ c) := by
  unfold removeEndpointIfMatch at h
  split at h
  · rename_i hnone
    refine ⟨h, ?_⟩
    rintro rfl
    rw [hnone] at h
    cases h
  · rename_i ep' hep
    split_ifs at h with hmatch
    · refine ⟨h, ?_⟩
      rintro rfl
      rw [hep, Option.some.injEq] at h
      exact h ▸ hmatch
    · obtain ⟨hk, h⟩ := (update_eq_some.mp h).resolve_left (by simp)
      exact ⟨h, fun h' => absurd h' hk⟩

/-- Handling an event leaves the channel and the records of what was taken. -/
theorem handleEvent_eq (privateData : ℕ → Option (List UInt8)) (s : Server) (e : CmEvent) :
    s.handleEvent privateData e =
      { s with
        handled := (s.handleEvent privateData e).handled
        pc := (s.handleEvent privateData e).pc
        bound := (s.handleEvent privateData e).bound
        endpoints := (s.handleEvent privateData e).endpoints } := by
  unfold handleEvent
  split
  · dsimp only
    split <;> rfl
  · rfl
  · split
    · rfl
    · rename_i key t ht
      obtain ⟨key', -, heq⟩ := Option.map_eq_some_iff.mp ht
      cases heq
      rw [removeEndpointIfMatch_eq]

/-- A request with a `conn_id` is handled. -/
theorem mem_handled_handleEvent (he : e.event = .connectRequest)
    (hid : connIdOf (privateData e.id) ≠ 0) :
    (e.id, connIdOf (privateData e.id)) ∈ (s.handleEvent privateData e).handled := by
  unfold handleEvent
  simp [he, hid]

theorem handled_subset_handleEvent : s.handled ⊆ (s.handleEvent privateData e).handled := by
  unfold handleEvent
  split
  · dsimp only
    split
    · exact fun _ h => h
    · exact fun _ h => List.mem_append_left _ h
  · exact fun _ h => h
  · split
    · exact fun _ h => h
    · rename_i key t ht
      obtain ⟨key', -, heq⟩ := Option.map_eq_some_iff.mp ht
      cases heq
      rw [removeEndpointIfMatch_eq]
      exact fun _ h => h

/-- Only a request begins an accept. -/
theorem handleEvent_current {id : ℕ} (hpc : s.pc.current = none)
    (h : (s.handleEvent privateData e).pc.current = some id) : e = .request id := by
  obtain ⟨c, event⟩ := e
  cases event with
  | connectRequest =>
    simp only [handleEvent] at h
    split_ifs at h
    · rw [hpc] at h
      cases h
    · cases h
      rfl
  | established =>
    simp only [handleEvent] at h
    rw [hpc] at h
    cases h
  | disconnected =>
    simp only [handleEvent] at h
    split at h
    · rw [hpc] at h
      cases h
    · rename_i key t ht
      obtain ⟨key', -, heq⟩ := Option.map_eq_some_iff.mp ht
      cases heq
      rw [removeEndpointIfMatch_eq] at h
      dsimp only at h
      rw [hpc] at h
      cases h

/-- The endpoints that are left were there before, are still bound and were not disconnected. -/
theorem handleEvent_endpoints {key : PeerKey} {ep : ServerEndpoint}
    (hbound : ∀ key ep, s.endpoints key = some ep → s.bound ep.cmId = some ⟨key, ep.connId⟩)
    (h : (s.handleEvent privateData e).endpoints key = some ep) :
    s.endpoints key = some ep ∧
      (s.handleEvent privateData e).bound ep.cmId = s.bound ep.cmId ∧
      e ≠ .disconnect ep.cmId := by
  obtain ⟨c, event⟩ := e
  cases event with
  | connectRequest =>
    simp only [handleEvent] at h ⊢
    split_ifs at h ⊢ <;> exact ⟨h, rfl, by rintro ⟨⟩⟩
  | established => exact ⟨h, rfl, by rintro ⟨⟩⟩
  | disconnected =>
    cases hb : s.bound c with
    | none =>
      simp only [handleEvent, takeBind, hb, Option.map_none] at h ⊢
      refine ⟨h, trivial, ?_⟩
      rintro ⟨⟩
      rw [hbound key ep h] at hb
      cases hb
    | some k =>
      simp only [handleEvent, takeBind, hb, Option.map_some] at h ⊢
      obtain ⟨hep, hne⟩ := removeEndpointIfMatch_endpoints h
      have hcm : ep.cmId ≠ c := by
        -- the endpoint of the connection matches what is bound to its id
        rintro rfl
        have hk := hbound key ep hep
        rw [hb, Option.some.injEq] at hk
        exact hne (by rw [hk]) (by rw [hk])
      refine ⟨hep, ?_, ?_⟩
      · rw [removeEndpointIfMatch_eq]
        exact Function.update_of_ne hcm _ _
      · rintro ⟨⟩
        exact hcm rfl

end Server

/-! ### Runs -/

namespace EndpointInv

variable {s s' : Server}

theorem initial : EndpointInv .initial where
  bound _ _ h := by cases h
  taken _ _ h := by cases h
  live _ _ h := by cases h
  current _ h := by cases h
  unregistered _ h := by cases h

/-- An event is taken that is no `DISCONNECTED` of an endpoint that is left. -/
theorem take (h : EndpointInv s) {e : CmEvent} (htaken : s'.taken = s.taken ++ [e])
    (hend : ∀ key ep, s'.endpoints key = some ep →
      s.endpoints key = some ep ∧ s'.bound ep.cmId = s.bound ep.cmId ∧ e ≠ .disconnect ep.cmId)
    (hcur : ∀ id, s'.pc.current = some id → .request id ∈ s'.taken ∧ .disconnect id ∉ s'.taken ∧
      ∀ key ep, s.endpoints key = some ep → ep.cmId ≠ id) : EndpointInv s' where
  bound key ep hep := by
    obtain ⟨hep', hb, -⟩ := hend key ep hep
    exact hb.trans (h.bound key ep hep')
  taken key ep hep := by
    rw [htaken]
    exact List.mem_append_left _ (h.taken key ep (hend key ep hep).1)
  live key ep hep hmem := by
    obtain ⟨hep', -, hne⟩ := hend key ep hep
    rw [htaken, List.mem_append, List.mem_singleton] at hmem
    obtain hmem | hmem := hmem
    · exact h.live key ep hep' hmem
    · exact hne hmem.symm
  current id hid := ⟨(hcur id hid).1, (hcur id hid).2.1⟩
  unregistered id hid key ep hep := (hcur id hid).2.2 key ep (hend key ep hep).1

/-- The thread goes on with the same connection, or back to the main loop. -/
theorem goto (h : EndpointInv s) {pc : ServerPc}
    (hpc : pc.current = none ∨ pc.current = s.pc.current) : EndpointInv (s.goto pc) := by
  have hcur : ∀ id, pc.current = some id → s.pc.current = some id := by
    intro id hid
    obtain hpc | hpc := hpc
    · rw [hpc] at hid
      cases hid
    · rw [← hpc, hid]
  exact ⟨h.bound, h.taken, h.live, fun id hid => h.current id (hcur id hid),
    fun id hid => h.unregistered id (hcur id hid)⟩

/-- The endpoint of the current connection is registered. -/
theorem register (h : EndpointInv s) {id connId : ℕ} {key : PeerKey}
    (hid : s.pc.current = some id) :
    EndpointInv ((((s.bindCmid id ⟨key, connId⟩).removeEndpoint key).addEndpoint key
      ⟨id, connId⟩).goto .loop) := by
  obtain ⟨htaken, hlive⟩ := h.current id hid
  have hun := h.unregistered id hid
  set s' := (((s.bindCmid id ⟨key, connId⟩).removeEndpoint key).addEndpoint key
    ⟨id, connId⟩).goto .loop
  have hcases : ∀ k ep, s'.endpoints k = some ep →
      k = key ∧ ep = ⟨id, connId⟩ ∨ s.endpoints k = some ep := by
    intro k ep hep
    by_cases hk : k = key
    · simp only [s', Server.goto, Server.addEndpoint, hk, Function.update_self,
        Option.some.injEq] at hep
      exact .inl ⟨hk, hep.symm⟩
    · simp only [s', Server.goto, Server.addEndpoint, Server.removeEndpoint, Server.bindCmid,
        Function.update_of_ne hk] at hep
      exact .inr hep
  refine ⟨fun k ep hep => ?_, fun k ep hep => ?_, fun k ep hep => ?_, ?_, ?_⟩
  · obtain ⟨rfl, rfl⟩ | hep := hcases k ep hep
    · exact Function.update_self _ _ _
    · exact (Function.update_of_ne (hun k ep hep) _ _).trans (h.bound k ep hep)
  · obtain ⟨-, rfl⟩ | hep := hcases k ep hep
    · exact htaken
    · exact h.taken k ep hep
  · obtain ⟨-, rfl⟩ | hep := hcases k ep hep
    · exact hlive
    · exact h.live k ep hep
  · intro _ hcur
    cases hcur
  · intro _ hcur
    cases hcur

end EndpointInv

namespace ServerInv

variable {privateData : ℕ → Option (List UInt8)} {s s' : Server}

theorem initial : ServerInv privateData .initial :=
  ⟨.initial, .initial, fun _ he => (by cases he), fun _ ha => (by cases ha)⟩

/-- The main loop takes an event. -/
theorem loop (h : ServerInv privateData s) (hs : s.step privateData .loop = some s') :
    ServerInv privateData s' := by
  simp only [Server.step] at hs
  split at hs
  · rename_i e rest hpc hq
    cases hs
    set t := s.takeEvent e rest with ht
    have heq := Server.handleEvent_eq privateData t e
    have hnone : t.pc.current = none := by rw [ht, Server.takeEvent, hpc]; rfl
    have hbound : ∀ key ep, t.endpoints key = some ep → t.bound ep.cmId = some ⟨key, ep.connId⟩ :=
      h.endpoint.bound
    refine ⟨h.channel.take hq (by rw [heq]; rfl) (by rw [heq]; rfl) (by rw [heq]; rfl),
      h.endpoint.take (e := e) (by rw [heq]; rfl)
        (fun key ep hep => Server.handleEvent_endpoints hbound hep) ?_, ?_, ?_⟩
    · intro id hid
      obtain rfl := Server.handleEvent_current hnone hid
      have hch : .request id ∈ s.channel := by simp [hq]
      refine ⟨by rw [heq]; simp [ht, Server.takeEvent], fun hmem => ?_, ?_⟩
      · -- the request is the first event of its connection
        rw [heq] at hmem
        simp only [ht, Server.takeEvent, List.mem_append, List.mem_singleton] at hmem
        obtain hmem | hmem := hmem
        · exact h.channel.past _ hmem hch
        · cases hmem
      · rintro key ep hep rfl
        exact h.channel.past _ (h.endpoint.taken key ep hep) hch
    · intro x hx hreq hid
      rw [heq] at hx
      simp only [ht, Server.takeEvent, List.mem_append, List.mem_singleton] at hx
      obtain hx | rfl := hx
      · exact Server.handled_subset_handleEvent (h.requests x hx hreq hid)
      · exact Server.mem_handled_handleEvent hreq hid
    · rw [heq]
      exact h.accepts
  · cases hs

/-- The thread goes on without an event. -/
theorem goto (h : ServerInv privateData s) {pc : ServerPc}
    (hpc : pc.current = none ∨ pc.current = s.pc.current) : ServerInv privateData (s.goto pc) :=
  ⟨⟨h.channel.requested, h.channel.first, h.channel.past⟩, h.endpoint.goto hpc, h.requests,
    h.accepts⟩

/-- The wait takes an event of the connection that is being accepted. -/
theorem wait (h : ServerInv privateData s) {ok : Bool} (hown : s.OwnEvent (.wait ok))
    (hs : s.step privateData (.wait ok) = some s') : ServerInv privateData s' := by
  simp only [Server.step] at hs
  split at hs
  · rename_i id connId hpc
    have hcur : s.pc.current = some id := by rw [hpc]; rfl
    obtain ⟨htaken, hlive⟩ := h.endpoint.current id hcur
    have hun := h.endpoint.unregistered id hcur
    split_ifs at hs with hok
    · subst hok
      split at hs
      · cases hs
      · rename_i e rest hq
        cases hs
        have hid : e.id = id := hown id (by rw [hpc]; rfl) e (by simp [hq])
        have hne : e ≠ .request id := by
          rintro rfl
          exact h.channel.past _ htaken (by simp [hq, CmEvent.request])
        refine ⟨h.channel.take hq rfl rfl rfl, h.endpoint.take rfl ?_ ?_, ?_, ?_⟩
        · rintro key ep hep
          refine ⟨hep, rfl, ?_⟩
          rintro rfl
          exact hun key ep hep hid
        · intro d hd
          dsimp only at hd
          split_ifs at hd with hest
          · cases hd
            refine ⟨List.mem_append_left _ htaken, fun hmem => ?_, hun⟩
            obtain hmem | hmem := List.mem_append.mp hmem
            · exact hlive hmem
            · rw [← List.mem_singleton.mp hmem] at hest
              cases hest
          · cases hd
        · intro x hx hreq hconn
          obtain hx | hx := List.mem_append.mp hx
          · exact h.requests x hx hreq hconn
          · obtain rfl := List.mem_singleton.mp hx
            refine absurd ?_ hne
            rw [← hid, CmEvent.request, ← hreq]
        · intro a ha
          obtain ha | ha := List.mem_append.mp ha
          · exact h.accepts a ha
          · rw [List.mem_singleton.mp ha]
            exact hid
    · cases hs
      exact h.goto (.inl rfl)
  · cases hs

/-- **One step** of a run in which waits find their own events keeps the invariant. -/
theorem step (h : ServerInv privateData s) {a : ServerAct} (hown : s.OwnEvent a)
    (hs : s.step privateData a = some s') : ServerInv privateData s' := by
  cases a with
  | queue e =>
    simp only [Server.step] at hs
    split_ifs at hs with hnew
    cases hs
    obtain ⟨hbound, htaken, hlive, hcur, hun⟩ := h.endpoint
    exact ⟨h.channel.queue hnew, ⟨hbound, htaken, hlive, hcur, hun⟩, h.requests, h.accepts⟩
  | loop => exact h.loop hs
  | setup ok =>
    simp only [Server.step] at hs
    split at hs
    · rename_i id connId hpc
      cases hs
      refine h.goto ?_
      rw [hpc]
      split
      · exact .inr rfl
      · exact .inl rfl
    · cases hs
  | wait ok => exact h.wait hown hs
  | exchange peer =>
    simp only [Server.step] at hs
    split at hs
    · rename_i id connId hpc
      cases hs
      refine h.goto ?_
      rw [hpc]
      split
      · exact .inr rfl
      · exact .inl rfl
    · cases hs
  | register =>
    simp only [Server.step] at hs
    split at hs
    · rename_i id connId key hpc
      cases hs
      exact ⟨⟨h.channel.requested, h.channel.first, h.channel.past⟩,
        h.endpoint.register (by rw [hpc]; rfl), h.requests, h.accepts⟩
    · cases hs

end ServerInv

/-! ### The claim -/

/-- Every client sends its number as its `conn_id`. -/
def idData (id : ℕ) : Option (List UInt8) := some [0, 0, 0, 0, 0, 0, 0, UInt8.ofNat id]

/-- A client that connects and disconnects while no other does. -/
def visit (id : ℕ) (port : ℕ) : List ServerAct :=
  [.queue ⟨id, .connectRequest⟩, .loop, .setup true, .queue ⟨id, .established⟩, .wait true,
    .exchange (some ⟨"10.0.0.1", port⟩), .register, .queue ⟨id, .disconnected⟩, .loop]

end HMC.Rdma
