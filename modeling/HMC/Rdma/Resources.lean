import HMC.Machine.Setup
import HMC.Rdma.MetaExchange

/-!
# The resources of an RDMA endpoint

`RDMAClient::connect` and `RDMAServer::handleConnection` build an endpoint out of resources of the
connection manager and of verbs, and leave with a `goto` where a call fails. At `retry` the client
releases what it holds and starts again, at `failed` both give up. `cleanRdmaResources` releases
what the endpoint holds, whatever that is, in a fixed order.

Nothing is leaked and nothing is released twice, wherever the calls fail (`connect_conserves`,
`handleConnection_conserves`). The fixed order is right for a server. On a client the event channel
goes before the identifier that was made from it, against the rules of the connection manager,
and `connect_misuses` says how often this happens.

The body of the loop of `connect` and that of `handleConnection` are lists of steps
(`HMC.Machine.SetupOp`), which are legal whatever the interface answers, so `SetupOp.run_spec`
covers all points of failure at once. What is released is covered by the rule for records
(`Owns.destroyAll`), with the order of `cleanRdmaResources` evaluated once (`early_cleanOrder`). The
retries are an induction over the rounds that are left, which starts each round with an empty
record.
-/

namespace HMC.Rdma.Resources

open HMC.Machine SetupOp

/-- The events that `connect`, `handleConnection` and `closeEndpoint` wait for. -/
inductive CmEvent
  | addrResolved
  | routeResolved
  | established
  | disconnected
  deriving DecidableEq

/-- The pointers of an `RDMAEndpoint`, and `cm_event`. -/
inductive Slot
  | cmEventChannel
  | cmId
  | completionChannel
  | cq
  | pd
  | qp (i : ℕ)
  | localMetadataMr
  | remoteMetadataMr
  | bufferMr
  | uhmBufferStateMr
  | cmEvent (e : CmEvent)
  deriving DecidableEq

/-- What each is made from. The first queue pair belongs to the identifier; an event belongs to the
channel and to the identifier. -/
def Slot.uses : Slot → List Slot
  | .cmEventChannel => []
  | .cmId => [.cmEventChannel]
  | .completionChannel => [.cmId]
  | .cq => [.cmId, .completionChannel]
  | .pd => [.cmId]
  | .qp 0 => [.cmId, .pd, .cq]
  | .qp (_ + 1) => [.pd, .cq]
  | .localMetadataMr | .remoteMetadataMr | .bufferMr | .uhmBufferStateMr => [.pd]
  | .cmEvent _ => [.cmEventChannel, .cmId]

/-- The calls that make nothing, and the tests of an event. -/
inductive SetupCall
  | resolveAddr
  | resolveRoute
  | connect
  | accept
  | exchangeMetaData
  | disconnect
  | isEvent (e : CmEvent)
  deriving DecidableEq

/-- The labels that a failing call goes to. -/
inductive Exit
  | retry
  | failed
  deriving DecidableEq

abbrev SetupStep := SetupOp Slot SetupCall Exit

/-- A number of channels for which no index into `qps_` or `qp_num_list` is out of bounds. -/
structure ChannelCount where
  val : ℕ
  pos : 0 < val
  le : val ≤ maxQps

variable (n : ChannelCount)

/-- `qps_`. -/
def qps : List Slot := (List.range n.val).map .qp

/-- `setupQPs`. -/
def qpSteps : List SetupStep := (qps n).map fun i => .make i .failed

/-- `setupBuffers`. -/
def bufferSteps : List SetupStep :=
  [.make .localMetadataMr .failed, .make .remoteMetadataMr .failed, .make .bufferMr .failed,
    .make .uhmBufferStateMr .failed]

/-- `rdma_get_cm_event`, the test of the event and `rdma_ack_cm_event`. -/
def eventStep (e : CmEvent) (exit : Exit) : SetupStep := .event (.cmEvent e) (.isEvent e) exit

/-- The body of the loop of `RDMAClient::connect`. -/
def clientSteps : List SetupStep :=
  [.make .cmEventChannel .failed, .make .cmId .failed, .call .resolveAddr .retry,
    eventStep .addrResolved .retry, .call .resolveRoute .retry, eventStep .routeResolved .retry,
    .make .completionChannel .failed, .make .cq .failed, .make .pd .failed] ++
  qpSteps n ++ bufferSteps ++
  [.call .connect .retry, eventStep .established .retry, .call .exchangeMetaData .failed]

/-- `RDMAServer::handleConnection`, and `exchangeMetaData` after it. -/
def serverSteps : List SetupStep :=
  [.make .completionChannel .failed, .make .cq .failed, .make .pd .failed] ++
  qpSteps n ++ bufferSteps ++
  [.call .accept .failed, eventStep .established .failed, .call .exchangeMetaData .failed]

/-- The order in which `cleanRdmaResources` releases. -/
def cleanOrder : List Slot :=
  qps n ++
  [.localMetadataMr, .remoteMetadataMr, .uhmBufferStateMr, .bufferMr, .cq, .completionChannel, .pd,
    .cmEventChannel, .cmId]

def cleanRdmaResources (x : Holder Slot) : Holder Slot := x.destroyAll (cleanOrder n)

/-- `closeEndpoint` takes any event; its status is dropped. -/
def closeEndpoint (a : Answers Slot SetupCall) (x : Holder Slot) : Holder Slot :=
  (run Slot.uses a [.call .disconnect .failed, eventStep .disconnected .failed] x).2

/-- Whose end of a connection an endpoint is. -/
inductive Role
  | client
  | server
  deriving DecidableEq

/-- `~RDMAEndpoint`: only a client that is connected closes. -/
def destructor (role : Role) (connected : Bool) (a : Answers Slot SetupCall) (x : Holder Slot) :
    Holder Slot :=
  cleanRdmaResources n (if role = .client ∧ connected = true then closeEndpoint a x else x)

/-- What the interface answers in one round of the loop, and whether the process is told to stop
after it. -/
structure Attempt where
  answers : Answers Slot SetupCall
  shouldExit : Bool

/-- What a call returns: whether it is an endpoint, and the rounds that were made. -/
structure Connected where
  endpoint : Bool
  rounds : ℕ
  holder : Holder Slot

/-- The endpoint is dropped before it was connected. -/
def giveUp (rounds : ℕ) (a : Answers Slot SetupCall) (x : Holder Slot) : Connected :=
  ⟨false, rounds, destructor n .client false a x⟩

/-- The loop of `RDMAClient::connect`, with the number of retries that are left. -/
def connectLoop (attempt : ℕ → Attempt) : ℕ → ℕ → Holder Slot → Connected
  | 0, retryCount, x => giveUp n retryCount (attempt retryCount).answers x
  | left + 1, retryCount, x =>
    let a := attempt retryCount
    match run Slot.uses a.answers (clientSteps n) x with
    | (none, x) => ⟨true, retryCount + 1, x⟩
    | (some .failed, x) => giveUp n (retryCount + 1) a.answers x
    | (some .retry, x) =>
      let x := cleanRdmaResources n x
      if a.shouldExit then giveUp n (retryCount + 1) a.answers x
      else connectLoop attempt left (retryCount + 1) x

/-- `RDMAClient::connect`, for an address that can be converted. -/
def connect (maxRetryTimes : ℕ) (attempt : ℕ → Attempt) (L : Ledger Slot) : Connected :=
  connectLoop n attempt maxRetryTimes 0 ⟨L, fun _ => none⟩

/-- A connect request brings an identifier that belongs to the channel of the server. -/
def connectRequest (channel : ℕ) (L : Ledger Slot) : Holder Slot :=
  ⟨L.make .cmId [channel], Function.update (fun _ => none) .cmId (some L.next)⟩

/-- What `RDMAServer::listen` does for a connect request: the endpoint is dropped when
`handleConnection` or `exchangeMetaData` fails. -/
def handleConnection (a : Answers Slot SetupCall) (channel : ℕ) (L : Ledger Slot) :
    Bool × Holder Slot :=
  match run Slot.uses a (serverSteps n) (connectRequest channel L) with
  | (none, x) => (true, x)
  | (some _, x) => (false, destructor n .server false a x)

/-! ### The lists of steps -/

theorem not_mem_uses_self (i : Slot) : i ∉ i.uses := by
  rcases i with _ | _ | _ | _ | _ | ⟨_ | _⟩ | _ | _ | _ | _ | _ <;> simp [Slot.uses]

theorem qp_not_mem_uses (k : ℕ) (i : Slot) : .qp k ∉ i.uses := by
  rcases i with _ | _ | _ | _ | _ | ⟨_ | _⟩ | _ | _ | _ | _ | _ <;> simp [Slot.uses]

/-- What a queue pair is made from. -/
theorem uses_qp {k : ℕ} {j : Slot} (h : j ∈ (Slot.qp k).uses) : j = .cmId ∨ j = .pd ∨ j = .cq := by
  rcases k with _ | k
  · simpa [Slot.uses] using h
  · simp only [Slot.uses, List.mem_cons, List.not_mem_nil, or_false] at h
    exact .inr h

theorem exists_of_mem_qps {n : ChannelCount} {i : Slot} (h : i ∈ qps n) : ∃ k, i = .qp k := by
  obtain ⟨k, -, rfl⟩ := List.mem_map.mp h
  exact ⟨k, rfl⟩

theorem slots_qpSteps : (qpSteps n).filterMap slot = qps n := by
  simp [qpSteps, List.filterMap_map, Function.comp_def, slot]

theorem leaves_qpSteps : (qpSteps n).filterMap leaves = qps n := by
  simp [qpSteps, List.filterMap_map, Function.comp_def, leaves]

section

variable {n} {pre post : List Slot}

/-- Any queue pairs between two lists that hold none. -/
theorem nodup_of_qps (h : (pre ++ post).Nodup) (hpre : ∀ k, .qp k ∉ pre)
    (hpost : ∀ k, .qp k ∉ post) : (pre ++ qps n ++ post).Nodup := by
  have hqps : (qps n).Nodup := List.nodup_range.map fun _ _ h => Slot.qp.inj h
  rw [List.nodup_append] at h
  rw [List.nodup_append, List.nodup_append]
  refine ⟨⟨h.1, hqps, ?_⟩, h.2.1, ?_⟩
  · intro i hi j hj
    obtain ⟨k, rfl⟩ := exists_of_mem_qps hj
    rintro rfl
    exact hpre k hi
  · intro i hi j hj
    rcases List.mem_append.mp hi with hi | hi
    · exact h.2.2 i hi j hj
    · obtain ⟨k, rfl⟩ := exists_of_mem_qps hi
      rintro rfl
      exact hpost k hj

/-- No resource is made from one that is made later. -/
theorem order_of_qps (h : (pre ++ post).Pairwise fun i j => j ∉ Slot.uses i)
    (hpost : ∀ i ∈ post, i ≠ .cmId ∧ i ≠ .pd ∧ i ≠ .cq) :
    (pre ++ qps n ++ post).Pairwise fun i j => j ∉ Slot.uses i := by
  rw [List.pairwise_append] at h
  rw [List.pairwise_append, List.pairwise_append]
  refine ⟨⟨h.1, List.pairwise_map.mpr ?_, ?_⟩, h.2.1, ?_⟩
  · exact List.pairwise_of_forall fun _ j => qp_not_mem_uses j _
  · intro i hi j hj
    obtain ⟨k, rfl⟩ := exists_of_mem_qps hj
    exact qp_not_mem_uses k i
  · intro i hi j hj
    rcases List.mem_append.mp hi with hi | hi
    · exact h.2.2 i hi j hj
    · obtain ⟨k, rfl⟩ := exists_of_mem_qps hi
      intro hmem
      obtain ⟨h₁, h₂, h₃⟩ := hpost j hj
      rcases uses_qp hmem with rfl | rfl | rfl
      · exact h₁ rfl
      · exact h₂ rfl
      · exact h₃ rfl

end

theorem nodup_cleanOrder : (cleanOrder n).Nodup :=
  have hpre : ∀ k, Slot.qp k ∉ ([] : List Slot) := fun _ => List.not_mem_nil
  nodup_of_qps (by decide) hpre (by simp)

theorem slots_clientSteps : (clientSteps n).filterMap slot =
    [.cmEventChannel, .cmId, .cmEvent .addrResolved, .cmEvent .routeResolved, .completionChannel,
      .cq, .pd] ++ qps n ++
    [.localMetadataMr, .remoteMetadataMr, .bufferMr, .uhmBufferStateMr,
      .cmEvent .established] := by
  simp only [clientSteps, List.filterMap_append, slots_qpSteps]
  rw [List.append_assoc (_ ++ qps n)]
  rfl

theorem slots_serverSteps : (serverSteps n).filterMap slot =
    [.completionChannel, .cq, .pd] ++ qps n ++
    [.localMetadataMr, .remoteMetadataMr, .bufferMr, .uhmBufferStateMr,
      .cmEvent .established] := by
  simp only [serverSteps, List.filterMap_append, slots_qpSteps]
  rw [List.append_assoc (_ ++ qps n)]
  rfl

theorem legal_clientSteps : Legal Slot.uses [] (clientSteps n) := by
  refine legal_of_slots (by simp) not_mem_uses_self ?_ ?_
  · rw [slots_clientSteps]
    exact nodup_of_qps (by decide) (by simp) (by simp)
  · rw [slots_clientSteps]
    exact order_of_qps (by decide) (by simp)

theorem legal_serverSteps : Legal Slot.uses [.cmId] (serverSteps n) := by
  refine legal_of_slots ?_ not_mem_uses_self ?_ ?_
  · rw [slots_serverSteps]
    intro i hi
    have hne : i ≠ .cmId ∧ i ≠ .cmEventChannel := by
      constructor
      · rintro rfl
        simp [qps] at hi
      · rintro rfl
        simp [qps] at hi
    simp [hne, Slot.uses]
  · rw [slots_serverSteps]
    exact nodup_of_qps (by decide) (by simp) (by simp)
  · rw [slots_serverSteps]
    exact order_of_qps (by decide) (by simp)

theorem leaves_clientSteps {i : Slot} :
    i ∈ (clientSteps n).filterMap leaves ↔ i ∈ cleanOrder n := by
  simp only [clientSteps, List.filterMap_append, leaves_qpSteps, cleanOrder, List.mem_append]
  simp [eventStep, bufferSteps, leaves]
  tauto

theorem leaves_serverSteps {i : Slot} :
    i = .cmId ∨ i ∈ (serverSteps n).filterMap leaves ↔
      i ∈ cleanOrder n ∧ i ≠ .cmEventChannel := by
  by_cases hi : i = .cmEventChannel
  · subst hi
    simp [serverSteps, qpSteps, bufferSteps, eventStep, leaves, qps]
  · simp only [serverSteps, List.filterMap_append, leaves_qpSteps, cleanOrder, List.mem_append]
    simp [eventStep, bufferSteps, leaves, hi]
    tauto

/-- Releasing in this order breaks one rule, if there is an event channel and an identifier. -/
theorem early_cleanOrder (p : Slot → Option ℕ) : early Slot.uses p (cleanOrder n) =
    if (p .cmEventChannel).isSome ∧ (p .cmId).isSome then [.inUse .cmEventChannel] else [] := by
  have hsplit : cleanOrder n =
      (qps n ++ [.localMetadataMr, .remoteMetadataMr, .uhmBufferStateMr, .bufferMr, .cq,
        .completionChannel, .pd]) ++ [.cmEventChannel, .cmId] := by
    simp [cleanOrder]
  have hqps : ∀ i ∈ qps n, ∀ j, i ∉ Slot.uses j := by
    intro i hi j
    obtain ⟨k, rfl⟩ := exists_of_mem_qps hi
    exact qp_not_mem_uses k j
  rw [hsplit, early_append]
  · simp [early, Slot.uses]
  · rw [List.pairwise_append]
    refine ⟨?_, by decide, fun i hi j _ => hqps i hi j⟩
    exact List.pairwise_map.mpr (List.pairwise_of_forall fun i j => qp_not_mem_uses i _)
  · intro i hi j hj
    rcases List.mem_append.mp hi with hi | hi
    · exact hqps i hi j
    · simp only [List.mem_cons, List.not_mem_nil, or_false] at hj
      rcases hj with rfl | rfl
      · simp [Slot.uses]
      · simp only [Slot.uses, List.mem_singleton]
        rintro rfl
        simp at hi

/-! ### Building and releasing an endpoint -/

variable {n} {others : ℕ → Option (Resource Slot)} {x : Holder Slot} {a : Answers Slot SetupCall}

/-- The endpoint holds nothing, and the ledger has only the others. -/
structure Released (others : ℕ → Option (Resource Slot)) (x : Holder Slot) : Prop where
  ptr : ∀ i, x.ptr i = none
  live : x.ledger.live = others

/-- The endpoint holds all of its resources, or on a server all but an event channel. -/
def Complete (n : ChannelCount) (role : Role) (x : Holder Slot) : Prop :=
  ∀ i, (x.ptr i).isSome ↔ i ∈ cleanOrder n ∧ (role = .server → i ≠ .cmEventChannel)

/-- The rule that `cleanRdmaResources` breaks. -/
def brokenRules (x : Holder Slot) : List (Misuse Slot) :=
  if (x.ptr .cmEventChannel).isSome ∧ (x.ptr .cmId).isSome then [.inUse .cmEventChannel] else []

theorem cleanRdmaResources_spec (h : Owns Slot.uses others x)
    (hcover : ∀ i, (x.ptr i).isSome → i ∈ cleanOrder n) :
    Released others (cleanRdmaResources n x) ∧
      (cleanRdmaResources n x).ledger.misuses = x.ledger.misuses ++ brokenRules x := by
  obtain ⟨hptr, hlive, hmis⟩ := h.destroyAll hcover (nodup_cleanOrder n) not_mem_uses_self
  refine ⟨⟨hptr, hlive⟩, ?_⟩
  rw [early_cleanOrder] at hmis
  exact hmis

theorem Released.owns (h : Released others x) : Owns Slot.uses others x := by
  have hown : Owns Slot.uses x.ledger.live ⟨x.ledger, fun _ => none⟩ := Owns.nothing x.ledger
  rw [h.live] at hown
  have hx : x = ⟨x.ledger, fun _ => none⟩ := by
    rw [← funext h.ptr]
  rw [hx]
  exact hown

theorem Released.ptr_iff (h : Released others x) (i : Slot) : (x.ptr i).isSome ↔ i ∈ [] := by
  simp [h.ptr i]

/-- Releasing an endpoint that holds nothing does nothing. -/
theorem Released.clean (h : Released others x) : Released others (cleanRdmaResources n x) ∧
    (cleanRdmaResources n x).ledger.misuses = x.ledger.misuses := by
  obtain ⟨hrel, hmis⟩ := cleanRdmaResources_spec (n := n) h.owns fun i hi => by
    rw [h.ptr i] at hi
    cases hi
  refine ⟨hrel, hmis.trans ?_⟩
  simp [brokenRules, h.ptr]

/-- `closeEndpoint` leaves the endpoint as it is, but for an event that comes and goes. -/
theorem closeEndpoint_spec (h : Owns Slot.uses others x) (hall : Complete n .client x)
    (a : Answers Slot SetupCall) : Owns Slot.uses others (closeEndpoint a x) ∧
      Complete n .client (closeEndpoint a x) ∧
      (closeEndpoint a x).ledger.misuses = x.ledger.misuses := by
  have hheld : ∀ i, (x.ptr i).isSome ↔ i ∈ cleanOrder n := by
    intro i
    rw [hall i]
    exact and_iff_left nofun
  have hlegal : Legal Slot.uses (cleanOrder n)
      ([.call .disconnect .failed, eventStep .disconnected .failed] : List SetupStep) := by
    refine legal_of_slots (fun i hi => ?_) not_mem_uses_self (by decide) (by decide)
    obtain rfl : .cmEvent .disconnected = i := by simpa [eventStep, slot] using hi
    constructor
    · simp [cleanOrder, qps]
    · intro j _
      rcases j with _ | _ | _ | _ | _ | ⟨_ | _⟩ | _ | _ | _ | _ | _ <;> simp [Slot.uses]
  obtain ⟨hown, hmis, hptr⟩ := run_spec (a := a) h hheld hlegal
  refine ⟨hown, fun i => ?_, hmis⟩
  rw [and_iff_left nofun]
  refine (hptr i).trans ?_
  rw [List.mem_append, or_iff_left]
  intro hi
  have hmem := ((List.takeWhile_sublist _).filterMap leaves).subset hi
  simp [eventStep, leaves] at hmem

/-- The destructor of an endpoint that is complete gives everything back. -/
theorem destructor_spec {role : Role} {connected : Bool} (h : Owns Slot.uses others x)
    (hall : Complete n role x) (a : Answers Slot SetupCall) :
    Released others (destructor n role connected a x) ∧
      (destructor n role connected a x).ledger.misuses =
        x.ledger.misuses ++ if role = .client then [.inUse .cmEventChannel] else [] := by
  have hbroken : ∀ y, Complete n role y →
      brokenRules y = if role = .client then [.inUse .cmEventChannel] else [] := by
    intro y hy
    have hid : (y.ptr .cmId).isSome := (hy .cmId).mpr ⟨by simp [cleanOrder], by simp⟩
    rcases role with _ | _
    · have hch : (y.ptr .cmEventChannel).isSome :=
        (hy .cmEventChannel).mpr ⟨by simp [cleanOrder], nofun⟩
      simp [brokenRules, hid, hch]
    · have hch : ¬ (y.ptr .cmEventChannel).isSome := fun hc =>
        ((hy .cmEventChannel).mp hc).2 rfl rfl
      simp [brokenRules, hch]
  by_cases hclose : role = .client ∧ connected = true
  · obtain ⟨rfl, hc⟩ := hclose
    obtain ⟨hown, hcomp, hmis⟩ := closeEndpoint_spec h hall a
    rw [destructor, if_pos ⟨rfl, hc⟩, ← hbroken _ hcomp, ← hmis]
    exact cleanRdmaResources_spec hown fun i hi => ((hcomp i).mp hi).1
  · rw [destructor, if_neg hclose, ← hbroken x hall]
    exact cleanRdmaResources_spec h fun i hi => ((hall i).mp hi).1

/-! ### The client -/

/-- The identifier is made in this round. -/
def Attempt.makesId (a : Attempt) : Bool := a.answers.made .cmEventChannel && a.answers.made .cmId

/-- A round that does not leave has built the endpoint. -/
theorem complete_of_run (h : Released others x)
    (hrun : (run Slot.uses a (clientSteps n) x).1 = none) :
    Owns Slot.uses others (run Slot.uses a (clientSteps n) x).2 ∧
      Complete n .client (run Slot.uses a (clientSteps n) x).2 ∧
      (run Slot.uses a (clientSteps n) x).2.ledger.misuses = x.ledger.misuses := by
  obtain ⟨hown, hmis, hptr⟩ := run_spec (a := a) h.owns h.ptr_iff (legal_clientSteps n)
  refine ⟨hown, fun i => ?_, hmis⟩
  rw [and_iff_left nofun, hptr i, takeWhile_of_run_fst hrun, List.nil_append, leaves_clientSteps]

/-- A round that leaves is cleaned up. -/
theorem clean_of_run (h : Released others x) (b : Attempt) :
    let y := (run Slot.uses b.answers (clientSteps n) x).2
    Released others (cleanRdmaResources n y) ∧
      (cleanRdmaResources n y).ledger.misuses =
        x.ledger.misuses ++ if b.makesId then [.inUse .cmEventChannel] else [] := by
  obtain ⟨hown, hmis, hptr⟩ := run_spec (a := b.answers) h.owns h.ptr_iff (legal_clientSteps n)
  obtain ⟨hrel, hclean⟩ := cleanRdmaResources_spec (n := n) hown fun i hi => by
    rw [hptr i, List.nil_append] at hi
    exact (leaves_clientSteps n).mp (((List.takeWhile_sublist _).filterMap leaves).subset hi)
  refine ⟨hrel, hclean.trans ?_⟩
  rw [hmis]
  congr 1
  have hch : ∀ i, ((run Slot.uses b.answers (clientSteps n) x).2.ptr i).isSome ↔
      i ∈ ((clientSteps n).takeWhile (succeeds b.answers)).filterMap leaves := by
    intro i
    rw [hptr i, List.nil_append]
  simp only [brokenRules, hch, Attempt.makesId]
  -- the channel and the identifier are the first two steps
  have hsteps : ∃ rest : List SetupStep, clientSteps n =
      .make .cmEventChannel .failed :: .make .cmId .failed :: rest := ⟨_, rfl⟩
  obtain ⟨rest, hrest⟩ := hsteps
  rw [hrest]
  by_cases h₁ : b.answers.made .cmEventChannel
  · by_cases h₂ : b.answers.made .cmId
    · simp [SetupOp.succeeds, leaves, h₁, h₂]
    · simp [SetupOp.succeeds, leaves, h₁, h₂]
  · simp [SetupOp.succeeds, h₁]

/-- The rounds of a call that did not bring an endpoint. -/
def Connected.failedRounds (r : Connected) : ℕ := if r.endpoint then r.rounds - 1 else r.rounds

/-- What a call of `connect` leaves, after this many rounds. -/
structure ConnectSpec (n : ChannelCount) (others : ℕ → Option (Resource Slot))
    (attempt : ℕ → Attempt) (left retryCount : ℕ) (before : List (Misuse Slot)) (r : Connected) :
    Prop where
  rounds_le : r.rounds ≤ retryCount + left
  le_failed : retryCount ≤ r.failedRounds
  released : r.endpoint = false → Released others r.holder
  owns : r.endpoint = true → Owns Slot.uses others r.holder ∧ Complete n .client r.holder
  misuses : r.holder.ledger.misuses = before ++
    List.replicate ((List.range' retryCount (r.failedRounds - retryCount)).countP fun k =>
      (attempt k).makesId) (.inUse .cmEventChannel)

/-- Giving up after everything was released. -/
theorem giveUp_spec {attempt : ℕ → Attempt} {left retryCount m : ℕ} {before : List (Misuse Slot)}
    (hrel : Released others (cleanRdmaResources n x)) (hle : m ≤ retryCount + left)
    (hge : retryCount ≤ m) (hmis : (cleanRdmaResources n x).ledger.misuses = before ++
      List.replicate ((List.range' retryCount (m - retryCount)).countP fun k =>
        (attempt k).makesId) (.inUse .cmEventChannel)) :
    ConnectSpec n others attempt left retryCount before (giveUp n m a x) := by
  have hd : destructor n .client false a x = cleanRdmaResources n x := by simp [destructor]
  refine ⟨hle, hge, fun _ => ?_, nofun, ?_⟩
  · rw [giveUp, hd]
    exact hrel
  · rw [giveUp, hd]
    exact hmis

/-- A call that goes on after a round. -/
theorem ConnectSpec.cons {attempt : ℕ → Attempt} {left retryCount : ℕ}
    {before between : List (Misuse Slot)} {r : Connected}
    (h : ConnectSpec n others attempt left (retryCount + 1) between r)
    (hround : between = before ++
      if (attempt retryCount).makesId then [.inUse .cmEventChannel] else []) :
    ConnectSpec n others attempt (left + 1) retryCount before r := by
  have hle := h.le_failed
  refine ⟨by have := h.rounds_le; omega, by omega, h.released, h.owns, ?_⟩
  have hsucc : r.failedRounds - retryCount = (r.failedRounds - (retryCount + 1)) + 1 := by omega
  rw [h.misuses, hround, hsucc, List.range'_succ, List.countP_cons, List.append_assoc]
  congr 1
  by_cases hid : (attempt retryCount).makesId
  · simp [hid, List.replicate_succ]
  · simp [hid]

theorem connectLoop_spec {attempt : ℕ → Attempt} {left retryCount : ℕ} (h : Released others x) :
    ConnectSpec n others attempt left retryCount x.ledger.misuses
      (connectLoop n attempt left retryCount x) := by
  induction left generalizing retryCount x with
  | zero =>
    obtain ⟨hrel, hmis⟩ := h.clean (n := n)
    exact giveUp_spec hrel (Nat.le_refl _) (Nat.le_refl _) (by simp [hmis])
  | succ left ih =>
    obtain ⟨hrel, hmis⟩ := clean_of_run (n := n) h (attempt retryCount)
    have hcomp := complete_of_run (n := n) (a := (attempt retryCount).answers) h
    rcases hrun : run Slot.uses (attempt retryCount).answers (clientSteps n) x with ⟨exit, y⟩
    rw [hrun] at hrel hmis hcomp
    have hfailed : ConnectSpec n others attempt (left + 1) retryCount x.ledger.misuses
        (giveUp n (retryCount + 1) (attempt retryCount).answers y) := by
      refine giveUp_spec hrel (by omega) (by omega) ?_
      rw [hmis, Nat.add_sub_cancel_left]
      by_cases hid : (attempt retryCount).makesId <;> simp [hid]
    rcases exit with _ | _ | _
    · obtain ⟨hown, hall, hmis'⟩ := hcomp rfl
      simp only [connectLoop, hrun]
      refine ⟨by simp, by simp [Connected.failedRounds], nofun, fun _ => ⟨hown, hall⟩, ?_⟩
      simpa [Connected.failedRounds] using hmis'
    · simp only [connectLoop, hrun]
      split_ifs
      · -- the endpoint is dropped after it was cleaned
        obtain ⟨hrel', hmis'⟩ := hrel.clean (n := n)
        refine giveUp_spec hrel' (by omega) (by omega) ?_
        rw [hmis', hmis, Nat.add_sub_cancel_left]
        by_cases hid : (attempt retryCount).makesId <;> simp [hid]
      · exact (ih hrel).cons hmis
    · simp only [connectLoop, hrun]
      exact hfailed

theorem connect_spec (maxRetryTimes : ℕ) (attempt : ℕ → Attempt) (L : Ledger Slot) :
    ConnectSpec n L.live attempt maxRetryTimes 0 L.misuses (connect n maxRetryTimes attempt L) := by
  have hstart : Released L.live (⟨L, fun _ => none⟩ : Holder Slot) := ⟨fun _ => rfl, rfl⟩
  exact connectLoop_spec hstart

/-- **What a client does against the rules.** Each round that fails after the identifier was made,
and the destructor of an endpoint, destroys the event channel before the identifier. Nothing else
is released early, and nothing twice. -/
theorem connect_misuses (maxRetryTimes : ℕ) (attempt : ℕ → Attempt) (L : Ledger Slot) :
    let r := connect n maxRetryTimes attempt L
    r.holder.ledger.misuses = L.misuses ++
        List.replicate ((List.range r.failedRounds).countP fun k => (attempt k).makesId)
          (.inUse .cmEventChannel) ∧
      (r.endpoint = true → ∀ a, (destructor n .client true a r.holder).ledger.misuses =
        r.holder.ledger.misuses ++ [.inUse .cmEventChannel]) := by
  have h := connect_spec (n := n) maxRetryTimes attempt L
  constructor
  · rw [List.range_eq_range']
    exact h.misuses
  · intro he a
    obtain ⟨hown, hall⟩ := h.owns he
    exact (destructor_spec hown hall a).2

/-- A server that does not accept, in three rounds. -/
example : (connect ⟨1, by decide, by decide⟩ 3
    (fun _ => ⟨⟨fun _ => true, fun c => decide (c ≠ .connect)⟩, false⟩)
      .empty).holder.ledger.misuses = List.replicate 3 (.inUse .cmEventChannel) := by
  decide

/-! ### The server -/

/-- What `handleConnection` leaves. -/
theorem handleConnection_spec (a : Answers Slot SetupCall) (channel : ℕ) (L : Ledger Slot) :
    let r := handleConnection n a channel L
    r.2.ledger.misuses = (connectRequest channel L).ledger.misuses ∧
      (r.1 = false → Released L.live r.2) ∧
      (r.1 = true → Owns Slot.uses L.live r.2 ∧ Complete n .server r.2) := by
  have hrequest : Owns Slot.uses L.live (connectRequest channel L) :=
    Owns.adopt L [channel] (not_mem_uses_self .cmId)
  have hcmId : ∀ i, ((connectRequest channel L).ptr i).isSome ↔ i ∈ [Slot.cmId] := fun i => by
    simp [connectRequest, Function.update_apply]
  obtain ⟨hown, hmis, hptr⟩ := run_spec (a := a) hrequest hcmId (legal_serverSteps n)
  have hheld : ∀ i, ((run Slot.uses a (serverSteps n) (connectRequest channel L)).2.ptr i).isSome →
      i ∈ cleanOrder n ∧ i ≠ .cmEventChannel := by
    intro i hi
    rw [hptr i, List.mem_append, List.mem_singleton] at hi
    refine (leaves_serverSteps n).mp (hi.imp_right fun hi => ?_)
    exact ((List.takeWhile_sublist _).filterMap leaves).subset hi
  have hfst : (run Slot.uses a (serverSteps n) (connectRequest channel L)).1 = none →
      (serverSteps n).takeWhile (succeeds a) = serverSteps n := takeWhile_of_run_fst
  unfold handleConnection
  rcases hrun : run Slot.uses a (serverSteps n) (connectRequest channel L) with ⟨exit, y⟩
  rw [hrun] at hown hmis hptr hheld hfst
  rcases exit with _ | e
  · refine ⟨hmis, nofun, fun _ => ⟨hown, fun i => ?_⟩⟩
    rw [hptr i, hfst rfl, List.mem_append, List.mem_singleton, leaves_serverSteps]
    simp
  · obtain ⟨hrel, hclean⟩ := cleanRdmaResources_spec (n := n) hown fun i hi => (hheld i hi).1
    have hd : destructor n .server false a y = cleanRdmaResources n y := by simp [destructor]
    have hch : ¬ (y.ptr .cmEventChannel).isSome := fun h => (hheld _ h).2 rfl
    dsimp only
    rw [hd]
    refine ⟨?_, fun _ => hrel, nofun⟩
    rw [hclean]
    simpa [brokenRules, hch] using hmis

/-- **A server leaks nothing and releases in order.** Wherever the calls for a connect request fail,
the endpoint that was begun is released with its identifier, and an endpoint that is kept holds all
that it needs, which its destructor gives back; everything goes before what it was made from. A
server's endpoint has no event channel of its own, so the order that is wrong for a client is right
for it. -/
theorem handleConnection_conserves (a : Answers Slot SetupCall) (channel : ℕ) (L : Ledger Slot) :
    let r := handleConnection n a channel L
    let request := (connectRequest channel L).ledger
    r.2.ledger.misuses = request.misuses ∧ (r.1 = false → r.2.ledger.live = L.live) ∧
      (r.1 = true → Complete n .server r.2 ∧ ∀ connected b,
        (destructor n .server connected b r.2).ledger.live = L.live ∧
          (destructor n .server connected b r.2).ledger.misuses = request.misuses) := by
  obtain ⟨hmis, hfailed, hkept⟩ := handleConnection_spec (n := n) a channel L
  refine ⟨hmis, fun hf => (hfailed hf).live, fun ht => ?_⟩
  obtain ⟨hown, hall⟩ := hkept ht
  refine ⟨hall, fun connected b => ?_⟩
  have hdestroyed : Released L.live (destructor n .server connected b _) ∧ _ :=
    destructor_spec hown hall b
  exact ⟨hdestroyed.1.live, by simpa [hdestroyed.2] using hmis⟩

end HMC.Rdma.Resources
