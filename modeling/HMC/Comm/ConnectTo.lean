import HMC.Comm.ConnManager
import HMC.Ctrl.Reconnect

/-!
# A failing `connectTo`

`connectTo` opens a control link to the peer and then the data endpoint. If it cannot make the
endpoint, it closes the control link. `connectTcp` and `connectUds` return true also where they have
found a link to the peer and discarded their socket, so that the rollback closes a link which this
call has not opened (`closes_older_link`).

`unaffected_iff`: a call that fails leaves everything as it was if there was no control link to the
peer, or if the control step is the one that failed.

The call is a function of the tables and of what comes back from outside (`ConnectEnv`): which
attempts to dial give a socket, whether the HELLO could be sent, and the endpoint. A call that fails
leaves the endpoint maps alone, so the result is about the control table and the sockets
(`connectTo_of_failed`). There the control step binds its socket or discards it, and the rollback
closes what is bound: together this changes nothing if nothing was bound before
(`close_bind_of_none`), and empties the place of the peer otherwise (`idToConn_close_bind`).
-/

namespace HMC.Comm

open HMC.Ctrl

/-- How a control link is to be opened. -/
structure CtrlLink where
  transport : Transport
  ip : String
  port : ℕ
  udsPath : String

/-- What comes back from outside during a call: the sockets of the attempts to dial, whether the
HELLO could be sent, and the endpoint that the client of the transport returns, by its connection
id. -/
structure ConnectEnv (φ : Type) where
  dial : ℕ → Option φ
  helloSent : Bool
  endpoint : Option ℕ

/-- The control table of a process and the endpoint maps of its communicator. -/
structure Links (φ : Type) where
  ctrl : CtrlSocketManager φ
  maps : EndpointMaps

/-- `endpointMapFor`, with the key. -/
def entryKey (key : PeerKey) : ConnType → Option EntryKey
  | .rdma => some (.rdma key)
  | .ucx => some (.ucx key)
  | .p2p => none

namespace EndpointMaps

variable (m : EndpointMaps)

/-- `checkConn`. -/
def checkConn (key : PeerKey) (connType : ConnType) : Status :=
  match entryKey key connType with
  | none => .invalidConfig
  | some key =>
    match m.table key with
    | none => .notFound
    | some e =>
      match m.endpoint e with
      | none => .error
      | some _ => .success

/-- `initiateConnectionAsClient`. -/
def initiateConnectionAsClient (key : PeerKey) (connType : ConnType) (endpoint : Option ℕ) :
    Status × EndpointMaps :=
  match entryKey key connType with
  | none => (.invalidConfig, m)
  | some key =>
    match endpoint with
    | none => (.error, m)
    | some connId => (.success, m.add key connId)

/-- There is an endpoint under the key, and it is not destroyed. -/
def Has (key : EntryKey) (ep : ℕ) : Prop :=
  ∃ e, m.table key = some e ∧ m.endpoint e = some ep ∧ m.destroyed ep = false

end EndpointMaps

variable {φ : Type}

/-- The socket that the control step dials. -/
def CtrlLink.dialed (link : CtrlLink) (env : ConnectEnv φ) : Option φ :=
  match link.transport with
  | .uds => if link.udsPath = "" then none else (List.range 5).findSome? env.dial
  | .tcp => if link.ip = "" ∨ link.port = 0 then none else env.dial 0

/-- The control step succeeds: the peer can be dialed and the HELLO sent. -/
def CtrlLink.Opens (link : CtrlLink) (env : ConnectEnv φ) : Prop :=
  (link.dialed env).isSome ∧ env.helloSent = true

/-- Between two states, the control table and the endpoints are the same, the sockets in the table
have not been shut down, and a socket that was dialed is closed. -/
structure Links.Unaffected (st st' : Links φ) (dialed : Option φ) : Prop where
  table : st'.ctrl.idToConn = st.ctrl.idToConn
  isOpen {peerId : ℕ} {fd : φ} : st.ctrl.idToConn peerId = some fd →
    st'.ctrl.shut fd = st.ctrl.shut fd
  endpoints {key : EntryKey} {ep : ℕ} : st'.maps.Has key ep ↔ st.maps.Has key ep
  closed {fd : φ} : dialed = some fd → st'.ctrl.shut fd = true

variable [DecidableEq φ]

/-- `connectTcp` and `connectUds` after they have dialed. -/
def connectFd (m : CtrlSocketManager φ) (peerId : ℕ) (fd : Option φ) (helloSent : Bool) :
    Bool × CtrlSocketManager φ :=
  match fd with
  | none => (false, m)
  | some fd => if helloSent then (true, m.bind peerId fd) else (false, m.drop fd)

def connectTcp (m : CtrlSocketManager φ) (peerId : ℕ) (env : ConnectEnv φ) :
    Bool × CtrlSocketManager φ :=
  connectFd m peerId (env.dial 0) env.helloSent

/-- The listener of the peer may not be ready yet, so five attempts are made. -/
def connectUds (m : CtrlSocketManager φ) (peerId : ℕ) (env : ConnectEnv φ) :
    Bool × CtrlSocketManager φ :=
  connectFd m peerId ((List.range 5).findSome? env.dial) env.helloSent

def connectCtrl (m : CtrlSocketManager φ) (peerId : ℕ) (link : CtrlLink) (env : ConnectEnv φ) :
    Status × CtrlSocketManager φ :=
  match link.transport with
  | .uds =>
    if link.udsPath = "" then (.error, m)
    else
      let r := connectUds m peerId env
      (if r.1 then .success else .error, r.2)
  | .tcp =>
    if link.ip = "" ∨ link.port = 0 then (.error, m)
    else
      let r := connectTcp m peerId env
      (if r.1 then .success else .error, r.2)

namespace Links

variable (st : Links φ)

def connectTo (peerId : ℕ) (key : PeerKey) (link : CtrlLink) (connType : ConnType)
    (env : ConnectEnv φ) : Status × Links φ :=
  if st.maps.checkConn key connType = .success then (.success, st)
  else
    let c := connectCtrl st.ctrl peerId link env
    if c.1 ≠ .success then (c.1, ⟨c.2, st.maps⟩)
    else
      let d := st.maps.initiateConnectionAsClient key connType env.endpoint
      if d.1 ≠ .success then (d.1, ⟨c.2.close peerId, d.2⟩) else (.success, ⟨c.2, d.2⟩)

end Links

/-! ### The control step -/

variable {m : CtrlSocketManager φ} {peerId : ℕ} {fd : φ}

/-- The control step in terms of the socket that it dials. -/
theorem connectCtrl_eq (m : CtrlSocketManager φ) (peerId : ℕ) (link : CtrlLink)
    (env : ConnectEnv φ) : connectCtrl m peerId link env =
      (if (connectFd m peerId (link.dialed env) env.helloSent).1 then .success else .error,
        (connectFd m peerId (link.dialed env) env.helloSent).2) := by
  cases htransport : link.transport with
  | tcp =>
    by_cases h : link.ip = "" ∨ link.port = 0
    · simp [connectCtrl, CtrlLink.dialed, htransport, h, connectFd]
    · simp only [connectCtrl, CtrlLink.dialed, htransport, if_neg h]
      rfl
  | uds =>
    by_cases h : link.udsPath = ""
    · simp [connectCtrl, CtrlLink.dialed, htransport, h, connectFd]
    · simp only [connectCtrl, CtrlLink.dialed, htransport, if_neg h]
      rfl

/-- The rollback of a new link. -/
theorem close_bind_of_none (h : m.idToConn peerId = none) :
    (m.bind peerId fd).close peerId = m.drop fd := by
  have hupd : Function.update m.idToConn peerId none = m.idToConn := by
    rw [← h, Function.update_eq_self]
  simp [CtrlSocketManager.bind_of_none h, CtrlSocketManager.close, CtrlSocketManager.drop, hupd]

/-- The rollback of a link that was there before. -/
theorem idToConn_close_bind : ((m.bind peerId fd).close peerId).idToConn peerId = none := by
  unfold CtrlSocketManager.close
  split
  · assumption
  · exact Function.update_self ..

/-! ### The call -/

theorem EndpointMaps.initiateConnectionAsClient_of_failed {m : EndpointMaps} {key : PeerKey}
    {connType : ConnType} {endpoint : Option ℕ}
    (h : (m.initiateConnectionAsClient key connType endpoint).1 ≠ .success) :
    (m.initiateConnectionAsClient key connType endpoint).2 = m := by
  cases hkey : entryKey key connType with
  | none => simp only [EndpointMaps.initiateConnectionAsClient, hkey]
  | some k =>
    cases endpoint with
    | none => simp only [EndpointMaps.initiateConnectionAsClient, hkey]
    | some connId => exact absurd (by simp only [EndpointMaps.initiateConnectionAsClient, hkey]) h

namespace Links

variable {st : Links φ} {key : PeerKey} {link : CtrlLink} {connType : ConnType}
  {env : ConnectEnv φ}

/-- What the control step and the rollback may do without harm. -/
theorem Unaffected.drop {dialed : Option φ} (hdialed : dialed = some fd)
    (hfresh : ∀ p, st.ctrl.idToConn p ≠ some fd) :
    Unaffected st ⟨st.ctrl.drop fd, st.maps⟩ dialed := by
  refine ⟨rfl, ?_, Iff.rfl, ?_⟩
  · intro p g hp
    refine Function.update_of_ne ?_ _ _
    rintro rfl
    exact hfresh p hp
  · intro g hg
    obtain rfl := Option.some.inj (hdialed.symm.trans hg)
    exact Function.update_self ..

/-- A failing call fails in the control step, or afterwards. -/
theorem connectTo_of_failed (hfail : (st.connectTo peerId key link connType env).1 ≠ .success) :
    (st.connectTo peerId key link connType env).2 =
      if (connectFd st.ctrl peerId (link.dialed env) env.helloSent).1 then
        ⟨(connectFd st.ctrl peerId (link.dialed env) env.helloSent).2.close peerId, st.maps⟩
      else ⟨(connectFd st.ctrl peerId (link.dialed env) env.helloSent).2, st.maps⟩ := by
  unfold connectTo at hfail ⊢
  simp only [connectCtrl_eq] at hfail ⊢
  by_cases hcheck : st.maps.checkConn key connType = .success
  · simp [hcheck] at hfail
  · by_cases hctrl : (connectFd st.ctrl peerId (link.dialed env) env.helloSent).1 = true
    · simp only [hcheck, hctrl, if_true, if_false, ne_eq, not_true] at hfail ⊢
      have hdata : (st.maps.initiateConnectionAsClient key connType env.endpoint).1 ≠ .success := by
        intro h
        simp [h] at hfail
      rw [if_pos hdata, EndpointMaps.initiateConnectionAsClient_of_failed hdata]
    · simp [hcheck, hctrl]

/-- **A failing call leaves everything as it was** exactly when there was no control link to the
peer or the control step failed. The kernel gives no number that is open, which is what `hfresh`
says of the socket that is dialed. -/
theorem unaffected_iff (hfresh : ∀ fd ∈ link.dialed env, ∀ p, st.ctrl.idToConn p ≠ some fd)
    (hfail : (st.connectTo peerId key link connType env).1 ≠ .success) :
    Unaffected st (st.connectTo peerId key link connType env).2 (link.dialed env) ↔
      st.ctrl.idToConn peerId = none ∨ ¬ link.Opens env := by
  rw [connectTo_of_failed hfail]
  cases hdialed : link.dialed env with
  | none =>
    have hclosed : ¬ link.Opens env := fun h => by simp [CtrlLink.Opens, hdialed] at h
    simp only [connectFd, Bool.false_eq_true, if_false, hclosed, not_false_eq_true, or_true,
      iff_true]
    exact ⟨rfl, fun _ => rfl, Iff.rfl, nofun⟩
  | some fd =>
    by_cases hhello : env.helloSent = true
    · have hopens : link.Opens env := ⟨by simp [hdialed], hhello⟩
      simp only [connectFd, hhello, if_true, hopens, not_true, or_false]
      constructor
      · -- the rollback leaves no link to the peer
        intro h
        rw [← h.table, idToConn_close_bind]
      · intro hnone
        rw [close_bind_of_none hnone]
        exact Unaffected.drop rfl (hfresh fd hdialed)
    · have hclosed : ¬ link.Opens env := fun h => hhello h.2
      simp only [connectFd, if_neg hhello, Bool.false_eq_true, if_false, hclosed,
        not_false_eq_true, or_true, iff_true]
      exact Unaffected.drop rfl (hfresh fd hdialed)

def sampleLink : CtrlLink := ⟨.tcp, "192.168.0.2", 5555, ""⟩

/-- A process that has connected to peer 2 over UCX; its control link is socket 10. -/
def linked : Links ℕ :=
  (connectTo ⟨.empty, .empty⟩ 2 samplePeer sampleLink .ucx ⟨fun _ => some 10, true, some 1⟩).2

/-- What comes back when the data endpoint cannot be made. -/
def noEndpoint : ConnectEnv ℕ := ⟨fun _ => some 11, true, none⟩

/-- A call over RDMA that fails. -/
def failed (peerId : ℕ) : Status × Links ℕ :=
  linked.connectTo peerId samplePeer sampleLink .rdma noEndpoint

theorem unaffected_iff_newPeer :
    (failed 3).1 = .error ∧ Unaffected linked (failed 3).2 (some 11) := by
  have hfresh : ∀ fd ∈ sampleLink.dialed noEndpoint, ∀ p, linked.ctrl.idToConn p ≠ some fd := by
    intro fd hfd p hp
    obtain rfl : 11 = fd := Option.some.inj hfd
    change Function.update (fun _ => none) 2 (some 10) p = some 11 at hp
    by_cases hp2 : p = 2
    · simp [hp2] at hp
    · simp [Function.update_of_ne hp2] at hp
  exact ⟨by decide, (unaffected_iff hfresh (by decide)).mpr (.inl (by decide))⟩

/-- The failing call to peer 2 closes the link that the call over UCX has opened. -/
theorem closes_older_link : (failed 2).1 = .error ∧ linked.ctrl.idToConn 2 = some 10 ∧
    linked.ctrl.shut 10 = false ∧ (failed 2).2.ctrl.shut 10 = true ∧
    ¬ Unaffected linked (failed 2).2 (some 11) := by
  have hlink : linked.ctrl.idToConn 2 = some 10 := by decide
  have hopen : linked.ctrl.shut 10 = false := by decide
  have hshut : (failed 2).2.ctrl.shut 10 = true := by decide
  refine ⟨by decide, hlink, hopen, hshut, ?_⟩
  intro h
  cases hshut.symm.trans ((h.isOpen hlink).trans hopen)

end Links

end HMC.Comm
