import Mathlib.Data.List.Nodup
import Mathlib.Logic.Function.Basic
import HMC.Core.Basic
import HMC.Machine.Run

/-!
# The handshake of a UCX server

The accept loop of `UCXServer::listen` handles one connection request after another: it
receives the client's memory header, sends its own, receives the client's remote key, sends its
own, and registers the endpoint under the client's address.

All endpoints share one worker, and a tag receive takes any message of the worker whose tag
matches. The tags are made of a fixed channel and a sequence number, so they tell a header from
a key, but not one client from another (`handshakes_cross`). `faithful_of_orderly` says that an
endpoint holds the data of its own client in runs in which a client's messages reach the worker
only while the loop handles that client, and are consumed before the loop goes on: then the worker
holds at most the one message that the loop receives next (`Handshake.At`), and a receive, whichever
message it asks for, can take no other.

A receive that completes as soon as it is posted takes its message and reports the length `0`, so
the request is given up (`atOnceStep`).

A client that connects again is another client of the model.
-/

namespace HMC.Ucx

open HMC.Machine

/-! ### Tags -/

/-- `UcxMsgType`. -/
inductive UcxMsgType
  | data
  | ctrl
  deriving DecidableEq

def UcxMsgType.code : UcxMsgType → BitVec 8
  | .data => 1
  | .ctrl => 2

/-- `UcxTagCodec::make`. -/
def makeTag (t : UcxMsgType) (ch : BitVec 16) (seq : BitVec 32) : BitVec 64 :=
  (t.code.setWidth 64 <<< 56) ||| (ch.setWidth 64 <<< 40) ||| (seq.setWidth 64 <<< 8)

/-- The mask of `tagRecvAsync`: sequence number `0` stands for any. -/
def recvMask (seq : BitVec 32) : BitVec 64 :=
  if seq = 0 then ~~~((0xFFFFFFFF : BitVec 64) <<< 8) else BitVec.allOnes 64

/-- A message with this tag may be taken by `tagRecv(.., ch, seq)`. -/
def tagMatches (tag : BitVec 64) (ch : BitVec 16) (seq : BitVec 32) : Bool :=
  tag &&& recvMask seq == makeTag .data ch seq &&& recvMask seq

/-- `kHandshakeChannel`. -/
def handshakeChannel : BitVec 16 := 1

/-- `kSeqHdr`. -/
def seqHdr : BitVec 32 := 1

/-- `kSeqRkey`. -/
def seqRkey : BitVec 32 := 2

/-! ### The parties -/

/-- `UcxRemoteMemInfo`. -/
structure MemInfo where
  baseAddr : ℕ
  size : ℕ
  rkeyLen : ℕ
  listenPort : ℕ
  deriving DecidableEq

/-- What a connecting process would tell of itself, and its address. -/
structure Client where
  ip : String
  baseAddr : ℕ
  size : ℕ
  listenPort : ℕ
  rkey : List UInt8

/-- The header of `UCXClient::connect`. -/
def Client.header (c : Client) : MemInfo where
  baseAddr := c.baseAddr
  size := c.size
  rkeyLen := wrap32 c.rkey.length
  listenPort := c.listenPort

/-- What the two messages of a client carry. -/
inductive Payload
  | memInfo (hdr : MemInfo)
  | rkey (bytes : List UInt8)
  deriving DecidableEq

/-- A message that has reached the server's worker. -/
structure Message where
  sender : ℕ
  tag : BitVec 64
  payload : Payload
  deriving DecidableEq

/-- How far the accept loop has come with a request. `recvHdr` and `recvRkey` are before
`ucp_tag_recv_nbx`, `waitHdr` and `waitRkey` in the loop that waits for the posted receive. -/
inductive AcceptPc
  | idle
  | recvHdr (c : ℕ)
  | waitHdr (c : ℕ)
  | sendHdr (c : ℕ) (hdr : MemInfo)
  | recvRkey (c : ℕ) (hdr : MemInfo)
  | waitRkey (c : ℕ) (hdr : MemInfo)
  | sendRkey (c : ℕ) (hdr : MemInfo) (rkey : List UInt8)
  | setRemote (c : ℕ) (hdr : MemInfo) (rkey : List UInt8)
  deriving DecidableEq

/-- The client whose request is being handled. -/
def AcceptPc.client : AcceptPc → Option ℕ
  | .idle => none
  | .recvHdr c | .waitHdr c | .sendHdr c _ | .recvRkey c _ | .waitRkey c _ | .sendRkey c _ _
  | .setRemote c _ _ => some c

/-- A registered endpoint: the client whose request created it, and what it holds. -/
structure Registered where
  client : ℕ
  hdr : MemInfo
  rkey : List UInt8
  deriving DecidableEq

/-- The server, and how far each client has come. -/
structure Handshake where
  requested : ℕ → Bool
  sentHdr : ℕ → Bool
  replied : ℕ → Bool
  sentRkey : ℕ → Bool
  pending : List ℕ
  worker : List Message
  pc : AcceptPc
  endpoints : PeerKey → Option Registered

/-- A connection request, a header or a key of a client reaches the server, or the accept loop
moves: a receive takes message `choice`, and `ok` is the outcome of the call it makes. In `atOnce`
the receive that the loop posts completes immediately. -/
inductive HandshakeAct
  | request (c : ℕ)
  | header (c : ℕ)
  | rkey (c : ℕ)
  | accept (choice : ℕ) (ok : Bool)
  | atOnce (choice : ℕ)
  deriving DecidableEq

namespace Handshake

variable (info : ℕ → Client) (s : Handshake)

/-- The header message of a client. -/
def headerMsg (c : ℕ) : Message :=
  ⟨c, makeTag .data handshakeChannel seqHdr, .memInfo (info c).header⟩

/-- The key message of a client. -/
def rkeyMsg (c : ℕ) : Message :=
  ⟨c, makeTag .data handshakeChannel seqRkey, .rkey (info c).rkey⟩

def goto (pc : AcceptPc) : Handshake := { s with pc := pc }

/-- A receive on the shared worker: the chosen message, if its tag matches. -/
def tagRecv (choice : ℕ) (seq : BitVec 32) : Option (Message × Handshake) :=
  (s.worker[choice]?).bind fun m =>
    if tagMatches m.tag handshakeChannel seq then
      some (m, { s with worker := s.worker.eraseIdx choice })
    else none

/-- `_addEndpoint` under the address of the request and the announced listening port. -/
def addEndpoint (c : ℕ) (hdr : MemInfo) (rkey : List UInt8) : Handshake :=
  { s with
    endpoints := Function.update s.endpoints ⟨(info c).ip, hdr.listenPort⟩ (some ⟨c, hdr, rkey⟩) }

/-- One step of the accept loop. A failing call ends the handling of the request. -/
def acceptStep (choice : ℕ) (ok : Bool) : Option Handshake :=
  match s.pc with
  | .idle =>
    match s.pending with
    | [] => none
    | c :: rest => some { s with pending := rest, pc := if ok then .recvHdr c else .idle }
  | .recvHdr c => some (s.goto (if ok then .waitHdr c else .idle))
  | .waitHdr c =>
    if ok then
      (s.tagRecv choice seqHdr).map fun p =>
        match p.1.payload with
        | .memInfo hdr => p.2.goto (if hdr.rkeyLen = 0 then .idle else .sendHdr c hdr)
        | .rkey _ => p.2.goto .idle
    else some (s.goto .idle)
  | .sendHdr c hdr =>
    if ok then some { s with replied := Function.update s.replied c true, pc := .recvRkey c hdr }
    else some (s.goto .idle)
  | .recvRkey c hdr => some (s.goto (if ok then .waitRkey c hdr else .idle))
  | .waitRkey c hdr =>
    if ok then
      (s.tagRecv choice seqRkey).map fun p =>
        match p.1.payload with
        | .memInfo _ => p.2.goto .idle
        | .rkey bytes =>
          p.2.goto (if bytes.length = hdr.rkeyLen then .sendRkey c hdr bytes else .idle)
    else some (s.goto .idle)
  | .sendRkey c hdr rkey => some (s.goto (if ok then .setRemote c hdr rkey else .idle))
  | .setRemote c hdr rkey =>
    if ok ∧ hdr.baseAddr ≠ 0 ∧ hdr.size ≠ 0 ∧ hdr.rkeyLen ≠ 0 ∧ rkey.length = hdr.rkeyLen then
      some ((s.addEndpoint info c hdr rkey).goto .idle)
    else some (s.goto .idle)

/-- `ucp_tag_recv_nbx` returns no request: the message is taken, but `onRecvComplete` is not called.
`tagRecv` returns `SUCCESS` with the length `0`, and the loop gives the request up. -/
def atOnceStep (choice : ℕ) : Option Handshake :=
  match s.pc with
  | .recvHdr _ => (s.tagRecv choice seqHdr).map fun p => p.2.goto .idle
  | .recvRkey _ _ => (s.tagRecv choice seqRkey).map fun p => p.2.goto .idle
  | _ => none

/-- One step. A client sends its key when the server's header has been sent to it. -/
def step : HandshakeAct → Option Handshake
  | .request c =>
    if s.requested c then none
    else some { s with
      requested := Function.update s.requested c true, pending := s.pending ++ [c] }
  | .header c =>
    if s.sentHdr c then none
    else some { s with
      sentHdr := Function.update s.sentHdr c true, worker := s.worker ++ [headerMsg info c] }
  | .rkey c =>
    if s.sentHdr c ∧ s.replied c ∧ ¬ s.sentRkey c then
      some { s with
        sentRkey := Function.update s.sentRkey c true, worker := s.worker ++ [rkeyMsg info c] }
    else none
  | .accept choice ok => s.acceptStep info choice ok
  | .atOnce choice => s.atOnceStep choice

/-- The server before any client has connected. -/
def initial : Handshake where
  requested _ := false
  sentHdr _ := false
  replied _ := false
  sentRkey _ := false
  pending := []
  worker := []
  pc := .idle
  endpoints _ := none

/-- Every registered endpoint holds what the client of its request sent, under the address of
that client. -/
def Faithful : Prop :=
  ∀ key r, s.endpoints key = some r →
    r.hdr = (info r.client).header ∧ r.rkey = (info r.client).rkey ∧
      key = ⟨(info r.client).ip, (info r.client).listenPort⟩

/-- The step condition: a message reaches the worker only while the loop handles its sender, and
the loop does not give up while a message waits in the worker. -/
def Orderly : HandshakeAct → Prop
  | .request _ => True
  | .header c => s.pc.client = some c
  | .rkey c => s.pc.client = some c
  | .accept _ ok => ok = false → s.worker = []
  | .atOnce _ => True

instance : ∀ a, Decidable (s.Orderly a)
  | .request _ | .atOnce _ => inferInstanceAs (Decidable True)
  | .header _ | .rkey _ => inferInstanceAs (Decidable (_ = _))
  | .accept _ _ => inferInstanceAs (Decidable (_ → _))

end Handshake

/-! ### The invariant -/

/-- No message of the client has been sent or answered. -/
structure Handshake.Untouched (s : Handshake) (c : ℕ) : Prop where
  sentHdr : s.sentHdr c = false
  replied : s.replied c = false
  sentRkey : s.sentRkey c = false

/-- Where the accept loop stands: the worker holds at most the message of the current client
that the loop receives next, and the loop's variables hold that client's data. -/
def Handshake.At (info : ℕ → Client) (s : Handshake) : AcceptPc → Prop
  | .idle => s.worker = []
  | .recvHdr c | .waitHdr c =>
    s.replied c = false ∧ s.sentRkey c = false ∧
      (s.worker = [] ∨ s.worker = [Handshake.headerMsg info c] ∧ s.sentHdr c = true)
  | .sendHdr c hdr =>
    hdr = (info c).header ∧ s.worker = [] ∧ s.sentHdr c = true ∧ s.replied c = false ∧
      s.sentRkey c = false
  | .recvRkey c hdr | .waitRkey c hdr =>
    hdr = (info c).header ∧ s.sentHdr c = true ∧
      (s.worker = [] ∨ s.worker = [Handshake.rkeyMsg info c] ∧ s.sentRkey c = true)
  | .sendRkey c hdr rkey | .setRemote c hdr rkey =>
    hdr = (info c).header ∧ rkey = (info c).rkey ∧ s.worker = [] ∧ s.sentHdr c = true ∧
      s.sentRkey c = true

/-- The invariant of an orderly run. -/
structure HandshakeInv (info : ℕ → Client) (s : Handshake) : Prop where
  place : s.At info s.pc
  nodup : s.pending.Nodup
  pending : ∀ c ∈ s.pending, s.requested c = true ∧ s.Untouched c
  current : ∀ c, s.pc.client = some c → s.requested c = true ∧ c ∉ s.pending
  waiting : ∀ c, s.requested c = false → s.Untouched c
  faithful : s.Faithful info

namespace HandshakeInv

variable {info : ℕ → Client} {s s' : Handshake} {c : ℕ}

theorem untouched_initial : Handshake.initial.Untouched c := ⟨rfl, rfl, rfl⟩

theorem initial : HandshakeInv info .initial where
  place := rfl
  nodup := List.nodup_nil
  pending _ hc := by cases hc
  current _ hc := by cases hc
  waiting _ _ := untouched_initial
  faithful _ _ hr := by cases hr

/-- A receive from a worker that holds one message takes it. -/
theorem tagRecv_eq {choice : ℕ} {seq : BitVec 32} {m : Message} {p : Message × Handshake}
    (hw : s.worker = [] ∨ s.worker = [m]) (hp : s.tagRecv choice seq = some p) :
    s.worker = [m] ∧ p = (m, { s with worker := [] }) := by
  obtain ⟨m', hm', hp⟩ := Option.bind_eq_some_iff.mp hp
  obtain hw | hw := hw
  · rw [hw] at hm'
    simp at hm'
  · rw [hw] at hm'
    obtain ⟨rfl, rfl⟩ : choice = 0 ∧ m' = m := by
      obtain _ | choice := choice
      · exact ⟨rfl, (Option.some.inj hm').symm⟩
      · simp at hm'
    split_ifs at hp
    cases hp
    refine ⟨hw, ?_⟩
    simp [hw]

/-- The loop goes on to another place of the same client, or back to the requests. -/
theorem goto (h : HandshakeInv info s) (w : List Message) (replied : ℕ → Bool) {pc : AcceptPc}
    (hplace : Handshake.At info { s with worker := w, replied := replied, pc := pc } pc)
    (hpc : pc.client = none ∨ pc.client = s.pc.client)
    (hrep : ∀ c, s.pc.client ≠ some c → replied c = s.replied c) :
    HandshakeInv info { s with worker := w, replied := replied, pc := pc } := by
  have hun : ∀ c, s.pc.client ≠ some c → s.Untouched c →
      Handshake.Untouched { s with worker := w, replied := replied, pc := pc } c :=
    fun c hc hu => ⟨hu.sentHdr, (hrep c hc).trans hu.replied, hu.sentRkey⟩
  refine ⟨hplace, h.nodup, fun c hc => ?_, fun c hc => ?_, fun c hc => ?_, h.faithful⟩
  · obtain ⟨hr, hu⟩ := h.pending c hc
    exact ⟨hr, hun c (fun hcur => (h.current c hcur).2 hc) hu⟩
  · refine h.current c ?_
    obtain hpc | hpc := hpc
    · rw [hpc] at hc
      cases hc
    · rw [← hpc]
      exact hc
  · refine hun c (fun hcur => ?_) (h.waiting c hc)
    have := (h.current c hcur).1
    rw [hc] at this
    cases this

/-- A connection request arrives. -/
theorem request (h : HandshakeInv info s) (hs : s.step info (.request c) = some s') :
    HandshakeInv info s' := by
  simp only [Handshake.step] at hs
  split_ifs at hs with hr
  cases hs
  have hr' : s.requested c = false := by simpa using hr
  have hc : c ∉ s.pending := fun hm => hr (h.pending c hm).1
  have hreq : ∀ d, s.requested d = true → Function.update s.requested c true d = true := by
    intro d hd
    by_cases hdc : d = c
    · rw [hdc, Function.update_self]
    · rw [Function.update_of_ne hdc, hd]
  refine ⟨?_, ?_, fun d hd => ?_, fun d hd => ?_, fun d hd => ?_, h.faithful⟩
  · have hp := h.place
    cases hpc : s.pc <;> rw [hpc] at hp <;> exact hp
  · rw [List.nodup_append]
    refine ⟨h.nodup, by simp, ?_⟩
    rintro a ha b hb rfl
    exact hc (List.mem_singleton.mp hb ▸ ha)
  · obtain hd | hd := List.mem_append.mp hd
    · obtain ⟨hrd, hu⟩ := h.pending d hd
      exact ⟨hreq d hrd, ⟨hu.sentHdr, hu.replied, hu.sentRkey⟩⟩
    · obtain rfl := List.mem_singleton.mp hd
      have hu := h.waiting d hr'
      exact ⟨Function.update_self _ _ _, ⟨hu.sentHdr, hu.replied, hu.sentRkey⟩⟩
  · obtain ⟨hrd, hnd⟩ := h.current d hd
    refine ⟨hreq d hrd, fun hm => ?_⟩
    obtain hm | hm := List.mem_append.mp hm
    · exact hnd hm
    · rw [List.mem_singleton.mp hm, hr'] at hrd
      cases hrd
  · have hdc : d ≠ c := by
      rintro rfl
      dsimp only at hd
      rw [Function.update_self] at hd
      cases hd
    dsimp only at hd
    rw [Function.update_of_ne hdc] at hd
    have hu := h.waiting d hd
    exact ⟨hu.sentHdr, hu.replied, hu.sentRkey⟩

/-- A message of the current client reaches the worker: nothing changes for the others. -/
theorem arrive (h : HandshakeInv info s) (hcur : s.pc.client = some c)
    {sentHdr sentRkey : ℕ → Bool} {w : List Message}
    (hplace : Handshake.At info
      { s with sentHdr := sentHdr, sentRkey := sentRkey, worker := w } s.pc)
    (hhdr : ∀ d, d ≠ c → sentHdr d = s.sentHdr d)
    (hkey : ∀ d, d ≠ c → sentRkey d = s.sentRkey d) :
    HandshakeInv info { s with sentHdr := sentHdr, sentRkey := sentRkey, worker := w } := by
  obtain ⟨hrc, hnc⟩ := h.current c hcur
  have hun : ∀ d, d ≠ c → s.Untouched d →
      Handshake.Untouched { s with sentHdr := sentHdr, sentRkey := sentRkey, worker := w } d :=
    fun d hd hu => ⟨(hhdr d hd).trans hu.sentHdr, hu.replied, (hkey d hd).trans hu.sentRkey⟩
  refine ⟨hplace, h.nodup, fun d hd => ?_, h.current, fun d hd => ?_, h.faithful⟩
  · obtain ⟨hr, hu⟩ := h.pending d hd
    exact ⟨hr, hun d (fun hdc => hnc (hdc ▸ hd)) hu⟩
  · refine hun d ?_ (h.waiting d hd)
    rintro rfl
    rw [hrc] at hd
    cases hd

/-- The header of the current client arrives: the loop is waiting for it. -/
theorem header (h : HandshakeInv info s) (hcur : s.pc.client = some c)
    (hs : s.step info (.header c) = some s') : HandshakeInv info s' := by
  simp only [Handshake.step] at hs
  split_ifs at hs with hsent
  cases hs
  refine h.arrive hcur ?_ (fun d hd => Function.update_of_ne hd _ _) fun _ _ => rfl
  have hp := h.place
  cases hpc : s.pc <;> rw [hpc] at hp hcur
  case idle => cases hcur
  case recvHdr | waitHdr =>
    cases hcur
    obtain ⟨hrep, hkey, hw⟩ := hp
    refine ⟨hrep, hkey, .inr ⟨?_, Function.update_self _ _ _⟩⟩
    obtain hw | ⟨-, ht⟩ := hw
    · simp only [hw, List.nil_append]
    · exact absurd ht hsent
  case sendHdr =>
    cases hcur
    exact absurd hp.2.2.1 hsent
  case recvRkey | waitRkey =>
    cases hcur
    exact absurd hp.2.1 hsent
  case sendRkey | setRemote =>
    cases hcur
    exact absurd hp.2.2.2.1 hsent

/-- The key of the current client arrives: the loop is waiting for it. -/
theorem rkey (h : HandshakeInv info s) (hcur : s.pc.client = some c)
    (hs : s.step info (.rkey c) = some s') : HandshakeInv info s' := by
  simp only [Handshake.step] at hs
  split_ifs at hs with hcan
  cases hs
  obtain ⟨hhdr, hrep, hsent⟩ := hcan
  refine h.arrive hcur ?_ (fun _ _ => rfl) fun d hd => Function.update_of_ne hd _ _
  have hp := h.place
  cases hpc : s.pc <;> rw [hpc] at hp hcur
  case idle => cases hcur
  case recvHdr | waitHdr =>
    cases hcur
    rw [hp.1] at hrep
    cases hrep
  case sendHdr =>
    cases hcur
    rw [hp.2.2.2.1] at hrep
    cases hrep
  case recvRkey | waitRkey =>
    cases hcur
    obtain ⟨hdr_eq, -, hw⟩ := hp
    refine ⟨hdr_eq, hhdr, .inr ⟨?_, Function.update_self _ _ _⟩⟩
    obtain hw | ⟨-, ht⟩ := hw
    · simp only [hw, List.nil_append]
    · exact absurd ht hsent
  case sendRkey | setRemote =>
    cases hcur
    exact absurd hp.2.2.2.2 hsent

/-- The loop gives up a request while no message waits. -/
theorem giveUp (h : HandshakeInv info s) (hw : s.worker = []) :
    HandshakeInv info (s.goto .idle) :=
  h.goto s.worker s.replied hw (.inl rfl) fun _ _ => rfl

/-- The loop goes on with its request, or gives it up while no message waits. -/
theorem goOn (h : HandshakeInv info s) {pc : AcceptPc} {ok : Bool}
    (hplace : Handshake.At info (s.goto pc) pc) (hpc : pc.client = s.pc.client)
    (hok : ok = false → s.worker = []) : HandshakeInv info (s.goto (if ok then pc else .idle)) := by
  cases ok with
  | false => exact h.giveUp (hok rfl)
  | true => exact h.goto s.worker s.replied hplace (.inr hpc) fun _ _ => rfl

/-- The endpoint of the current client is registered. -/
theorem addEndpoint (h : HandshakeInv info s) (hw : s.worker = []) :
    HandshakeInv info ((s.addEndpoint info c (info c).header (info c).rkey).goto .idle) := by
  refine { h.giveUp hw with
    place := hw
    pending := fun d hd => ?_
    waiting := fun d hd => ?_
    faithful := fun key r hr => ?_ }
  · obtain ⟨hrd, hu⟩ := h.pending d hd
    exact ⟨hrd, hu.sentHdr, hu.replied, hu.sentRkey⟩
  · have hu := h.waiting d hd
    exact ⟨hu.sentHdr, hu.replied, hu.sentRkey⟩
  · by_cases hk : key = ⟨(info c).ip, (info c).header.listenPort⟩
    · simp only [Handshake.goto, Handshake.addEndpoint, hk, Function.update_self,
        Option.some.injEq] at hr
      subst hr
      exact ⟨rfl, rfl, hk⟩
    · simp only [Handshake.goto, Handshake.addEndpoint, Function.update_of_ne hk] at hr
      exact h.faithful key r hr

/-- The accept loop moves. -/
theorem accept (h : HandshakeInv info s) {choice : ℕ} {ok : Bool}
    (hok : ok = false → s.worker = []) (hs : s.step info (.accept choice ok) = some s') :
    HandshakeInv info s' := by
  have hp := h.place
  simp only [Handshake.step, Handshake.acceptStep] at hs
  cases hpc : s.pc <;> simp only [hpc] at hs hp
  case idle =>
    split at hs
    · cases hs
    · rename_i c rest hq
      cases hs
      have hnd := h.nodup
      rw [hq, List.nodup_cons] at hnd
      obtain ⟨hrc, hu⟩ := h.pending c (by simp [hq])
      refine ⟨?_, hnd.2, fun d hd => ?_, fun d hd => ?_, fun d hd => ?_, h.faithful⟩
      · split_ifs
        · exact ⟨hu.replied, hu.sentRkey, .inl hp⟩
        · exact hp
      · obtain ⟨hrd, hud⟩ := h.pending d (by simp [hq, hd])
        exact ⟨hrd, hud.sentHdr, hud.replied, hud.sentRkey⟩
      · dsimp only at hd
        split_ifs at hd
        · cases hd
          exact ⟨hrc, hnd.1⟩
        · cases hd
      · have hud := h.waiting d hd
        exact ⟨hud.sentHdr, hud.replied, hud.sentRkey⟩
  case recvHdr c =>
    cases hs
    exact h.goOn hp (by rw [hpc]; rfl) hok
  case waitHdr c =>
    obtain ⟨hrep, hkey, hw⟩ := hp
    split_ifs at hs with ho
    · -- at most one message is on the worker, and only this client can have sent it
      obtain ⟨p, hrecv, rfl⟩ := Option.map_eq_some_iff.mp hs
      obtain ⟨hone, rfl⟩ := tagRecv_eq (hw.imp_right And.left) hrecv
      have hsent : s.sentHdr c = true := by
        obtain hw | hw := hw
        · rw [hw] at hone
          cases hone
        · exact hw.2
      dsimp only [Handshake.headerMsg]
      refine h.goto [] s.replied ?_ ?_ fun _ _ => rfl
      · split_ifs
        · rfl
        · exact ⟨rfl, rfl, hsent, hrep, hkey⟩
      · rw [hpc]
        split_ifs
        · exact .inl rfl
        · exact .inr rfl
    · cases hs
      exact h.giveUp (hok (by simpa using ho))
  case sendHdr c hdr =>
    obtain ⟨hhdr, hw, hsent, hrep, hkey⟩ := hp
    split_ifs at hs with ho <;> cases hs
    · refine h.goto s.worker _ ⟨hhdr, hsent, .inl hw⟩
        (.inr (by rw [hpc]; rfl)) fun d hd => Function.update_of_ne ?_ _ _
      rintro rfl
      exact hd (by rw [hpc]; rfl)
    · exact h.giveUp hw
  case recvRkey c hdr =>
    cases hs
    exact h.goOn hp (by rw [hpc]; rfl) hok
  case waitRkey c hdr =>
    obtain ⟨rfl, hsent, hw⟩ := hp
    split_ifs at hs with ho
    · -- the header is off the worker, so this is the packed rkey
      obtain ⟨p, hrecv, rfl⟩ := Option.map_eq_some_iff.mp hs
      obtain ⟨hone, rfl⟩ := tagRecv_eq (hw.imp_right And.left) hrecv
      have hkey : s.sentRkey c = true := by
        obtain hw | hw := hw
        · rw [hw] at hone
          cases hone
        · exact hw.2
      dsimp only [Handshake.rkeyMsg]
      refine h.goto [] s.replied ?_ ?_ fun _ _ => rfl
      · split_ifs
        · exact ⟨rfl, rfl, rfl, hsent, hkey⟩
        · rfl
      · rw [hpc]
        split_ifs
        · exact .inr rfl
        · exact .inl rfl
    · cases hs
      exact h.giveUp (hok (by simpa using ho))
  case sendRkey c hdr rkey =>
    cases hs
    exact h.goOn hp (by rw [hpc]; rfl) fun _ => hp.2.2.1
  case setRemote c hdr rkey =>
    obtain ⟨rfl, rfl, hw, -, -⟩ := hp
    split_ifs at hs <;> cases hs
    · exact h.addEndpoint hw
    · exact h.giveUp hw

/-- A receive completes at once: the message was that of the current client, and the worker is empty
again. -/
theorem atOnce (h : HandshakeInv info s) {choice : ℕ}
    (hs : s.step info (.atOnce choice) = some s') : HandshakeInv info s' := by
  have hp := h.place
  simp only [Handshake.step, Handshake.atOnceStep] at hs
  have hgone : ∀ {seq : BitVec 32} {m : Message}, s.worker = [] ∨ s.worker = [m] →
      (s.tagRecv choice seq).map (fun p => p.2.goto .idle) = some s' → HandshakeInv info s' := by
    intro seq m hw hs
    obtain ⟨p, hrecv, rfl⟩ := Option.map_eq_some_iff.mp hs
    obtain ⟨-, rfl⟩ := tagRecv_eq hw hrecv
    exact h.goto [] s.replied rfl (.inl rfl) fun _ _ => rfl
  cases hpc : s.pc <;> simp only [hpc] at hs hp
  case recvHdr => exact hgone (hp.2.2.imp_right And.left) hs
  case recvRkey => exact hgone (hp.2.2.imp_right And.left) hs
  all_goals cases hs

/-- **One step** of an orderly run keeps the invariant. -/
theorem step (h : HandshakeInv info s) {a : HandshakeAct} (ho : s.Orderly a)
    (hs : s.step info a = some s') : HandshakeInv info s' := by
  cases a with
  | request c => exact h.request hs
  | header c => exact h.header ho hs
  | rkey c => exact h.rkey ho hs
  | accept choice ok => exact h.accept ho hs
  | atOnce choice => exact h.atOnce hs

end HandshakeInv

/-! ### The claim -/

/-- **Endpoints hold their own client's data** in every orderly run: the memory, the key and the
port of an endpoint were sent by the client whose request has created it, and it is registered under
the address of that client. Nothing is assumed of the tags; by the invariant there is never a choice
between two messages. -/
theorem faithful_of_orderly {info : ℕ → Client} {s : Handshake}
    (hr : Reach (Handshake.step info) Handshake.Orderly .initial s) : s.Faithful info :=
  (hr.invariant HandshakeInv.initial fun _ _ _ _ h ho hs => h.step ho hs).faithful

/-- Two clients. -/
def twoClients (c : ℕ) : Client :=
  if c = 0 then ⟨"10.0.0.1", 4096, 64, 7001, [1]⟩ else ⟨"10.0.0.2", 8192, 32, 7002, [2]⟩

/-- The messages of a client arrive when the loop waits for them. -/
def turnOf (c : ℕ) : List HandshakeAct :=
  [.accept 0 true, .accept 0 true, .header c, .accept 0 true, .accept 0 true, .accept 0 true,
    .rkey c, .accept 0 true, .accept 0 true, .accept 0 true]

theorem faithful_of_orderly_turns :
    ∃ s, Reach (Handshake.step twoClients) Handshake.Orderly .initial s ∧
      (s.endpoints ⟨"10.0.0.1", 7001⟩).isSome = true ∧
      (s.endpoints ⟨"10.0.0.2", 7002⟩).isSome = true ∧ s.Faithful twoClients := by
  obtain ⟨s, hr, h₁, h₂⟩ : ∃ s, Reach (Handshake.step twoClients) Handshake.Orderly .initial s ∧
      ((s.endpoints ⟨"10.0.0.1", 7001⟩).isSome = true ∧
        (s.endpoints ⟨"10.0.0.2", 7002⟩).isSome = true) :=
    exists_reach_of_execOk ([.request 0, .request 1] ++ turnOf 0 ++ turnOf 1) (by decide +kernel)
  exact ⟨s, hr, h₁, h₂, faithful_of_orderly hr⟩

/-- **Handshakes cross.** The loop waits for the header of the first client when that of the second
arrives, and the endpoint gets the memory and the port of the second, with its own key. -/
theorem handshakes_cross :
    ∃ s, Reach (Handshake.step twoClients) Free .initial s ∧ ¬ s.Faithful twoClients := by
  obtain ⟨s, hr, he⟩ : ∃ s, Reach (Handshake.step twoClients) Free .initial s ∧
      s.endpoints ⟨"10.0.0.1", 7002⟩ = some ⟨0, (twoClients 1).header, [1]⟩ :=
    exists_reach_of_exec
      [.request 0, .request 1, .accept 0 true, .accept 0 true, .header 1, .header 0,
        .accept 0 true, .accept 0 true, .accept 0 true, .rkey 0, .accept 1 true, .accept 0 true,
        .accept 0 true]
      (by decide +kernel)
  refine ⟨s, hr, fun hf => ?_⟩
  have := (hf _ _ he).1
  exact absurd this (by decide)

end HMC.Ucx
