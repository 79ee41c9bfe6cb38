import HMC.Ctrl.Connection
import HMC.Machine.Packed
import HMC.Rdma.Server

/-!
# The exchange of RDMA metadata

After the connection manager has connected two processes, they tell each other their buffers over a
socket of their own: the client sends a `MetaHello` and its metadata, the server answers with a
`MetaReply` and its own, both close the socket, and each side then checks what it has received.
`exchanged_iff` says for which metadata this is all or nothing.

Neither side learns how the check of the other one came out. A buffer size is a `size_t` and the
field that carries it a `uint32_t`: with a buffer of 4 GiB on one side the other rejects the
exchange, which the first takes for a success (`rejected_by_server`).

Both functions are programs on a byte stream (`HMC.Machine.Io`), written as the code is: blocks are
sent and received, and the socket is closed on every path. The formats are terms of
`HMC.Machine.Packed`, so their round trips come with them. That the two calls end in one way only,
however the streams are cut, is the determinacy of the net (`exists_settles`): one run is given,
with the client first, and the result of each side is then read off what the other one has sent.
-/

namespace HMC.Rdma

open HMC.Machine HMC.Ctrl

/-! ### The messages -/

/-- The `conn_id` and the port of the client's own server, in network byte order. -/
structure MetaHello where
  connId : UInt64
  clientPort : UInt16

def MetaHello.packed : Packed MetaHello :=
  (Packed.u64.reversed.prod Packed.u16.reversed).map
    ⟨fun x => ⟨x.1, x.2⟩, fun x => (x.connId, x.clientPort), fun _ => rfl, fun _ => rfl⟩

/-- What the server answers to the HELLO of a metadata connection. -/
structure MetaReply where
  connId : UInt64
  serverPort : UInt16

def MetaReply.packed : Packed MetaReply :=
  (Packed.u64.reversed.prod Packed.u16.reversed).map
    ⟨fun x => ⟨x.1, x.2⟩, fun x => (x.connId, x.serverPort), fun _ => rfl, fun _ => rfl⟩

/-- `MAX_QPS`. -/
def maxQps : ℕ := 16

/-- `rdma_buffer_attr`: the metadata. -/
structure RdmaBufferAttr where
  address : UInt64
  length : UInt32
  key : UInt32
  uhmBufferStateAddress : UInt64
  uhmBufferStateKey : UInt32
  qpNums : UInt32
  qpNumList : Fin maxQps → UInt32
  gid : Fin 16 → UInt8
  sgidIndex : UInt8

namespace RdmaBufferAttr

open Packed in
/-- The struct is packed and in native byte order. -/
def packed : Packed RdmaBufferAttr :=
  (u64.prod (u32.prod (u32.prod (u64.prod (u32.prod (u32.prod
    ((u32.array maxQps).prod ((u8.array 16).prod u8)))))))).map
    ⟨fun x => ⟨x.1, x.2.1, x.2.2.1, x.2.2.2.1, x.2.2.2.2.1, x.2.2.2.2.2.1, x.2.2.2.2.2.2.1,
        x.2.2.2.2.2.2.2.1, x.2.2.2.2.2.2.2.2⟩,
      fun a => (a.address, a.length, a.key, a.uhmBufferStateAddress, a.uhmBufferStateKey, a.qpNums,
        a.qpNumList, a.gid, a.sgidIndex), fun _ => rfl, fun _ => rfl⟩

theorem size_packed : packed.size = 113 := rfl

variable (a : RdmaBufferAttr)

/-- The part of `setupBuffers` that fills in the buffer. -/
def withBuffer (ptr bufferSize : UInt64) (lkey : UInt32) : RdmaBufferAttr :=
  { a with address := ptr, length := bufferSize.toUInt32, key := lkey }

/-- The check of both sides. -/
def valid : Bool := !(a.address == 0 || a.length == 0 || a.key == 0)

/-- The message that carries the metadata. -/
def msg : CtrlMsg := ⟨2, 0, packed.bytes a, by rw [packed.length_bytes, size_packed]; decide⟩

end RdmaBufferAttr

/-! ### Sending and receiving -/

/-- The same code as `CtrlSocketManager::send`, once the descriptor is known. -/
abbrev sendMsg := Socket.send

/-- Unlike `CtrlSocketManager::recv`, it refuses nothing. -/
def recvMsg : Io UInt8 (Option (CtrlMsgHeader × List UInt8)) := do
  let some bytes ← .recvAll sizeofHeader | return none
  let hdr := CtrlMsgHeader.ofBytes bytes
  if hdr.length = 0 then return some (hdr, [])
  let some payload ← .recvAll hdr.length | return none
  return some (hdr, payload)

/-- A `MetaHello` or a `MetaReply`, and the metadata. -/
def sendMetadata (first : List UInt8) (attr : RdmaBufferAttr) : Io UInt8 Bool := do
  if !(← .sendAll first) then return false
  sendMsg ctrlStruct (some (RdmaBufferAttr.packed.bytes attr)) RdmaBufferAttr.packed.size 0

def recvMetadata : Io UInt8 (Option RdmaBufferAttr) := do
  let some (hdr, payload) ← recvMsg | return none
  if hdr.type ≠ ctrlStruct ∨ payload.length ≠ RdmaBufferAttr.packed.size then return none
  return some (RdmaBufferAttr.packed.ofBytes payload)

theorem run_recvMsg (m : CtrlMsg) (l : List UInt8) :
    recvMsg.run (m.frame ++ l) = some ⟨some (m.header, m.payload), [], m.frame.length⟩ := by
  rw [recvMsg, Io.bind_eq, CtrlMsg.frame, List.append_assoc,
    Io.run_bind (Io.run_recvAll m.header.length_bytes _)]
  simp only [CtrlMsgHeader.ofBytes_bytes m.header_fits]
  by_cases hlen : m.header.length = 0
  · have hnil : m.payload = [] := List.eq_nil_of_length_eq_zero hlen
    simp [hlen, hnil]
  · rw [if_neg hlen, Io.bind_eq, List.drop_left' m.header.length_bytes,
      Io.run_bind (Io.run_recvAll (n := m.header.length) rfl l)]
    simp [CtrlMsg.header]

theorem run_sendMetadata (first : List UInt8) (attr : RdmaBufferAttr) (l : List UInt8) :
    (sendMetadata first attr).run l = some ⟨true, first ++ attr.msg.frame, 0⟩ := by
  have hmsg := Socket.run_send ctrlStruct 0 attr.msg.short l
  have hlen : attr.msg.payload.length = RdmaBufferAttr.packed.size :=
    RdmaBufferAttr.packed.length_bytes attr
  rw [hlen] at hmsg
  have hsend : (sendMsg ctrlStruct (some (RdmaBufferAttr.packed.bytes attr))
      RdmaBufferAttr.packed.size 0).run l = some ⟨true, attr.msg.frame, 0⟩ := by
    rw [CtrlMsg.frame, CtrlMsg.header, hlen]
    exact hmsg
  rw [sendMetadata, Io.bind_eq, Io.run_bind (Io.run_sendAll _ _)]
  simp [hsend]

theorem run_recvMetadata (attr : RdmaBufferAttr) (l : List UInt8) :
    recvMetadata.run (attr.msg.frame ++ l) = some ⟨some attr, [], attr.msg.frame.length⟩ := by
  rw [recvMetadata, Io.bind_eq, Io.run_bind (run_recvMsg attr.msg l)]
  have htype : attr.msg.header.type = ctrlStruct := rfl
  have hpayload : attr.msg.payload = RdmaBufferAttr.packed.bytes attr := rfl
  simp [htype, hpayload]

/-! ### The two sides -/

/-- What a call of `exchangeMetaData` leaves: its result, the endpoint's `remote_metadata_attr`, and
the port that the server hands out on success. -/
structure Exchange where
  status : Status
  remote : RdmaBufferAttr
  clientPort : Option UInt16

/-- The end of both functions; `sent` tells whether the own metadata went through. -/
def conclude (remote : RdmaBufferAttr) (sent : Bool) (received : Option RdmaBufferAttr)
    (clientPort : Option UInt16) : Exchange :=
  let status : Status := if sent && received.any (·.valid) then .success else .error
  ⟨status, received.getD remote, if status = .success then clientPort else none⟩

/-- A process: its buffer, its other metadata, the port of its server, and what the endpoint holds
before the exchange. -/
structure Party where
  ptr : UInt64
  bufferSize : UInt64
  lkey : UInt32
  other : RdmaBufferAttr
  listenPort : UInt16
  remote : RdmaBufferAttr

/-- `local_metadata_attr`. -/
def Party.attr (x : Party) : RdmaBufferAttr := x.other.withBuffer x.ptr x.bufferSize x.lkey

namespace Party

variable (x : Party) (connId expected : UInt64)

/-- The client, up to its own metadata. -/
def hello : Io UInt8 Bool := sendMetadata (MetaHello.packed.bytes ⟨connId, x.listenPort⟩) x.attr

/-- The rest of the client's talk. -/
def recvReply : Io UInt8 (Option RdmaBufferAttr) := do
  let some reply ← .recvAll MetaReply.packed.size | return none
  if (MetaReply.packed.ofBytes reply).connId ≠ connId then return none
  recvMetadata

/-- `RDMAClient::exchangeMetaData`. -/
def client : Io UInt8 (Option Exchange) := do
  let received ← .closing do
    if !(← x.hello connId) then return none
    recvReply connId
  return some (conclude x.remote true received none)

/-- The talk of the server, once it has the socket of the connection. -/
def answer : Io UInt8 (Bool × Option RdmaBufferAttr) := do
  let some received ← recvMetadata | return (false, none)
  let sent ← sendMetadata (MetaReply.packed.bytes ⟨expected, x.listenPort⟩) x.attr
  return (sent, some received)

/-- `RDMAServer::exchangeMetaData` on the socket of one client; `none` when the socket is closed or
left to the call that expects it. -/
def server : Io UInt8 (Option Exchange) := do
  let some bytes ← .recvAll MetaHello.packed.size | .close (return none)
  let hello := MetaHello.packed.ofBytes bytes
  if hello.connId ≠ expected then return none
  let (sent, received) ← .closing (x.answer expected)
  return some (conclude x.remote sent received (some hello.clientPort))

theorem run_answer (attr : RdmaBufferAttr) (l : List UInt8) :
    (x.answer expected).run (attr.msg.frame ++ l) = some ⟨(true, some attr),
      MetaReply.packed.bytes ⟨expected, x.listenPort⟩ ++ x.attr.msg.frame,
      attr.msg.frame.length⟩ := by
  rw [answer, Io.bind_eq, Io.run_bind (run_recvMetadata attr l)]
  dsimp only
  rw [Io.bind_eq, Io.run_bind (run_sendMetadata _ _ _)]
  simp

theorem run_recvReply (port : UInt16) (attr : RdmaBufferAttr) (l : List UInt8) :
    (recvReply connId).run (MetaReply.packed.bytes ⟨connId, port⟩ ++ attr.msg.frame ++ l) =
      some ⟨some attr, [], MetaReply.packed.size + attr.msg.frame.length⟩ := by
  have hlen := MetaReply.packed.length_bytes ⟨connId, port⟩
  rw [recvReply, Io.bind_eq, List.append_assoc, Io.run_bind (Io.run_recvAll hlen _)]
  simp only [MetaReply.packed.ofBytes_bytes]
  rw [if_neg (by simp), List.drop_left' hlen, run_recvMetadata]
  rfl

end Party

/-- The private data of the connect request. -/
def privateData (connId : UInt64) : List UInt8 := Packed.u64.reversed.bytes connId

/-- The server learns the `conn_id` that it expects from the connect request. -/
theorem connIdOf_privateData (connId : UInt64) :
    connIdOf (some (privateData connId)) = connId.toNat := by
  have hlen : (privateData connId).length = 8 := Packed.u64.reversed.length_bytes connId
  have hlt : connId.toNat < 256 ^ 8 := connId.toNat_lt
  rw [connIdOf, if_pos hlen.ge, List.take_of_length_le hlen.le]
  exact (foldl_reverse_leBytes 8 _).trans (Nat.mod_eq_of_lt hlt)

abbrev Handshake := Net Side Side UInt8 (Option Exchange)

namespace Handshake

variable (connId : UInt64) (party : Side → Party)

/-- The client `a` has connected to the server `b`. -/
def start : Handshake where
  prog
    | .a => (party .a).client connId
    | .b => (party .b).server (UInt64.ofNat (connIdOf (some (privateData connId))))
  read _ := []
  wire _ := []
  closed _ := false

/-- What a side sends. -/
def speech (side : Side) : List UInt8 :=
  (match side with
    | .a => MetaHello.packed.bytes ⟨connId, (party .a).listenPort⟩
    | .b => MetaReply.packed.bytes ⟨connId, (party .b).listenPort⟩) ++ (party side).attr.msg.frame

/-- How the call of a side ends. -/
def outcome : Side → Exchange
  | .a => conclude (party .a).remote true (some (party .b).attr) none
  | .b => conclude (party .b).remote true (some (party .a).attr) (some (party .a).listenPort)

/-- What is left of the client's call when it waits for the answer. -/
def waiting : Io UInt8 (Option Exchange) :=
  (Party.recvReply connId).bind fun received =>
    .close (.ret (some (conclude (party .a).remote true received none)))

/-- The client has said hello. -/
def greeted : Handshake :=
  (start connId party).apply ports .a ⟨waiting connId party, speech connId party .a, 0, false⟩

theorem reach_greeted :
    Reach (Net.step ports) Free (start connId party) (greeted connId party) := by
  have hprog : (start connId party).prog .a = ((party .a).hello connId).bind fun ok =>
      (if !ok then return none else Party.recvReply connId).bind fun received =>
        .close (.ret (some (conclude (party .a).remote true received none))) := by
    show (party .a).client connId = _
    rw [Party.client, Io.bind_eq, Io.closing_bind, Io.bind_eq, Io.bind_assoc]
    rfl
  exact Net.reach_run (P := ports) hprog rfl (run_sendMetadata _ _ _)

theorem length_speech (side : Side) : (speech connId party side).length =
    MetaHello.packed.size + (party side).attr.msg.frame.length := by
  cases side with
  | a => rw [speech, List.length_append, MetaHello.packed.length_bytes]
  | b => rw [speech, List.length_append, MetaReply.packed.length_bytes]; rfl

variable {s : Handshake}

/-- The server takes the hello and the metadata, answers and closes. -/
theorem reach_server (hprog : s.prog .b = (party .b).server connId)
    (hwire : s.wire .b = speech connId party .a) (hopen : s.closed (ports.out .b) = false) :
    Reach (Net.step ports) Free s (s.apply ports .b
      ⟨.ret (some (outcome party .b)), speech connId party .b,
        (speech connId party .a).length, true⟩) := by
  let talk := ((party .b).answer connId).bind fun r => Io.close (.ret (some
    (conclude (party .b).remote r.1 r.2 (some (party .a).listenPort))))
  have hhello : Reach (Net.step ports) Free s
      (s.apply ports .b ⟨talk, [], MetaHello.packed.size, false⟩) := by
    have hrun := Net.reach_run (P := ports) (s := s) (i := .b) (p := .recvAll MetaHello.packed.size)
      hprog hopen
      (by rw [show s.wire (ports.inp .b) = _ from hwire]
          exact Io.run_recvAll (MetaHello.packed.length_bytes _) _)
    simp only [MetaHello.packed.ofBytes_bytes] at hrun
    rw [if_neg (by simp), Io.bind_eq, Io.closing_bind] at hrun
    exact hrun
  have hwire' : (s.apply ports .b ⟨talk, [], MetaHello.packed.size, false⟩).wire (ports.inp .b) =
      (party .a).attr.msg.frame ++ [] := by
    have hdrop : (speech connId party .a).drop MetaHello.packed.size =
        (party .a).attr.msg.frame := List.drop_left' (MetaHello.packed.length_bytes _)
    simp [Net.apply, ports, Side.other, hwire, hdrop]
  have hanswer := Net.reach_run (P := ports) (i := .b)
    (s := s.apply ports .b ⟨talk, [], MetaHello.packed.size, false⟩) (p := (party .b).answer connId)
    Net.apply_prog (by simpa [Net.apply] using hopen)
    (by rw [hwire']; exact (party .b).run_answer connId _ _)
  rw [Net.apply_apply] at hanswer
  have hclose := Net.reach_close (P := ports) (i := .b) (s := s.apply ports .b
    ⟨.close (.ret (some (outcome party .b))), speech connId party .b,
      (speech connId party .a).length, false⟩) Net.apply_prog
  rw [Net.apply_apply] at hclose
  rw [length_speech] at hclose ⊢
  simpa [speech, outcome] using (hhello.trans hanswer).trans hclose

/-- The client takes the answer and closes. -/
theorem reach_client (hprog : s.prog .a = waiting connId party)
    (hwire : s.wire .a = speech connId party .b) (hopen : s.closed (ports.out .a) = false) :
    Reach (Net.step ports) Free s (s.apply ports .a
      ⟨.ret (some (outcome party .a)), [], (speech connId party .b).length, true⟩) := by
  have hwire' : s.wire (ports.inp .a) = speech connId party .b ++ [] := by
    rw [List.append_nil]
    exact hwire
  have hreply := Net.reach_run (P := ports) hprog hopen
    (by rw [hwire']; exact Party.run_recvReply _ _ _ _)
  have hclose := Net.reach_close (P := ports) (i := .a) (s := s.apply ports .a
    ⟨.close (.ret (some (outcome party .a))), [], (speech connId party .b).length, false⟩)
    Net.apply_prog
  rw [Net.apply_apply] at hclose
  rw [length_speech] at hclose ⊢
  simpa using hreply.trans hclose

/-- **One end.** However the streams are cut, every run ends with these outcomes. -/
theorem exists_settles (connId : UInt64) (party : Side → Party) :
    ∃ st, Settles (Net.step ports) (start connId party) st ∧
      ∀ side, st.prog side = .ret (some (outcome party side)) := by
  have hserver : (start connId party).prog .b = (party .b).server connId := by
    show (party .b).server (UInt64.ofNat (connIdOf (some (privateData connId)))) = _
    rw [connIdOf_privateData, UInt64.ofNat_toNat]
  have hgreeted : (greeted connId party).prog .b = (party .b).server connId :=
    (Net.apply_prog_of_ne (by decide)).trans hserver
  have h₂ := reach_server connId party hgreeted
    (by simp [greeted, start, Net.apply, ports, Side.other]) rfl
  have h₃ := reach_client connId party
    (s := (greeted connId party).apply ports .b ⟨.ret (some (outcome party .b)),
      speech connId party .b, (speech connId party .a).length, true⟩) (by rfl)
    (by simp [greeted, start, Net.apply, ports, Side.other])
    (by simp [greeted, start, Net.apply, ports, Side.other])
  refine ⟨_, Net.settles_of_reach ports_private ((reach_greeted connId party).trans (h₂.trans h₃))
    fun side => ?_, fun side => ?_⟩
  · refine Net.unit_of_ret (r := some (outcome party side)) ?_
    cases side <;> rfl
  · cases side <;> rfl

/-- The calls of the two sides succeed both or none, and after a success each side has the other
one's metadata and the server the client's port. -/
def AllOrNothing (connId : UInt64) (party : Side → Party) : Prop :=
  ∃ st c s, Settles (Net.step ports) (start connId party) st ∧
    st.prog .a = .ret (some c) ∧ st.prog .b = .ret (some s) ∧
    (c.status = .success ↔ s.status = .success) ∧
    (c.status = .success → c.remote = (party .b).attr ∧ s.remote = (party .a).attr ∧
      s.clientPort = some (party .a).listenPort)

/-- Each side's result is the validity of the other one's metadata. -/
theorem status_outcome (party : Side → Party) (side : Side) :
    (outcome party side).status = .success ↔ (party side.other).attr.valid = true := by
  cases side <;> simp [outcome, conclude, Side.other]

variable {connId party} in
theorem AllOrNothing.valid_eq (h : AllOrNothing connId party) :
    (party .a).attr.valid = (party .b).attr.valid := by
  obtain ⟨st, c, s, hst, hc, hs, hiff, -⟩ := h
  obtain ⟨f, hf, hprog⟩ := exists_settles connId party
  obtain rfl : st = f := hf.eq_of_final (hst.leads _ .refl) hst.final
  rw [hprog, Io.ret.injEq, Option.some.injEq] at hc hs
  rw [← hc, ← hs, status_outcome, status_outcome] at hiff
  exact Bool.eq_iff_iff.mpr hiff.symm

/-- **All or nothing** it is exactly when both sides' metadata are valid or neither side's. The
status of each side is the validity of the other one's metadata, as the last thing either does is to
check what it has received; and with both valid each has taken over what was sent. -/
theorem exchanged_iff (connId : UInt64) (party : Side → Party) :
    AllOrNothing connId party ↔ (party .a).attr.valid = (party .b).attr.valid := by
  refine ⟨AllOrNothing.valid_eq, fun hvalid => ?_⟩
  obtain ⟨f, hf, hprog⟩ := exists_settles connId party
  refine ⟨f, _, _, hf, hprog .a, hprog .b, ?_, fun hsuccess => ?_⟩
  · rw [status_outcome, status_outcome]
    exact Bool.eq_iff_iff.mp hvalid.symm
  · rw [status_outcome] at hsuccess
    have hserver : (party .a).attr.valid = true := hvalid.trans hsuccess
    simp [outcome, conclude, hserver]

/-- Two processes of which the client has a buffer of 4 GiB. -/
def largeBuffer (side : Side) : Party where
  ptr := 0x7f0000000000
  bufferSize := if side = .a then 0x100000000 else 0x100000
  lkey := 1
  other := ⟨0, 0, 0, 0, 0, 1, fun _ => 0, fun _ => 0, 0⟩
  listenPort := 2025
  remote := ⟨0, 0, 0, 0, 0, 0, fun _ => 0, fun _ => 0, 0⟩

/-- The client succeeds, and the server sees a buffer of length 0. -/
theorem rejected_by_server : ¬ AllOrNothing 7 largeBuffer := fun h =>
  absurd h.valid_eq (by decide)

end Handshake

end HMC.Rdma
