import Mathlib.Algebra.GroupWithZero.Nat
import HMC.Ctrl.Link
import HMC.Machine.Endian
import HMC.Machine.Stream

/-!
# Control messages

A message is a frame: a `CtrlMsgHeader` in native byte order, followed by the payload. `send` writes
the two parts with a loop each, `recv` reads the header, refuses a HELLO and reads as many bytes as
the header says; the typed calls look at the type and the length of what `recv` returns.

Each call is a program on a byte stream, and `SendCall.run_program` and `RecvCall.run_program` say
what it does there: write one frame, or take the frame at the front and make an `outcome` of it.

Payloads are lists of bytes, also those of numbers and of structures, which both processes have in
the same representation. The header has the length in 32 bits, so a `CtrlMsg` carries the bound on
its payload. Of a refused message the receiver takes the header only; `taken` is that length, and as
long as each message is taken whole, `n` calls take the first `n` frames (`run_recvCalls`).
-/

namespace HMC.Ctrl

open HMC.Machine

/-! ### Headers -/

/-- `CTRL_INT`. -/
def ctrlInt : ℕ := 1

/-- `sizeof(CtrlMsgHeader)`. -/
def sizeofHeader : ℕ := 8

namespace CtrlMsgHeader

/-- The object representation of a header. -/
def bytes (hdr : CtrlMsgHeader) : List UInt8 :=
  leBytes 2 hdr.type ++ leBytes 2 hdr.flags ++ leBytes 4 hdr.length

def ofBytes (bytes : List UInt8) : CtrlMsgHeader where
  type := leNat (bytes.take 2)
  flags := leNat ((bytes.drop 2).take 2)
  length := leNat ((bytes.drop 4).take 4)

/-- The check of `recv`. -/
def refused (hdr : CtrlMsgHeader) : Bool :=
  hdr.type == ctrlStruct && hdr.flags &&& helloFlag != 0

@[simp] theorem length_bytes (hdr : CtrlMsgHeader) : hdr.bytes.length = sizeofHeader := by
  simp [bytes, sizeofHeader]

/-- The fields have the widths of their types. -/
structure Fits (hdr : CtrlMsgHeader) : Prop where
  type : hdr.type < 2 ^ 16
  flags : hdr.flags < 2 ^ 16
  length : hdr.length < 2 ^ 32

theorem ofBytes_bytes {hdr : CtrlMsgHeader} (h : hdr.Fits) : ofBytes hdr.bytes = hdr := by
  obtain ⟨type, flags, length⟩ := hdr
  simp only [ofBytes, bytes, mk.injEq]
  refine ⟨?_, ?_, ?_⟩
  · rw [List.append_assoc, List.take_left' (length_leBytes _ _), leNat_leBytes_of_lt h.type]
  · rw [List.append_assoc, List.drop_left' (length_leBytes _ _),
      List.take_left' (length_leBytes _ _), leNat_leBytes_of_lt h.flags]
  · rw [List.drop_left' (by simp), List.take_of_length_le (by simp),
      leNat_leBytes_of_lt h.length]

end CtrlMsgHeader

/-! ### Messages -/

/-- What a caller sends. -/
structure CtrlMsg where
  type : UInt16
  flags : UInt16
  payload : List UInt8
  short : payload.length < 2 ^ 32

namespace CtrlMsg

variable (m : CtrlMsg)

def header : CtrlMsgHeader := ⟨m.type.toNat, m.flags.toNat, m.payload.length⟩

/-- The bytes of a message. -/
def frame : List UInt8 := m.header.bytes ++ m.payload

theorem header_fits : m.header.Fits := ⟨m.type.toNat_lt, m.flags.toNat_lt, m.short⟩

/-- How much of it the receiver takes: of a refused message only the header. -/
def taken : ℕ := if m.header.refused then sizeofHeader else m.frame.length

/-- The payload, if the message is what a typed receiver expects. -/
def payloadAs (type size : ℕ) : Option (List UInt8) :=
  if m.header.refused = false ∧ m.type.toNat = type ∧ m.payload.length = size then
    some m.payload
  else none

@[simp] theorem length_frame : m.frame.length = sizeofHeader + m.payload.length := by simp [frame]

end CtrlMsg

namespace Socket

/-! ### The calls -/

/-- `sendHello_`. -/
def sendHello (selfId : ℕ) : Io UInt8 Bool := do
  if !(← .sendAll (Ctrl.sendHello selfId).hdr.bytes) then return false
  .sendAll (leBytes sizeofCtrlId selfId)

/-- The reading half of `recvHelloAndBind_`: the id of the peer. -/
def recvHello : Io UInt8 (Option ℕ) := do
  let some hdr ← .recvAll sizeofHeader | return none
  if !(CtrlMsgHeader.ofBytes hdr).isHello then return none
  let some peerId ← .recvAll sizeofCtrlId | return none
  return some (leNat peerId)

/-- `CtrlSocketManager::send` of a payload of `len` bytes; `none` is a null pointer. -/
def send (type : ℕ) (payload : Option (List UInt8)) (len flags : ℕ) : Io UInt8 Bool := do
  if !(← .sendAll (CtrlMsgHeader.bytes ⟨type, flags, wrap32 len⟩)) then return false
  match payload with
  | none => return true
  | some payload => if 0 < len then .sendAll (payload.take len) else return true

/-- `CtrlSocketManager::recv`. -/
def recv : Io UInt8 (Option (CtrlMsgHeader × List UInt8)) := do
  let some bytes ← .recvAll sizeofHeader | return none
  let hdr := CtrlMsgHeader.ofBytes bytes
  if hdr.refused then return none
  if hdr.length = 0 then return some (hdr, [])
  let some payload ← .recvAll hdr.length | return none
  return some (hdr, payload)

/-- The typed receivers: the payload of a message of the expected type and size. -/
def recvAs (type size : ℕ) : Io UInt8 (Option (List UInt8)) := do
  let some (hdr, payload) ← recv | return none
  if hdr.type ≠ type ∨ payload.length ≠ size then return none
  return some payload

/-- The object representation of an `int`. -/
def intBytes (v : Int32) : List UInt8 := leBytes 4 v.toUInt32.toNat

/-- The object representation of a `uint64_t`. -/
def u64Bytes (v : UInt64) : List UInt8 := leBytes 8 v.toNat

def sendInt (v : Int32) : Io UInt8 Bool := send ctrlInt (some (intBytes v)) 4 0

def recvInt : Io UInt8 (Option Int32) := do
  return (← recvAs ctrlInt 4).map fun payload => (UInt32.ofNat (leNat payload)).toInt32

/-- Of the type of an `int`: the payload size tells the two apart. -/
def sendU64 (v : UInt64) : Io UInt8 Bool := send ctrlInt (some (u64Bytes v)) 8 0

def recvU64 : Io UInt8 (Option UInt64) := do
  return (← recvAs ctrlInt 8).map fun payload => UInt64.ofNat (leNat payload)

/-- An object of a trivially copyable type is its object representation. -/
def sendStruct (obj : List UInt8) : Io UInt8 Bool := send ctrlStruct (some obj) obj.length 0

def recvStruct (size : ℕ) : Io UInt8 (Option (List UInt8)) := recvAs ctrlStruct size

/-! ### What they do on a stream -/

theorem run_sendHello (selfId : ℕ) (l : List UInt8) : (sendHello selfId).run l =
    some ⟨true, (Ctrl.sendHello selfId).hdr.bytes ++ leBytes sizeofCtrlId selfId, 0⟩ := by
  rw [sendHello, Io.bind_eq, Io.run_bind (Io.run_sendAll _ _)]
  simp [Io.run_sendAll]

theorem run_recvHello {selfId : ℕ} (hid : selfId < 2 ^ 32) (l : List UInt8) :
    recvHello.run ((Ctrl.sendHello selfId).hdr.bytes ++ leBytes sizeofCtrlId selfId ++ l) =
      some ⟨some selfId, [], sizeofHeader + sizeofCtrlId⟩ := by
  have hfits : (Ctrl.sendHello selfId).hdr.Fits :=
    ⟨by simp [Ctrl.sendHello, ctrlStruct], by simp [Ctrl.sendHello, helloFlag],
      by simp [Ctrl.sendHello, sizeofCtrlId]⟩
  rw [recvHello, Io.bind_eq, List.append_assoc,
    Io.run_bind (Io.run_recvAll (CtrlMsgHeader.length_bytes _) _)]
  simp only [CtrlMsgHeader.ofBytes_bytes hfits, sendHello_isHello]
  rw [if_neg (by simp), Io.bind_eq, List.drop_left' (CtrlMsgHeader.length_bytes _),
    Io.run_bind (Io.run_recvAll (length_leBytes _ _) _)]
  simp [leNat_leBytes_of_lt (k := sizeofCtrlId) hid]

theorem run_send (type flags : ℕ) {payload : List UInt8} (hshort : payload.length < 2 ^ 32)
    (l : List UInt8) : (send type (some payload) payload.length flags).run l =
      some ⟨true, CtrlMsgHeader.bytes ⟨type, flags, payload.length⟩ ++ payload, 0⟩ := by
  rw [send, wrap32_of_lt hshort, Io.bind_eq, Io.run_bind (Io.run_sendAll _ _)]
  by_cases hlen : 0 < payload.length
  · simp [hlen, Io.run_sendAll]
  · have hnil : payload = [] := List.eq_nil_of_length_eq_zero (by omega)
    simp [hnil]

theorem run_recv (m : CtrlMsg) (l : List UInt8) : recv.run (m.frame ++ l) =
    some ⟨if m.header.refused then none else some (m.header, m.payload), [], m.taken⟩ := by
  rw [recv, Io.bind_eq, CtrlMsg.taken, CtrlMsg.frame, List.append_assoc,
    Io.run_bind (Io.run_recvAll m.header.length_bytes _)]
  simp only [CtrlMsgHeader.ofBytes_bytes m.header_fits]
  cases m.header.refused with
  | true => simp
  | false =>
    by_cases hlen : m.header.length = 0
    · have hnil : m.payload = [] := List.eq_nil_of_length_eq_zero hlen
      simp [hlen, hnil]
    · rw [if_neg (by simp), if_neg hlen, Io.bind_eq, List.drop_left' m.header.length_bytes,
        Io.run_bind (Io.run_recvAll (n := m.header.length) rfl l)]
      simp [CtrlMsg.header]

theorem run_recvAs (type size : ℕ) (m : CtrlMsg) (l : List UInt8) :
    (recvAs type size).run (m.frame ++ l) = some ⟨m.payloadAs type size, [], m.taken⟩ := by
  rw [recvAs, Io.bind_eq, Io.run_bind (run_recv m l), CtrlMsg.payloadAs]
  cases m.header.refused with
  | true => simp
  | false =>
    by_cases h : m.type.toNat = type ∧ m.payload.length = size
    · simp [h, CtrlMsg.header]
    · have hor : m.type.toNat ≠ type ∨ m.payload.length ≠ size := not_and_or.mp h
      simp [h, hor, CtrlMsg.header]

/-- The value that an `int` message holds. -/
theorem intBytes_ofNat {payload : List UInt8} (h : payload.length = 4) :
    intBytes (UInt32.ofNat (leNat payload)).toInt32 = payload := by
  have hlt := leNat_lt payload
  rw [h] at hlt
  have hword : (UInt32.ofNat (leNat payload)).toInt32.toUInt32.toNat = leNat payload :=
    UInt32.toNat_ofNat_of_lt' hlt
  rw [intBytes, hword, ← h, leBytes_leNat]

theorem u64Bytes_ofNat {payload : List UInt8} (h : payload.length = 8) :
    u64Bytes (UInt64.ofNat (leNat payload)) = payload := by
  have hlt := leNat_lt payload
  rw [h] at hlt
  rw [u64Bytes, UInt64.toNat_ofNat_of_lt' hlt, ← h, leBytes_leNat]

theorem intBytes_injective : Function.Injective intBytes := by
  intro v w h
  have hnat := congrArg leNat h
  rw [intBytes, intBytes, leNat_leBytes_of_lt v.toUInt32.toNat_lt,
    leNat_leBytes_of_lt w.toUInt32.toNat_lt] at hnat
  exact congrArg UInt32.toInt32 (UInt32.toNat_inj.mp hnat)

end Socket

/-! ### Sequences of calls -/

/-- The sending calls. -/
inductive SendCall
  | send (m : CtrlMsg)
  | sendInt (v : Int32)
  | sendU64 (v : UInt64)
  | sendStruct (obj : List UInt8) (short : obj.length < 2 ^ 32)

/-- The receiving calls. -/
inductive RecvCall
  | recv
  | recvInt
  | recvU64
  | recvStruct (size : ℕ)
  deriving DecidableEq

/-- What a call returns. -/
inductive Outcome
  | sent (ok : Bool)
  | msg (r : Option (CtrlMsgHeader × List UInt8))
  | int (r : Option Int32)
  | u64 (r : Option UInt64)
  | struct (r : Option (List UInt8))
  deriving DecidableEq

/-- The call has returned false. -/
def Outcome.failed : Outcome → Bool
  | .sent ok => !ok
  | .msg r => r.isNone
  | .int r => r.isNone
  | .u64 r => r.isNone
  | .struct r => r.isNone

namespace SendCall

def program : SendCall → Io UInt8 Bool
  | .send m => Socket.send m.type.toNat (some m.payload) m.payload.length m.flags.toNat
  | .sendInt v => Socket.sendInt v
  | .sendU64 v => Socket.sendU64 v
  | .sendStruct obj _ => Socket.sendStruct obj

/-- The message that a call sends. -/
def msg : SendCall → CtrlMsg
  | .send m => m
  | .sendInt v => ⟨1, 0, Socket.intBytes v, by simp [Socket.intBytes]⟩
  | .sendU64 v => ⟨1, 0, Socket.u64Bytes v, by simp [Socket.u64Bytes]⟩
  | .sendStruct obj short => ⟨2, 0, obj, short⟩

/-- Every typed call is a `send`. -/
theorem program_eq (c : SendCall) : c.program =
    Socket.send c.msg.type.toNat (some c.msg.payload) c.msg.payload.length c.msg.flags.toNat := by
  cases c with
  | send m => rfl
  | sendInt v => simp [program, msg, Socket.sendInt, Socket.intBytes, ctrlInt]
  | sendU64 v => simp [program, msg, Socket.sendU64, Socket.u64Bytes, ctrlInt]
  | sendStruct obj short => rfl

theorem run_program (c : SendCall) (l : List UInt8) :
    c.program.run l = some ⟨true, c.msg.frame, 0⟩ := by
  rw [c.program_eq]
  exact Socket.run_send _ _ c.msg.short l

end SendCall

namespace RecvCall

def program : RecvCall → Io UInt8 Outcome
  | .recv => do return .msg (← Socket.recv)
  | .recvInt => do return .int (← Socket.recvInt)
  | .recvU64 => do return .u64 (← Socket.recvU64)
  | .recvStruct size => do return .struct (← Socket.recvStruct size)

/-- What a call makes of a message that it finds at the front of the stream. -/
def outcome (c : RecvCall) (m : CtrlMsg) : Outcome :=
  match c with
  | .recv => .msg (if m.header.refused then none else some (m.header, m.payload))
  | .recvInt =>
    .int ((m.payloadAs ctrlInt 4).map fun payload => (UInt32.ofNat (leNat payload)).toInt32)
  | .recvU64 => .u64 ((m.payloadAs ctrlInt 8).map fun payload => UInt64.ofNat (leNat payload))
  | .recvStruct size => .struct (m.payloadAs ctrlStruct size)

theorem run_program (c : RecvCall) (m : CtrlMsg) (l : List UInt8) :
    c.program.run (m.frame ++ l) = some ⟨c.outcome m, [], m.taken⟩ := by
  cases c with
  | recv => exact Io.run_map (Socket.run_recv m l) _
  | recvInt => exact Io.run_map (Io.run_map (Socket.run_recvAs ctrlInt 4 m l) _) _
  | recvU64 => exact Io.run_map (Io.run_map (Socket.run_recvAs ctrlInt 8 m l) _) _
  | recvStruct size => exact Io.run_map (Socket.run_recvAs ctrlStruct size m l) _

end RecvCall

/-- One call after another. -/
def sendCalls : List SendCall → Io UInt8 (List Outcome)
  | [] => return []
  | c :: calls => do
    let ok ← c.program
    return .sent ok :: (← sendCalls calls)

def recvCalls : List RecvCall → Io UInt8 (List Outcome)
  | [] => return []
  | c :: calls => do
    let r ← c.program
    return r :: (← recvCalls calls)

/-- The bytes of several messages. -/
def frames (ms : List CtrlMsg) : List UInt8 := (ms.map (·.frame)).flatten

theorem length_frames (ms : List CtrlMsg) :
    (frames ms).length = (ms.map (·.frame.length)).sum := by
  rw [frames, List.length_flatten, List.map_map]
  rfl

theorem frames_append (ms ms' : List CtrlMsg) : frames (ms ++ ms') = frames ms ++ frames ms' := by
  rw [frames, List.map_append, List.flatten_append]
  rfl

theorem take_frames (ms : List CtrlMsg) (n : ℕ) :
    (frames ms).take ((ms.take n).map (·.frame.length)).sum = frames (ms.take n) := by
  have hsplit : frames ms = frames (ms.take n) ++ frames (ms.drop n) := by
    rw [← frames_append, List.take_append_drop]
  rw [hsplit, List.take_left' (length_frames _)]

/-- Calls that read every message to its end take whole frames. -/
theorem sum_taken {ms : List CtrlMsg} (h : ∀ m ∈ ms, m.taken = m.frame.length) :
    (ms.map (·.taken)).sum = (frames ms).length := by
  rw [length_frames, List.map_congr_left h]

theorem take_taken {ms : List CtrlMsg} {n : ℕ} (h : ∀ m ∈ ms.take n, m.taken = m.frame.length) :
    (frames ms).take ((ms.take n).map (·.taken)).sum = frames (ms.take n) := by
  rw [List.map_congr_left h, take_frames]

theorem run_sendCalls (calls : List SendCall) (l : List UInt8) : (sendCalls calls).run l =
    some ⟨calls.map fun _ => .sent true, frames (calls.map (·.msg)), 0⟩ := by
  induction calls with
  | nil => rfl
  | cons c calls ih =>
    have hrest := Io.run_map ih fun os => Outcome.sent true :: os
    rw [sendCalls, Io.bind_eq, Io.run_bind (c.run_program l)]
    simp [frames, hrest]

/-- While every frame but the last is read to its end, the calls take one message each. -/
theorem run_recvCalls {calls : List RecvCall} {ms : List CtrlMsg}
    (hlen : calls.length ≤ ms.length)
    (hall : ∀ m ∈ ms.take (calls.length - 1), m.taken = m.frame.length) :
    (recvCalls calls).run (frames ms) =
      some ⟨List.zipWith (fun c m => c.outcome m) calls ms, [],
        ((ms.take calls.length).map (·.taken)).sum⟩ := by
  induction calls generalizing ms with
  | nil => simp [recvCalls]
  | cons c calls ih =>
    cases ms with
    | nil => cases hlen
    | cons m ms =>
      have hcons : frames (m :: ms) = m.frame ++ frames ms := by simp [frames]
      rw [recvCalls, Io.bind_eq, hcons, Io.run_bind (c.run_program m _)]
      cases calls with
      | nil => simp [recvCalls]
      | cons c' calls =>
        rw [List.length_cons, Nat.add_sub_cancel, List.length_cons, List.take_succ_cons] at hall
        have hm := hall m List.mem_cons_self
        have hrest := ih (Nat.le_of_succ_le_succ hlen) fun x hx =>
          hall x (List.mem_cons_of_mem _ hx)
        rw [hm, List.drop_left' rfl, Io.bind_eq, Io.run_bind hrest]
        simp [hm]

end HMC.Ctrl
