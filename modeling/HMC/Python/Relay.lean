import HMC.Python.Put
import HMC.Rdma.Endpoint

/-!
# From one object to another

`Session.buffer_put_then_put` puts an object into the local buffer and writes it to the buffer of a
peer, which can then read it into an object of its own. `Session.get_then_buffer_get_into` reads
from the buffer of a peer, which has put an object there, and on into an object. Either way the
bytes pass through two buffers, and one RDMA operation takes them from the one to the other. The
layouts, the kinds of memory and the offsets of the two sides have nothing in common; `delivered`
says that the bytes arrive in the logical order in which they were.

Nothing is proved again here: `Put.stored_of_sound` says what is in the first buffer, the checks of
the RDMA endpoint say which range the operation may move and that its length has 32 bits
(`moveBytes_eq_some`), and `GetInto.filled_of_sound` says what becomes of the second buffer.
-/

namespace HMC.IOBuffer

open HMC.Machine HMC.Rdma

/-- A put into the buffer of one session, a get from the buffer of another one, and the endpoint
over which the bytes are moved: `put_remote` of the first session, or `get_remote` of the second. -/
structure Relay where
  put : Put
  get : GetInto
  opcode : Opcode
  config : EndpointConfig
  endpoint : Endpoint
  posted : Bool
  finished : Status

namespace Relay

variable (r : Relay) (bytes mem freed peer peerMem : Bytes)

/-- How many bytes are moved: what `put` has returned, or what the reader asks for. -/
def size (n : ℤ) : ℤ :=
  match r.opcode with
  | .write => n
  | .read => r.get.nbytes

/-- The offset in the buffer of the session that moves the bytes, and that in the other buffer. -/
def ends (srcOff dstOff : ℕ) : ℕ × ℕ :=
  match r.opcode with
  | .write => (srcOff, dstOff)
  | .read => (dstOff, srcOff)

/-- `put_remote` or `get_remote`, with the bytes of the two buffers; `none` is an exception. The
request has 32 bits for the length, and the operation returns when it has been executed. -/
def moveBytes (src dst : Bytes) (size : ℤ) : Option Bytes := do
  let srcOff ← sizeT r.put.offset
  let dstOff ← sizeT r.get.offset
  let size ← sizeT size
  let ends := r.ends srcOff dstOff
  if (r.config.data r.opcode r.endpoint ends.1 ends.2 size r.posted r.finished).1 = .success then
    some (blit dst dstOff (fun k => src (srcOff + k)) (wrap32 size))
  else none

/-- The three steps, in their order: what `put` has returned, and the memory of the reader. -/
def run : Option (ℤ × Bytes) := do
  let (n, bytes') ← r.put.put bytes mem freed
  let peer' ← r.moveBytes bytes' peer (r.size n)
  let mem' ← r.get.getInto peer' peerMem
  return (n, mem')

/-- Every byte that was put and is read has arrived, and the reader has no other changes. -/
structure Delivered (n : ℤ) (mem' : Bytes) : Prop where
  same : ∀ k : ℕ, k < n → k < r.get.nbytes → ∀ a b, r.put.data.address? k = some a →
    r.get.dst.addresses[k]? = some b → mem' b = mem a
  frame : ∀ b ∉ r.get.dst.addresses, mem' b = peerMem b

variable {r : Relay} {bytes mem freed peer peerMem : Bytes}

/-- A blocking operation succeeds only on ranges that pass the checks. -/
theorem inRange_of_data {g : EndpointConfig} {opcode : Opcode} {e : Endpoint}
    {localOff remoteOff size : ℕ} {posted : Bool} {finished : Status}
    (h : (g.data opcode e localOff remoteOff size posted finished).1 = .success) :
    g.inRange localOff remoteOff size = true := by
  rw [EndpointConfig.data] at h
  by_cases hin : g.inRange localOff remoteOff size = false
  · rw [if_pos hin] at h
    cases h
  · simpa using hin

/-- A remote range that passes the checks, and does not wrap, is shorter than 4 GiB. -/
theorem size_lt_of_inRange {g : EndpointConfig} {localOff remoteOff size : ℕ}
    (h : g.inRange localOff remoteOff size = true) (hlen : g.remoteLength < 2 ^ 32)
    (hsum : remoteOff + size < 2 ^ 64) : size < 2 ^ 32 := by
  have hremote := (g.inRange_iff.mp h).2
  rw [wrap64_of_lt hsum] at hremote
  omega

/-- What has been moved. -/
theorem moveBytes_eq_some {src dst dst' : Bytes} {size : ℤ}
    (h : r.moveBytes src dst size = some dst') (hlen : r.config.remoteLength < 2 ^ 32)
    (hsrc : r.put.offset.toNat + size.toNat < 2 ^ 64)
    (hdst : r.get.offset.toNat + size.toNat < 2 ^ 64) :
    dst' = blit dst r.get.offset.toNat (fun k => src (r.put.offset.toNat + k)) size.toNat := by
  obtain ⟨srcOff, hsrcOff, h⟩ := Option.bind_eq_some_iff.mp h
  obtain ⟨dstOff, hdstOff, h⟩ := Option.bind_eq_some_iff.mp h
  obtain ⟨k, hk, h⟩ := Option.bind_eq_some_iff.mp h
  obtain ⟨-, rfl⟩ := sizeT_eq_some.mp hsrcOff
  obtain ⟨-, rfl⟩ := sizeT_eq_some.mp hdstOff
  obtain ⟨-, rfl⟩ := sizeT_eq_some.mp hk
  dsimp only at h
  split_ifs at h with hdata
  have hlt : size.toNat < 2 ^ 32 := by
    refine size_lt_of_inRange (inRange_of_data hdata) hlen ?_
    rw [ends]
    split
    · exact hdst
    · exact hsrc
  rw [wrap32_of_lt hlt] at h
  exact (Option.some.inj h).symm

/-- **From one object to another.** Between two sound calls, the bytes that are put are the bytes
that are read, in logical order. If the numbers of bytes that are put and read differ, this is about
those that are in both. -/
theorem delivered (r : Relay) (hput : ∀ n p, r.put.Takes n p → r.put.Sound n p)
    (hget : ∀ p, r.get.Takes p → r.get.Sound)
    (hsize : r.put.core.bufferSize + r.get.core.bufferSize < 2 ^ 64)
    (hlen : r.config.remoteLength < 2 ^ 32) {n : ℤ} {mem' : Bytes}
    (h : r.run bytes mem freed peer peerMem = some (n, mem')) :
    r.Delivered mem peerMem n mem' := by
  obtain ⟨⟨n', bytes'⟩, hbytes', h⟩ := Option.bind_eq_some_iff.mp h
  obtain ⟨peer', hpeer', h⟩ := Option.bind_eq_some_iff.mp h
  obtain ⟨mem'', hmem', h⟩ := Option.bind_eq_some_iff.mp h
  cases h
  obtain ⟨m, p, htakes, hr⟩ := Put.put_eq_some.mp hbytes'
  cases hr
  obtain ⟨q, hreads, rfl⟩ := GetInto.getInto_eq_some.mp hmem'
  have hstored : r.put.Stored bytes mem m (r.put.written bytes mem freed m p) :=
    Put.stored_of_sound htakes (hput m p htakes)
  have hfilled : r.get.Filled peer' peerMem (r.get.written peer' peerMem q) :=
    GetInto.filled_of_sound hreads (hget q hreads)
  have hrange := hstored.range
  have hrange' := hfilled.range
  -- the count is one of the two, each of which fits into its buffer
  have hcount : (r.size m).toNat = m ∨ (r.size m).toNat = r.get.nbytes := by
    rw [size]
    split
    · exact .inl (Int.toNat_natCast m)
    · exact .inr (Int.toNat_natCast _)
  have hpeer := moveBytes_eq_some hpeer' hlen (by omega) (by omega)
  refine ⟨fun k hk hk' a b ha hb => ?_, hfilled.frame⟩
  rw [hfilled.filled k hk' b hb, hpeer, blit_apply_add (by omega)]
  exact hstored.stored k (by omega) a ha

/-- A transposed matrix of two rows of two floats is put, written to the peer, and read into a
matrix that is not transposed. -/
def transposed : Relay where
  put := {
    core := ⟨64, .cpu⟩
    fits := by decide
    data := .object ⟨⟨.numpy, 0, 4, [⟨2, 4⟩, ⟨2, 8⟩], false⟩, false, by decide⟩
    nbytes := none
    offset := 8
    device := .none
    numpy := true
    supported := true
    copied := true
    fresh := 256 }
  get := {
    core := ⟨64, .cpu⟩
    fits := by decide
    dst := ⟨.numpy, 32, 4, [⟨2, 8⟩, ⟨2, 4⟩], true⟩
    nbytes := 16
    offset := 24
    device := .none
    numpy := true
    supported := true
    copied := true
    fresh := 256 }
  opcode := .write
  config := ⟨64, 64, 1, 16⟩
  endpoint := ⟨⟨0, 0⟩, ⟨0, fun _ => []⟩, []⟩
  posted := true
  finished := .success

theorem delivered_transposed : ∃ mem',
    transposed.run (fun _ => 0) UInt8.ofNat (fun _ => 0) (fun _ => 0) (fun _ => 0) =
      some (16, mem') ∧ transposed.Delivered UInt8.ofNat (fun _ => 0) 16 mem' := by
  obtain ⟨⟨n, mem'⟩, hrun⟩ := Option.isSome_iff_exists.mp (show (transposed.run (fun _ => 0)
    UInt8.ofNat (fun _ => 0) (fun _ => 0) fun _ => 0).isSome = true from rfl)
  obtain rfl : 16 = n := congrArg Prod.fst (Option.some.inj hrun)
  refine ⟨mem', hrun, delivered transposed ?_ ?_ (by decide) (by decide) hrun⟩
  · intro n p h
    cases p with
    | view s =>
      obtain ⟨hdata, -, -, -, hn, -⟩ := h
      cases hdata
      obtain rfl : 16 = n := Int.ofNat_inj.mp hn
      exact ⟨by decide, .inl (by decide), fun _ => by decide⟩
    | cuda s =>
      obtain ⟨hdata, -, hkind, -⟩ := h
      cases hdata
      cases hkind
    | pointer ptr => cases h.1
  · intro p _
    exact ⟨by decide, .inr ⟨by decide, by decide⟩⟩

end Relay

end HMC.IOBuffer
