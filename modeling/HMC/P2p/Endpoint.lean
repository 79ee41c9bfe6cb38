import HMC.Core.Basic

/-!
# Copies between devices

A `P2pEndpoint` copies between its own buffer and the mapped buffer of a device of the same
host. It knows the two pointers and not the sizes behind them, so nothing is checked but that
the pointers and the transport are there. Reads and writes differ in the direction only.

The copy itself is a parameter, as it is a call of the device's runtime; what is handed to it is
`Endpoint.issued`. The non-blocking operations make the same copy and give out the handle `0`, so
there is nothing to wait for and nothing that `inflight_ep_` would have to know.
-/

namespace HMC.P2p

/-- A `P2pEndpoint`: whether `transport_`, `local_ptr_` and `peer_ptr_` are there. -/
structure Endpoint where
  transport : Bool
  localPtr : Bool
  peerPtr : Bool
  deriving DecidableEq

namespace Endpoint

variable (e : Endpoint)

/-- The guard of every copy. -/
def usable : Bool := e.transport && e.localPtr && e.peerPtr

/-- What `writeData` and `readData` hand to `transport_->copy`. -/
def issued (localOff remoteOff size : ℕ) : Option Transfer :=
  if e.usable then some ⟨localOff, remoteOff, size⟩ else none

/-- The body of `writeData` and `readData`; `copy` is the outcome of `transport_->copy`. -/
def data (localOff remoteOff size : ℕ) (copy : Transfer → Status) : Status :=
  match e.issued localOff remoteOff size with
  | none => .error
  | some t => copy t

/-- `P2pEndpoint::writeDataNB` and `readDataNB`: the blocking copy, and `*wr_id`. -/
def dataNB (localOff remoteOff size : ℕ) (copy : Transfer → Status) : Status × ℕ :=
  (e.data localOff remoteOff size copy, 0)

theorem issued_eq_some {localOff remoteOff size : ℕ} {t : Transfer} :
    e.issued localOff remoteOff size = some t ↔
      e.usable = true ∧ t = ⟨localOff, remoteOff, size⟩ := by
  unfold issued
  split_ifs with h
  · simp [h, eq_comm]
  · simp [h]

end Endpoint

/-- `Communicator::putP2p` and `getP2p` on the entry that `p2p_endpoint_map_` has for the peer,
and in it the endpoint. -/
def dataP2p (entry : Option (Option Endpoint)) (localOff remoteOff size : ℕ)
    (copy : Transfer → Status) : Status :=
  match entry with
  | none => .notFound
  | some none => .error
  | some (some e) => e.data localOff remoteOff size copy

end HMC.P2p
