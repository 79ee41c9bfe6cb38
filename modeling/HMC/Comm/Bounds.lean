import Mathlib.Data.List.Basic
import HMC.P2p.Endpoint
import HMC.Rdma.Issued
import HMC.Ucx.Endpoint

/-!
# What one-sided calls may touch

The checks in front of a one-sided transfer. An RDMA and a UCX endpoint compare `size_t` sums
with the two buffer sizes, an RDMA pipeline does so for the request and again for each chunk,
and a P2P endpoint does not check. `Access` is a call of one of these functions, `Issues` what
it may hand to its transport, over all answers of that transport.

`inside_iff` says when all of it lies inside the two buffers: when no sum of a check that the
call passes wraps around, and for a P2P endpoint when the caller asks for nothing else.

A check compares a sum modulo `2 ^ 64` with a size below `2 ^ 64`. If it passes and the sum did not
wrap, the range is inside; if it passes and the sum did wrap, the offset is beyond the size
(`Transfer.inside_iff_exact`). For RDMA the size of the peer is the advertised one, which is at most
the real one; for a pipeline the condition is asked of each chunk up to the first one whose check
fails, as those are what it hands over (`issues_iff`).
-/

namespace HMC.Comm

open HMC.Machine

/-- A one-sided call. Reads and writes, blocking or not, hand over the same (`nic_dataNBInternal`,
`nic_data`, `dataNB_success_iff`), so a transport has one constructor for them. -/
inductive Access
  | rdma (g : Rdma.EndpointConfig) (localOff remoteOff size : ℕ)
  | rdmaPipeline (c : Rdma.PipelineCall) (e : Rdma.Endpoint)
  | ucx (e : Ucx.Endpoint) (localOff remoteOff size : ℕ)
  | p2p (e : P2p.Endpoint) (localOff remoteOff size : ℕ)

namespace Access

/-- The call may hand over `t`. -/
def Issues : Access → Transfer → Prop
  | .rdma g localOff remoteOff size, t => ∃ posted, g.issued localOff remoteOff size posted = some t
  | .rdmaPipeline c e, t =>
    ∃ w, Reach (logStep c.step c.issues) (onState Free) ⟨c.enter e, []⟩ w ∧ t ∈ w.log
  | .ucx e localOff remoteOff size, t => ∃ nbx, e.issued localOff remoteOff size nbx = some t
  | .p2p e localOff remoteOff size, t => e.issued localOff remoteOff size = some t

/-- The endpoint is connected between buffers of these sizes. The metadata of RDMA carry the
peer's size in 32 bits; a P2P endpoint knows neither size. -/
def Connected (localSize peerSize : ℕ) : Access → Prop
  | .rdma g _ _ _ => g.bufferSize = localSize ∧ g.remoteLength = wrap32 peerSize
  | .rdmaPipeline c _ => c.config.bufferSize = localSize ∧ c.config.remoteLength = wrap32 peerSize
  | .ucx e _ _ _ => e.localSize = localSize ∧ e.remoteSize = peerSize
  | .p2p _ _ _ _ => True

/-- No check that the call passes is passed by a sum that wrapped around. -/
def Sound (localSize peerSize : ℕ) : Access → Prop
  | .rdma g localOff remoteOff size =>
    g.inRange localOff remoteOff size = true → Transfer.Exact ⟨localOff, remoteOff, size⟩
  | .rdmaPipeline c _ =>
    c.config.inRange c.localOff c.remoteOff c.size = true →
      ∀ i < c.chunks, (∀ j ≤ i, c.chunkInRange j = true) → (c.chunk i).Exact
  | .ucx e localOff remoteOff size =>
    e.ready = true →
      Transfer.Checked ⟨localOff, remoteOff, size⟩ e.localSize e.remoteSize →
        Transfer.Exact ⟨localOff, remoteOff, size⟩
  | .p2p e localOff remoteOff size =>
    e.usable = true → Transfer.Inside ⟨localOff, remoteOff, size⟩ localSize peerSize

variable {localSize peerSize : ℕ}

/-- A transfer that passed the checks of an RDMA endpoint. -/
theorem inside_iff_exact_of_rdma {g : Rdma.EndpointConfig} {t : Transfer}
    (hlocal : localSize < 2 ^ 64) (hpeer : peerSize < 2 ^ 64)
    (hc : g.bufferSize = localSize ∧ g.remoteLength = wrap32 peerSize)
    (ht : t.Checked g.bufferSize g.remoteLength) : t.Inside localSize peerSize ↔ t.Exact := by
  rw [hc.1, hc.2] at ht
  exact Transfer.inside_iff_exact ht hlocal hpeer (Nat.mod_le _ _)

/-- **When one-sided calls stay inside both buffers**: exactly when no check that the call passes is
passed by a sum that wrapped, and for P2P, which checks nothing, when the ranges that are asked for
lie inside. One case for each transport, by what it hands over. -/
theorem inside_iff (hlocal : localSize < 2 ^ 64) (hpeer : peerSize < 2 ^ 64) {a : Access}
    (hc : a.Connected localSize peerSize) :
    (∀ t, a.Issues t → t.Inside localSize peerSize) ↔ a.Sound localSize peerSize := by
  cases a with
  | rdma g localOff remoteOff size =>
    constructor
    · intro h hin
      have ht := g.inRange_iff.mp hin
      exact (inside_iff_exact_of_rdma hlocal hpeer hc ht).mp
        (h _ ⟨true, g.issued_eq_some.mpr ⟨rfl, ht, rfl⟩⟩)
    · rintro h t ⟨posted, ht⟩
      obtain ⟨rfl, ht, -⟩ := g.issued_eq_some.mp ht
      exact (inside_iff_exact_of_rdma hlocal hpeer hc ht).mpr (h (g.inRange_iff.mpr ht))
  | rdmaPipeline c e =>
    constructor
    · intro h hreq i hi hin
      refine (inside_iff_exact_of_rdma hlocal hpeer hc
        (Rdma.PipelineCall.chunkInRange_iff.mp (hin i (Nat.le_refl i)))).mp (h _ ?_)
      exact Rdma.PipelineCall.issues_iff.mpr ⟨hreq, i, hi, hin, rfl⟩
    · intro h t ht
      obtain ⟨hreq, i, hi, hin, rfl⟩ := Rdma.PipelineCall.issues_iff.mp ht
      exact (inside_iff_exact_of_rdma hlocal hpeer hc
        (Rdma.PipelineCall.chunkInRange_iff.mp (hin i (Nat.le_refl i)))).mpr (h hreq i hi hin)
  | ucx e localOff remoteOff size =>
    obtain ⟨rfl, rfl⟩ := hc
    constructor
    · intro h hready ht
      exact (Transfer.inside_iff_exact ht hlocal hpeer (Nat.le_refl _)).mp
        (h _ ⟨.immediate, e.issued_eq_some.mpr ⟨hready, rfl, ht, by simp⟩⟩)
    · rintro h t ⟨nbx, ht⟩
      obtain ⟨hready, rfl, ht, -⟩ := e.issued_eq_some.mp ht
      exact (Transfer.inside_iff_exact ht hlocal hpeer (Nat.le_refl _)).mpr (h hready ht)
  | p2p e localOff remoteOff size =>
    constructor
    · intro h husable
      exact h _ (e.issued_eq_some.mpr ⟨husable, rfl⟩)
    · intro h t ht
      obtain ⟨husable, rfl⟩ := e.issued_eq_some.mp ht
      exact h husable

/-- An RDMA endpoint between two buffers of 16 bytes. -/
def short : Rdma.EndpointConfig where
  bufferSize := 16
  remoteLength := 16
  numQps := 1
  maxWr := 16

theorem inside_short : (Access.rdma short 0 8 8).Connected 16 16 ∧
    ∀ t, (Access.rdma short 0 8 8).Issues t → t.Inside 16 16 :=
  ⟨⟨rfl, rfl⟩, (inside_iff (a := .rdma short 0 8 8) (by decide) (by decide) ⟨rfl, rfl⟩).mpr
    fun _ => by decide⟩

/-- **Sums that wrap around.** One byte at the last `size_t` offset passes the checks of RDMA and
of UCX, and P2P takes any range. -/
theorem not_inside_of_wrap :
    [Access.rdma short (2 ^ 64 - 1) 0 1, .ucx ⟨true, 16, 16, 0, ∅⟩ (2 ^ 64 - 1) 0 1,
      .p2p ⟨true, true, true⟩ 16 0 1].Forall fun a =>
      a.Connected 16 16 ∧ ¬ ∀ t, a.Issues t → t.Inside 16 16 := by
  refine ⟨⟨⟨rfl, rfl⟩, fun h => ?_⟩, ⟨⟨rfl, rfl⟩, fun h => ?_⟩, ⟨trivial, fun h => ?_⟩⟩
  · exact absurd (h ⟨2 ^ 64 - 1, 0, 1⟩ ⟨true, by decide⟩) (by decide)
  · exact absurd (h ⟨2 ^ 64 - 1, 0, 1⟩ ⟨.immediate, by decide⟩) (by decide)
  · exact absurd (h ⟨16, 0, 1⟩ rfl) (by decide)

end Access

end HMC.Comm
