import Mathlib.Data.Finset.Basic
import HMC.Core.Basic

/-!
# One-sided operations of a UCX endpoint

`UCXEndpoint::writeDataNB` and `readDataNB` start a put or a get. UCX may refuse it, finish it
at once (then the handle is `0`), or hand out a request, which the endpoint keeps under a
number of its own counter. The two functions differ in the UCX call only.

A success of the call says that the transfer was issued, not that its bytes have arrived: a put that
is finished at once is complete on the side of the caller, who may use the source again, and reaches
the peer later. What comes of that is the subject of `HMC.Comm.DataReady`. Waiting takes a number
out of the table before it waits, so a number can be waited for once; the polling loop itself is
modelled in `HMC.Ucx.Wait`, and appears here as the status that it ends with.
-/

namespace HMC.Ucx

/-- What `ucp_put_nbx` or `ucp_get_nbx` returns: an error, null, or a request. -/
inductive NbxResult
  | error
  | immediate
  | request
  deriving DecidableEq

/-- A `UCXEndpoint`: whether `ep_`, `remote_rkey_` and the buffer are there, the two sizes, the
counter `next_wrid_` and the keys of the table `inflight_`. -/
structure Endpoint where
  ready : Bool
  localSize : ℕ
  remoteSize : ℕ
  nextWrid : ℕ
  inflight : Finset ℕ

namespace Endpoint

variable (e : Endpoint)

/-- The number the next request gets: the counter after `fetch_add(1)`. -/
def nextId : ℕ := wrap64 (e.nextWrid + 1)

/-- The body of `writeDataNB` and `readDataNB`: the status, `*wrid` and the endpoint. -/
def dataNB (localOff remoteOff size : ℕ) (nbx : NbxResult) : Status × ℕ × Endpoint :=
  if e.ready = false then (.error, 0, e)
  else if wrap64 (localOff + size) > e.localSize then (.error, 0, e)
  else if wrap64 (remoteOff + size) > e.remoteSize then (.error, 0, e)
  else
    match nbx with
    | .error => (.error, 0, e)
    | .immediate => (.success, 0, e)
    | .request => (.success, e.nextId,
        { e with nextWrid := e.nextId, inflight := insert e.nextId e.inflight })

/-- The body of `writeData` and `readData`; `finished` is the status with which a request ends. -/
def data (localOff remoteOff size : ℕ) (nbx : NbxResult) (finished : Status) : Status :=
  if e.ready = false then .error
  else if wrap64 (localOff + size) > e.localSize then .error
  else if wrap64 (remoteOff + size) > e.remoteSize then .error
  else
    match nbx with
    | .error => .error
    | .immediate => .success
    | .request => finished

/-- What a one-sided operation hands to `ucp_put_nbx` or `ucp_get_nbx`, unless that refuses. -/
def issued (localOff remoteOff size : ℕ) (nbx : NbxResult) : Option Transfer :=
  if e.ready = false then none
  else if wrap64 (localOff + size) > e.localSize then none
  else if wrap64 (remoteOff + size) > e.remoteSize then none
  else if nbx = .error then none
  else some ⟨localOff, remoteOff, size⟩

/-- `UCXEndpoint::waitWrId`: an unknown number is an error; `finished` is the status with which
the request ends. -/
def waitWrId (wid : ℕ) (finished : Status) : Status × Endpoint :=
  if wid ∉ e.inflight then (.error, e)
  else (finished, { e with inflight := e.inflight.erase wid })

/-- The first loop of `UCXEndpoint::waitWrIdMulti` takes the requests out of the table, up to
the first unknown number. -/
def takeAll : List ℕ → Finset ℕ → Bool × Finset ℕ
  | [], table => (true, table)
  | id :: ids, table =>
    if id = 0 then takeAll ids table
    else if id ∉ table then (false, table)
    else takeAll ids (table.erase id)

/-- `UCXEndpoint::waitWrIdMulti`; `finished` is how its polling loop ends. -/
def waitWrIdMulti (wrids : List ℕ) (finished : Status) : Status × Endpoint :=
  let taken := takeAll wrids e.inflight
  (if taken.1 then finished else .error, { e with inflight := taken.2 })

/-- The outcomes of a non-blocking operation: a handle `0` and nothing kept, or a request. -/
theorem dataNB_cases (localOff remoteOff size : ℕ) (nbx : NbxResult) :
    (∃ ret, e.dataNB localOff remoteOff size nbx = (ret, 0, e)) ∨
      e.dataNB localOff remoteOff size nbx = (.success, e.nextId,
        { e with nextWrid := e.nextId, inflight := insert e.nextId e.inflight }) := by
  unfold dataNB
  split_ifs
  · exact .inl ⟨_, rfl⟩
  · exact .inl ⟨_, rfl⟩
  · exact .inl ⟨_, rfl⟩
  · obtain _ | _ | _ := nbx
    · exact .inl ⟨_, rfl⟩
    · exact .inl ⟨_, rfl⟩
    · exact .inr rfl

/-- A non-blocking operation succeeds exactly when it issues its transfer. -/
theorem dataNB_success_iff (localOff remoteOff size : ℕ) (nbx : NbxResult) :
    (e.dataNB localOff remoteOff size nbx).1 = .success ↔
      (e.issued localOff remoteOff size nbx).isSome := by
  unfold dataNB issued
  split_ifs with h₁ h₂ h₃ h₄
  · simp
  · simp
  · simp
  · simp [h₄]
  · obtain _ | _ | _ := nbx
    · exact absurd rfl h₄
    · simp
    · simp

theorem issued_eq_some {localOff remoteOff size : ℕ} {nbx : NbxResult} {t : Transfer} :
    e.issued localOff remoteOff size nbx = some t ↔
      e.ready = true ∧ t = ⟨localOff, remoteOff, size⟩ ∧ t.Checked e.localSize e.remoteSize ∧
        nbx ≠ .error := by
  unfold issued
  constructor
  · intro h
    split_ifs at h with h₁ h₂ h₃ h₄
    cases h
    exact ⟨by simpa using h₁, rfl, ⟨Nat.not_lt.mp h₂, Nat.not_lt.mp h₃⟩, h₄⟩
  · rintro ⟨hready, rfl, ⟨hl, hr⟩, hnbx⟩
    rw [if_neg (by simp [hready]), if_neg (Nat.not_lt.mpr hl), if_neg (Nat.not_lt.mpr hr),
      if_neg hnbx]

/-- Only requests that were named leave the table. -/
theorem mem_takeAll {id : ℕ} {ids : List ℕ} {table : Finset ℕ} (h : id ∈ table) (hn : id ∉ ids) :
    id ∈ (takeAll ids table).2 := by
  induction ids generalizing table with
  | nil => exact h
  | cons a ids ih =>
    rw [List.mem_cons, not_or] at hn
    obtain ⟨hne, hn⟩ := hn
    unfold takeAll
    split_ifs
    · exact ih h hn
    · exact ih (Finset.mem_erase.mpr ⟨hne, h⟩) hn
    · exact h

end Endpoint

end HMC.Ucx
