import Mathlib.Data.List.Basic
import HMC.Core.Basic
import HMC.Machine.Run

/-!
# The clients of a server

A process that connects to a server tells it the port of its own listener, which it keeps in
`g_rdma_listen_port` or `g_ucx_listen_port`; a process without a server says `0` there. The
server stores its endpoint of the client under the address that the connection comes from and
this port, and an endpoint that was stored there before is destroyed.

The key is meant to name one client, but it does not: two processes without a server on one
host have the same, and the second takes the place of the first (`replaces_other_client`).
`kept_of_reach` says that every live client keeps its endpoint in runs in which a client is never
accepted under the key of another one that is live.

A client is live from the time when its latest connection was accepted until its end is closed, so a
process that connects again is one client throughout, with its new connection in the place of the
old one. `accept_kept_iff` says that the condition cannot be weakened for a single accept: an accept
that breaks it takes an endpoint from a live client. A late `DISCONNECTED` does no harm, since the
endpoint is removed only if it is that of the connection (`removeEndpointIfMatch`).
-/

namespace HMC.Comm

open HMC.Machine

/-- The client processes and the connections between them and the server by number, each with its
process and the address and port that the server learns of it. `closed` says that the end of the
client is gone, `last` is the latest connection of a process that was accepted, and `endpoints`
names the endpoints of the server by their connections. -/
structure Clients where
  listenPort : ℕ → ℕ
  next : ℕ
  proc : ℕ → ℕ
  ip : ℕ → String
  port : ℕ → ℕ
  accepted : ℕ → Bool
  closed : ℕ → Bool
  last : ℕ → Option ℕ
  endpoints : PeerKey → Option ℕ
  events : List ℕ

/-- A process starts its own server, or connects from one of its addresses; the server accepts a
connection; the end of the client is destroyed, and the server handles a `DISCONNECTED`. -/
inductive ClientsAct
  | listen (p port : ℕ)
  | connect (p : ℕ) (ip : String)
  | accept (c : ℕ)
  | close (c : ℕ)
  | disconnected
  deriving DecidableEq

namespace Clients

/-- A server without clients. -/
def start : Clients where
  listenPort _ := 0
  next := 0
  proc _ := 0
  ip _ := ""
  port _ := 0
  accepted _ := false
  closed _ := false
  last _ := none
  endpoints _ := none
  events := []

variable (conn : ConnType) (st : Clients)

/-- The key of the server's endpoint of a connection. -/
def key (c : ℕ) : PeerKey := ⟨st.ip c, st.port c⟩

/-- `_addEndpoint`. -/
def addEndpoint (key : PeerKey) (c : ℕ) : Clients :=
  { st with endpoints := Function.update st.endpoints key (some c) }

/-- `_removeEndpoint`. -/
def removeEndpoint (key : PeerKey) : Clients :=
  { st with endpoints := Function.update st.endpoints key none }

/-- `_removeEndpointIfMatch`, the `conn_id` being the number of the connection. -/
def removeEndpointIfMatch (key : PeerKey) (c : ℕ) : Clients :=
  if st.endpoints key = some c then st.removeEndpoint key else st

/-- What a listener does with an accepted connection. -/
def register (c : ℕ) : Clients :=
  match conn with
  | .rdma => (st.removeEndpoint (st.key c)).addEndpoint (st.key c) c
  | _ => st.addEndpoint (st.key c) c

/-- One step. A UCX server is not told of a client that goes. -/
def step : ClientsAct → Option Clients
  | .listen p port => some { st with listenPort := Function.update st.listenPort p port }
  | .connect p ip =>
    some { st with
      next := st.next + 1
      proc := Function.update st.proc st.next p
      ip := Function.update st.ip st.next ip
      port := Function.update st.port st.next (st.listenPort p) }
  | .accept c =>
    if c < st.next ∧ st.accepted c = false then
      some { (st.register conn c) with
        accepted := Function.update st.accepted c true
        last := Function.update st.last (st.proc c) (some c) }
    else none
  | .close c =>
    if st.accepted c = true ∧ st.closed c = false then
      some { st with
        closed := Function.update st.closed c true
        events := if conn = .rdma then st.events ++ [c] else st.events }
    else none
  | .disconnected =>
    match st.events with
    | [] => none
    | c :: rest => some ({ st with events := rest }.removeEndpointIfMatch (st.key c) c)

/-- The connection of a live client: the latest of its process that was accepted, not closed. -/
def Live (c : ℕ) : Prop := st.last (st.proc c) = some c ∧ st.closed c = false

instance (c : ℕ) : Decidable (st.Live c) := inferInstanceAs (Decidable (_ ∧ _))

/-- Every live client has its endpoint. -/
def Kept : Prop := ∀ c < st.next, st.Live c → st.endpoints (st.key c) = some c

instance : Decidable st.Kept :=
  inferInstanceAs (Decidable (∀ c < st.next, st.Live c → st.endpoints (st.key c) = some c))

/-- The step condition: a client is not accepted under the key of another one that is live. -/
def OwnKey : ClientsAct → Prop
  | .accept c => ∀ d < st.next, st.Live d → st.proc d ≠ st.proc c → st.key d ≠ st.key c
  | _ => True

instance : ∀ a, Decidable (st.OwnKey a)
  | .accept c => inferInstanceAs (Decidable
      (∀ d < st.next, st.Live d → st.proc d ≠ st.proc c → st.key d ≠ st.key c))
  | .listen _ _ | .connect _ _ | .close _ | .disconnected => inferInstanceAs (Decidable True)

end Clients

/-! ### The endpoints of the live clients -/

/-- What is known of the connections: the latest ones were dialed, and an event is about a closed
one. -/
structure ClientsBook (st : Clients) : Prop where
  last : ∀ {p c}, st.last p = some c → c < st.next
  events : ∀ c ∈ st.events, st.closed c = true

namespace Clients

variable {conn : ConnType} {st st' : Clients} {c d : ℕ}

theorem register_eq : st.register conn c =
    { st with endpoints := Function.update st.endpoints (st.key c) (some c) } := by
  unfold register
  split
  · simp only [removeEndpoint, addEndpoint, Function.update_idem]
  · rfl

theorem removeEndpointIfMatch_eq (key : PeerKey) : st.removeEndpointIfMatch key c =
    { st with endpoints := (st.removeEndpointIfMatch key c).endpoints } := by
  unfold removeEndpointIfMatch
  split <;> rfl

theorem removeEndpointIfMatch_apply {key k : PeerKey} (h : st.endpoints k = some d)
    (hne : d ≠ c) : (st.removeEndpointIfMatch key c).endpoints k = some d := by
  unfold removeEndpointIfMatch
  split_ifs with hkey
  · have hk : k ≠ key := by
      rintro rfl
      rw [hkey] at h
      exact hne (Option.some.inj h).symm
    exact (Function.update_of_ne hk _ _).trans h
  · exact h

/-- Accepting a client keeps the endpoints of the live ones exactly if it has a key of its own. -/
theorem accept_kept_iff (hk : st.Kept) (hst : st.step conn (.accept c) = some st') :
    st'.Kept ↔ st.OwnKey (.accept c) := by
  simp only [step, Option.ite_none_right_eq_some, Option.some.injEq, register_eq] at hst
  obtain ⟨-, rfl⟩ := hst
  constructor
  · intro hk' d hd hlive hproc hkey
    -- the endpoint of `d` was replaced
    have hend := hk' d hd ⟨(Function.update_of_ne hproc _ _).trans hlive.1, hlive.2⟩
    have hself : Function.update st.endpoints (st.key c) (some c) (st.key d) = some c := by
      rw [hkey, Function.update_self]
    obtain rfl := Option.some.inj (hself.symm.trans hend)
    exact hproc rfl
  · rintro hown d hd ⟨hlast, hopen⟩
    by_cases hproc : st.proc d = st.proc c
    · -- the latest connection of this process is now `c`
      have hself : Function.update st.last (st.proc c) (some c) (st.proc d) = some c := by
        rw [hproc, Function.update_self]
      obtain rfl := Option.some.inj (hself.symm.trans hlast)
      exact Function.update_self _ _ _
    · have hlive : st.Live d := ⟨(Function.update_of_ne hproc _ _).symm.trans hlast, hopen⟩
      exact (Function.update_of_ne (hown d hd hlive hproc) _ _).trans (hk d hd hlive)

end Clients

/-- The invariant of a run in which every client is accepted under a key of its own. -/
structure ClientsInv (st : Clients) : Prop where
  book : ClientsBook st
  kept : st.Kept

namespace ClientsInv

variable {conn : ConnType} {st st' : Clients}

theorem start : ClientsInv .start where
  book :=
    { last := fun h => by cases h
      events := fun c hc => by cases hc }
  kept c hc := by cases hc

/-- A process connects: the others are as they were. -/
theorem connect (h : ClientsInv st) {p : ℕ} {ip : String}
    (hst : st.step conn (.connect p ip) = some st') : ClientsInv st' := by
  obtain rfl := Option.some.inj hst
  refine ⟨⟨fun hl => Nat.lt_succ_of_lt (h.book.last hl), h.book.events⟩, fun d hd hlive => ?_⟩
  obtain ⟨hlast, hopen⟩ := hlive
  obtain hlt := h.book.last hlast
  have hne : d ≠ st.next := Nat.ne_of_lt hlt
  simp only [Clients.key, Function.update_of_ne hne] at hlast ⊢
  exact h.kept d hlt ⟨hlast, hopen⟩

theorem accept (h : ClientsInv st) {c : ℕ} (hown : st.OwnKey (.accept c))
    (hst : st.step conn (.accept c) = some st') : ClientsInv st' := by
  refine ⟨?_, (Clients.accept_kept_iff h.kept hst).mpr hown⟩
  simp only [Clients.step, Option.ite_none_right_eq_some, Option.some.injEq,
    Clients.register_eq] at hst
  obtain ⟨⟨hc, -⟩, rfl⟩ := hst
  refine ⟨fun hl => ?_, h.book.events⟩
  obtain ⟨-, hl⟩ | ⟨-, hl⟩ := update_eq_some.mp hl
  · exact Option.some.inj hl ▸ hc
  · exact h.book.last hl

/-- A client goes: it is not live any more. -/
theorem close (h : ClientsInv st) {c : ℕ} (hst : st.step conn (.close c) = some st') :
    ClientsInv st' := by
  simp only [Clients.step, Option.ite_none_right_eq_some, Option.some.injEq] at hst
  obtain ⟨-, rfl⟩ := hst
  have hclosed : ∀ d, Function.update st.closed c true d = false → st.closed d = false := by
    intro d hd
    rw [Bool.eq_false_iff, Ne, update_true, not_or] at hd
    exact Bool.eq_false_iff.mpr hd.1
  refine ⟨⟨h.book.last, fun d hd => ?_⟩, fun d hd hlive => h.kept d hd ⟨hlive.1, hclosed d hlive.2⟩⟩
  rw [update_true]
  dsimp only at hd
  split_ifs at hd
  · obtain hd | hd := List.mem_append.mp hd
    · exact .inl (h.book.events d hd)
    · exact .inr (List.mem_singleton.mp hd)
  · exact .inl (h.book.events d hd)

/-- The server removes the endpoint of a client that has gone, and no other. -/
theorem disconnected (h : ClientsInv st) (hst : st.step conn .disconnected = some st') :
    ClientsInv st' := by
  simp only [Clients.step] at hst
  split at hst
  · cases hst
  next c rest hev =>
    obtain rfl := Option.some.inj hst
    have hclosed : st.closed c = true := h.book.events c (by simp [hev])
    rw [Clients.removeEndpointIfMatch_eq]
    refine ⟨⟨h.book.last, fun d hd => h.book.events d (by simp [hev, hd])⟩, fun d hd hlive => ?_⟩
    have hne : d ≠ c := by
      rintro rfl
      exact Bool.false_ne_true (hlive.2.symm.trans hclosed)
    exact Clients.removeEndpointIfMatch_apply (h.kept d hd hlive) hne

theorem of_reach (h : Reach (Clients.step conn) Clients.OwnKey .start st) : ClientsInv st := by
  refine h.invariant start fun s a t _ hi hown hst => ?_
  cases a with
  | listen p port =>
    obtain rfl := Option.some.inj hst
    exact ⟨⟨hi.book.last, hi.book.events⟩, hi.kept⟩
  | connect p ip => exact hi.connect hst
  | accept c => exact hi.accept hown hst
  | close c => exact hi.close hst
  | disconnected => exact hi.disconnected hst

end ClientsInv

/-- **The clients of a server.** As long as no client is accepted under the key of another one that
is live, the server has the endpoint of every live client, under the address and the port that it
has told. The invariant adds what is known of the events: each is about a connection whose client's
end is gone, so the endpoint that it removes is of no live client. -/
theorem Clients.kept_of_reach {conn : ConnType} {st : Clients}
    (h : Reach (Clients.step conn) Clients.OwnKey .start st) : st.Kept :=
  (ClientsInv.of_reach h).kept

/-- Two clients on one host run servers of their own, and a third one on another host does not. -/
theorem Clients.kept_of_reach_three :
    ∃ st, Reach (Clients.step .rdma) Clients.OwnKey .start st ∧
      (st.Live 0 ∧ st.Live 1 ∧ st.Live 2) ∧ st.Kept := by
  obtain ⟨st, hr, hlive⟩ : ∃ st, Reach (Clients.step .rdma) Clients.OwnKey .start st ∧
      st.Live 0 ∧ st.Live 1 ∧ st.Live 2 :=
    exists_reach_of_execOk [.listen 0 2025, .listen 1 2026, .connect 0 "10.0.0.2",
      .connect 1 "10.0.0.2", .accept 1, .accept 0, .connect 2 "10.0.0.3", .accept 2]
      (by decide +kernel)
  exact ⟨st, hr, hlive, Clients.kept_of_reach hr⟩

/-- Two clients on one host run no servers: the second takes the place of the first. -/
theorem Clients.replaces_other_client : [ConnType.rdma, .ucx].Forall fun conn =>
    ∃ st, Reach (Clients.step conn) Free .start st ∧
      (st.Live 0 ∧ st.Live 1 ∧ st.proc 0 ≠ st.proc 1) ∧ st.endpoints (st.key 0) = some 1 ∧
        ¬ st.Kept := by
  constructor
  all_goals
    exact exists_reach_of_exec [.connect 0 "10.0.0.2", .connect 1 "10.0.0.2", .accept 0, .accept 1]
      (by decide +kernel)

end HMC.Comm
