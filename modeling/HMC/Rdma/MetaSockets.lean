import HMC.Machine.Places
import HMC.Machine.Run
import HMC.Rdma.MetaExchange

/-!
# Metadata sockets and their connections

A call of `RDMAServer::exchangeMetaData` looks for the socket of its connection in
`g_pending_meta_fd`. While there is none it accepts the next socket, reads the `MetaHello` and parks
the socket under the `conn_id` that it announces, so that a socket may wait there for a later call.
The address and the port of the client are kept in two maps beside it.

`matched_of_reach` says that a call gets the socket that announced its connection, with the client's
address and port, and that no socket is lost or given away twice, whatever the order in which the
sockets and the calls come, and with any number of calls at once.

A socket is at all times in the hands of one call or in one deque (`MetaServer.Kept`), so the steps
that move it are those of `HMC.Machine.Placed`, and a descriptor that is closed may be used again
for another socket. What a call knows of the socket in its hands (`MetaPc.Knows`) is what the socket
has announced, so the maps are filled for the right connection. If two clients announce one
connection the deque has both, and the address beside it is that of the later one; `DistinctIds`
excludes this.
-/

namespace HMC.Rdma

open HMC.Machine

/-- A socket that a client opens: where it comes from, and its `MetaHello`, if that arrives in
full. -/
structure MetaClient where
  ip : String
  hello : Option MetaHello

/-- A descriptor of the server and the socket it was opened for. -/
structure MetaFd where
  fd : ℕ
  socket : ℕ
  deriving DecidableEq

/-- Where a call for the connection `connId` is: at `popMetaFd_`, at `acceptOnce`, reading the
`MetaHello` of a socket, at `pushMetaFd_` with it, or using the socket it has got. -/
inductive MetaPc
  | idle
  | pop (connId : UInt64)
  | accept (connId : UInt64)
  | hello (connId : UInt64) (e : MetaFd) (ip : String)
  | push (connId : UInt64) (e : MetaFd) (ip : String) (hello : MetaHello)
  | talk (connId : UInt64) (e : MetaFd) (ip : String) (clientPort : UInt16)

namespace MetaPc

/-- The socket in the hands of a call. -/
def sock : MetaPc → Option MetaFd
  | .hello _ e _ | .push _ e _ _ | .talk _ e _ _ => some e
  | _ => none

/-- The socket that a call has accepted and not yet parked. -/
def accepted : MetaPc → Option MetaFd
  | .hello _ e _ | .push _ e _ _ => some e
  | _ => none

theorem sock_of_accepted {pc : MetaPc} {e : MetaFd} (h : pc.accepted = some e) :
    pc.sock = some e := by
  cases pc <;> simp_all [accepted, sock]

end MetaPc

/-- What a call has got from `popMetaFd_`. -/
structure Handout where
  connId : UInt64
  socket : ℕ
  ip : String
  clientPort : UInt16
  deriving DecidableEq

/-- The three maps, the calls of the threads, and the descriptors that are open. `made` are the
sockets ever accepted and `handed` the handouts. -/
structure MetaServer (τ : Type) where
  pendingMetaFd : UInt64 → List MetaFd
  peerIpByConn : UInt64 → String
  peerPortByConn : UInt64 → UInt16
  pc : τ → MetaPc
  owner : ℕ → Option MetaFd
  made : ℕ → Option MetaFd
  handed : List Handout

/-- The steps of a thread that waits for the metadata connection of an id: it takes one that is
parked or accepts one, reads its HELLO, parks it if it is for another id, and closes it in the
end. -/
inductive MetaAct (τ : Type)
  | call (t : τ) (connId : UInt64)
  | pop (t : τ)
  | accept (t : τ) (fd socket : ℕ)
  | acceptFails (t : τ)
  | hello (t : τ)
  | push (t : τ)
  | close (t : τ)

namespace MetaServer

variable {τ : Type}

def start : MetaServer τ where
  pendingMetaFd _ := []
  peerIpByConn _ := ""
  peerPortByConn _ := 0
  pc _ := .idle
  owner _ := none
  made _ := none
  handed := []

variable [DecidableEq τ] (clients : ℕ → MetaClient) (st : MetaServer τ)

def goto (t : τ) (pc : MetaPc) : MetaServer τ := { st with pc := Function.update st.pc t pc }

/-- `pushMetaFd_`. -/
def pushMetaFd (connId : UInt64) (e : MetaFd) (ip : String) (clientPort : UInt16) :
    MetaServer τ :=
  { st with
    pendingMetaFd := Function.update st.pendingMetaFd connId (st.pendingMetaFd connId ++ [e])
    peerIpByConn := Function.update st.peerIpByConn connId ip
    peerPortByConn := Function.update st.peerPortByConn connId clientPort }

/-- `popMetaFd_`, when it finds a socket. -/
def popMetaFd (connId : UInt64) (e : MetaFd) (rest : List MetaFd) : MetaServer τ :=
  { st with
    pendingMetaFd := Function.update st.pendingMetaFd connId rest
    handed := st.handed ++
      [⟨connId, e.socket, st.peerIpByConn connId, st.peerPortByConn connId⟩] }

/-- Open a descriptor for a socket. -/
def openFd (e : MetaFd) : MetaServer τ :=
  { st with
    owner := Function.update st.owner e.fd (some e)
    made := Function.update st.made e.socket (some e) }

def closeFd (e : MetaFd) : MetaServer τ := { st with owner := Function.update st.owner e.fd none }

/-- One step of a call. The kernel may give a socket any descriptor that is not open. -/
def step : MetaAct τ → Option (MetaServer τ)
  | .call t connId =>
    match st.pc t with
    | .idle => some (st.goto t (.pop connId))
    | _ => none
  | .pop t =>
    match st.pc t with
    | .pop connId =>
      match st.pendingMetaFd connId with
      | [] => some (st.goto t (.accept connId))
      | e :: rest => some ((st.popMetaFd connId e rest).goto t
          (.talk connId e (st.peerIpByConn connId) (st.peerPortByConn connId)))
    | _ => none
  | .accept t fd socket =>
    match st.pc t with
    | .accept connId =>
      if st.owner fd = none ∧ st.made socket = none then
        some ((st.openFd ⟨fd, socket⟩).goto t (.hello connId ⟨fd, socket⟩ (clients socket).ip))
      else none
    | _ => none
  | .acceptFails t =>
    match st.pc t with
    | .accept _ => some (st.goto t .idle)
    | _ => none
  | .hello t =>
    match st.pc t with
    | .hello connId e ip =>
      match (clients e.socket).hello with
      | none => some ((st.closeFd e).goto t (.accept connId))
      | some hello => some (st.goto t (.push connId e ip hello))
    | _ => none
  | .push t =>
    match st.pc t with
    | .push connId e ip hello =>
      some ((st.pushMetaFd hello.connId e ip hello.clientPort).goto t (.pop connId))
    | _ => none
  | .close t =>
    match st.pc t with
    | .talk _ e _ _ => some ((st.closeFd e).goto t .idle)
    | _ => none

/-! ### Where the sockets are -/

end MetaServer

/-- A place that a socket may be in: the hands of a call, or the deque of a `conn_id`. -/
inductive MetaPlace (τ : Type)
  | hand (t : τ)
  | parked (connId : UInt64)
  deriving DecidableEq

namespace MetaServer

variable {τ : Type} (st : MetaServer τ)

def place : MetaPlace τ → Option MetaFd
  | .hand t => (st.pc t).sock
  | .parked connId => (st.pendingMetaFd connId).head?

/-- Every open socket is in one place. -/
def Kept : Prop := Placed MetaFd.fd MetaFd.socket st.place st.owner st.made

/-- A socket has been accepted and not yet handed out. -/
def Waits (e : MetaFd) : Prop :=
  (∃ t, (st.pc t).accepted = some e) ∨ ∃ connId, e ∈ st.pendingMetaFd connId

variable {st}

theorem Kept.placed (h : st.Kept) :
    Placed MetaFd.fd MetaFd.socket st.place st.owner st.made := h

theorem Kept.start : (start : MetaServer τ).Kept := by
  have hplace : (MetaServer.start : MetaServer τ).place = fun _ => none := by
    funext p
    cases p <;> rfl
  rw [Kept, hplace]
  exact .empty

variable [DecidableEq τ] {st' : MetaServer τ} {t : τ} {pc : MetaPc} {e : MetaFd} {connId : UInt64}

theorem place_goto (h : pc.sock = (st.pc t).sock) : (st.goto t pc).place = st.place := by
  funext p
  cases p with
  | hand u => exact apply_update_of_eq h u
  | parked c => rfl

/-- The hands of the calls, when one of them goes on. -/
theorem place_hand (st : MetaServer τ) {u : τ} (h : st'.pc = Function.update st.pc t pc) :
    st'.place (.hand u) = Function.update st.place (.hand t) pc.sock (.hand u) := by
  by_cases hu : u = t
  · simp [place, h, hu]
  · simp [place, h, hu]

theorem waits_goto (h : pc.accepted = (st.pc t).accepted) :
    (st.goto t pc).Waits e ↔ st.Waits e := by
  have hpc : ∀ u, ((st.goto t pc).pc u).accepted = (st.pc u).accepted := apply_update_of_eq h
  simp only [Waits, hpc]
  rfl

/-- Who waits, when one call goes on. -/
theorem waits_update (st : MetaServer τ) (pc : MetaPc) (h : st'.pc = Function.update st.pc t pc) :
    st'.Waits e ↔ pc.accepted = some e ∨ (∃ u, u ≠ t ∧ (st.pc u).accepted = some e) ∨
      ∃ c, e ∈ st'.pendingMetaFd c := by
  rw [Waits, h, ← or_assoc]
  refine or_congr_left ⟨fun ⟨u, hu⟩ => ?_, fun hor => ?_⟩
  · by_cases hut : u = t
    · rw [hut, Function.update_self] at hu
      exact .inl hu
    · rw [Function.update_of_ne hut] at hu
      exact .inr ⟨u, hut, hu⟩
  · obtain hpc | ⟨u, hut, hu⟩ := hor
    · exact ⟨t, by rwa [Function.update_self]⟩
    · exact ⟨u, by rwa [Function.update_of_ne hut]⟩

namespace Kept

theorem goto (h : st.Kept) (hsock : pc.sock = (st.pc t).sock) : (st.goto t pc).Kept := by
  rw [Kept, place_goto hsock]
  exact h

theorem accept (h : st.Kept) (ht : (st.pc t).sock = none) (hsock : pc.sock = some e)
    (hfd : st.owner e.fd = none) (hnew : st.made e.socket = none) :
    ((st.openFd e).goto t pc).Kept := by
  have hplace : ((st.openFd e).goto t pc).place = Function.update st.place (.hand t) (some e) := by
    funext p
    cases p with
    | hand u => rw [place_hand st rfl, hsock]
    | parked c => rfl
  rw [Kept, hplace]
  exact h.placed.insert ht hfd hnew

theorem close (h : st.Kept) (ht : (st.pc t).sock = some e) (hsock : pc.sock = none) :
    ((st.closeFd e).goto t pc).Kept := by
  have hplace : ((st.closeFd e).goto t pc).place = Function.update st.place (.hand t) none := by
    funext p
    cases p with
    | hand u => rw [place_hand st rfl, hsock]
    | parked c => rfl
  have hdes := h.placed.destroy (.hand t)
  rw [place, ht] at hdes
  rw [Kept, hplace]
  exact hdes

theorem push (h : st.Kept) (ht : (st.pc t).sock = some e) (hsock : pc.sock = none)
    (hempty : st.pendingMetaFd connId = []) (ip : String) (port : UInt16) :
    ((st.pushMetaFd connId e ip port).goto t pc).Kept := by
  have hplace : ((st.pushMetaFd connId e ip port).goto t pc).place =
      Function.update (Function.update st.place (.hand t) none) (.parked connId)
        (st.place (.hand t)) := by
    funext p
    cases p with
    | hand u =>
      rw [place_hand st rfl, hsock]
      simp [Function.update_apply]
    | parked c =>
      by_cases hc : c = connId
      · simp [place, MetaServer.goto, pushMetaFd, hc, hempty, ht]
      · simp [place, MetaServer.goto, pushMetaFd, hc]
  rw [Kept, hplace]
  exact h.placed.move (by simp) (by simp [place, hempty])

theorem pop (h : st.Kept) (ht : (st.pc t).sock = none) (hsock : pc.sock = some e)
    (hparked : st.pendingMetaFd connId = [e]) : ((st.popMetaFd connId e []).goto t pc).Kept := by
  have hplace : ((st.popMetaFd connId e []).goto t pc).place =
      Function.update (Function.update st.place (.parked connId) none) (.hand t)
        (st.place (.parked connId)) := by
    funext p
    cases p with
    | hand u =>
      rw [place_hand st rfl, hsock]
      simp [Function.update_apply, place, hparked]
    | parked c =>
      by_cases hc : c = connId
      · simp [place, MetaServer.goto, popMetaFd, hc]
      · simp [place, MetaServer.goto, popMetaFd, hc]
  rw [Kept, hplace]
  exact h.placed.move (by simp) ht

end Kept

end MetaServer

/-! ### The invariant -/

/-- A handout names the connection that its socket has announced, and its client. -/
def Handout.Right (clients : ℕ → MetaClient) (x : Handout) : Prop :=
  ∃ hello, (clients x.socket).hello = some hello ∧ hello.connId = x.connId ∧
    hello.clientPort = x.clientPort ∧ (clients x.socket).ip = x.ip

/-- No two sockets announce one connection. -/
def DistinctIds (clients : ℕ → MetaClient) : Prop :=
  ∀ m n hello hello', (clients m).hello = some hello → (clients n).hello = some hello' →
    hello.connId = hello'.connId → m = n

/-- What is known of the socket in the hands of a call. -/
def MetaPc.Knows (clients : ℕ → MetaClient) (handed : List Handout) : MetaPc → Prop
  | .hello _ e ip => (clients e.socket).ip = ip
  | .push _ e ip said => (clients e.socket).ip = ip ∧ (clients e.socket).hello = some said
  | .talk connId e ip clientPort => ⟨connId, e.socket, ip, clientPort⟩ ∈ handed
  | _ => True

/-- Every metadata connection whose HELLO can be read has been handed to the thread of its id, or
waits where that thread will find it, and none is handed out twice. -/
structure MetaInv {τ : Type} (clients : ℕ → MetaClient) (st : MetaServer τ) : Prop where
  kept : st.Kept
  knows : ∀ t, (st.pc t).Knows clients st.handed
  parked : ∀ c, ∀ e ∈ st.pendingMetaFd c,
    Handout.Right clients ⟨c, e.socket, st.peerIpByConn c, st.peerPortByConn c⟩
  single : ∀ c, (st.pendingMetaFd c).length ≤ 1
  right : ∀ x ∈ st.handed, x.Right clients
  nodup : (st.handed.map (·.socket)).Nodup
  past : ∀ x ∈ st.handed, st.made x.socket ≠ none
  waits : ∀ e, st.Waits e → ∀ x ∈ st.handed, x.socket ≠ e.socket
  all : ∀ e hello, st.made e.socket = some e → (clients e.socket).hello = some hello →
    (∃ x ∈ st.handed, x.socket = e.socket) ∨ st.Waits e

namespace MetaInv

variable {τ : Type} {clients : ℕ → MetaClient} {st : MetaServer τ} {e e' : MetaFd} {t : τ}
  {connId : UInt64}

theorem start : MetaInv clients (.start : MetaServer τ) where
  kept := .start
  knows _ := by simp [MetaServer.start, MetaPc.Knows]
  parked _ _ h := absurd h List.not_mem_nil
  single _ := Nat.zero_le _
  right _ h := absurd h List.not_mem_nil
  nodup := .nil
  past _ h := absurd h List.not_mem_nil
  waits _ _ _ h := absurd h List.not_mem_nil
  all _ _ h := by cases h

theorem place_parked (h : MetaInv clients st) :
    st.place (.parked connId) = some e ↔ e ∈ st.pendingMetaFd connId := by
  have hsingle := h.single connId
  rw [MetaServer.place]
  match st.pendingMetaFd connId, hsingle with
  | [], _ => simp
  | [d], _ => simp [eq_comm]

/-- A socket is in one place. -/
theorem place_eq (h : MetaInv clients st) {p q : MetaPlace τ} (hp : st.place p = some e)
    (hq : st.place q = some e') (hsocket : e.socket = e'.socket) : p = q ∧ e = e' := by
  have hmade := h.kept.placed.serial hp
  rw [hsocket, h.kept.placed.serial hq] at hmade
  obtain rfl := Option.some.inj hmade
  exact ⟨h.kept.placed.once hp hq, rfl⟩

variable [DecidableEq τ] {pc : MetaPc}

/-- The calls know what they knew, when only one of them goes on. -/
theorem knows_update (h : MetaInv clients st) {handed : List Handout}
    (hsub : st.handed ⊆ handed) (hpc : pc.Knows clients handed) (u : τ) :
    (Function.update st.pc t pc u).Knows clients handed := by
  by_cases hu : u = t
  · rwa [hu, Function.update_self]
  · rw [Function.update_of_ne hu]
    have hold := h.knows u
    cases hcase : st.pc u <;> rw [hcase] at hold
    case talk c d ip port => exact hsub hold
    all_goals exact hold

/-- A call goes on without touching a map. -/
theorem goto (h : MetaInv clients st) (hsock : pc.sock = (st.pc t).sock)
    (haccepted : pc.accepted = (st.pc t).accepted) (hpc : pc.Knows clients st.handed) :
    MetaInv clients (st.goto t pc) := by
  refine ⟨h.kept.goto hsock, h.knows_update (List.Subset.refl _) hpc, h.parked, h.single, h.right,
    h.nodup, h.past, fun d hd => ?_, fun d hello hmade hhello => ?_⟩
  · exact h.waits d ((MetaServer.waits_goto haccepted).mp hd)
  · exact (h.all d hello hmade hhello).imp_right (MetaServer.waits_goto haccepted).mpr

/-- A call that has accepted a new socket. -/
theorem accept (h : MetaInv clients st) {fd socket : ℕ} (hpc : st.pc t = .accept connId)
    (hfd : st.owner fd = none) (hnew : st.made socket = none) :
    MetaInv clients ((st.openFd ⟨fd, socket⟩).goto t
      (.hello connId ⟨fd, socket⟩ (clients socket).ip)) := by
  refine ⟨h.kept.accept (by rw [hpc]; rfl) rfl hfd hnew,
    h.knows_update (List.Subset.refl _) rfl, h.parked, h.single, h.right, h.nodup,
    fun x hx => ?_, fun d hd x hx => ?_, fun d hello hmade hhello => ?_⟩
  · by_cases hs : x.socket = socket
    · exact absurd (hs ▸ hnew) (h.past x hx)
    · exact ne_of_eq_of_ne (Function.update_of_ne hs _ _) (h.past x hx)
  · obtain hnow | ⟨u, -, hu⟩ | hc := (MetaServer.waits_update st _ rfl).mp hd
    · obtain rfl := Option.some.inj hnow
      rintro rfl
      exact h.past x hx hnew
    · exact h.waits d (.inl ⟨u, hu⟩) x hx
    · exact h.waits d (.inr hc) x hx
  · obtain ⟨-, hself⟩ | ⟨-, hold⟩ := update_eq_some.mp hmade
    · refine .inr ((MetaServer.waits_update st (.hello connId ⟨fd, socket⟩ (clients socket).ip)
        rfl).mpr (.inl hself))
    · refine (h.all d hello hold hhello).imp_right fun hw => ?_
      refine (MetaServer.waits_update st _ rfl).mpr (.inr (hw.imp_left fun ⟨u, hu⟩ => ⟨u, ?_, hu⟩))
      rintro rfl
      simp [hpc, MetaPc.accepted] at hu

/-- A call that closes the socket in its hands. -/
theorem close (h : MetaInv clients st) (hsock : (st.pc t).sock = some e) (hclosed : pc.sock = none)
    (hpc : pc.Knows clients st.handed)
    (hlost : (st.pc t).accepted = some e → (clients e.socket).hello = none) :
    MetaInv clients ((st.closeFd e).goto t pc) := by
  refine ⟨h.kept.close hsock hclosed, h.knows_update (List.Subset.refl _) hpc, h.parked, h.single,
    h.right, h.nodup, h.past, fun d hd x hx => ?_, fun d hello hmade hhello => ?_⟩
  · obtain hnow | ⟨u, -, hu⟩ | hc := (MetaServer.waits_update st _ rfl).mp hd
    · rw [MetaPc.sock_of_accepted hnow] at hclosed
      cases hclosed
    · exact h.waits d (.inl ⟨u, hu⟩) x hx
    · exact h.waits d (.inr hc) x hx
  · refine (h.all d hello hmade hhello).imp_right fun hw => ?_
    refine (MetaServer.waits_update st _ rfl).mpr (.inr (hw.imp_left fun ⟨u, hu⟩ => ⟨u, ?_, hu⟩))
    rintro rfl
    have hd := MetaPc.sock_of_accepted hu
    rw [hsock] at hd
    obtain rfl := Option.some.inj hd
    rw [hlost hu] at hhello
    cases hhello

/-- A call that parks the socket in its hands. -/
theorem push (h : MetaInv clients st) (hdistinct : DistinctIds clients) {ip : String}
    {hello : MetaHello} (hpc : st.pc t = .push connId e ip hello) :
    MetaInv clients ((st.pushMetaFd hello.connId e ip hello.clientPort).goto t (.pop connId)) := by
  have hknows := h.knows t
  rw [hpc] at hknows
  obtain ⟨hip, hhello⟩ := hknows
  have haccepted : (st.pc t).accepted = some e := by rw [hpc]; rfl
  have hempty : st.pendingMetaFd hello.connId = [] := by
    -- a parked socket of this id is the one in the hands of the call
    refine List.eq_nil_iff_forall_not_mem.mpr fun d hd => ?_
    obtain ⟨said, hsaid, hid, -⟩ := h.parked _ d hd
    have hplace := (h.place_eq (p := .hand t) (MetaPc.sock_of_accepted haccepted)
      (h.place_parked.mpr hd) (hdistinct _ _ _ _ hhello hsaid hid.symm)).1
    cases hplace
  have hpending : ∀ c d, d ∈ ((st.pushMetaFd hello.connId e ip hello.clientPort).goto t
      (.pop connId)).pendingMetaFd c ↔ d ∈ st.pendingMetaFd c ∨ c = hello.connId ∧ d = e :=
    fun c d => mem_update_append _ _ _ _ _
  refine ⟨h.kept.push (MetaPc.sock_of_accepted haccepted) rfl hempty _ _,
    h.knows_update (List.Subset.refl _) trivial, fun c d hd => ?_, fun c => ?_, h.right, h.nodup,
    h.past, fun d hd x hx => ?_, fun d said hmade hsaid => ?_⟩
  · by_cases hc : c = hello.connId
    · subst hc
      obtain hd | ⟨-, rfl⟩ := (hpending _ d).mp hd
      · simp [hempty] at hd
      · exact ⟨hello, hhello, rfl, by simp [MetaServer.goto, MetaServer.pushMetaFd],
          by simp [MetaServer.goto, MetaServer.pushMetaFd, hip]⟩
    · obtain hd | ⟨hc', -⟩ := (hpending _ d).mp hd
      · have hmaps := h.parked c d hd
        simpa [MetaServer.goto, MetaServer.pushMetaFd, hc] using hmaps
      · exact absurd hc' hc
  · by_cases hc : c = hello.connId
    · subst hc
      simp [MetaServer.goto, MetaServer.pushMetaFd, hempty]
    · simpa [MetaServer.goto, MetaServer.pushMetaFd, hc] using h.single c
  · obtain hnow | ⟨u, -, hu⟩ | ⟨c, hc⟩ := (MetaServer.waits_update st _ rfl).mp hd
    · cases hnow
    · exact h.waits d (.inl ⟨u, hu⟩) x hx
    · obtain hc | ⟨-, rfl⟩ := (hpending c d).mp hc
      · exact h.waits d (.inr ⟨c, hc⟩) x hx
      · exact h.waits d (.inl ⟨t, haccepted⟩) x hx
  · refine (h.all d said hmade hsaid).imp_right fun hw => ?_
    refine (MetaServer.waits_update st _ rfl).mpr (.inr ?_)
    obtain ⟨u, hu⟩ | ⟨c, hc⟩ := hw
    · by_cases hut : u = t
      · rw [hut, haccepted] at hu
        exact .inr ⟨_, (hpending _ d).mpr (.inr ⟨rfl, (Option.some.inj hu).symm⟩)⟩
      · exact .inl ⟨u, hut, hu⟩
    · exact .inr ⟨c, (hpending c d).mpr (.inl hc)⟩

/-- A call that takes a parked socket. -/
theorem pop (h : MetaInv clients st) {rest : List MetaFd} (hpc : st.pc t = .pop connId)
    (hparked : st.pendingMetaFd connId = e :: rest) :
    MetaInv clients ((st.popMetaFd connId e rest).goto t
      (.talk connId e (st.peerIpByConn connId) (st.peerPortByConn connId))) := by
  obtain rfl : rest = [] := by
    have hsingle := h.single connId
    rw [hparked, List.length_cons] at hsingle
    exact List.eq_nil_of_length_eq_zero (by omega)
  have he : e ∈ st.pendingMetaFd connId := by simp [hparked]
  have hsock : (st.pc t).sock = none := by rw [hpc]; rfl
  have hpending : ∀ c d, d ∈ ((st.popMetaFd connId e []).goto t
      (.talk connId e (st.peerIpByConn connId) (st.peerPortByConn connId))).pendingMetaFd c ↔
        c ≠ connId ∧ d ∈ st.pendingMetaFd c := fun c d => by
    by_cases hc : c = connId
    · simp [MetaServer.goto, MetaServer.popMetaFd, hc]
    · simp [MetaServer.goto, MetaServer.popMetaFd, hc]
  -- what waits afterwards has waited elsewhere
  have hother : ∀ {q d}, st.place q = some d → q ≠ .parked connId → e.socket ≠ d.socket :=
    fun hq hne hs => hne (h.place_eq (h.place_parked.mpr he) hq hs).1.symm
  refine ⟨h.kept.pop hsock rfl hparked, h.knows_update (List.subset_append_left _ _) ?_,
    fun c d hd => h.parked c d ((hpending c d).mp hd).2, fun c => ?_, fun x hx => ?_, ?_,
    fun x hx => ?_, fun d hd x hx => ?_, fun d said hmade hsaid => ?_⟩
  · exact List.mem_append_right _ (List.mem_singleton.mpr rfl)
  · by_cases hc : c = connId
    · simp [MetaServer.goto, MetaServer.popMetaFd, hc]
    · simpa [MetaServer.goto, MetaServer.popMetaFd, hc] using h.single c
  · obtain hx | hx := List.mem_append.mp hx
    · exact h.right x hx
    · obtain rfl := List.mem_singleton.mp hx
      exact h.parked connId e he
  · show (List.map _ (st.handed ++ [_])).Nodup
    rw [List.map_append]
    refine List.nodup_append.mpr ⟨h.nodup, List.pairwise_singleton _ _, fun n hn m hm hnm => ?_⟩
    obtain ⟨x, hx, rfl⟩ := List.mem_map.mp hn
    exact h.waits e (.inr ⟨connId, he⟩) x hx (hnm.trans (List.mem_singleton.mp hm))
  · obtain hx | hx := List.mem_append.mp hx
    · exact h.past x hx
    · obtain rfl := List.mem_singleton.mp hx
      have hmade := h.kept.placed.serial (h.place_parked.mpr he)
      exact fun hnone => by cases hmade.symm.trans hnone
  · obtain hnow | ⟨u, -, hu⟩ | ⟨c, hc⟩ := (MetaServer.waits_update st _ rfl).mp hd
    · cases hnow
    · obtain hx | hx := List.mem_append.mp hx
      · exact h.waits d (.inl ⟨u, hu⟩) x hx
      · obtain rfl := List.mem_singleton.mp hx
        exact hother (q := .hand u) (MetaPc.sock_of_accepted hu) (by simp)
    · obtain ⟨hne, hc⟩ := (hpending c d).mp hc
      obtain hx | hx := List.mem_append.mp hx
      · exact h.waits d (.inr ⟨c, hc⟩) x hx
      · obtain rfl := List.mem_singleton.mp hx
        exact hother (h.place_parked.mpr hc) (by simpa using hne)
  · obtain ⟨x, hx, hxs⟩ | hw := h.all d said hmade hsaid
    · exact .inl ⟨x, List.mem_append_left _ hx, hxs⟩
    obtain ⟨u, hu⟩ | ⟨c, hc⟩ := hw
    · refine .inr ((MetaServer.waits_update st _ rfl).mpr (.inr (.inl ⟨u, ?_, hu⟩)))
      rintro rfl
      rw [MetaPc.sock_of_accepted hu] at hsock
      cases hsock
    · by_cases hcc : c = connId
      · rw [hcc, hparked, List.mem_singleton] at hc
        exact .inl ⟨_, List.mem_append_right _ (List.mem_singleton.mpr rfl), by rw [hc]⟩
      · exact .inr (.inr ⟨c, (hpending c d).mpr ⟨hcc, hc⟩⟩)

/-- **One step** of any thread keeps the invariant. -/
theorem step (h : MetaInv clients st) (hdistinct : DistinctIds clients) {a : MetaAct τ}
    {st' : MetaServer τ} (hst : st.step clients a = some st') : MetaInv clients st' := by
  cases a with
  | call t c =>
    simp only [MetaServer.step] at hst
    split at hst
    next hpc =>
      obtain rfl := Option.some.inj hst
      exact h.goto (by rw [hpc]; rfl) (by rw [hpc]; rfl) trivial
    next => cases hst
  | pop t =>
    simp only [MetaServer.step] at hst
    split at hst
    next c hpc =>
      split at hst
      next =>
        obtain rfl := Option.some.inj hst
        exact h.goto (by rw [hpc]; rfl) (by rw [hpc]; rfl) trivial
      next d rest hparked =>
        obtain rfl := Option.some.inj hst
        exact h.pop hpc hparked
    next => cases hst
  | accept t fd socket =>
    simp only [MetaServer.step] at hst
    split at hst
    next c hpc =>
      obtain ⟨⟨hfd, hnew⟩, hst⟩ := Option.ite_none_right_eq_some.mp hst
      obtain rfl := Option.some.inj hst
      exact h.accept hpc hfd hnew
    next => cases hst
  | acceptFails t =>
    simp only [MetaServer.step] at hst
    split at hst
    next c hpc =>
      obtain rfl := Option.some.inj hst
      exact h.goto (by rw [hpc]; rfl) (by rw [hpc]; rfl) trivial
    next => cases hst
  | hello t =>
    simp only [MetaServer.step] at hst
    split at hst
    next c d ip hpc =>
      have hknows := h.knows t
      rw [hpc] at hknows
      split at hst
      next hnone =>
        obtain rfl := Option.some.inj hst
        exact h.close (by rw [hpc]; rfl) rfl trivial fun _ => hnone
      next said hsaid =>
        obtain rfl := Option.some.inj hst
        exact h.goto (by rw [hpc]; rfl) (by rw [hpc]; rfl) ⟨hknows, hsaid⟩
    next => cases hst
  | push t =>
    simp only [MetaServer.step] at hst
    split at hst
    next c d ip said hpc =>
      obtain rfl := Option.some.inj hst
      exact h.push hdistinct hpc
    next => cases hst
  | close t =>
    simp only [MetaServer.step] at hst
    split at hst
    next c d ip port hpc =>
      obtain rfl := Option.some.inj hst
      exact h.close (by rw [hpc]; rfl) rfl trivial fun hacc => by
        simp [hpc, MetaPc.accepted] at hacc
    next => cases hst

end MetaInv

/-! ### The result -/

namespace MetaServer

variable {τ : Type} (clients : ℕ → MetaClient) (st : MetaServer τ)

/-- A call has accepted the socket and not yet parked it. -/
def Held (e : MetaFd) : Prop := ∃ t, (st.pc t).accepted = some e

/-- The socket was handed out. -/
def Given (e : MetaFd) : Prop := ∃ x ∈ st.handed, x.socket = e.socket

/-- Every handout is right and no socket is handed out twice; a call uses the open socket that it
was handed; and an accepted socket with a `MetaHello` has been handed out, or is in the deque of its
connection, or is on its way there: one of the three. -/
structure Matched : Prop where
  right : ∀ x ∈ st.handed, x.Right clients
  once : (st.handed.map (·.socket)).Nodup
  used : ∀ t connId e ip clientPort, st.pc t = .talk connId e ip clientPort →
    st.owner e.fd = some e ∧ ⟨connId, e.socket, ip, clientPort⟩ ∈ st.handed
  kept : ∀ e hello, st.made e.socket = some e → (clients e.socket).hello = some hello →
    (st.Given e ∧ ¬ st.Held e ∧ ∀ c, e ∉ st.pendingMetaFd c) ∨
    (¬ st.Given e ∧ st.Held e ∧ ∀ c, e ∉ st.pendingMetaFd c) ∨
    ¬ st.Given e ∧ ¬ st.Held e ∧ st.pendingMetaFd hello.connId = [e] ∧
      ∀ c, e ∈ st.pendingMetaFd c → c = hello.connId

variable {clients st}

theorem Matched.of_inv (h : MetaInv clients st) : st.Matched clients where
  right := h.right
  once := h.nodup
  used t c e ip port hpc := by
    have hknows := h.knows t
    rw [hpc] at hknows
    exact ⟨h.kept.placed.live (p := .hand t) (by rw [place, hpc]; rfl), hknows⟩
  kept e hello hmade hhello := by
    have hparked : ∀ c, e ∈ st.pendingMetaFd c → ¬ st.Held e := fun c hc ⟨t, ht⟩ => by
      have hplace := h.kept.placed.once (p := .hand t) (MetaPc.sock_of_accepted ht)
        (h.place_parked.mpr hc)
      cases hplace
    by_cases hgiven : st.Given e
    · obtain ⟨x, hx, hxe⟩ := hgiven
      have hwaits : ¬ st.Waits e := fun hw => h.waits e hw x hx hxe
      exact .inl ⟨⟨x, hx, hxe⟩, fun hheld => hwaits (.inl hheld), fun c hc => hwaits (.inr ⟨c, hc⟩)⟩
    · obtain hheld | ⟨c, hc⟩ := (h.all e hello hmade hhello).resolve_left hgiven
      · exact .inr (.inl ⟨hgiven, hheld, fun c hc => hparked c hc hheld⟩)
      · have hown : ∀ c, e ∈ st.pendingMetaFd c → c = hello.connId := fun c hc => by
          obtain ⟨said, hsaid, hid, -⟩ := h.parked c e hc
          obtain rfl := Option.some.inj (hhello.symm.trans hsaid)
          exact hid.symm
        obtain rfl := hown c hc
        refine .inr (.inr ⟨hgiven, hparked _ hc, ?_, hown⟩)
        have hsingle := h.single hello.connId
        match st.pendingMetaFd hello.connId, hc, hsingle with
        | [d], hd, _ => rw [List.mem_singleton.mp hd]

/-- **Matching.** In every run each call gets the socket of its connection, and no socket is lost or
given away twice: one that was accepted and has announced a connection was handed out to a call for
it, or is parked for one, or is in the hands of a call that is about to park it. -/
theorem matched_of_reach [DecidableEq τ] (hdistinct : DistinctIds clients)
    (h : Reach (step clients) Free start st) : st.Matched clients := by
  have hinv : MetaInv clients st :=
    h.invariant .start fun _ _ _ _ hI _ hst => hI.step hdistinct hst
  exact .of_inv hinv

/-- Two sockets, of which the one that is asked for later comes first. -/
def twoClients (n : ℕ) : MetaClient where
  ip := if n = 0 then "10.0.0.2" else "10.0.0.3"
  hello := if n = 0 then some ⟨7, 2025⟩ else if n = 1 then some ⟨8, 2026⟩ else none

theorem connId_twoClients {n : ℕ} {hello : MetaHello} (h : (twoClients n).hello = some hello) :
    n = 0 ∧ hello.connId = 7 ∨ n = 1 ∧ hello.connId = 8 := by
  simp only [twoClients] at h
  split_ifs at h with h₀ h₁
  · obtain rfl := Option.some.inj h
    exact .inl ⟨h₀, rfl⟩
  · obtain rfl := Option.some.inj h
    exact .inr ⟨h₁, rfl⟩

theorem distinct_twoClients : DistinctIds twoClients := by
  intro m n hello hello' hm hn heq
  obtain ⟨rfl, hid⟩ | ⟨rfl, hid⟩ := connId_twoClients hm <;>
    obtain ⟨rfl, hid'⟩ | ⟨rfl, hid'⟩ := connId_twoClients hn
  · rfl
  · rw [hid, hid'] at heq
    cases heq
  · rw [hid, hid'] at heq
    cases heq
  · rfl

/-- The first socket waits for the call that asks for it. -/
theorem matched_of_reach_twoClients : ∃ st : MetaServer Bool, st.handed =
    [⟨8, 1, "10.0.0.3", 2026⟩, ⟨7, 0, "10.0.0.2", 2025⟩] ∧ st.Matched twoClients := by
  obtain ⟨st, hst, hhanded⟩ : ∃ st : MetaServer Bool, Reach (step twoClients) Free start st ∧
      st.handed = [⟨8, 1, "10.0.0.3", 2026⟩, ⟨7, 0, "10.0.0.2", 2025⟩] :=
    exists_reach_of_exec [.call true 8, .pop true, .accept true 3 0, .hello true, .push true,
      .pop true, .accept true 4 1, .hello true, .push true, .call false 7, .pop true, .close true,
      .pop false] (by decide +kernel)
  exact ⟨st, hhanded, matched_of_reach distinct_twoClients hst⟩

end MetaServer

end HMC.Rdma
