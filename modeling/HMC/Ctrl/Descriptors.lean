import HMC.Machine.Places
import HMC.Machine.Run

/-!
# The descriptors of the control sockets

`CtrlSocketManager` keeps file descriptors in its listener fields, in the hands of its accept
threads and of its callers, and in `id_to_conn_`. One thread calls `start` and `stop`; any number of
threads dial, send, receive and close at the same time, and the rest of the process opens and closes
descriptors of its own. The kernel may give a new descriptor any number that is not open.

`conserved_of_reach` says that no descriptor is lost, none is closed twice or in place of another,
and no thread handle is overwritten, in any interleaving; after `stop` and `closeAll` none is left.

A descriptor is a number together with a serial, so that the next descriptor of the same number is
another one, and a `close` goes to whatever has the number at that time. `Place` lists the variables
that hold numbers. `Kept` says that the descriptor in a place is the open one of its number and is
in no other place; it is kept by the four things that a step does to descriptors: `openAt`,
`closeAt`, `bind` and `eraseConn`. The rest of the invariant is about the server: which listeners
and threads there are at each point of `start` and `stop` (`Phase`), and that an accept thread holds
a descriptor only while it waits for the HELLO (`Handling`).
-/

namespace HMC.Ctrl.Descriptors

open HMC.Machine

/-- The listeners of a process. -/
inductive Transport
  | tcp
  | uds
  deriving DecidableEq

/-- A descriptor number and the open file it was given for. -/
structure Desc where
  fd : ℕ
  serial : ℕ
  deriving DecidableEq

/-- What may hold a descriptor: the field of a listener, an accept thread, a call of `connectTcp` or
`connectUds`, an entry of `id_to_conn_`, or the rest of the process. -/
inductive Place (κ : Type)
  | listenFd (t : Transport)
  | accepted (t : Transport)
  | dialed (k : κ)
  | conn (peerId : ℕ)
  | other (n : ℕ)
  deriving DecidableEq

/-- Where an accept thread is: at `while (running_)`, at the load of the listener field, at `accept`
with what it has loaded, in `recvHelloAndBind_`, or at its end. -/
inductive AcceptPc
  | check
  | load
  | accept (listenFd : Option Desc)
  | hello
  | exited
  deriving DecidableEq

/-- Where the thread that starts and stops the server is. The flag is the variable `ok` of
`start`. -/
inductive Control
  | idle
  | socket (t : Transport) (ok : Bool)
  | listen (t : Transport) (ok : Bool)
  | close (t : Transport)
  | join (t : Transport)
  deriving DecidableEq

/-- What must not happen: a `close` of a number that belongs to another descriptor or to none, a
descriptor whose only copy is overwritten, and an assignment to a joinable `std::thread`. -/
inductive Fault
  | closesOther (e : Desc)
  | loses (e : Desc)
  | terminates (t : Transport)
  deriving DecidableEq

/-- A system call on a number: the descriptor that was meant and the one that the number is of. -/
structure Use where
  meant : Desc
  got : Desc
  deriving DecidableEq

/-- The manager and the descriptor table of the process. `copied` is what a call of `send` or `recv`
has got from `fdOf_`, `locked` says that `closeAll` holds the mutex, and `faults` and `uses` are
histories. -/
structure Manager (κ : Type) where
  running : Bool
  want : Transport → Bool
  control : Control
  thread : Transport → Option AcceptPc
  place : Place κ → Option Desc
  keys : List ℕ
  locked : Bool
  copied : κ → Option Desc
  owner : ℕ → Option Desc
  made : ℕ → Option Desc
  faults : List Fault
  uses : List Use

/-- The steps of `start` and `stop`, of an accept thread, of the calls `k` that dial, of `close` and
`closeAll`, of the calls that send and receive, and of the rest of the process. Each system call may
fail; a call that opens a descriptor comes with the one that the kernel gives. -/
inductive Act (κ : Type)
  | start (want : Transport → Bool)
  | skip
  | socket (e : Desc)
  | socketFails
  | listens
  | listenFails
  | stop
  | closeListener
  | join
  | check (t : Transport)
  | load (t : Transport)
  | accept (t : Transport) (e : Desc)
  | acceptFails (t : Transport)
  | hello (t : Transport) (peerId : ℕ)
  | helloFails (t : Transport)
  | dial (k : κ) (e : Desc)
  | dialFails (k : κ)
  | register (k : κ) (peerId : ℕ)
  | close (peerId : ℕ)
  | closeAll
  | closeNext (peerId : ℕ)
  | closeDone
  | fdOf (k : κ) (peerId : ℕ)
  | io (k : κ)
  | returns (k : κ)
  | otherOpens (n : ℕ) (e : Desc)
  | otherCloses (n : ℕ)

namespace Manager

variable {κ : Type}

def empty : Manager κ where
  running := false
  want _ := false
  control := .idle
  thread _ := none
  place _ := none
  keys := []
  locked := false
  copied _ := none
  owner _ := none
  made _ := none
  faults := []
  uses := []

section

variable (st : Manager κ)

/-- The kernel may hand out this descriptor. -/
def Fresh (e : Desc) : Prop := st.owner e.fd = none ∧ st.made e.serial = none

instance (e : Desc) : Decidable (st.Fresh e) := inferInstanceAs (Decidable (_ ∧ _))

def goto (control : Control) : Manager κ := { st with control := control }

/-- `stop`, up to its first branch. -/
def stop : Manager κ :=
  if st.running then { st with running := false, control := .close .tcp }
  else { st with control := .idle }

/-- `start`, once it is through with a transport. -/
def after : Transport → Bool → Manager κ
  | .tcp, ok => st.goto (.socket .uds ok)
  | .uds, true => st.goto .idle
  | .uds, false => st.stop

/-- `stop`, once it has joined the thread of a transport. -/
def joined : Transport → Manager κ
  | .tcp => st.goto (.close .uds)
  | .uds => st.goto .idle

def setThread (t : Transport) (pc : Option AcceptPc) : Manager κ :=
  { st with thread := Function.update st.thread t pc }

/-- Assign a new thread to the member of a transport. -/
def spawn (t : Transport) : Manager κ :=
  { st.setThread t (some .check) with
    faults := st.faults ++ (st.thread t).toList.map fun _ => .terminates t }

def use (meant got : Desc) : Manager κ := { st with uses := st.uses ++ [⟨meant, got⟩] }

@[simp] theorem place_setThread (t : Transport) (pc : Option AcceptPc) :
    (st.setThread t pc).place = st.place := rfl

@[simp] theorem place_use (meant got : Desc) : (st.use meant got).place = st.place := rfl

end

variable [DecidableEq κ] (st : Manager κ)

/-- Assign a number, or -1, to a variable. -/
def assign (p : Place κ) (o : Option Desc) : Manager κ :=
  { st with
    place := Function.update st.place p o
    faults := st.faults ++ (st.place p).toList.map .loses }

/-- A system call that opens a descriptor, whose number goes to a variable. -/
def openAt (p : Place κ) (e : Desc) : Manager κ :=
  { st.assign p (some e) with
    owner := Function.update st.owner e.fd (some e)
    made := Function.update st.made e.serial (some e) }

/-- `if (fd >= 0) ::close(fd)`. -/
def closeAt (p : Place κ) : Manager κ :=
  { st with
    place := Function.update st.place p none
    owner := release Desc.fd st.owner (st.place p)
    faults := st.faults ++
      ((st.place p).toList.filter fun e => st.owner e.fd ≠ some e).map .closesOther }

/-- Close the descriptor of an entry of `id_to_conn_` and erase the entry. -/
def eraseConn (peerId : ℕ) : Manager κ :=
  { st.closeAt (.conn peerId) with keys := st.keys.erase peerId }

/-- The end of `connectTcp`, `connectUds` and `recvHelloAndBind_`: register the descriptor for the
peer, or close it if the peer has one. -/
def bind (p : Place κ) (peerId : ℕ) : Manager κ :=
  match st.place (.conn peerId) with
  | none => { st with
      place := Function.update (Function.update st.place p none) (.conn peerId) (st.place p)
      keys := peerId :: st.keys }
  | some _ => st.closeAt p

/-- What the thread of `start` and `stop` does. -/
def stepControl : Control → Act κ → Option (Manager κ)
  | .idle, .start want =>
    if st.running then some st
    else some { st with want := want, running := true, control := .socket .tcp true }
  | .idle, .stop => some st.stop
  | .socket t ok, .skip => if st.want t = false then some (st.after t ok) else none
  | .socket t ok, .socket e =>
    if st.want t = true ∧ st.Fresh e then
      some ((st.openAt (.listenFd t) e).goto (.listen t ok))
    else none
  | .socket t _, .socketFails =>
    if st.want t = true then some ((st.assign (.listenFd t) none).after t false) else none
  | .listen t ok, .listens => some ((st.spawn t).after t ok)
  | .listen t _, .listenFails => some ((st.closeAt (.listenFd t)).after t false)
  | .close t, .closeListener => some ((st.closeAt (.listenFd t)).goto (.join t))
  | .join t, .join =>
    match st.thread t with
    | none => some (st.joined t)
    | some .exited => some ((st.setThread t none).joined t)
    | some _ => none
  | _, _ => none

/-- What an accept thread does. -/
def stepThread (t : Transport) : Option AcceptPc → Act κ → Option (Manager κ)
  | some .check, .check _ => some (st.setThread t (some (if st.running then .load else .exited)))
  | some .load, .load _ => some (st.setThread t (some (.accept (st.place (.listenFd t)))))
  | some (.accept (some l)), .accept _ e =>
    match st.owner l.fd with
    | none => none
    | some got =>
      if st.Fresh e then
        some (((st.openAt (.accepted t) e).setThread t (some .hello)).use l got)
      else none
  | some (.accept _), .acceptFails _ => some (st.setThread t (some .check))
  | some .hello, .hello _ peerId =>
    if st.locked then none
    else some ((st.bind (.accepted t) peerId).setThread t (some .check))
  | some .hello, .helloFails _ =>
    some ((st.closeAt (.accepted t)).setThread t (some .check))
  | _, _ => none

/-- One step. A call that takes the mutex waits for `closeAll`. -/
def step : Act κ → Option (Manager κ)
  | .check t => st.stepThread t (st.thread t) (.check t)
  | .load t => st.stepThread t (st.thread t) (.load t)
  | .accept t e => st.stepThread t (st.thread t) (.accept t e)
  | .acceptFails t => st.stepThread t (st.thread t) (.acceptFails t)
  | .hello t peerId => st.stepThread t (st.thread t) (.hello t peerId)
  | .helloFails t => st.stepThread t (st.thread t) (.helloFails t)
  | .dial k e =>
    if st.place (.dialed k) = none ∧ st.Fresh e then some (st.openAt (.dialed k) e) else none
  | .dialFails k => some (st.closeAt (.dialed k))
  | .register k peerId =>
    if st.locked = false ∧ st.place (.dialed k) ≠ none then some (st.bind (.dialed k) peerId)
    else none
  | .close peerId =>
    if st.locked = false ∧ peerId ∈ st.keys then some (st.eraseConn peerId) else none
  | .closeAll => if st.locked then none else some { st with locked := true }
  | .closeNext peerId =>
    if st.locked = true ∧ peerId ∈ st.keys then some (st.eraseConn peerId) else none
  | .closeDone =>
    if st.locked = true ∧ st.keys = [] then some { st with locked := false } else none
  | .fdOf k peerId =>
    if st.locked = false ∧ st.copied k = none then
      some { st with copied := Function.update st.copied k (st.place (.conn peerId)) }
    else none
  | .io k =>
    match st.copied k with
    | none => none
    | some e =>
      match st.owner e.fd with
      | none => some st
      | some got => some (st.use e got)
  | .returns k => some { st with copied := Function.update st.copied k none }
  | .otherOpens n e =>
    if st.place (.other n) = none ∧ st.Fresh e then some (st.openAt (.other n) e) else none
  | .otherCloses n => some (st.closeAt (.other n))
  | a => st.stepControl st.control a

/-! ### Where the descriptors are -/

/-- Every open descriptor is in one place, nothing has gone wrong, and the keys are those of the
entries. -/
structure Kept : Prop where
  placed : Placed Desc.fd Desc.serial st.place st.owner st.made
  clean : st.faults = []
  nodup : st.keys.Nodup
  mem_keys : ∀ peerId, peerId ∈ st.keys ↔ st.place (.conn peerId) ≠ none

namespace Kept

variable {st} {p : Place κ} {e : Desc} {peerId : ℕ}

omit [DecidableEq κ] in
theorem start : (empty : Manager κ).Kept where
  placed := .empty
  clean := rfl
  nodup := List.nodup_nil
  mem_keys _ := by simp [empty]

omit [DecidableEq κ] in
/-- A step that moves no descriptor. -/
theorem congr {st' : Manager κ} (h : st.Kept) (hplace : st'.place = st.place)
    (howner : st'.owner = st.owner) (hmade : st'.made = st.made) (hfaults : st'.faults = st.faults)
    (hkeys : st'.keys = st.keys) : st'.Kept := by
  constructor
  · rw [hplace, howner, hmade]
    exact h.placed
  · rw [hfaults]
    exact h.clean
  · rw [hkeys]
    exact h.nodup
  · rw [hkeys, hplace]
    exact h.mem_keys

theorem openAt (h : st.Kept) (hp : st.place p = none) (hconn : ∀ peerId, p ≠ .conn peerId)
    (he : st.Fresh e) : (st.openAt p e).Kept where
  placed := h.placed.insert hp he.1 he.2
  clean := by simp [Manager.openAt, assign, h.clean, hp]
  nodup := h.nodup
  mem_keys peerId := by
    have hne : Place.conn peerId ≠ p := (hconn peerId).symm
    simpa [Manager.openAt, assign, Function.update_of_ne hne] using h.mem_keys peerId

/-- A `close` of what lies in a place is a close of one's own. -/
theorem faults_closeAt (h : st.Kept) (p : Place κ) : (st.closeAt p).faults = [] := by
  have hown : ∀ e ∈ (st.place p).toList, ¬ st.owner e.fd ≠ some e := fun e he =>
    not_not_intro (h.placed.live (Option.mem_toList.mp he))
  have hnone : (st.place p).toList.filter (fun e => st.owner e.fd ≠ some e) = [] := by
    simpa using hown
  simp only [Manager.closeAt, hnone, h.clean, List.map_nil, List.append_nil]

theorem closeAt (h : st.Kept) (hconn : ∀ peerId, p ≠ .conn peerId) : (st.closeAt p).Kept where
  placed := h.placed.destroy p
  clean := h.faults_closeAt p
  nodup := h.nodup
  mem_keys peerId := by
    have hne : Place.conn peerId ≠ p := (hconn peerId).symm
    simpa [Manager.closeAt, Function.update_of_ne hne] using h.mem_keys peerId

theorem eraseConn (h : st.Kept) (peerId : ℕ) : (st.eraseConn peerId).Kept where
  placed := h.placed.destroy _
  clean := h.faults_closeAt _
  nodup := h.nodup.erase _
  mem_keys n := by
    by_cases hn : n = peerId
    · subst hn
      simp [Manager.eraseConn, Manager.closeAt, h.nodup.not_mem_erase]
    · have hne : Place.conn n ≠ (.conn peerId : Place κ) := fun heq => hn (Place.conn.inj heq)
      simpa [Manager.eraseConn, Manager.closeAt, Function.update_of_ne hne,
        List.mem_erase_of_ne hn] using h.mem_keys n

theorem bind (h : st.Kept) (hp : st.place p ≠ none) (hconn : ∀ peerId, p ≠ .conn peerId)
    (peerId : ℕ) : (st.bind p peerId).Kept := by
  unfold Manager.bind
  split
  next hnone =>
    have hkey : peerId ∉ st.keys := fun hmem => (h.mem_keys peerId).mp hmem hnone
    refine ⟨h.placed.move (hconn peerId).symm hnone, h.clean, List.nodup_cons.mpr ⟨hkey, h.nodup⟩,
      fun n => ?_⟩
    by_cases hn : n = peerId
    · subst hn
      simpa using hp
    · have hne : Place.conn n ≠ (.conn peerId : Place κ) := fun heq => hn (Place.conn.inj heq)
      have hne' : Place.conn n ≠ p := (hconn n).symm
      simpa [hn, Function.update_of_ne hne, Function.update_of_ne hne'] using h.mem_keys n
  next => exact h.closeAt hconn

end Kept

/-! ### What the server does -/

/-- No listener and no thread. -/
def Quiet (t : Transport) : Prop := st.place (.listenFd t) = none ∧ st.thread t = none

/-- What the thread of `start` and `stop` knows where it is: the transports that `start` has yet to
come to are quiet, and so are those that `stop` is through with. -/
def Phase : Control → Prop
  | .idle => st.running = false → ∀ t, st.Quiet t
  | .socket t _ => st.running = true ∧ st.Quiet t ∧ (t = .tcp → st.Quiet .uds)
  | .listen t _ => st.running = true ∧ st.thread t = none ∧ (t = .tcp → st.Quiet .uds)
  | .close t => st.running = false ∧ (t = .uds → st.Quiet .tcp)
  | .join t =>
    st.running = false ∧ st.place (.listenFd t) = none ∧ (t = .uds → st.Quiet .tcp)

/-- An accept thread holds a descriptor while it waits for the HELLO. -/
def Handling : Prop := ∀ t, st.place (.accepted t) ≠ none ↔ st.thread t = some .hello

/-- The descriptors are where they belong, and the server is at a place that agrees with them. -/
structure Inv : Prop where
  kept : st.Kept
  phase : st.Phase st.control
  handling : st.Handling

section

variable {st} {st' : Manager κ} {t : Transport} {p : Place κ} {e : Desc} {ok : Bool}

omit [DecidableEq κ] in
/-- A step that leaves the listeners, the flag and the set of threads as they are. -/
theorem Phase.congr {c : Control} (h : st.Phase c)
    (hlisten : ∀ t, st'.place (.listenFd t) = st.place (.listenFd t))
    (hthread : ∀ t, st'.thread t = none ↔ st.thread t = none)
    (hrunning : st'.running = st.running) : st'.Phase c := by
  have hquiet : ∀ t, st'.Quiet t ↔ st.Quiet t := fun t => by
    rw [Quiet, Quiet, hlisten, hthread]
  cases c with
  | idle | socket | close => simpa only [Phase, hrunning, hquiet] using h
  | listen => simpa only [Phase, hrunning, hquiet, hthread] using h
  | join => simpa only [Phase, hrunning, hquiet, hlisten] using h

omit [DecidableEq κ] in
theorem Handling.congr (h : st.Handling)
    (haccepted : ∀ t, st'.place (.accepted t) = st.place (.accepted t))
    (hthread : st'.thread = st.thread) : st'.Handling := by
  intro t
  rw [haccepted, hthread]
  exact h t

omit [DecidableEq κ] in
/-- An accept thread goes on. -/
theorem Handling.update {pc : Option AcceptPc} (h : st.Handling)
    (haccepted : ∀ u, u ≠ t → st'.place (.accepted u) = st.place (.accepted u))
    (hthread : st'.thread = Function.update st.thread t pc)
    (ht : st'.place (.accepted t) ≠ none ↔ pc = some .hello) : st'.Handling := by
  intro u
  by_cases hu : u = t
  · rw [hu, hthread, Function.update_self]
    exact ht
  · rw [haccepted u hu, hthread, Function.update_of_ne hu]
    exact h u

omit [DecidableEq κ] in
theorem Inv.empty : (empty : Manager κ).Inv where
  kept := .start
  phase _ t := ⟨rfl, rfl⟩
  handling t := by simp [Manager.empty]

omit [DecidableEq κ] in
/-- A step that the server has no part in. -/
theorem Inv.elsewhere (h : st.Inv) (hkept : st'.Kept)
    (hlisten : ∀ t, st'.place (.listenFd t) = st.place (.listenFd t))
    (haccepted : ∀ t, st'.place (.accepted t) = st.place (.accepted t))
    (hthread : st'.thread = st.thread) (hrunning : st'.running = st.running)
    (hcontrol : st'.control = st.control) : st'.Inv where
  kept := hkept
  phase := by
    rw [hcontrol]
    exact h.phase.congr hlisten (fun t => by rw [hthread]) hrunning
  handling := h.handling.congr haccepted hthread

omit [DecidableEq κ] in
/-- A step that moves no descriptor and that the server has no part in. -/
theorem Inv.unmoved (h : st.Inv) (hplace : st'.place = st.place) (howner : st'.owner = st.owner)
    (hmade : st'.made = st.made) (hfaults : st'.faults = st.faults) (hkeys : st'.keys = st.keys)
    (hthread : st'.thread = st.thread) (hrunning : st'.running = st.running)
    (hcontrol : st'.control = st.control) : st'.Inv :=
  h.elsewhere (h.kept.congr hplace howner hmade hfaults hkeys) (fun _ => by rw [hplace])
    (fun _ => by rw [hplace]) hthread hrunning hcontrol

omit [DecidableEq κ] in
theorem kept_goto {c : Control} (h : st.Kept) : (st.goto c).Kept := h.congr rfl rfl rfl rfl rfl

omit [DecidableEq κ] in
theorem handling_goto {c : Control} (h : st.Handling) : (st.goto c).Handling :=
  h.congr (fun _ => rfl) rfl

omit [DecidableEq κ] in
theorem Inv.stop (hkept : st.Kept) (hhandling : st.Handling)
    (hquiet : st.running = false → ∀ t, st.Quiet t) : st.stop.Inv := by
  rw [Manager.stop]
  split_ifs with hrun
  · exact ⟨hkept.congr rfl rfl rfl rfl rfl, ⟨rfl, nofun⟩, hhandling.congr (fun _ => rfl) rfl⟩
  · exact ⟨hkept.congr rfl rfl rfl rfl rfl, fun h => hquiet h, hhandling.congr (fun _ => rfl) rfl⟩

omit [DecidableEq κ] in
/-- `start` goes on with the next transport, returns, or calls `stop`. -/
theorem Inv.after (hkept : st.Kept) (hhandling : st.Handling) (hrun : st.running = true)
    (huds : t = .tcp → st.Quiet .uds) : (st.after t ok).Inv := by
  have hnot : ∀ {P : Prop}, st.running = false → P := fun h => by
    rw [hrun] at h
    cases h
  match t, ok with
  | .tcp, ok => exact ⟨kept_goto hkept, ⟨hrun, huds rfl, nofun⟩, handling_goto hhandling⟩
  | .uds, true => exact ⟨kept_goto hkept, fun h => hnot h, handling_goto hhandling⟩
  | .uds, false => exact .stop hkept hhandling fun h => hnot h

omit [DecidableEq κ] in
/-- `stop` goes on with the next transport or returns. -/
theorem Inv.joined (hkept : st.Kept) (hhandling : st.Handling) (hrun : st.running = false)
    (hquiet : st.Quiet t) (htcp : t = .uds → st.Quiet .tcp) : (st.joined t).Inv := by
  cases t with
  | tcp => exact ⟨kept_goto hkept, ⟨hrun, fun _ => hquiet⟩, handling_goto hhandling⟩
  | uds =>
    refine ⟨kept_goto hkept, fun _ u => ?_, handling_goto hhandling⟩
    cases u with
    | tcp => exact htcp rfl
    | uds => exact hquiet

/-! ### One step -/

theorem place_openAt_of_ne {q : Place κ} (h : q ≠ p) : (st.openAt p e).place q = st.place q :=
  Function.update_of_ne h _ _

theorem place_closeAt_of_ne {q : Place κ} (h : q ≠ p) : (st.closeAt p).place q = st.place q :=
  Function.update_of_ne h _ _

theorem place_eraseConn_of_ne {q : Place κ} {peerId : ℕ} (h : q ≠ .conn peerId) :
    (st.eraseConn peerId).place q = st.place q :=
  Function.update_of_ne h _ _

theorem place_bind_of_ne {q : Place κ} {peerId : ℕ} (h : q ≠ p) (hconn : q ≠ .conn peerId) :
    (st.bind p peerId).place q = st.place q := by
  unfold bind
  split
  · exact (Function.update_of_ne hconn _ _).trans (Function.update_of_ne h _ _)
  · exact place_closeAt_of_ne h

theorem place_bind_self {peerId : ℕ} (hconn : p ≠ .conn peerId) :
    (st.bind p peerId).place p = none := by
  unfold bind
  split
  · exact (Function.update_of_ne hconn _ _).trans (Function.update_self _ _ _)
  · exact Function.update_self _ _ _

/-- A step that puts a descriptor elsewhere. -/
theorem Inv.openAt (h : st.Inv) (hp : st.place p = none) (hconn : ∀ n, p ≠ .conn n)
    (hlisten : ∀ t, p ≠ .listenFd t) (haccepted : ∀ t, p ≠ .accepted t) (he : st.Fresh e) :
    (st.openAt p e).Inv :=
  h.elsewhere (h.kept.openAt hp hconn he) (fun t => place_openAt_of_ne (hlisten t).symm)
    (fun t => place_openAt_of_ne (haccepted t).symm) rfl rfl rfl

theorem Inv.closeAt (h : st.Inv) (hconn : ∀ n, p ≠ .conn n) (hlisten : ∀ t, p ≠ .listenFd t)
    (haccepted : ∀ t, p ≠ .accepted t) : (st.closeAt p).Inv :=
  h.elsewhere (h.kept.closeAt hconn) (fun t => place_closeAt_of_ne (hlisten t).symm)
    (fun t => place_closeAt_of_ne (haccepted t).symm) rfl rfl rfl

theorem Inv.eraseConn (h : st.Inv) (peerId : ℕ) : (st.eraseConn peerId).Inv :=
  h.elsewhere (h.kept.eraseConn peerId) (fun _ => place_eraseConn_of_ne (by simp))
    (fun _ => place_eraseConn_of_ne (by simp)) rfl rfl rfl

theorem bind_fields (p : Place κ) (peerId : ℕ) : (st.bind p peerId).thread = st.thread ∧
    (st.bind p peerId).running = st.running ∧ (st.bind p peerId).control = st.control := by
  unfold bind
  split
  · exact ⟨rfl, rfl, rfl⟩
  · exact ⟨rfl, rfl, rfl⟩

theorem Inv.register (h : st.Inv) {k : κ} (hk : st.place (.dialed k) ≠ none) (peerId : ℕ) :
    (st.bind (.dialed k) peerId).Inv := by
  obtain ⟨hthread, hrunning, hcontrol⟩ := st.bind_fields (.dialed k) peerId
  exact h.elsewhere (h.kept.bind hk (by simp) peerId)
    (fun _ => place_bind_of_ne (by simp) (by simp))
    (fun _ => place_bind_of_ne (by simp) (by simp)) hthread hrunning hcontrol

theorem Quiet.openAt {u : Transport} (h : st.Quiet u) (hp : .listenFd u ≠ p) :
    (st.openAt p e).Quiet u :=
  ⟨(place_openAt_of_ne hp).trans h.1, h.2⟩

theorem Quiet.closeAt {u : Transport} (h : st.Quiet u) (hp : .listenFd u ≠ p) :
    (st.closeAt p).Quiet u :=
  ⟨(place_closeAt_of_ne hp).trans h.1, h.2⟩

omit [DecidableEq κ] in
theorem Quiet.setThread {u : Transport} (h : st.Quiet u) (pc : Option AcceptPc) (hu : u ≠ t) :
    (st.setThread t pc).Quiet u :=
  ⟨h.1, (Function.update_of_ne hu _ _).trans h.2⟩

/-- A variable that holds no descriptor is set to -1. -/
theorem assign_none (h : st.place p = none) : st.assign p none = st := by
  rw [assign, h, ← h, Function.update_eq_self]
  simp [h]

theorem Inv.socket (h : st.Inv) (hc : st.control = .socket t ok) (he : st.Fresh e) :
    ((st.openAt (.listenFd t) e).goto (.listen t ok)).Inv := by
  have hphase := h.phase
  rw [hc] at hphase
  obtain ⟨hrun, hquiet, hother⟩ := hphase
  refine ⟨kept_goto (h.kept.openAt hquiet.1 (by simp) he), ⟨hrun, hquiet.2, ?_⟩,
    handling_goto (h.handling.congr (fun _ => place_openAt_of_ne (by simp)) rfl)⟩
  rintro rfl
  exact (hother rfl).openAt (p := .listenFd .tcp) (e := e) (by simp)

theorem Inv.socketFails (h : st.Inv) (hc : st.control = .socket t ok) :
    ((st.assign (.listenFd t) none).after t false).Inv := by
  have hphase := h.phase
  rw [hc] at hphase
  obtain ⟨hrun, hquiet, hother⟩ := hphase
  rw [assign_none hquiet.1]
  exact .after h.kept h.handling hrun hother

omit [DecidableEq κ] in
/-- The thread of a transport starts, in a variable that holds none. -/
theorem Inv.listens (h : st.Inv) (hc : st.control = .listen t ok) :
    ((st.spawn t).after t ok).Inv := by
  have hphase := h.phase
  rw [hc] at hphase
  obtain ⟨hrun, hthread, hother⟩ := hphase
  have hfaults : (st.spawn t).faults = st.faults := by simp [spawn, setThread, hthread]
  refine .after (h.kept.congr rfl rfl rfl hfaults rfl)
    (h.handling.update (fun _ _ => rfl) rfl ?_) hrun ?_
  · have hidle := (h.handling t).not
    simpa [hthread, spawn, setThread] using hidle
  · rintro rfl
    exact (hother rfl).setThread (some .check) (t := .tcp) (by simp)

theorem Inv.listenFails (h : st.Inv) (hc : st.control = .listen t ok) :
    ((st.closeAt (.listenFd t)).after t false).Inv := by
  have hphase := h.phase
  rw [hc] at hphase
  obtain ⟨hrun, -, hother⟩ := hphase
  refine .after (h.kept.closeAt (by simp))
    (h.handling.congr (fun _ => place_closeAt_of_ne (by simp)) rfl) hrun ?_
  rintro rfl
  exact (hother rfl).closeAt (by simp)

theorem Inv.closeListener (h : st.Inv) (hc : st.control = .close t) :
    ((st.closeAt (.listenFd t)).goto (.join t)).Inv := by
  have hphase := h.phase
  rw [hc] at hphase
  obtain ⟨hrun, hother⟩ := hphase
  refine ⟨kept_goto (h.kept.closeAt (by simp)), ⟨hrun, Function.update_self _ _ _, ?_⟩,
    handling_goto (h.handling.congr (fun _ => place_closeAt_of_ne (by simp)) rfl)⟩
  rintro rfl
  exact (hother rfl).closeAt (p := .listenFd .uds) (by simp)

omit [DecidableEq κ] in
/-- The thread of a transport is joined, if there is one. -/
theorem Inv.join (h : st.Inv) (hc : st.control = .join t)
    (ht : st.thread t = none ∨ st.thread t = some .exited) :
    ((st.setThread t none).joined t).Inv := by
  have hphase := h.phase
  rw [hc] at hphase
  obtain ⟨hrun, hlisten, hother⟩ := hphase
  refine .joined (h.kept.congr rfl rfl rfl rfl rfl)
    (h.handling.update (fun _ _ => rfl) rfl ?_) hrun
    ⟨hlisten, Function.update_self _ _ _⟩ ?_
  · have hidle := (h.handling t).not
    rcases ht with ht | ht
    · simpa [ht, setThread] using hidle
    · simpa [ht, setThread] using hidle
  · rintro rfl
    exact (hother rfl).setThread none (by simp)

theorem Inv.stepControl {a : Act κ} (h : st.Inv)
    (hst : st.stepControl st.control a = some st') : st'.Inv := by
  have hphase := h.phase
  unfold Manager.stepControl at hst
  split at hst
  next hc =>
    rw [hc] at hphase
    split_ifs at hst with hrun
    · obtain rfl := Option.some.inj hst
      exact h
    · obtain rfl := Option.some.inj hst
      have hquiet := hphase (Bool.not_eq_true _ ▸ hrun)
      exact ⟨h.kept.congr rfl rfl rfl rfl rfl, ⟨rfl, hquiet .tcp, fun _ => hquiet .uds⟩,
        h.handling.congr (fun _ => rfl) rfl⟩
  next hc =>
    rw [hc] at hphase
    obtain rfl := Option.some.inj hst
    exact .stop h.kept h.handling hphase
  next hc =>
    rw [hc] at hphase
    obtain ⟨-, hst⟩ := Option.ite_none_right_eq_some.mp hst
    obtain rfl := Option.some.inj hst
    exact .after h.kept h.handling hphase.1 hphase.2.2
  next hc =>
    obtain ⟨⟨-, hfresh⟩, hst⟩ := Option.ite_none_right_eq_some.mp hst
    obtain rfl := Option.some.inj hst
    exact h.socket hc hfresh
  next hc =>
    obtain ⟨-, hst⟩ := Option.ite_none_right_eq_some.mp hst
    obtain rfl := Option.some.inj hst
    exact h.socketFails hc
  next hc =>
    obtain rfl := Option.some.inj hst
    exact h.listens hc
  next hc =>
    obtain rfl := Option.some.inj hst
    exact h.listenFails hc
  next hc =>
    obtain rfl := Option.some.inj hst
    exact h.closeListener hc
  next t hc =>
    split at hst
    next ht =>
      obtain rfl := Option.some.inj hst
      have hjoin := h.join hc (.inl ht)
      rwa [setThread, ← ht, Function.update_eq_self] at hjoin
    next ht =>
      obtain rfl := Option.some.inj hst
      exact h.join hc (.inr ht)
    next => cases hst
  next => cases hst

omit [DecidableEq κ] in
/-- An accept thread goes on and leaves the listeners as they are. -/
theorem Inv.thread {pc pc' : AcceptPc} (h : st.Inv) (ht : st.thread t = some pc)
    (hkept : st'.Kept) (hlisten : ∀ u, st'.place (.listenFd u) = st.place (.listenFd u))
    (haccepted : ∀ u, u ≠ t → st'.place (.accepted u) = st.place (.accepted u))
    (hthread : st'.thread = Function.update st.thread t (some pc'))
    (hhello : st'.place (.accepted t) ≠ none ↔ pc' = .hello)
    (hrunning : st'.running = st.running) (hcontrol : st'.control = st.control) : st'.Inv where
  kept := hkept
  phase := by
    rw [hcontrol]
    refine h.phase.congr hlisten (fun u => ?_) hrunning
    rw [hthread]
    by_cases hu : u = t
    · simp [hu, ht]
    · rw [Function.update_of_ne hu]
  handling := h.handling.update haccepted hthread (by rw [hhello, Option.some.injEq])

theorem Inv.stepThread {a : Act κ} (h : st.Inv)
    (hst : st.stepThread t (st.thread t) a = some st') : st'.Inv := by
  have hhandling := h.handling t
  unfold Manager.stepThread at hst
  split at hst
  next ht =>
    obtain rfl := Option.some.inj hst
    rw [ht] at hhandling
    refine h.thread ht (h.kept.congr rfl rfl rfl rfl rfl) (fun _ => rfl) (fun _ _ => rfl) rfl ?_
      rfl rfl
    split_ifs <;> simpa using hhandling
  next ht =>
    obtain rfl := Option.some.inj hst
    rw [ht] at hhandling
    exact h.thread ht (h.kept.congr rfl rfl rfl rfl rfl) (fun _ => rfl) (fun _ _ => rfl) rfl
      (by simpa using hhandling) rfl rfl
  next l _ e ht =>
    -- the descriptor of an accepted connection
    split at hst
    next => cases hst
    next =>
      obtain ⟨hfresh, hst⟩ := Option.ite_none_right_eq_some.mp hst
      obtain rfl := Option.some.inj hst
      have hnone : st.place (.accepted t) = none := by simpa [ht] using hhandling
      have hkept := h.kept.openAt hnone (by simp) hfresh
      exact h.thread ht (hkept.congr rfl rfl rfl rfl rfl)
        (fun u => place_openAt_of_ne (p := .accepted t) (e := e) (q := .listenFd u) (by simp))
        (fun u hu => place_openAt_of_ne (p := .accepted t) (e := e) (q := .accepted u)
          (by simpa using hu))
        rfl (by simp [Manager.openAt, assign]) rfl rfl
  next ht =>
    obtain rfl := Option.some.inj hst
    rw [ht] at hhandling
    exact h.thread ht (h.kept.congr rfl rfl rfl rfl rfl) (fun _ => rfl) (fun _ _ => rfl) rfl
      (by simpa using hhandling) rfl rfl
  next peerId ht =>
    split_ifs at hst
    obtain rfl := Option.some.inj hst
    have hsome : st.place (.accepted t) ≠ none := hhandling.mpr ht
    obtain ⟨hthread, hrunning, hcontrol⟩ := st.bind_fields (.accepted t) peerId
    have hkept := h.kept.bind hsome (by simp) peerId
    refine h.thread ht (hkept.congr rfl rfl rfl rfl rfl)
      (fun _ => place_bind_of_ne (by simp) (by simp))
      (fun _ hu => place_bind_of_ne (by simpa using hu) (by simp))
      (by rw [Manager.setThread, hthread]) ?_ hrunning hcontrol
    have hself : (st.bind (.accepted t) peerId).place (.accepted t) = none :=
      place_bind_self (by simp)
    simpa using hself
  next ht =>
    obtain rfl := Option.some.inj hst
    have hkept := h.kept.closeAt (p := .accepted t) (by simp)
    exact h.thread ht (hkept.congr rfl rfl rfl rfl rfl)
      (fun u => place_closeAt_of_ne (p := .accepted t) (q := .listenFd u) (by simp))
      (fun u hu => place_closeAt_of_ne (p := .accepted t) (q := .accepted u) (by simpa using hu))
      rfl (by simp [Manager.closeAt]) rfl rfl
  next => cases hst

/-- **One step** of any thread keeps the invariant, with nothing assumed of the order. -/
theorem Inv.step {a : Act κ} (h : st.Inv) (hst : st.step a = some st') : st'.Inv := by
  cases a with
  | check t => exact h.stepThread hst
  | load t => exact h.stepThread hst
  | accept t e => exact h.stepThread hst
  | acceptFails t => exact h.stepThread hst
  | hello t peerId => exact h.stepThread hst
  | helloFails t => exact h.stepThread hst
  | dial k e =>
    obtain ⟨⟨hnone, hfresh⟩, hst⟩ := Option.ite_none_right_eq_some.mp hst
    obtain rfl := Option.some.inj hst
    exact h.openAt hnone (by simp) (by simp) (by simp) hfresh
  | dialFails k =>
    obtain rfl := Option.some.inj hst
    exact h.closeAt (by simp) (by simp) (by simp)
  | register k peerId =>
    obtain ⟨⟨-, hsome⟩, hst⟩ := Option.ite_none_right_eq_some.mp hst
    obtain rfl := Option.some.inj hst
    exact h.register hsome peerId
  | close peerId =>
    obtain ⟨-, hst⟩ := Option.ite_none_right_eq_some.mp hst
    obtain rfl := Option.some.inj hst
    exact h.eraseConn peerId
  | closeAll =>
    obtain ⟨-, hst⟩ := Option.ite_none_left_eq_some.mp hst
    obtain rfl := Option.some.inj hst
    exact h.unmoved rfl rfl rfl rfl rfl rfl rfl rfl
  | closeNext peerId =>
    obtain ⟨-, hst⟩ := Option.ite_none_right_eq_some.mp hst
    obtain rfl := Option.some.inj hst
    exact h.eraseConn peerId
  | closeDone =>
    obtain ⟨-, hst⟩ := Option.ite_none_right_eq_some.mp hst
    obtain rfl := Option.some.inj hst
    exact h.unmoved rfl rfl rfl rfl rfl rfl rfl rfl
  | fdOf k peerId =>
    obtain ⟨-, hst⟩ := Option.ite_none_right_eq_some.mp hst
    obtain rfl := Option.some.inj hst
    exact h.unmoved rfl rfl rfl rfl rfl rfl rfl rfl
  | io k =>
    simp only [Manager.step] at hst
    split at hst
    next => cases hst
    next =>
      split at hst
      next =>
        obtain rfl := Option.some.inj hst
        exact h
      next =>
        obtain rfl := Option.some.inj hst
        exact h.unmoved rfl rfl rfl rfl rfl rfl rfl rfl
  | returns k =>
    obtain rfl := Option.some.inj hst
    exact h.unmoved rfl rfl rfl rfl rfl rfl rfl rfl
  | otherOpens n e =>
    obtain ⟨⟨hnone, hfresh⟩, hst⟩ := Option.ite_none_right_eq_some.mp hst
    obtain rfl := Option.some.inj hst
    exact h.openAt hnone (by simp) (by simp) (by simp) hfresh
  | otherCloses n =>
    obtain rfl := Option.some.inj hst
    exact h.closeAt (by simp) (by simp) (by simp)
  | start | skip | socket | socketFails | listens | listenFails | stop | closeListener | join =>
    exact h.stepControl hst

end

/-! ### No descriptor is lost -/

/-- Nothing has gone wrong, and the open descriptors are those in the places, each in one. Once
`stop` is through, the server has left nothing; when `closeAll` is, too, and no call is under way,
what is open belongs to the rest of the process. -/
structure Conserved : Prop where
  clean : st.faults = []
  once : ∀ x e, st.owner x = some e ↔ e.fd = x ∧ ∃! p, st.place p = some e
  stopped : st.control = .idle → st.running = false → ∀ t,
    st.thread t = none ∧ st.place (.listenFd t) = none ∧ st.place (.accepted t) = none
  left : st.control = .idle → st.running = false → st.keys = [] →
    (∀ k, st.place (.dialed k) = none) → ∀ x e, st.owner x = some e →
      ∃ n, st.place (.other n) = some e

omit [DecidableEq κ] in
theorem Conserved.of_inv {st : Manager κ} (h : st.Inv) : st.Conserved := by
  have hstopped : st.control = .idle → st.running = false → ∀ t,
      st.thread t = none ∧ st.place (.listenFd t) = none ∧ st.place (.accepted t) = none := by
    intro hidle hrun t
    have hphase := h.phase
    rw [hidle] at hphase
    have hquiet := hphase hrun t
    have haccepted := (h.handling t).not
    rw [hquiet.2] at haccepted
    exact ⟨hquiet.2, hquiet.1, by simpa using haccepted⟩
  refine ⟨h.kept.clean, fun x e => ?_, hstopped, ?_⟩
  · constructor
    · intro howner
      obtain ⟨hx, p, hp⟩ := h.kept.placed.somewhere howner
      exact ⟨hx, p, hp, fun q hq => h.kept.placed.once hq hp⟩
    · rintro ⟨rfl, p, hp, -⟩
      exact h.kept.placed.live hp
  · intro hidle hrun hkeys hdialed x e howner
    obtain ⟨-, p, hp⟩ := h.kept.placed.somewhere howner
    cases p with
    | listenFd t =>
      rw [(hstopped hidle hrun t).2.1] at hp
      cases hp
    | accepted t =>
      rw [(hstopped hidle hrun t).2.2] at hp
      cases hp
    | dialed k =>
      rw [hdialed k] at hp
      cases hp
    | conn peerId =>
      have hkey := (h.kept.mem_keys peerId).mpr (by simp [hp])
      rw [hkeys] at hkey
      cases hkey
    | other n => exact ⟨n, hp⟩

/-- **No descriptor is lost.** In every run of the thread that starts and stops the server, the
accept threads and any number of callers, with system calls that fail at any point and a kernel that
gives out any number that is free. -/
theorem conserved_of_reach {st : Manager κ} (h : Reach step Free empty st) : st.Conserved := by
  have hinv : st.Inv := h.invariant .empty fun _ _ _ _ hI _ hst => hI.step hst
  exact .of_inv hinv

/-- The UDS path cannot be bound, while a peer is accepted that the process has dialed as well:
`start` stops what it has started. -/
theorem conserved_of_reach_failed : ∃ st : Manager Bool,
    (st.owner 3 = none ∧ st.owner 4 = some ⟨4, 1⟩ ∧ st.owner 5 = none ∧ st.running = false) ∧
      st.Conserved := by
  obtain ⟨st, hst, hopen⟩ : ∃ st : Manager Bool, Reach step Free empty st ∧
      st.owner 3 = none ∧ st.owner 4 = some ⟨4, 1⟩ ∧ st.owner 5 = none ∧ st.running = false :=
    exists_reach_of_exec [.start fun _ => true, .socket ⟨3, 0⟩, .listens, .check .tcp, .load .tcp,
      .accept .tcp ⟨4, 1⟩, .dial true ⟨5, 2⟩, .hello .tcp 1, .register true 1, .socket ⟨5, 3⟩,
      .listenFails, .closeListener, .check .tcp, .join, .closeListener, .join] (by decide)
  exact ⟨st, hopen, conserved_of_reach hst⟩

end Manager

end HMC.Ctrl.Descriptors
