import HMC.Ctrl.Link

/-!
# Control links after a close

Any number of processes dial each other, close links and exchange messages, each with a
`CtrlSocketManager` of its own. `close` removes the socket of a peer from the table of the process
that calls it, and nothing tells the peer: it keeps its end in its table, takes this dead socket
for an established link when the HELLO of a new connection arrives, and discards the new one
(`dead_after_reconnect`). Then `connectTcp` has returned true, and no message arrives.

`delivers_of_reach`: a new connection works if each of the two processes has no entry for the
other at the time it registers its end.

The result is about one connection among all that are ever dialed. As `bind` keeps what is
registered, its two ends stay in the tables once they are there, until they are closed; `Spares`
says that an operation on a table leaves the entries and the sockets of the connection alone, and a
step about another connection does only such operations. Then what is written at one end is in
`sent` of that end, and what is read at the other is taken from there, in order.
-/

namespace HMC.Ctrl

open HMC.Machine

/-! ### The table of one process -/

/-- `id_to_conn_`, and which sockets the process has shut down. -/
structure CtrlSocketManager (φ : Type) where
  idToConn : ℕ → Option φ
  shut : φ → Bool

namespace CtrlSocketManager

variable {φ : Type}

def empty : CtrlSocketManager φ := ⟨fun _ => none, fun _ => false⟩

variable [DecidableEq φ] (m : CtrlSocketManager φ)

/-- `shutdown` and `close` of a socket. -/
def drop (fd : φ) : CtrlSocketManager φ := { m with shut := Function.update m.shut fd true }

/-- The last step of `connectTcp`, `connectUds` and `recvHelloAndBind_`: keep the socket that is
registered for the peer, if there is one. -/
def bind (peerId : ℕ) (fd : φ) : CtrlSocketManager φ :=
  match m.idToConn peerId with
  | none => { m with idToConn := Function.update m.idToConn peerId (some fd) }
  | some _ => m.drop fd

/-- `CtrlSocketManager::close`. -/
def close (peerId : ℕ) : CtrlSocketManager φ :=
  match m.idToConn peerId with
  | none => m
  | some fd => { m.drop fd with idToConn := Function.update m.idToConn peerId none }

end CtrlSocketManager

/-! ### The processes -/

/-- The arguments of a call of `connectTcp` or `connectUds`: the process that calls and the one it
dials. -/
structure ConnectCall (ι : Type) where
  caller : ι
  callee : ι
  peerId : ℕ
  selfId : ℕ

/-- The ends of a connection, that of the process that has dialed and that of the one that has
accepted. -/
inductive ConnEnd
  | dialed
  | accepted
  deriving DecidableEq

def ConnEnd.other : ConnEnd → ConnEnd
  | .dialed => .accepted
  | .accepted => .dialed

/-- A socket: one end of a connection. -/
abbrev Fd := ℕ × ConnEnd

/-- The processes and the connections between them, numbered as they are dialed. `returned` says
that the call that dialed a connection has returned, `accepted` that the accept thread is done with
it, `sent` what was written at an end, and `read` how many messages were taken there. -/
structure CtrlNet (ι M : Type) where
  next : ℕ
  hello : ℕ → Bool
  returned : ℕ → Bool
  accepted : ℕ → Bool
  manager : ι → CtrlSocketManager Fd
  sent : Fd → List M
  read : Fd → ℕ

/-- `abort` is a call whose HELLO cannot be sent, `reject` the accept thread that finds no HELLO on
such a connection. With `lost` the system takes a message for a connection that the peer has
closed. `closeAll` is a sequence of `close`. -/
inductive CtrlAct (ι M : Type)
  | dial
  | hello (c : ℕ)
  | abort (c : ℕ)
  | register (c : ℕ)
  | accept (c : ℕ)
  | reject (c : ℕ)
  | close (i : ι) (peerId : ℕ)
  | send (i : ι) (peerId : ℕ) (msg : M) (lost : Bool)
  | recv (i : ι) (peerId : ℕ)

namespace CtrlNet

variable {ι M : Type}

section

def start : CtrlNet ι M where
  next := 0
  hello _ := false
  returned _ := false
  accepted _ := false
  manager _ := .empty
  sent _ := []
  read _ := 0

variable (call : ℕ → ConnectCall ι)

/-- The process that holds an end of a connection. -/
def host (c : ℕ) : ConnEnd → ι
  | .dialed => (call c).caller
  | .accepted => (call c).callee

/-- The id under which this process registers its end. -/
def idAt (c : ℕ) : ConnEnd → ℕ
  | .dialed => (call c).peerId
  | .accepted => (call c).selfId

variable (s : CtrlNet ι M)

def isShut (f : Fd) : Bool := (s.manager (host call f.1 f.2)).shut f

/-- The process at an end is done with the connection. -/
def handled (c : ℕ) : ConnEnd → Bool
  | .dialed => s.returned c
  | .accepted => s.accepted c

/-- A message is written at an end. -/
def write (f : Fd) (msg : M) : CtrlNet ι M :=
  { s with sent := Function.update s.sent f (s.sent f ++ [msg]) }

/-- A message is taken at an end. -/
def take (f : Fd) : CtrlNet ι M := { s with read := Function.update s.read f (s.read f + 1) }

/-- `CtrlSocketManager::send`: a message is lost when the peer has shut down its end. -/
def send (i : ι) (peerId : ℕ) (msg : M) (lost : Bool) : Bool × CtrlNet ι M :=
  match (s.manager i).idToConn peerId with
  | none => (false, s)
  | some f => if s.isShut call (f.1, f.2.other) then (lost, s) else (true, s.write f msg)

/-- `CtrlSocketManager::recv`: the message, if it succeeds; it blocks while the peer may still
write. -/
def recv (i : ι) (peerId : ℕ) : Option (Option M × CtrlNet ι M) :=
  match (s.manager i).idToConn peerId with
  | none => some (none, s)
  | some f =>
    match (s.sent (f.1, f.2.other))[s.read f]? with
    | some msg => some (some msg, s.take f)
    | none => if s.isShut call (f.1, f.2.other) then some (none, s) else none

/-- No end of the connection is closed. -/
def Unclosed (c : ℕ) : CtrlAct ι M → Prop
  | .close i peerId => ((s.manager i).idToConn peerId).map (·.1) ≠ some c
  | _ => True

/-- When an end of the connection is registered, its process has no entry for the peer. -/
def NoEntry (c : ℕ) : CtrlAct ι M → Prop
  | .register c' => c' = c → (s.manager (call c).caller).idToConn (call c).peerId = none
  | .accept c' => c' = c → (s.manager (call c).callee).idToConn (call c).selfId = none
  | _ => True

instance (c : ℕ) : (a : CtrlAct ι M) → Decidable (s.Unclosed c a)
  | .close i peerId => inferInstanceAs (Decidable (((s.manager i).idToConn peerId).map _ ≠ _))
  | .dial | .hello _ | .abort _ | .register _ | .accept _ | .reject _ | .send .. | .recv .. =>
    .isTrue trivial

instance (c : ℕ) : (a : CtrlAct ι M) → Decidable (s.NoEntry call c a)
  | .register c' => inferInstanceAs (Decidable (c' = c → _))
  | .accept c' => inferInstanceAs (Decidable (c' = c → _))
  | .dial | .hello _ | .abort _ | .reject _ | .close .. | .send .. | .recv .. => .isTrue trivial

/-- The client's call has succeeded and the server has processed the HELLO. -/
def Connected (c : ℕ) : Prop := s.hello c = true ∧ s.returned c = true ∧ s.accepted c = true

/-- Both processes write their messages for the other to the connection, and receive those that
the other has written there, in order. -/
def Delivers (c : ℕ) : Prop :=
  ∀ e, (∀ msg lost, s.send call (host call c e) (idAt call c e) msg lost =
      (true, s.write (c, e) msg)) ∧
    ∀ msg, (s.sent (c, e.other))[s.read (c, e)]? = some msg →
      s.recv call (host call c e) (idAt call c e) = some (some msg, s.take (c, e))

end

variable [DecidableEq ι] (call : ℕ → ConnectCall ι) (s : CtrlNet ι M)

def setManager (i : ι) (m : CtrlSocketManager Fd) : CtrlNet ι M :=
  { s with manager := Function.update s.manager i m }

/-- The process at an end registers it, or drops it. -/
def bind (f : Fd) : CtrlNet ι M :=
  s.setManager (host call f.1 f.2) ((s.manager (host call f.1 f.2)).bind (idAt call f.1 f.2) f)

def drop (f : Fd) : CtrlNet ι M :=
  s.setManager (host call f.1 f.2) ((s.manager (host call f.1 f.2)).drop f)

/-- One step. The accept threads are taken to handle the connections in any order. -/
def step : CtrlAct ι M → Option (CtrlNet ι M)
  | .dial => some { s with next := s.next + 1 }
  | .hello c =>
    if c < s.next ∧ s.hello c = false ∧ s.returned c = false then
      some { s with hello := Function.update s.hello c true }
    else none
  | .abort c =>
    if c < s.next ∧ s.hello c = false ∧ s.returned c = false then
      some { s.drop call (c, .dialed) with returned := Function.update s.returned c true }
    else none
  | .register c =>
    if s.hello c = true ∧ s.returned c = false then
      some { s.bind call (c, .dialed) with returned := Function.update s.returned c true }
    else none
  | .accept c =>
    if s.hello c = true ∧ s.accepted c = false then
      some { s.bind call (c, .accepted) with accepted := Function.update s.accepted c true }
    else none
  | .reject c =>
    if s.hello c = false ∧ s.returned c = true ∧ s.accepted c = false then
      some { s.drop call (c, .accepted) with accepted := Function.update s.accepted c true }
    else none
  | .close i peerId => some (s.setManager i ((s.manager i).close peerId))
  | .send i peerId msg lost => some (s.send call i peerId msg lost).2
  | .recv i peerId => (s.recv call i peerId).map (·.2)

end CtrlNet

/-! ### What the operations of a table leave alone -/

/-- The entries of a connection stay, and its ends are not shut down. -/
structure CtrlSocketManager.Spares (c : ℕ) (m m' : CtrlSocketManager Fd) : Prop where
  entry {peerId : ℕ} {e : ConnEnd} :
    m.idToConn peerId = some (c, e) → m'.idToConn peerId = some (c, e)
  shut (e : ConnEnd) : m'.shut (c, e) = m.shut (c, e)

namespace CtrlSocketManager

variable {m : CtrlSocketManager Fd} {c peerId : ℕ} {f : Fd}

theorem bind_of_none {φ : Type} [DecidableEq φ] {m : CtrlSocketManager φ} {fd : φ}
    (h : m.idToConn peerId = none) :
    m.bind peerId fd =
      { m with idToConn := Function.update m.idToConn peerId (some fd) } := by
  rw [bind, h]

theorem spares_refl : Spares c m m := ⟨id, fun _ => rfl⟩

theorem spares_drop (hf : f.1 ≠ c) : Spares c m (m.drop f) :=
  ⟨id, fun _ => Function.update_of_ne (fun h => hf (congrArg Prod.fst h.symm)) _ _⟩

theorem spares_bind_of_none (h : m.idToConn peerId = none) : Spares c m (m.bind peerId f) := by
  rw [bind_of_none h]
  refine ⟨?_, fun _ => rfl⟩
  intro q e hq
  have hne : q ≠ peerId := by
    rintro rfl
    cases h.symm.trans hq
  exact (Function.update_of_ne hne _ _).trans hq

theorem spares_bind (hf : f.1 ≠ c) : Spares c m (m.bind peerId f) := by
  cases h : m.idToConn peerId with
  | none => exact spares_bind_of_none h
  | some g =>
    rw [bind, h]
    exact spares_drop hf

theorem spares_close (h : (m.idToConn peerId).map (·.1) ≠ some c) :
    Spares c m (m.close peerId) := by
  cases hp : m.idToConn peerId with
  | none =>
    rw [close, hp]
    exact spares_refl
  | some f =>
    rw [close, hp]
    rw [hp, Option.map_some, Ne, Option.some.injEq] at h
    refine ⟨?_, (spares_drop h).shut⟩
    intro q e hq
    have hne : q ≠ peerId := by
      rintro rfl
      exact h (Prod.ext_iff.mp (Option.some.inj (hp.symm.trans hq))).1
    exact (Function.update_of_ne hne _ _).trans hq

end CtrlSocketManager

/-! ### One connection -/

namespace CtrlNet

variable {ι M : Type} {call : ℕ → ConnectCall ι} {s s' : CtrlNet ι M} {c : ℕ} {e : ConnEnd}

/-- The ends of a connection are open until they are dropped, and registered once they are
handled. -/
structure Inv (call : ℕ → ConnectCall ι) (c : ℕ) (s : CtrlNet ι M) : Prop where
  returned : s.hello c = false → s.accepted c = true → s.returned c = true
  isOpen (e : ConnEnd) : s.hello c = true ∨ s.handled c e = false → s.isShut call (c, e) = false
  entry (e : ConnEnd) : s.hello c = true → s.handled c e = true →
    (s.manager (host call c e)).idToConn (idAt call c e) = some (c, e)

theorem Inv.start : Inv call c (start : CtrlNet ι M) := by
  refine ⟨?_, fun _ _ => rfl, ?_⟩
  · intro _ h
    cases h
  · intro _ h
    cases h

/-- A step that has nothing to do with the connection. -/
theorem Inv.of_spares (h : Inv call c s)
    (hm : ∀ i, (s.manager i).Spares c (s'.manager i)) (hhello : s'.hello c = s.hello c)
    (hreturned : s'.returned c = s.returned c) (haccepted : s'.accepted c = s.accepted c) :
    Inv call c s' := by
  have hhandled : ∀ e, s'.handled c e = s.handled c e := by
    rintro (_ | _)
    · exact hreturned
    · exact haccepted
  refine ⟨?_, ?_, ?_⟩
  · rw [hhello, hreturned, haccepted]
    exact h.returned
  · intro e he
    rw [hhello, hhandled] at he
    exact ((hm _).shut e).trans (h.isOpen e he)
  · intro e hs hd
    rw [hhello] at hs
    rw [hhandled] at hd
    exact (hm _).entry (h.entry e hs hd)

theorem Inv.delivers (h : Inv call c s) (hc : s.Connected c) : s.Delivers call c := by
  obtain ⟨hhello, hreturned, haccepted⟩ := hc
  have hhandled : ∀ e, s.handled c e = true := by
    rintro (_ | _)
    · exact hreturned
    · exact haccepted
  intro e
  have hentry := h.entry e hhello (hhandled e)
  constructor
  · intro msg lost
    simp [send, hentry, h.isOpen e.other (.inl hhello)]
  · intro msg hmsg
    simp [recv, hentry, hmsg]

variable [DecidableEq ι]

@[simp] theorem manager_setManager_self {i : ι} {m : CtrlSocketManager Fd} :
    (s.setManager i m).manager i = m :=
  Function.update_self ..

@[simp] theorem manager_setManager_of_ne {i j : ι} {m : CtrlSocketManager Fd} (h : j ≠ i) :
    (s.setManager i m).manager j = s.manager j :=
  Function.update_of_ne h _ _

theorem spares_setManager {i : ι} {m : CtrlSocketManager Fd} (h : (s.manager i).Spares c m)
    (j : ι) : (s.manager j).Spares c ((s.setManager i m).manager j) := by
  by_cases hj : j = i
  · rw [hj, manager_setManager_self]
    exact h
  · rw [manager_setManager_of_ne hj]
    exact CtrlSocketManager.spares_refl

theorem isShut_drop_of_ne {f g : Fd} (h : f ≠ g) :
    (s.drop call g).isShut call f = s.isShut call f := by
  rw [drop, isShut, isShut]
  by_cases hhost : host call f.1 f.2 = host call g.1 g.2
  · rw [hhost, manager_setManager_self]
    exact Function.update_of_ne h _ _
  · rw [manager_setManager_of_ne hhost]

namespace Inv

/-- The process at an end registers it. -/
theorem bind (h : Inv call c s) (hhello : s.hello c = true)
    (hnone : (s.manager (host call c e)).idToConn (idAt call c e) = none)
    (hm : s'.manager = (s.bind call (c, e)).manager) (hhello' : s'.hello = s.hello)
    (hhandled : ∀ d, d ≠ e → s'.handled c d = s.handled c d) : Inv call c s' := by
  have hspares : ∀ i, (s.manager i).Spares c (s'.manager i) := by
    rw [hm]
    exact spares_setManager (CtrlSocketManager.spares_bind_of_none hnone)
  refine ⟨?_, ?_, ?_⟩
  · intro hf
    rw [hhello', hhello] at hf
    cases hf
  · intro d _
    exact ((hspares _).shut d).trans (h.isOpen d (.inl hhello))
  · intro d _ hd
    by_cases hde : d = e
    · subst hde
      rw [hm, CtrlNet.bind, manager_setManager_self, CtrlSocketManager.bind_of_none hnone]
      exact Function.update_self ..
    · rw [hhandled d hde] at hd
      exact (hspares _).entry (h.entry d hhello hd)

omit [DecidableEq ι] in
/-- The HELLO arrives while neither process is done with the connection. -/
theorem hello (h : Inv call c s) (hhello : s.hello c = false) (hreturned : s.returned c = false) :
    Inv call c { s with hello := Function.update s.hello c true } := by
  have hnew : ∀ e, s.handled c e = false := by
    rintro (_ | _)
    · exact hreturned
    · by_contra hacc
      have hreturned' := h.returned hhello (by simpa [handled] using hacc)
      cases hreturned.symm.trans hreturned'
  refine ⟨?_, fun e _ => h.isOpen e (.inr (hnew e)), ?_⟩
  · intro hf
    cases (Function.update_self ..).symm.trans hf
  · intro e _ he
    cases (hnew e).symm.trans he

/-- The process that has dialed drops its end without a HELLO. -/
theorem abort (h : Inv call c s) (hhello : s.hello c = false) :
    Inv call c { s.drop call (c, .dialed) with returned := Function.update s.returned c true } := by
  refine ⟨fun _ _ => Function.update_self .., ?_, ?_⟩
  · intro e he
    cases e with
    | dialed =>
      obtain he | he := he
      · cases hhello.symm.trans he
      · cases (Function.update_self ..).symm.trans he
    | accepted => exact (isShut_drop_of_ne (by simp)).trans (h.isOpen _ he)
  · intro e he
    cases hhello.symm.trans he

/-- The process that has accepted drops its end: the other one has given up before. -/
theorem reject (hhello : s.hello c = false) (hreturned : s.returned c = true) :
    Inv call c
      { s.drop call (c, .accepted) with accepted := Function.update s.accepted c true } := by
  refine ⟨fun _ _ => hreturned, ?_, ?_⟩
  · intro e he
    obtain he | he := he
    · cases hhello.symm.trans he
    · cases e with
      | dialed => cases hreturned.symm.trans he
      | accepted => cases (Function.update_self ..).symm.trans he
  · intro e he
    cases hhello.symm.trans he

omit [DecidableEq ι] in
theorem send (h : Inv call c s) (i : ι) (peerId : ℕ) (msg : M) (lost : Bool) :
    Inv call c (s.send call i peerId msg lost).2 := by
  unfold CtrlNet.send
  split
  · exact h
  · split_ifs
    · exact h
    · exact h.of_spares (fun _ => CtrlSocketManager.spares_refl) rfl rfl rfl

omit [DecidableEq ι] in
theorem recv (h : Inv call c s) {i : ι} {peerId : ℕ} {p : Option M × CtrlNet ι M}
    (hr : s.recv call i peerId = some p) : Inv call c p.2 := by
  unfold CtrlNet.recv at hr
  split at hr
  · cases hr
    exact h
  · split at hr
    · cases hr
      exact h.of_spares (fun _ => CtrlSocketManager.spares_refl) rfl rfl rfl
    · split_ifs at hr
      cases hr
      exact h

/-- **One step** keeps the connection, if its ends are not closed and are registered into free
entries. A step about another connection spares it. -/
theorem step {a : CtrlAct ι M} (h : Inv call c s) (hopen : s.Unclosed c a)
    (hnone : s.NoEntry call c a) (hs : CtrlNet.step call s a = some s') : Inv call c s' := by
  cases a with
  | dial =>
    cases hs
    exact h.of_spares (fun _ => CtrlSocketManager.spares_refl) rfl rfl rfl
  | hello c' =>
    simp only [CtrlNet.step] at hs
    split_ifs at hs with hc
    cases hs
    by_cases hcc : c' = c
    · subst hcc
      exact h.hello hc.2.1 hc.2.2
    · exact h.of_spares (fun _ => CtrlSocketManager.spares_refl)
        (Function.update_of_ne (Ne.symm hcc) _ _) rfl rfl
  | abort c' =>
    simp only [CtrlNet.step] at hs
    split_ifs at hs with hc
    cases hs
    by_cases hcc : c' = c
    · subst hcc
      exact h.abort hc.2.1
    · exact h.of_spares (spares_setManager (CtrlSocketManager.spares_drop hcc)) rfl
        (Function.update_of_ne (Ne.symm hcc) _ _) rfl
  | register c' =>
    simp only [CtrlNet.step] at hs
    split_ifs at hs with hc
    cases hs
    by_cases hcc : c' = c
    · subst hcc
      refine h.bind (e := .dialed) hc.1 (hnone rfl) rfl rfl ?_
      intro d hd
      cases d with
      | dialed => exact absurd rfl hd
      | accepted => rfl
    · exact h.of_spares (spares_setManager (CtrlSocketManager.spares_bind hcc)) rfl
        (Function.update_of_ne (Ne.symm hcc) _ _) rfl
  | accept c' =>
    simp only [CtrlNet.step] at hs
    split_ifs at hs with hc
    cases hs
    by_cases hcc : c' = c
    · subst hcc
      refine h.bind (e := .accepted) hc.1 (hnone rfl) rfl rfl ?_
      intro d hd
      cases d with
      | dialed => rfl
      | accepted => exact absurd rfl hd
    · exact h.of_spares (spares_setManager (CtrlSocketManager.spares_bind hcc)) rfl rfl
        (Function.update_of_ne (Ne.symm hcc) _ _)
  | reject c' =>
    simp only [CtrlNet.step] at hs
    split_ifs at hs with hc
    cases hs
    by_cases hcc : c' = c
    · subst hcc
      exact reject hc.1 hc.2.1
    · exact h.of_spares (spares_setManager (CtrlSocketManager.spares_drop hcc)) rfl rfl
        (Function.update_of_ne (Ne.symm hcc) _ _)
  | close i peerId =>
    cases hs
    exact h.of_spares (spares_setManager (CtrlSocketManager.spares_close hopen)) rfl rfl rfl
  | send i peerId msg lost =>
    cases hs
    exact h.send i peerId msg lost
  | recv i peerId =>
    obtain ⟨p, hr, rfl⟩ := Option.map_eq_some_iff.mp hs
    exact h.recv hr

end Inv

/-- **A new connection delivers messages** if neither process has an entry for the other when it
registers its end, and its ends are not closed since. All other connections of the two processes, of
other processes, and the earlier ones between these two may be dialed, closed and used in any
order. -/
theorem delivers_of_reach (c : ℕ)
    (h : Reach (step call) (fun s a => s.Unclosed c a ∧ s.NoEntry call c a) start s)
    (hc : s.Connected c) : s.Delivers call c := by
  have hinv : Inv call c s :=
    h.invariant .start fun _ _ _ _ hi hok hs => hi.step hok.1 hok.2 hs
  exact hinv.delivers hc

/-- The calls of a client with id 1 to a server with id 2. -/
def clientCall (_ : ℕ) : ConnectCall Side := ⟨.a, .b, 2, 1⟩

/-- The server closes its end as well before the client connects again. -/
def bothClosed : List (CtrlAct Side ℕ) :=
  [.dial, .hello 0, .register 0, .accept 0, .close .a 2, .close .b 1, .dial, .hello 1, .register 1,
    .accept 1]

theorem delivers_of_reach_bothClosed : ∃ s : CtrlNet Side ℕ,
    Reach (step clientCall) (fun s a => s.Unclosed 1 a ∧ s.NoEntry clientCall 1 a) start s ∧
      s.Connected 1 ∧ s.Delivers clientCall 1 := by
  obtain ⟨s, hr, hc⟩ : ∃ s : CtrlNet Side ℕ,
      Reach (step clientCall) (fun s a => s.Unclosed 1 a ∧ s.NoEntry clientCall 1 a) start s ∧
        (s.hello 1 = true ∧ s.returned 1 = true ∧ s.accepted 1 = true) :=
    exists_reach_of_execOk bothClosed (by decide)
  exact ⟨s, hr, hc, delivers_of_reach 1 hr hc⟩

/-- Only the client closes its end. -/
def clientClosed : List (CtrlAct Side ℕ) :=
  [.dial, .hello 0, .register 0, .accept 0, .close .a 2, .dial, .hello 1, .register 1, .accept 1]

/-- The client holds the new connection and the server the old one, of which the client has closed
its end. -/
theorem dead_after_reconnect : ∃ s : CtrlNet Side ℕ,
    Reach (step clientCall) (fun s a => s.Unclosed 1 a) start s ∧ s.Connected 1 ∧
      (s.manager .a).idToConn 2 = some (1, .dialed) ∧
      (s.manager .b).idToConn 1 = some (0, .accepted) ∧ ¬ s.Delivers clientCall 1 := by
  obtain ⟨s, hr, hc, ha, hb, hshut⟩ : ∃ s : CtrlNet Side ℕ,
      Reach (step clientCall) (fun s a => s.Unclosed 1 a) start s ∧
        (s.hello 1 = true ∧ s.returned 1 = true ∧ s.accepted 1 = true) ∧
        (s.manager .a).idToConn 2 = some (1, .dialed) ∧
        (s.manager .b).idToConn 1 = some (0, .accepted) ∧
        (s.send clientCall .a 2 7 false).1 = false :=
    exists_reach_of_execOk clientClosed (by decide)
  refine ⟨s, hr, hc, ha, hb, ?_⟩
  intro hd
  cases hshut.symm.trans (congrArg Prod.fst ((hd .dialed).1 7 false))

end CtrlNet

end HMC.Ctrl
