import Mathlib.Data.List.Nodup
import Mathlib.Logic.Function.Basic
import HMC.Core.Basic
import HMC.Machine.Run

/-!
# The control link of two processes

Each process runs the listeners of a `CtrlSocketManager`. `connectTcp` and `connectUds` dial
the peer, send a HELLO with the caller's id and register the socket for the peer; the accept
threads take the sockets of others one after another, read the HELLO and register them. A
process keeps the first socket it registers for a peer and shuts down its end of every later
one.

Each process decides alone which connection is the first, so both may keep a different one, of
which the other has shut down its end (`first_connections_differ`). `agreed_of_firstAgrees` says
that the link is sound in runs in which a process without a link never registers another
connection than the one its peer already holds.

What decides is not who dials but in which order each side handles the connections, so that part is
stated without sockets (`KeepFirst`): of what it has handled, a side holds the first and has dropped
all others, and the two do not hold different ones. When both have handled everything, the one that
is held was dropped by neither (`KeepFirst.agreed`). `LinkInv` adds where the sockets are: in a
backlog, accepted, or registered by their dialers.
-/

namespace HMC.Ctrl

open HMC.Machine

/-- One of the two processes. -/
inductive Side
  | a
  | b
  deriving DecidableEq

def Side.other : Side → Side
  | .a => .b
  | .b => .a

@[simp] theorem Side.other_other (side : Side) : side.other.other = side := by cases side <;> rfl

theorem Side.other_ne (side : Side) : side.other ≠ side := by cases side <;> decide

theorem Side.eq_other_of_ne {x y : Side} (h : x ≠ y) : x = y.other := by
  cases x <;> cases y <;> first | rfl | exact absurd rfl h

/-- The listener that a connection came in at. -/
inductive Transport
  | tcp
  | uds
  deriving DecidableEq

/-! ### HELLO -/

/-- `CtrlMsgHeader`. -/
structure CtrlMsgHeader where
  type : ℕ
  flags : ℕ
  length : ℕ
  deriving DecidableEq

/-- `CTRL_STRUCT`. -/
def ctrlStruct : ℕ := 2

/-- `kHelloFlag`. -/
def helloFlag : ℕ := 0x8000

/-- `sizeof(CtrlId)`. -/
def sizeofCtrlId : ℕ := 4

/-- A HELLO on a socket: its header and the id of its sender. -/
structure Hello where
  hdr : CtrlMsgHeader
  selfId : ℕ
  deriving DecidableEq

/-- `sendHello_`. -/
def sendHello (selfId : ℕ) : Hello := ⟨⟨ctrlStruct, helloFlag, sizeofCtrlId⟩, selfId⟩

/-- The check of `recvHelloAndBind_`. -/
def CtrlMsgHeader.isHello (hdr : CtrlMsgHeader) : Bool :=
  hdr.type == ctrlStruct && hdr.flags &&& helloFlag != 0 && hdr.length == sizeofCtrlId

/-- Every HELLO passes the check of the receiver. -/
theorem sendHello_isHello (selfId : ℕ) : (sendHello selfId).hdr.isHello = true := by
  simp [CtrlMsgHeader.isHello, sendHello, ctrlStruct, helloFlag, sizeofCtrlId]

/-! ### The two processes -/

/-- Both processes, with the connections between them by number: who dialed them, and to which
listener of the other. `table` is `id_to_conn_`, which names an end of a connection by the
connection; `shut` says that a side has shut down its end. `registered` and `accepted` say that the
dialer or the accept thread is done with a connection. -/
structure Link where
  next : ℕ
  dialer : ℕ → Side
  via : ℕ → Transport
  hello : ℕ → Option Hello
  backlog : Side → Transport → List ℕ
  registered : ℕ → Bool
  accepted : ℕ → Bool
  table : Side → ℕ → Option ℕ
  shut : Side → ℕ → Bool

/-- A call of `connectTcp` or `connectUds` dials, sends its HELLO or registers its socket, or an
accept thread handles the next socket of its listener. -/
inductive LinkAct
  | dial (side : Side) (transport : Transport)
  | hello (c : ℕ)
  | register (c : ℕ)
  | accept (side : Side) (transport : Transport)
  deriving DecidableEq

namespace Link

variable (idOf : Side → ℕ) (s : Link)

/-- Keep the first connection of a peer, and shut down this end of every later one. -/
def bind (side : Side) (peerId c : ℕ) : Link :=
  if s.table side peerId = none then
    { s with
      table := Function.update s.table side (Function.update (s.table side) peerId (some c)) }
  else { s with shut := Function.update s.shut side (Function.update (s.shut side) c true) }

/-- Binding moves the table and the ends only. -/
theorem bind_eq (side : Side) (peerId c : ℕ) :
    s.bind side peerId c =
      { s with
        table := (s.bind side peerId c).table, shut := (s.bind side peerId c).shut } := by
  unfold bind
  split <;> rfl

/-- `recvHelloAndBind_`, and what the accept loop does when it fails. -/
def recvHelloAndBind (side : Side) (c : ℕ) (h : Hello) : Link :=
  if h.hdr.isHello then s.bind side h.selfId c
  else { s with shut := Function.update s.shut side (Function.update (s.shut side) c true) }

/-- One step. An accept thread waits for the HELLO of the socket it has accepted. -/
def step : LinkAct → Option Link
  | .dial side transport =>
    some { s with
      next := s.next + 1
      dialer := Function.update s.dialer s.next side
      via := Function.update s.via s.next transport
      backlog := Function.update s.backlog side.other
        (Function.update (s.backlog side.other) transport
          (s.backlog side.other transport ++ [s.next])) }
  | .hello c =>
    if c < s.next ∧ s.hello c = none then
      some { s with hello := Function.update s.hello c (some (sendHello (idOf (s.dialer c)))) }
    else none
  | .register c =>
    if s.hello c ≠ none ∧ s.registered c = false then
      some { (s.bind (s.dialer c) (idOf (s.dialer c).other) c) with
        registered := Function.update s.registered c true }
    else none
  | .accept side transport =>
    match s.backlog side transport with
    | [] => none
    | c :: rest =>
      (s.hello c).map fun h =>
        { (s.recvHelloAndBind side c h) with
          accepted := Function.update s.accepted c true
          backlog := Function.update s.backlog side
            (Function.update (s.backlog side) transport rest) }

/-- Two processes that have just started. -/
def initial : Link where
  next := 0
  dialer _ := .a
  via _ := .tcp
  hello _ := none
  backlog _ _ := []
  registered _ := false
  accepted _ := false
  table _ _ := none
  shut _ _ := false

/-- The connection a side holds for the other. -/
def held (side : Side) : Option ℕ := s.table side (idOf side.other)

/-- Every call has returned and every accepted socket has been handled. -/
def Settled : Prop := ∀ c < s.next, s.registered c = true ∧ s.accepted c = true

instance : Decidable s.Settled :=
  Nat.decidableBallLT s.next fun c _ => s.registered c = true ∧ s.accepted c = true

/-- Both sides hold the ends of one connection, and neither end has been shut down. -/
def Agreed : Prop :=
  ∃ c, (∀ side, s.held idOf side = some c) ∧ ∀ side, s.shut side c = false

/-- A side that holds nothing may register `c`: the other side does not hold another. -/
def Free (side : Side) (c : ℕ) : Prop :=
  s.held idOf side = none → s.held idOf side.other = none ∨ s.held idOf side.other = some c

instance (side : Side) (c : ℕ) : Decidable (s.Free idOf side c) :=
  inferInstanceAs (Decidable (_ → _ ∨ _))

/-- The step condition: a side without a link never registers another connection than the one
its peer already holds. -/
def FirstAgrees : LinkAct → Prop
  | .dial _ _ => True
  | .hello _ => True
  | .register c => s.Free idOf (s.dialer c) c
  | .accept side transport => ∀ c ∈ (s.backlog side transport).head?, s.Free idOf side c

instance : ∀ a, Decidable (s.FirstAgrees idOf a)
  | .dial _ _ | .hello _ => inferInstanceAs (Decidable True)
  | .register c => inferInstanceAs (Decidable (s.Free idOf (s.dialer c) c))
  | .accept side transport =>
    match h : (s.backlog side transport).head? with
    | none => .isTrue fun c hc => by rw [h] at hc; cases hc
    | some c => decidable_of_iff (s.Free idOf side c) (by simp [FirstAgrees, h])

/-- This side is done with the connection. -/
def handled (side : Side) (c : ℕ) : Bool :=
  if s.dialer c = side then s.registered c else s.accepted c

end Link

/-! ### Keeping the first -/

/-- Two sides that handle the connections below `n` and keep the first they handle: `held` is
what a side keeps, and `shut` what it has dropped. -/
structure KeepFirst (n : ℕ) (held : Side → Option ℕ) (shut handled : Side → ℕ → Prop) : Prop where
  agree : ∀ side c d, held side = some c → held side.other = some d → c = d
  handled_of_held : ∀ side c, held side = some c → handled side c
  held_of_handled : ∀ side c, handled side c → held side ≠ none
  shut_handled : ∀ side c, shut side c → handled side c ∧ held side ≠ some c
  handled_lt : ∀ side c, handled side c → c < n

namespace KeepFirst

variable {n : ℕ} {held held' : Side → Option ℕ} {shut shut' handled handled' : Side → ℕ → Prop}
  {side : Side} {c : ℕ}

/-- A side that holds nothing keeps `c`, when the other side does not hold another. -/
theorem keep (h : KeepFirst n held shut handled) (hc : c < n) (hnone : held side = none)
    (hfree : held side.other = none ∨ held side.other = some c)
    (hheld : held' = Function.update held side (some c)) (hshut : shut' = shut)
    (hhandled : ∀ sd d, handled' sd d ↔ handled sd d ∨ sd = side ∧ d = c) :
    KeepFirst n held' shut' handled' := by
  subst hheld hshut
  have hself : Function.update held side (some c) side = some c := Function.update_self _ _ _
  have hother : ∀ sd, sd ≠ side → Function.update held side (some c) sd = held sd := fun sd hsd =>
    Function.update_of_ne hsd _ _
  have hne : side.other ≠ side := side.other_ne
  refine ⟨fun sd x y hx hy => ?_, fun sd x hx => ?_, fun sd x hx => ?_, fun sd x hx => ?_,
    fun sd x hx => ?_⟩
  · by_cases hsd : sd = side
    · subst hsd
      rw [hself, Option.some.injEq] at hx
      rw [hother _ hne] at hy
      rw [hy] at hfree
      rw [← hx]
      exact (Option.some.inj (hfree.resolve_left (by simp))).symm
    · obtain rfl := Side.eq_other_of_ne hsd
      rw [hother _ hsd] at hx
      rw [Side.other_other, hself, Option.some.injEq] at hy
      rw [hx] at hfree
      rw [← hy]
      exact Option.some.inj (hfree.resolve_left (by simp))
  · rw [hhandled]
    by_cases hsd : sd = side
    · rw [hsd, hself, Option.some.injEq] at hx
      exact .inr ⟨hsd, hx.symm⟩
    · rw [hother _ hsd] at hx
      exact .inl (h.handled_of_held sd x hx)
  · by_cases hsd : sd = side
    · rw [hsd, hself]
      simp
    · rw [hother _ hsd]
      obtain hx | hx := (hhandled sd x).mp hx
      · exact h.held_of_handled sd x hx
      · exact absurd hx.1 hsd
  · obtain ⟨hhx, hhd⟩ := h.shut_handled sd x hx
    have hsd : sd ≠ side := fun hsd => h.held_of_handled sd x hhx (hsd ▸ hnone)
    rw [hother _ hsd]
    exact ⟨(hhandled sd x).mpr (.inl hhx), hhd⟩
  · obtain hx | ⟨-, rfl⟩ := (hhandled sd x).mp hx
    · exact h.handled_lt sd x hx
    · exact hc

/-- A side that holds a connection drops `c`, which it has not handled before. -/
theorem drop (h : KeepFirst n held shut handled) (hc : c < n) (hsome : held side ≠ none)
    (hnew : ¬ handled side c)
    (hshut : ∀ sd d, shut' sd d ↔ shut sd d ∨ sd = side ∧ d = c)
    (hhandled : ∀ sd d, handled' sd d ↔ handled sd d ∨ sd = side ∧ d = c) :
    KeepFirst n held shut' handled' := by
  refine ⟨h.agree, fun sd x hx => (hhandled sd x).mpr (.inl (h.handled_of_held sd x hx)),
    fun sd x hx => ?_, fun sd x hx => ?_, fun sd x hx => ?_⟩
  · obtain hx | ⟨rfl, -⟩ := (hhandled sd x).mp hx
    · exact h.held_of_handled sd x hx
    · exact hsome
  · obtain hx | ⟨rfl, rfl⟩ := (hshut sd x).mp hx
    · obtain ⟨hhx, hhd⟩ := h.shut_handled sd x hx
      exact ⟨(hhandled sd x).mpr (.inl hhx), hhd⟩
    · exact ⟨(hhandled sd x).mpr (.inr ⟨rfl, rfl⟩), fun hx => hnew (h.handled_of_held sd x hx)⟩
  · obtain hx | ⟨-, rfl⟩ := (hhandled sd x).mp hx
    · exact h.handled_lt sd x hx
    · exact hc

/-- When both sides have handled a connection, they hold the same one and have not dropped
it. -/
theorem agreed (h : KeepFirst n held shut handled) (hall : ∀ side, handled side c) :
    ∃ x, (∀ side, held side = some x) ∧ ∀ side, ¬ shut side x := by
  obtain ⟨x, hx⟩ := Option.ne_none_iff_exists'.mp (h.held_of_handled .a c (hall .a))
  obtain ⟨y, hy⟩ := Option.ne_none_iff_exists'.mp (h.held_of_handled .b c (hall .b))
  obtain rfl := h.agree .a x y hx hy
  have hboth : ∀ side, held side = some x := fun side => by
    cases side
    · exact hx
    · exact hy
  exact ⟨x, hboth, fun side hs => (h.shut_handled side x hs).2 (hboth side)⟩

end KeepFirst

/-! ### The invariant -/

/-- What the listeners hold, and how far each connection has come. -/
structure Sockets (idOf : Side → ℕ) (s : Link) : Prop where
  hello : ∀ c h, s.hello c = some h → c < s.next ∧ h = sendHello (idOf (s.dialer c))
  backlog : ∀ side transport, ∀ c ∈ s.backlog side transport,
    c < s.next ∧ s.dialer c = side.other ∧ s.via c = transport ∧ s.accepted c = false
  nodup : ∀ side transport, (s.backlog side transport).Nodup
  fresh : ∀ c, s.next ≤ c → s.registered c = false ∧ s.accepted c = false

/-- The invariant of a run in which the first connections agree. -/
structure LinkInv (idOf : Side → ℕ) (s : Link) : Prop where
  sockets : Sockets idOf s
  first : KeepFirst s.next (s.held idOf) (fun side c => s.shut side c = true)
    fun side c => s.handled side c = true

namespace LinkInv

variable {idOf : Side → ℕ} {s s' : Link} {side : Side} {c : ℕ}

theorem initial : LinkInv idOf .initial := by
  have hun : ∀ side c, ¬ Link.initial.handled side c = true := fun side c => by
    cases side <;> exact Bool.false_ne_true
  refine ⟨⟨fun c x hx => ?_, fun side transport c hc => ?_, fun _ _ => List.nodup_nil,
    fun _ _ => ⟨rfl, rfl⟩⟩, ⟨fun side c d hc => ?_, fun side c hc => ?_, fun side c hc => ?_,
    fun side c hc => ?_, fun side c hc => ?_⟩⟩
  · cases hx
  · cases hc
  · cases hc
  · cases hc
  · exact absurd hc (hun side c)
  · cases hc
  · exact absurd hc (hun side c)

/-- Registering a connection that this side has not handled. -/
theorem bind (h : LinkInv idOf s) (hc : c < s.next) (hnew : ¬ s.handled side c = true)
    (hfree : s.Free idOf side c) (hnext : s'.next = s.next)
    (htable : s'.table = (s.bind side (idOf side.other) c).table)
    (hshut : s'.shut = (s.bind side (idOf side.other) c).shut)
    (hhandled : ∀ sd d, s'.handled sd d = true ↔ s.handled sd d = true ∨ sd = side ∧ d = c) :
    KeepFirst s'.next (s'.held idOf) (fun side c => s'.shut side c = true)
      fun side c => s'.handled side c = true := by
  rw [hnext]
  by_cases hnone : s.table side (idOf side.other) = none
  · rw [Link.bind, if_pos hnone] at htable hshut
    dsimp only at htable hshut
    refine h.first.keep hc hnone (hfree hnone) ?_ (by rw [hshut]) hhandled
    funext sd
    by_cases hsd : sd = side
    · rw [hsd, Link.held, htable, Function.update_self, Function.update_self,
        Function.update_self]
    · rw [Link.held, htable, Function.update_of_ne hsd, Function.update_of_ne hsd, Link.held]
  · rw [Link.bind, if_neg hnone] at htable hshut
    dsimp only at htable hshut
    have hheld : s'.held idOf = s.held idOf := by
      funext sd
      rw [Link.held, htable, Link.held]
    rw [hheld]
    refine h.first.drop hc hnone hnew (fun sd d => ?_) hhandled
    rw [hshut]
    by_cases hsd : sd = side
    · subst hsd
      rw [Function.update_self]
      by_cases hd : d = c
      · simp [hd]
      · rw [Function.update_of_ne hd]
        simp [hd]
    · rw [Function.update_of_ne hsd]
      simp [hsd]

/-- One backlog is replaced, the others are as they were. -/
theorem update_backlog (backlog : Side → Transport → List ℕ) (sd sd' : Side)
    (tr tr' : Transport) (l : List ℕ) :
    (sd' = sd ∧ tr' = tr ∧
      Function.update backlog sd (Function.update (backlog sd) tr l) sd' tr' = l) ∨
    ((sd', tr') ≠ (sd, tr) ∧
      Function.update backlog sd (Function.update (backlog sd) tr l) sd' tr' =
        backlog sd' tr') := by
  by_cases hsd : sd' = sd
  · subst hsd
    by_cases htr : tr' = tr
    · refine .inl ⟨rfl, htr, ?_⟩
      rw [htr, Function.update_self, Function.update_self]
    · refine .inr ⟨by simp [htr], ?_⟩
      rw [Function.update_self, Function.update_of_ne htr]
  · refine .inr ⟨by simp [hsd], ?_⟩
    rw [Function.update_of_ne hsd]

/-- A connection is dialed: neither side has handled it. -/
theorem dial (h : LinkInv idOf s) {transport : Transport}
    (hs : s.step idOf (.dial side transport) = some s') : LinkInv idOf s' := by
  cases hs
  obtain ⟨hhello, hbacklog, hnodup, hfresh⟩ := h.sockets
  have hdialer : ∀ c, c < s.next → Function.update s.dialer s.next side c = s.dialer c :=
    fun c hc => Function.update_of_ne (Nat.ne_of_lt hc) _ _
  have hvia : ∀ c, c < s.next → Function.update s.via s.next transport c = s.via c :=
    fun c hc => Function.update_of_ne (Nat.ne_of_lt hc) _ _
  have hold : ∀ sd tr, ∀ c ∈ s.backlog sd tr, c < s.next + 1 ∧
      Function.update s.dialer s.next side c = sd.other ∧
      Function.update s.via s.next transport c = tr ∧ s.accepted c = false := by
    intro sd tr c hc
    obtain ⟨hlt, hd, hv, ha⟩ := hbacklog sd tr c hc
    exact ⟨by omega, (hdialer c hlt).trans hd, (hvia c hlt).trans hv, ha⟩
  refine ⟨⟨fun c x hx => ?_, fun sd tr c hc => ?_, fun sd tr => ?_, fun c hc => ?_⟩, ?_⟩
  · obtain ⟨hc, rfl⟩ := hhello c x hx
    dsimp only
    rw [hdialer c hc]
    exact ⟨by omega, rfl⟩
  · dsimp only at hc ⊢
    rcases update_backlog s.backlog side.other sd transport tr
      (s.backlog side.other transport ++ [s.next]) with ⟨rfl, rfl, heq⟩ | ⟨-, heq⟩
    · rw [heq, List.mem_append, List.mem_singleton] at hc
      obtain hc | rfl := hc
      · exact hold _ _ c hc
      · rw [Function.update_self, Function.update_self]
        exact ⟨by omega, (Side.other_other side).symm, rfl, (hfresh _ (Nat.le_refl _)).2⟩
    · rw [heq] at hc
      exact hold _ _ c hc
  · dsimp only
    rcases update_backlog s.backlog side.other sd transport tr
      (s.backlog side.other transport ++ [s.next]) with ⟨rfl, rfl, heq⟩ | ⟨-, heq⟩
    · rw [heq, List.nodup_append]
      refine ⟨hnodup _ _, by simp, ?_⟩
      rintro x hx y hy rfl
      rw [List.mem_singleton] at hy
      have := (hbacklog _ _ x hx).1
      omega
    · rw [heq]
      exact hnodup sd tr
  · exact hfresh c (by dsimp only at hc; omega)
  · have hhandled : ∀ sd c, Link.handled { s with
          next := s.next + 1
          dialer := Function.update s.dialer s.next side
          via := Function.update s.via s.next transport
          backlog := Function.update s.backlog side.other
            (Function.update (s.backlog side.other) transport
              (s.backlog side.other transport ++ [s.next])) } sd c = s.handled sd c := by
      intro sd c
      by_cases hc : c = s.next
      · obtain ⟨hr, ha⟩ := hfresh s.next (Nat.le_refl _)
        simp only [Link.handled, hc, hr, ha, ite_self]
      · simp only [Link.handled, Function.update_of_ne hc]
    obtain ⟨h₁, h₂, h₃, h₄, h₅⟩ := h.first
    refine ⟨h₁, fun sd c hc => ?_, fun sd c hc => ?_, fun sd c hc => ?_, fun sd c hc => ?_⟩
    · rw [hhandled]
      exact h₂ sd c hc
    · rw [hhandled] at hc
      exact h₃ sd c hc
    · rw [hhandled]
      exact h₄ sd c hc
    · rw [hhandled] at hc
      have := h₅ sd c hc
      dsimp only
      omega

/-- A dialer sends its HELLO. -/
theorem hello (h : LinkInv idOf s) (hs : s.step idOf (.hello c) = some s') : LinkInv idOf s' := by
  simp only [Link.step] at hs
  split_ifs at hs with hc
  cases hs
  refine ⟨{ h.sockets with hello := fun d x hx => ?_ }, h.first⟩
  dsimp only at hx ⊢
  by_cases hd : d = c
  · rw [hd, Function.update_self, Option.some.injEq] at hx
    rw [hd]
    exact ⟨hc.1, hx.symm⟩
  · rw [Function.update_of_ne hd] at hx
    exact h.sockets.hello d x hx

/-- A dialer registers its socket. -/
theorem register (h : LinkInv idOf s) (hfree : s.Free idOf (s.dialer c) c)
    (hs : s.step idOf (.register c) = some s') : LinkInv idOf s' := by
  simp only [Link.step] at hs
  split_ifs at hs with hc
  obtain ⟨hsent, hreg⟩ := hc
  cases hs
  obtain ⟨x, hx⟩ := Option.ne_none_iff_exists'.mp hsent
  have hlt := (h.sockets.hello c x hx).1
  rw [Link.bind_eq]
  refine ⟨{ h.sockets with fresh := fun d hd => ?_ }, h.bind hlt ?_ hfree rfl rfl rfl ?_⟩
  · dsimp only at hd ⊢
    rw [Function.update_of_ne (by omega)]
    exact h.sockets.fresh d hd
  · simp [Link.handled, hreg]
  · intro sd d
    by_cases hd : d = c
    · subst hd
      by_cases hsd : s.dialer d = sd
      · simp [Link.handled, hsd]
      · simp [Link.handled, hsd, Ne.symm hsd]
    · simp [Link.handled, hd]

/-- An accept thread handles the next socket: its HELLO names the other side. -/
theorem accept (h : LinkInv idOf s) {transport : Transport}
    (hfree : ∀ c ∈ (s.backlog side transport).head?, s.Free idOf side c)
    (hs : s.step idOf (.accept side transport) = some s') : LinkInv idOf s' := by
  obtain ⟨hhello, hbacklog, hnodup, hfresh⟩ := h.sockets
  simp only [Link.step] at hs
  split at hs
  · cases hs
  · rename_i c rest hq
    obtain ⟨x, hx, rfl⟩ := Option.map_eq_some_iff.mp hs
    obtain ⟨hlt, rfl⟩ := hhello c x hx
    obtain ⟨-, hdial, hvia, hacc⟩ := hbacklog side transport c (by simp [hq])
    have hnd := hnodup side transport
    rw [hq, List.nodup_cons] at hnd
    -- the sender of the HELLO is the dialer of the socket, which is the other side
    have hrecv : s.recvHelloAndBind side c (sendHello (idOf (s.dialer c))) =
        s.bind side (idOf side.other) c := by
      rw [Link.recvHelloAndBind, if_pos (sendHello_isHello _), hdial]
      rfl
    rw [hrecv, Link.bind_eq]
    have hother : ∀ d, d ≠ c → Function.update s.accepted c true d = s.accepted d :=
      fun d hd => Function.update_of_ne hd _ _
    have hne : side.other ≠ side := side.other_ne
    refine ⟨⟨hhello, fun sd tr d hd => ?_, fun sd tr => ?_, fun d hd => ?_⟩,
      h.bind hlt ?_ (hfree c (by simp [hq])) rfl rfl rfl ?_⟩
    · dsimp only at hd ⊢
      rcases update_backlog s.backlog side sd transport tr rest with
        ⟨rfl, rfl, heq⟩ | ⟨hpair, heq⟩
      · rw [heq] at hd
        rw [hother d fun hdc => hnd.1 (hdc ▸ hd)]
        exact hbacklog sd tr d (by simp [hq, hd])
      · rw [heq] at hd
        obtain ⟨hdlt, hdd, hdv, hda⟩ := hbacklog sd tr d hd
        refine ⟨hdlt, hdd, hdv, (hother d ?_).trans hda⟩
        rintro rfl
        rw [hdial] at hdd
        refine hpair (Prod.ext ?_ (hdv.symm.trans hvia))
        rw [← Side.other_other sd, ← hdd, Side.other_other]
    · dsimp only
      obtain ⟨-, -, heq⟩ | ⟨-, heq⟩ := update_backlog s.backlog side sd transport tr rest
      · rw [heq]
        exact hnd.2
      · rw [heq]
        exact hnodup sd tr
    · dsimp only at hd ⊢
      rw [hother d (by omega)]
      exact hfresh d hd
    · simp [Link.handled, hdial, hne, hacc]
    · intro sd d
      by_cases hd : d = c
      · subst hd
        by_cases hsd : sd = side
        · simp [Link.handled, hsd, hdial, hne]
        · simp [Link.handled, hdial, Side.eq_other_of_ne hsd, hne]
      · simp [Link.handled, hd]

/-- **One step** of a run in which the first connections agree keeps the invariant. -/
theorem step (h : LinkInv idOf s) {a : LinkAct} (ha : s.FirstAgrees idOf a)
    (hs : s.step idOf a = some s') : LinkInv idOf s' := by
  cases a with
  | dial side transport => exact h.dial hs
  | hello c => exact h.hello hs
  | register c => exact h.register ha hs
  | accept side transport => exact h.accept ha hs

end LinkInv

/-! ### The claim -/

/-- **The two sides hold the ends of one connection** once every connection has been handled, in
every run in which the first connections agree. Either side may dial as often as it likes, over TCP
and over Unix sockets, and the accept threads may be slow. -/
theorem agreed_of_firstAgrees {idOf : Side → ℕ} {s : Link}
    (hr : Reach (Link.step idOf) (Link.FirstAgrees idOf) .initial s) (hset : s.Settled)
    (hdialed : 0 < s.next) : s.Agreed idOf := by
  have h : LinkInv idOf s :=
    hr.invariant LinkInv.initial fun _ _ _ _ h ha hs => h.step ha hs
  obtain ⟨hreg, hacc⟩ := hset 0 hdialed
  obtain ⟨c, hheld, hshut⟩ := h.first.agreed (c := 0) fun side => by
    rw [Link.handled, hreg, hacc, ite_self]
  exact ⟨c, hheld, fun side => eq_false_of_ne_true (hshut side)⟩

/-- The ids of two processes. -/
def rank : Side → ℕ
  | .a => 0
  | .b => 1

theorem agreed_of_firstAgrees_oneDialer :
    ∃ s, Reach (Link.step rank) (Link.FirstAgrees rank) .initial s ∧ s.Settled ∧
      s.Agreed rank := by
  obtain ⟨s, hr, hn, hset⟩ : ∃ s, Reach (Link.step rank) (Link.FirstAgrees rank) .initial s ∧
      (s.next = 2 ∧ s.Settled) :=
    exists_reach_of_execOk
      [.dial .a .tcp, .dial .b .uds, .hello 0, .hello 1, .register 0, .accept .b .tcp,
        .register 1, .accept .a .uds]
      (by decide +kernel)
  exact ⟨s, hr, hset, agreed_of_firstAgrees hr hset (by omega)⟩

/-- **Simultaneous dialing.** Both sides register the connection they dialed and shut down their
end of the other. -/
theorem first_connections_differ :
    ∃ s, Reach (Link.step rank) Machine.Free .initial s ∧ 0 < s.next ∧ s.Settled ∧
      ¬ s.Agreed rank := by
  obtain ⟨s, hr, hn, hset, ha, hb⟩ : ∃ s, Reach (Link.step rank) Machine.Free .initial s ∧
      (s.next = 2 ∧ s.Settled ∧ s.held rank .a = some 0 ∧ s.held rank .b = some 1) :=
    exists_reach_of_exec
      [.dial .a .tcp, .dial .b .tcp, .hello 0, .hello 1, .register 0, .register 1,
        .accept .a .tcp, .accept .b .tcp]
      (by decide +kernel)
  refine ⟨s, hr, by omega, hset, ?_⟩
  rintro ⟨c, hheld, -⟩
  have h₀ := hheld .a
  have h₁ := hheld .b
  rw [ha, Option.some.injEq] at h₀
  rw [hb, Option.some.injEq] at h₁
  omega

end HMC.Ctrl
