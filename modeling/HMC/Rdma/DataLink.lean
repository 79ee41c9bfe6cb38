import HMC.Core.Basic
import HMC.Ctrl.Link
import HMC.Machine.Run

/-!
# Two processes that connect to each other

Both processes run an `RDMAServer`, and each may call `connectTo` towards the other at any time
at which its endpoint map has no entry for it. Such a call makes a connection: the server thread
of the peer accepts it, binds its `cm_id`, removes what its map has for the caller and adds its
own end; the caller adds its end as soon as the server thread has answered. An endpoint that is
removed or replaced is destroyed. If it was the caller's end, the connection is disconnected and
the server thread of the peer gets a `DISCONNECTED` event, for which it removes the endpoint of
that connection if it is still there.

The last insertion wins on either side, and the sides insert in any order. When everything is
handled they may be left with ends of different connections or with none
(`DataLink.crossing_connections_lost`). `DataLink.agreed_iff_last_inserted` says that the link is
sound exactly when both sides inserted the same connection last, and `DataLink.agreed_of_inOrder`
that it is when both insert all connections in one order.

The invariant has two parts. `LinkBook` keeps account of what each side has inserted and how far
each connection is. `LinkCore` says what became of it: the last endpoint of a side is in its map
unless it was destroyed, and an end was destroyed only because something was inserted over it, or
because its other end was. So an end that both sides inserted last can have been destroyed by
neither: nothing was inserted over it on its own side, and nothing over the caller's end, whose
destruction would disconnect it.
-/

namespace HMC.Rdma

open HMC.Machine HMC.Ctrl

/-! ### The processes -/

/-- Where a server thread is: in its main loop, or handling a connection, whose client it has
answered, whose `cm_id` it has bound, or for which it has removed an old endpoint. -/
inductive AcceptThread
  | loop
  | answered (c : ℕ)
  | bound (c : ℕ)
  | removed (c : ℕ)
  deriving DecidableEq

/-- The connection a server thread handles. -/
def AcceptThread.handles : AcceptThread → Option ℕ
  | .loop => none
  | .answered c | .bound c | .removed c => some c

/-- Both processes, with the connections between them by number, which also stands for the
`conn_id`. `slot` is the entry for the peer in an endpoint map, by the connection that the stored
endpoint is an end of; `bound` says that the `cm_id` of a server end is in `g_bound_by_cmid`.
`inserted` records what each side has inserted, the oldest first. -/
structure DataLink where
  next : ℕ
  dialer : ℕ → Side
  slot : Side → Option ℕ
  thread : Side → AcceptThread
  accepted : ℕ → Bool
  returned : ℕ → Bool
  bound : ℕ → Bool
  destroyed : Side → ℕ → Bool
  events : Side → List ℕ
  inserted : Side → List ℕ

/-- A process calls `connectTo`; the server thread of the peer accepts connection `c`, or its caller
returns from it; a server thread makes its next step, or handles a `DISCONNECTED` event. -/
inductive DataLinkAct
  | dial (side : Side)
  | accept (c : ℕ)
  | clientAdd (c : ℕ)
  | server (side : Side)
  | disconnected (side : Side)
  deriving DecidableEq

namespace DataLink

/-- Two processes without endpoints. -/
def start : DataLink where
  next := 0
  dialer := fun _ => .a
  slot := fun _ => none
  thread := fun _ => .loop
  accepted := fun _ => false
  returned := fun _ => false
  bound := fun _ => false
  destroyed := fun _ _ => false
  events := fun _ => []
  inserted := fun _ => []

variable (st : DataLink)

/-- `~RDMAEndpoint`. The caller's end disconnects, and the server thread of the peer hears of it
while its own end exists; with a server's end its events are gone. -/
def destroy (side : Side) (c : ℕ) : DataLink :=
  { st with
    destroyed := set₂ st.destroyed side c true
    events :=
      if st.dialer c = side then
        if st.destroyed side.other c then st.events
        else Function.update st.events side.other (st.events side.other ++ [c])
      else Function.update st.events side ((st.events side).filter (· ≠ c)) }

/-- Take the endpoint out of the map and destroy it. -/
def clear (side : Side) : DataLink :=
  match st.slot side with
  | none => st
  | some c => { st.destroy side c with slot := Function.update st.slot side none }

/-- `_addEndpoint`: what was there is destroyed. -/
def addEndpoint (side : Side) (c : ℕ) : DataLink :=
  { st.clear side with
    slot := Function.update st.slot side (some c)
    inserted := Function.update st.inserted side (st.inserted side ++ [c]) }

/-- `_removeEndpoint`. -/
def removeEndpoint (side : Side) : DataLink := st.clear side

/-- `_removeEndpointIfMatch` of the endpoint of connection `c`. -/
def removeEndpointIfMatch (side : Side) (c : ℕ) : DataLink :=
  if st.slot side = some c then st.clear side else st

def goto (side : Side) (t : AcceptThread) : DataLink :=
  { st with thread := Function.update st.thread side t }

/-- One step. -/
def step : DataLinkAct → Option DataLink
  | .dial side =>
    -- `checkConn` has found nothing
    if st.slot side = none then
      some { st with next := st.next + 1, dialer := Function.update st.dialer st.next side }
    else none
  | .accept c =>
    if c < st.next ∧ st.accepted c = false ∧ st.thread (st.dialer c).other = .loop then
      some ({ st with accepted := Function.update st.accepted c true }.goto (st.dialer c).other
        (.answered c))
    else none
  | .clientAdd c =>
    if st.accepted c = true ∧ st.returned c = false then
      some ({ st with returned := Function.update st.returned c true }.addEndpoint (st.dialer c) c)
    else none
  | .server side =>
    match st.thread side with
    | .loop => none
    | .answered c =>
      some ({ st with bound := Function.update st.bound c true }.goto side (.bound c))
    | .bound c => some ((st.removeEndpoint side).goto side (.removed c))
    | .removed c => some ((st.addEndpoint side c).goto side .loop)
  | .disconnected side =>
    match st.thread side, st.events side with
    | .loop, c :: rest =>
      let st := { st with events := Function.update st.events side rest }
      -- `takeBind_`
      if st.bound c then
        some ({ st with bound := Function.update st.bound c false }.removeEndpointIfMatch side c)
      else some st
    | _, _ => none

/-- Every call has returned, every connection and every event is handled. -/
def Quiet : Prop :=
  0 < st.next ∧ (∀ c < st.next, st.accepted c = true ∧ st.returned c = true) ∧
    ∀ side, st.thread side = .loop ∧ st.events side = []

instance : Decidable st.Quiet :=
  decidable_of_iff (0 < st.next ∧ (∀ c < st.next, st.accepted c = true ∧ st.returned c = true) ∧
      (st.thread .a = .loop ∧ st.events .a = []) ∧ st.thread .b = .loop ∧ st.events .b = []) <|
    and_congr_right fun _ => and_congr_right fun _ =>
      ⟨fun h side => by cases side; exacts [h.1, h.2], fun h => ⟨h .a, h .b⟩⟩

/-- Both sides hold the ends of one connection, neither of which was destroyed. -/
def Agreed : Prop :=
  ∃ c, ∀ side, st.slot side = some c ∧ st.destroyed side c = false

/-- The peer inserted `c` at the place of this side's next insertion, if it has come that far. -/
def Follows (side : Side) (c : ℕ) : Prop :=
  ∀ d, (st.inserted side.other)[(st.inserted side).length]? = some d → d = c

/-- The step condition: both sides insert the connections in one order. -/
def InOrder : DataLinkAct → Prop
  | .clientAdd c => st.Follows (st.dialer c) c
  | .server side => ∀ c, st.thread side = .removed c → st.Follows side c
  | _ => True

/-- Another endpoint was inserted at this side since, or is about to be. -/
def Superseded (side : Side) (c : ℕ) : Prop :=
  (st.inserted side).getLast? ≠ some c ∨ ∃ c', st.thread side = .removed c'

variable {st} {side s : Side} {c : ℕ}

/-- A server thread goes on with its connection. -/
theorem goto_handles {t : AcceptThread} (h : t.handles = (st.thread side).handles) :
    ((st.goto side t).thread s).handles = (st.thread s).handles :=
  apply_update_of_eq h s

/-- What has been superseded stays so while nothing is inserted, except that a thread may return to
its loop. -/
theorem Superseded.mono {st' : DataLink} (h : st.Superseded s c)
    (hins : st'.inserted = st.inserted)
    (hth : ∀ c, st.thread s = .removed c → ∃ c', st'.thread s = .removed c') :
    st'.Superseded s c := by
  obtain h | ⟨c', hc'⟩ := h
  · left
    rwa [hins]
  · exact .inr (hth c' hc')

/-! ### Taking an endpoint out -/

theorem clear_eq : st.clear side =
    { st with
      slot := Function.update st.slot side none
      destroyed := (st.clear side).destroyed
      events := (st.clear side).events } := by
  unfold clear
  cases hslot : st.slot side with
  | none => simp only [← hslot, Function.update_eq_self]
  | some c => rfl

@[simp] theorem clear_next : (st.clear side).next = st.next := by rw [clear_eq]

@[simp] theorem clear_dialer : (st.clear side).dialer = st.dialer := by rw [clear_eq]

@[simp] theorem clear_thread : (st.clear side).thread = st.thread := by rw [clear_eq]

@[simp] theorem clear_accepted : (st.clear side).accepted = st.accepted := by rw [clear_eq]

@[simp] theorem clear_returned : (st.clear side).returned = st.returned := by rw [clear_eq]

@[simp] theorem clear_inserted : (st.clear side).inserted = st.inserted := by rw [clear_eq]

@[simp] theorem clear_slot : (st.clear side).slot = Function.update st.slot side none := by
  rw [clear_eq]

theorem clear_destroyed : (st.clear side).destroyed s c = true ↔
    st.destroyed s c = true ∨ s = side ∧ st.slot side = some c := by
  unfold clear
  cases hslot : st.slot side with
  | none => simp
  | some x =>
    simp only [destroy, set₂_apply]
    split_ifs with h
    · simp [h.1, h.2]
    · simp only [Option.some.injEq]
      exact ⟨.inl, fun hd => hd.resolve_right fun hx => h ⟨hx.1, hx.2.symm⟩⟩

theorem clear_events (h : c ∈ (st.clear side).events s) :
    c ∈ st.events s ∨ s = side.other ∧ st.dialer c = side ∧ st.slot side = some c := by
  unfold clear at h
  cases hslot : st.slot side with
  | none =>
    simp only [hslot] at h
    exact .inl h
  | some x =>
    simp only [hslot, destroy] at h
    split_ifs at h with hd hx
    · exact .inl h
    · by_cases hs : s = side.other
      · subst hs
        rw [Function.update_self] at h
        obtain h | h := List.mem_append.mp h
        · exact .inl h
        · obtain rfl := List.mem_singleton.mp h
          exact .inr ⟨rfl, hd, rfl⟩
      · rw [Function.update_of_ne hs] at h
        exact .inl h
    · by_cases hs : s = side
      · subst hs
        rw [Function.update_self] at h
        exact .inl (List.mem_filter.mp h).1
      · rw [Function.update_of_ne hs] at h
        exact .inl h

end DataLink

/-! ### The invariants -/

/-- What is inserted at a side, and how far each connection is. -/
structure LinkBook (st : DataLink) : Prop where
  inserted_lt : ∀ {side c}, c ∈ st.inserted side → c < st.next
  accepted_lt : ∀ {c}, st.accepted c = true → c < st.next
  returned_lt : ∀ {c}, st.returned c = true → c < st.next
  client : ∀ {c}, c < st.next → (c ∈ st.inserted (st.dialer c) ↔ st.returned c = true)
  server : ∀ {c}, c < st.next → (c ∈ st.inserted (st.dialer c).other ↔
    st.accepted c = true ∧ (st.thread (st.dialer c).other).handles ≠ some c)
  handles : ∀ {side c}, (st.thread side).handles = some c →
    side = (st.dialer c).other ∧ st.accepted c = true

namespace LinkBook

variable {st st' : DataLink} {side : Side} {c : ℕ}

theorem start : LinkBook .start where
  inserted_lt hc := by cases hc
  accepted_lt hc := by cases hc
  returned_lt hc := by cases hc
  client hc := by cases hc
  server hc := by cases hc
  handles hc := by cases hc

/-- Nothing is inserted, and no server thread passes on to another connection. -/
theorem keep (h : LinkBook st) (hnext : st'.next = st.next) (hdialer : st'.dialer = st.dialer)
    (hacc : st'.accepted = st.accepted) (hret : st'.returned = st.returned)
    (hins : st'.inserted = st.inserted)
    (hth : ∀ s, (st'.thread s).handles = (st.thread s).handles) : LinkBook st' where
  inserted_lt hc := by
    rw [hins] at hc
    rw [hnext]
    exact h.inserted_lt hc
  accepted_lt hc := by
    rw [hacc] at hc
    rw [hnext]
    exact h.accepted_lt hc
  returned_lt hc := by
    rw [hret] at hc
    rw [hnext]
    exact h.returned_lt hc
  client hc := by
    rw [hnext] at hc
    rw [hins, hdialer, hret]
    exact h.client hc
  server hc := by
    rw [hnext] at hc
    rw [hins, hdialer, hacc, hth]
    exact h.server hc
  handles hc := by
    rw [hth] at hc
    rw [hdialer, hacc]
    exact h.handles hc

theorem dial (h : LinkBook st) :
    LinkBook { st with
      next := st.next + 1, dialer := Function.update st.dialer st.next side } := by
  -- the new connection is not known to anybody yet
  have hne : ∀ {c}, c < st.next → Function.update st.dialer st.next side c = st.dialer c :=
    fun hc => Function.update_of_ne (Nat.ne_of_lt hc) _ _
  have hnew : ∀ s, st.next ∉ st.inserted s := fun s hc =>
    Nat.lt_irrefl _ (h.inserted_lt hc)
  have hacc : st.accepted st.next = false :=
    Bool.eq_false_iff.mpr fun hc => Nat.lt_irrefl _ (h.accepted_lt hc)
  have hret : st.returned st.next = false :=
    Bool.eq_false_iff.mpr fun hc => Nat.lt_irrefl _ (h.returned_lt hc)
  refine
    { inserted_lt := fun hc => Nat.lt_succ_of_lt (h.inserted_lt hc)
      accepted_lt := fun hc => Nat.lt_succ_of_lt (h.accepted_lt hc)
      returned_lt := fun hc => Nat.lt_succ_of_lt (h.returned_lt hc)
      client := fun {c} hc => ?_
      server := fun {c} hc => ?_
      handles := fun {s c} hc => ?_ }
  · dsimp only
    obtain hc | rfl := Nat.lt_succ_iff_lt_or_eq.mp hc
    · rw [hne hc]
      exact h.client hc
    · simp [hnew, hret]
  · dsimp only
    obtain hc | rfl := Nat.lt_succ_iff_lt_or_eq.mp hc
    · rw [hne hc]
      exact h.server hc
    · simp [hnew, hacc]
  · have hlt := h.accepted_lt (h.handles hc).2
    dsimp only
    rw [hne hlt]
    exact h.handles hc

theorem accept (h : LinkBook st) (hc : c < st.next) (hnew : st.accepted c = false)
    (hloop : st.thread (st.dialer c).other = .loop) :
    LinkBook ({ st with accepted := Function.update st.accepted c true }.goto
      (st.dialer c).other (.answered c)) := by
  refine
    { inserted_lt := h.inserted_lt
      accepted_lt := fun {d} hd => ?_
      returned_lt := h.returned_lt
      client := h.client
      server := fun {d} hd => ?_
      handles := fun {s d} hd => ?_ }
  · obtain hd | rfl := (update_true _ _ _).mp hd
    · exact h.accepted_lt hd
    · exact hc
  · have hold := h.server hd
    simp only [DataLink.goto, update_true]
    by_cases hs : (st.dialer d).other = (st.dialer c).other
    · rw [hs, hloop] at hold
      rw [hs, Function.update_self]
      by_cases hdc : d = c
      · subst hdc
        simp [hold, hnew, AcceptThread.handles]
      · simpa [AcceptThread.handles, hdc, Ne.symm hdc] using hold
    · have hdc : d ≠ c := fun hdc => hs (by rw [hdc])
      simpa [Function.update_of_ne hs, hdc] using hold
  · simp only [DataLink.goto] at hd ⊢
    by_cases hs : s = (st.dialer c).other
    · subst hs
      rw [Function.update_self] at hd
      obtain rfl := Option.some.inj hd
      exact ⟨rfl, Function.update_self _ _ _⟩
    · rw [Function.update_of_ne hs] at hd
      exact ⟨(h.handles hd).1, (update_true _ _ _).mpr (.inl (h.handles hd).2)⟩

theorem clientAdd (h : LinkBook st) (hacc : st.accepted c = true) (hret : st.returned c = false) :
    LinkBook ({ st with returned := Function.update st.returned c true }.addEndpoint
      (st.dialer c) c) := by
  have hlt := h.accepted_lt hacc
  refine
    { inserted_lt := fun {s d} hd => ?_
      accepted_lt := fun hd => ?_
      returned_lt := fun {d} hd => ?_
      client := fun {d} hd => ?_
      server := fun {d} hd => ?_
      handles := fun {s d} hd => ?_ }
  all_goals simp only [DataLink.addEndpoint, DataLink.clear_next, DataLink.clear_dialer,
    DataLink.clear_accepted, DataLink.clear_returned, DataLink.clear_thread,
    mem_update_append, update_true] at hd ⊢
  · obtain hd | ⟨-, rfl⟩ := hd
    · exact h.inserted_lt hd
    · exact hlt
  · exact h.accepted_lt hd
  · obtain hd | rfl := hd
    · exact h.returned_lt hd
    · exact hlt
  · rw [h.client hd]
    exact or_congr_right ⟨fun hx => hx.2, fun hx => ⟨by rw [hx], hx⟩⟩
  · rw [← h.server hd]
    refine or_iff_left fun ⟨ho, hdc⟩ => ?_
    rw [hdc] at ho
    exact Side.other_ne _ ho
  · exact h.handles hd

theorem serverAdd (h : LinkBook st) (hth : st.thread side = .removed c) :
    LinkBook ((st.addEndpoint side c).goto side .loop) := by
  have hhand : (st.thread side).handles = some c := by rw [hth]; rfl
  obtain ⟨hside, hacc⟩ := h.handles hhand
  have hlt := h.accepted_lt hacc
  refine
    { inserted_lt := fun {s d} hd => ?_
      accepted_lt := fun hd => ?_
      returned_lt := fun hd => ?_
      client := fun {d} hd => ?_
      server := fun {d} hd => ?_
      handles := fun {s d} hd => ?_ }
  all_goals simp only [DataLink.goto, DataLink.addEndpoint, DataLink.clear_next,
    DataLink.clear_dialer, DataLink.clear_accepted, DataLink.clear_returned,
    DataLink.clear_thread, mem_update_append] at hd ⊢
  · obtain hd | ⟨-, rfl⟩ := hd
    · exact h.inserted_lt hd
    · exact hlt
  · exact h.accepted_lt hd
  · exact h.returned_lt hd
  · rw [h.client hd]
    refine or_iff_left fun ⟨ho, hdc⟩ => ?_
    rw [hdc, hside] at ho
    exact Side.other_ne _ ho.symm
  · rw [h.server hd]
    by_cases hs : (st.dialer d).other = side
    · rw [hs, Function.update_self, hhand]
      by_cases hdc : d = c
      · simp [hdc, hacc, AcceptThread.handles]
      · simp [hdc, Ne.symm hdc, AcceptThread.handles]
    · rw [Function.update_of_ne hs]
      simp [hs]
  · by_cases hs : s = side
    · rw [hs, Function.update_self] at hd
      cases hd
    · rw [Function.update_of_ne hs] at hd
      exact h.handles hd

end LinkBook

/-- The last endpoint of a side is in its map unless it was destroyed, and an end that was destroyed
has been superseded, or its caller's end has. -/
structure LinkCore (st : DataLink) : Prop where
  slot : ∀ {side c}, st.slot side = some c →
    (st.inserted side).getLast? = some c ∧ st.destroyed side c = false
  last : ∀ {side c}, (st.inserted side).getLast? = some c →
    st.slot side = some c ∨ st.destroyed side c = true
  mem : ∀ {side c}, st.destroyed side c = true → c ∈ st.inserted side
  client_gone : ∀ {c}, st.destroyed (st.dialer c) c = true → st.Superseded (st.dialer c) c
  server_gone : ∀ {c}, st.destroyed (st.dialer c).other c = true →
    st.Superseded (st.dialer c).other c ∨ st.destroyed (st.dialer c) c = true
  events : ∀ {side c}, c ∈ st.events side →
    side = (st.dialer c).other ∧ st.destroyed (st.dialer c) c = true

namespace LinkCore

variable {st st' : DataLink} {side : Side} {c : ℕ}

theorem start : LinkCore .start where
  slot hs := by cases hs
  last hl := by cases hl
  mem hd := by cases hd
  client_gone hd := by cases hd
  server_gone hd := by cases hd
  events he := by cases he

/-- Nothing is inserted, taken out or destroyed. -/
theorem keep (h : LinkCore st) (hdialer : ∀ s, ∀ c ∈ st.inserted s, st'.dialer c = st.dialer c)
    (hslot : st'.slot = st.slot) (hins : st'.inserted = st.inserted)
    (hdes : st'.destroyed = st.destroyed) (hev : ∀ s, ∀ c ∈ st'.events s, c ∈ st.events s)
    (hmono : ∀ s c, st.Superseded s c → st'.Superseded s c) : LinkCore st' := by
  refine
    { slot := fun hs => ?_
      last := fun hl => ?_
      mem := fun hd => ?_
      client_gone := fun hd => ?_
      server_gone := fun hd => ?_
      events := fun he => ?_ }
  · rw [hslot] at hs
    rw [hins, hdes]
    exact h.slot hs
  · rw [hins] at hl
    rw [hslot, hdes]
    exact h.last hl
  · rw [hdes] at hd
    rw [hins]
    exact h.mem hd
  · rw [hdes] at hd
    rw [hdialer _ _ (h.mem hd)] at hd ⊢
    exact hmono _ _ (h.client_gone hd)
  · rw [hdes] at hd ⊢
    rw [hdialer _ _ (h.mem hd)] at hd ⊢
    exact (h.server_gone hd).imp_left (hmono _ _)
  · obtain ⟨hs, hd⟩ := h.events (hev _ _ he)
    rw [hdialer _ _ (h.mem hd), hdes]
    exact ⟨hs, hd⟩

theorem slot_mem (h : LinkCore st) (hs : st.slot side = some c) : c ∈ st.inserted side :=
  List.mem_of_getLast? (h.slot hs).1

/-- The endpoint of a side is taken out, and another may be inserted. -/
theorem replace (h : LinkCore st) {v : Option ℕ} {l : List ℕ} (hdialer : st'.dialer = st.dialer)
    (hslot : st'.slot = Function.update st.slot side v)
    (hins : st'.inserted = Function.update st.inserted side l)
    (hdes : ∀ s c, st'.destroyed s c = true ↔
      st.destroyed s c = true ∨ s = side ∧ st.slot side = some c)
    (hev : ∀ s c, c ∈ st'.events s →
      c ∈ st.events s ∨ s = side.other ∧ st.dialer c = side ∧ st.slot side = some c)
    (hv : v = none ∧ l = st.inserted side ∨
      ∃ x, v = some x ∧ l = st.inserted side ++ [x] ∧ x ∉ st.inserted side)
    (hmono : ∀ s c, c ∈ st.inserted s → st.Superseded s c → st'.Superseded s c)
    (hgone : ∀ c, st.slot side = some c → st'.Superseded side c ∨
      (st.dialer c).other = side ∧ st.destroyed (st.dialer c) c = true) : LinkCore st' := by
  have hsub : ∀ {s c}, c ∈ st.inserted s → c ∈ st'.inserted s := by
    intro s c hc
    rw [hins]
    by_cases hs : s = side
    · subst hs
      rw [Function.update_self]
      obtain ⟨-, rfl⟩ | ⟨x, -, rfl, -⟩ := hv
      · exact hc
      · exact List.mem_append_left _ hc
    · rwa [Function.update_of_ne hs]
  refine
    { slot := fun {s c} hs => ?_
      last := fun {s c} hl => ?_
      mem := fun {s c} hd => ?_
      client_gone := fun {c} hd => ?_
      server_gone := fun {c} hd => ?_
      events := fun {s c} he => ?_ }
  · rw [hslot] at hs
    rw [hins]
    by_cases hside : s = side
    · subst hside
      rw [Function.update_self] at hs
      obtain ⟨hnone, -⟩ | ⟨x, hx, rfl, hnew⟩ := hv
      · rw [hnone] at hs
        cases hs
      · rw [hx] at hs
        obtain rfl := Option.some.inj hs
        refine ⟨by simp, ?_⟩
        rw [Bool.eq_false_iff, Ne, hdes]
        rintro (hd | ⟨-, hd⟩)
        · exact hnew (h.mem hd)
        · exact hnew (h.slot_mem hd)
    · rw [Function.update_of_ne hside] at hs ⊢
      refine ⟨(h.slot hs).1, ?_⟩
      rw [Bool.eq_false_iff, Ne, hdes]
      rintro (hd | ⟨rfl, -⟩)
      · rw [(h.slot hs).2] at hd
        cases hd
      · exact hside rfl
  · rw [hins] at hl
    rw [hslot, hdes]
    by_cases hside : s = side
    · subst hside
      rw [Function.update_self] at hl ⊢
      obtain ⟨-, rfl⟩ | ⟨x, rfl, rfl, -⟩ := hv
      · exact .inr ((h.last hl).symm.imp_right fun hs => ⟨rfl, hs⟩)
      · exact .inl (by simpa using hl)
    · rw [Function.update_of_ne hside] at hl ⊢
      exact (h.last hl).imp_right .inl
  · obtain hd | ⟨rfl, hs⟩ := (hdes _ _).mp hd
    · exact hsub (h.mem hd)
    · exact hsub (h.slot_mem hs)
  · rw [hdialer] at hd ⊢
    obtain hd | ⟨heq, hs⟩ := (hdes _ _).mp hd
    · exact hmono _ _ (h.mem hd) (h.client_gone hd)
    · rw [heq]
      -- the caller's end is not the end of a server
      refine (hgone c hs).resolve_right fun ho => ?_
      rw [heq] at ho
      exact Side.other_ne _ ho.1
  · rw [hdialer] at hd ⊢
    rw [hdes]
    obtain hd | ⟨heq, hs⟩ := (hdes _ _).mp hd
    · exact (h.server_gone hd).imp (hmono _ _ (h.mem hd)) fun hg => Or.inl hg
    · rw [heq]
      exact (hgone c hs).imp_right fun hg => Or.inl hg.2
  · rw [hdialer, hdes]
    obtain he | ⟨rfl, hd, hs⟩ := hev _ _ he
    · exact ⟨(h.events he).1, .inl (h.events he).2⟩
    · exact ⟨by rw [hd], .inr ⟨hd, hs⟩⟩

/-- The next endpoint is inserted. -/
theorem insert (h : LinkCore st) (hnew : c ∉ st.inserted side) (hdialer : st'.dialer = st.dialer)
    (hslot : st'.slot = Function.update st.slot side (some c))
    (hins : st'.inserted = Function.update st.inserted side (st.inserted side ++ [c]))
    (hdes : st'.destroyed = (st.clear side).destroyed) (hev : st'.events = (st.clear side).events)
    (hth : ∀ s ≠ side, st'.thread s = st.thread s) : LinkCore st' := by
  have hother : ∀ d ∈ st.inserted side, st'.Superseded side d := by
    intro d hd
    left
    rw [hins, Function.update_self, List.getLast?_concat]
    rintro ⟨⟩
    exact hnew hd
  refine h.replace hdialer hslot hins (fun s d => ?_) (fun s d hd => ?_)
    (.inr ⟨c, rfl, rfl, hnew⟩) (fun s d hd hs => ?_) fun d hd => .inl (hother d (h.slot_mem hd))
  · rw [hdes]
    exact DataLink.clear_destroyed
  · rw [hev] at hd
    exact DataLink.clear_events hd
  · by_cases hside : s = side
    · subst hside
      exact hother d hd
    · rw [DataLink.Superseded, hins, Function.update_of_ne hside, hth s hside]
      exact hs

/-- The endpoint of a side is taken out. -/
theorem remove (h : LinkCore st) (hdialer : st'.dialer = st.dialer)
    (hslot : st'.slot = (st.clear side).slot) (hins : st'.inserted = st.inserted)
    (hdes : st'.destroyed = (st.clear side).destroyed) (hev : st'.events = (st.clear side).events)
    (hmono : ∀ s c, st.Superseded s c → st'.Superseded s c)
    (hgone : ∀ c, st.slot side = some c → st'.Superseded side c ∨
      (st.dialer c).other = side ∧ st.destroyed (st.dialer c) c = true) : LinkCore st' := by
  refine h.replace (l := st.inserted side) hdialer (hslot.trans DataLink.clear_slot) ?_
    (fun s d => ?_) (fun s d hd => ?_) (.inl ⟨rfl, rfl⟩) (fun s d _ => hmono s d) hgone
  · rw [hins, Function.update_eq_self]
  · rw [hdes]
    exact DataLink.clear_destroyed
  · rw [hev] at hd
    exact DataLink.clear_events hd

end LinkCore

/-! ### Every run -/

/-- The two parts of the invariant. -/
structure LinkInv (st : DataLink) : Prop where
  book : LinkBook st
  core : LinkCore st

namespace LinkInv

variable {st st' : DataLink} {side : Side} {c : ℕ}

theorem start : LinkInv .start := ⟨.start, .start⟩

theorem dial (h : LinkInv st) (hst : st.step (.dial side) = some st') : LinkInv st' := by
  simp only [DataLink.step, Option.ite_none_right_eq_some, Option.some.injEq] at hst
  obtain ⟨-, rfl⟩ := hst
  have hold : ∀ s, ∀ c ∈ st.inserted s,
      Function.update st.dialer st.next side c = st.dialer c := fun s c hm =>
    Function.update_of_ne (Nat.ne_of_lt (h.book.inserted_lt hm)) _ _
  exact ⟨h.book.dial, h.core.keep hold rfl rfl rfl (fun _ _ => id) fun _ _ => id⟩

theorem accept (h : LinkInv st) (hst : st.step (.accept c) = some st') : LinkInv st' := by
  simp only [DataLink.step, Option.ite_none_right_eq_some, Option.some.injEq] at hst
  obtain ⟨⟨hlt, hnew, hloop⟩, rfl⟩ := hst
  refine ⟨h.book.accept hlt hnew hloop, h.core.keep (fun _ _ _ => rfl) rfl rfl rfl
    (fun _ _ => id) fun s d hd => hd.mono rfl fun d' hd' => ⟨d', ?_⟩⟩
  -- the thread was in its loop
  have hs : s ≠ (st.dialer c).other := by
    rintro rfl
    rw [hloop] at hd'
    cases hd'
  exact (Function.update_of_ne hs _ _).trans hd'

/-- A caller that has not returned has not inserted its end. -/
theorem not_mem_dialer (h : LinkInv st) (hacc : st.accepted c = true)
    (hret : st.returned c = false) : c ∉ st.inserted (st.dialer c) := by
  rw [h.book.client (h.book.accepted_lt hacc), hret]
  exact Bool.false_ne_true

/-- A server thread has not inserted the end that it is about to insert. -/
theorem not_mem_server (h : LinkInv st) (hth : st.thread side = .removed c) :
    c ∉ st.inserted side := by
  have hhand : (st.thread side).handles = some c := by rw [hth]; rfl
  obtain ⟨hside, hacc⟩ := h.book.handles hhand
  rw [hside, h.book.server (h.book.accepted_lt hacc), ← hside, hhand]
  exact fun hn => hn.2 rfl

theorem clientAdd (h : LinkInv st) (hst : st.step (.clientAdd c) = some st') : LinkInv st' := by
  simp only [DataLink.step, Option.ite_none_right_eq_some, Option.some.injEq] at hst
  obtain ⟨⟨hacc, hret⟩, rfl⟩ := hst
  have hcore : LinkCore { st with returned := Function.update st.returned c true } :=
    h.core.keep (fun _ _ _ => rfl) rfl rfl rfl (fun _ _ => id) fun _ _ => id
  exact ⟨h.book.clientAdd hacc hret, hcore.insert (h.not_mem_dialer hacc hret)
    DataLink.clear_dialer rfl rfl rfl rfl
    fun _ _ => by rw [DataLink.addEndpoint, DataLink.clear_thread]⟩

theorem server (h : LinkInv st) (hst : st.step (.server side) = some st') : LinkInv st' := by
  simp only [DataLink.step] at hst
  split at hst
  · cases hst
  next c hth =>
    obtain rfl := Option.some.inj hst
    have hhand : (AcceptThread.bound c).handles = (st.thread side).handles := by rw [hth]; rfl
    refine ⟨h.book.keep rfl rfl rfl rfl rfl fun s => DataLink.goto_handles hhand,
      h.core.keep (fun _ _ _ => rfl) rfl rfl rfl (fun _ _ => id)
        fun s d hd => hd.mono rfl fun d' hd' => ⟨d', ?_⟩⟩
    have hs : s ≠ side := by
      rintro rfl
      rw [hth] at hd'
      cases hd'
    exact (Function.update_of_ne hs _ _).trans hd'
  next c hth =>
    obtain rfl := Option.some.inj hst
    have hhand : (AcceptThread.removed c).handles = ((st.clear side).thread side).handles := by
      rw [DataLink.clear_thread, hth]
      rfl
    have hself : ((st.removeEndpoint side).goto side (.removed c)).thread side = .removed c :=
      Function.update_self _ _ _
    refine ⟨h.book.keep DataLink.clear_next DataLink.clear_dialer DataLink.clear_accepted
      DataLink.clear_returned DataLink.clear_inserted fun s => ?_,
      h.core.remove DataLink.clear_dialer rfl DataLink.clear_inserted rfl rfl
        (fun s d hd => hd.mono DataLink.clear_inserted fun d' hd' => ?_)
        fun d _ => .inl (.inr ⟨c, hself⟩)⟩
    · exact (DataLink.goto_handles hhand).trans (by rw [DataLink.clear_thread])
    · by_cases hs : s = side
      · exact ⟨c, hs ▸ hself⟩
      · refine ⟨d', (Function.update_of_ne hs _ _).trans ?_⟩
        rw [DataLink.removeEndpoint, DataLink.clear_thread, hd']
  next c hth =>
    obtain rfl := Option.some.inj hst
    refine ⟨h.book.serverAdd hth, h.core.insert (h.not_mem_server hth) DataLink.clear_dialer
      rfl rfl rfl rfl fun s hs => ?_⟩
    rw [DataLink.goto, DataLink.addEndpoint, DataLink.clear_thread]
    exact Function.update_of_ne hs _ _

theorem disconnected (h : LinkInv st) (hst : st.step (.disconnected side) = some st') :
    LinkInv st' := by
  simp only [DataLink.step] at hst
  split at hst
  next c rest hth hev =>
    have hsub : ∀ s, ∀ d ∈ Function.update st.events side rest s, d ∈ st.events s := by
      intro s d hd
      by_cases hs : s = side
      · subst hs
        rw [Function.update_self] at hd
        rw [hev]
        exact List.mem_cons_of_mem _ hd
      · rwa [Function.update_of_ne hs] at hd
    have hc : c ∈ st.events side := by simp [hev]
    obtain ⟨hside, hdes⟩ := h.core.events hc
    split at hst
    · obtain rfl := Option.some.inj hst
      have h₁ : LinkInv { st with
          events := Function.update st.events side rest
          bound := Function.update st.bound c false } :=
        ⟨h.book.keep rfl rfl rfl rfl rfl fun _ => rfl,
          h.core.keep (fun _ _ _ => rfl) rfl rfl rfl hsub fun _ _ => id⟩
      unfold DataLink.removeEndpointIfMatch
      split
      next hslot =>
        refine ⟨h₁.book.keep DataLink.clear_next DataLink.clear_dialer DataLink.clear_accepted
          DataLink.clear_returned DataLink.clear_inserted fun _ => by rw [DataLink.clear_thread],
          h₁.core.remove DataLink.clear_dialer rfl DataLink.clear_inserted rfl rfl
            (fun s d hd => hd.mono DataLink.clear_inserted fun d' hd' => ⟨d', ?_⟩)
            fun d hd => ?_⟩
        · rw [DataLink.clear_thread, hd']
        · -- the event has come because the end of the caller is gone
          obtain rfl := Option.some.inj (hslot.symm.trans hd)
          exact .inr ⟨hside.symm, hdes⟩
      · exact h₁
    · obtain rfl := Option.some.inj hst
      exact ⟨h.book.keep rfl rfl rfl rfl rfl fun _ => rfl,
        h.core.keep (fun _ _ _ => rfl) rfl rfl rfl hsub fun _ _ => id⟩
  · cases hst

theorem step (h : LinkInv st) {a : DataLinkAct} (hst : st.step a = some st') : LinkInv st' := by
  cases a with
  | dial side => exact h.dial hst
  | accept c => exact h.accept hst
  | clientAdd c => exact h.clientAdd hst
  | server side => exact h.server hst
  | disconnected side => exact h.disconnected hst

theorem of_reach (h : Reach DataLink.step Free .start st) : LinkInv st :=
  h.invariant start fun _ _ _ _ hi _ hst => hi.step hst

/-- The end that a side has inserted last is still in its map, since nothing has superseded it, and
the caller's end, which could take the server's with it, has not been superseded either. -/
theorem agreed_of_last (h : LinkInv st) (hq : st.Quiet)
    (hlast : ∀ side, (st.inserted side).getLast? = some c) : st.Agreed := by
  have hsup : ∀ side, ¬ st.Superseded side c := by
    rintro side (hs | ⟨d, hd⟩)
    · exact hs (hlast side)
    · rw [(hq.2.2 side).1] at hd
      cases hd
  have hclient : ¬ st.destroyed (st.dialer c) c = true := fun hd => hsup _ (h.core.client_gone hd)
  have hserver : ¬ st.destroyed (st.dialer c).other c = true := fun hd =>
    (h.core.server_gone hd).elim (hsup _) hclient
  refine ⟨c, fun side => ?_⟩
  have hdes : ¬ st.destroyed side c = true := by
    by_cases hside : side = st.dialer c
    · rwa [hside]
    · rwa [Side.eq_other_of_ne hside]
  exact ⟨(h.core.last (hlast side)).resolve_right hdes, Bool.eq_false_iff.mpr hdes⟩

/-- Once everything is handled, both sides have inserted every connection. -/
theorem inserted_of_quiet (h : LinkInv st) (hq : st.Quiet) (hc : c < st.next) :
    c ∈ st.inserted side := by
  obtain ⟨hacc, hret⟩ := hq.2.1 c hc
  by_cases hside : side = st.dialer c
  · rw [hside]
    exact (h.book.client hc).mpr hret
  · rw [Side.eq_other_of_ne hside]
    refine (h.book.server hc).mpr ⟨hacc, ?_⟩
    rw [(hq.2.2 _).1]
    rintro ⟨⟩

theorem agreed_of_getLast_eq (h : LinkInv st) (hq : st.Quiet)
    (hab : (st.inserted .a).getLast? = (st.inserted .b).getLast?) : st.Agreed := by
  have hmem : 0 ∈ st.inserted .a := h.inserted_of_quiet hq hq.1
  obtain ⟨c, hc⟩ := Option.isSome_iff_exists.mp
    (List.getLast?_isSome.mpr (List.ne_nil_of_mem hmem))
  refine h.agreed_of_last (c := c) hq fun side => ?_
  cases side
  · exact hc
  · rw [← hab, hc]

end LinkInv

/-- **The link.** Once all events are handled, both sides hold the two ends of one connection
exactly when they inserted the same connection last. What a map holds was inserted there last, which
is one direction; the other is that such a connection was torn down by nothing
(`LinkInv.agreed_of_getLast_eq`). -/
theorem DataLink.agreed_iff_last_inserted {st : DataLink}
    (h : Reach DataLink.step Free .start st) (hq : st.Quiet) :
    st.Agreed ↔ (st.inserted .a).getLast? = (st.inserted .b).getLast? := by
  have hi := LinkInv.of_reach h
  constructor
  · rintro ⟨c, hc⟩
    rw [(hi.core.slot (hc .a).1).1, (hi.core.slot (hc .b).1).1]
  · exact hi.agreed_of_getLast_eq hq

/-- Process `a` connects, and process `b` does not. -/
theorem DataLink.agreed_iff_last_inserted_one_caller :
    ∃ st, Reach DataLink.step Free .start st ∧ st.Quiet ∧ st.Agreed := by
  obtain ⟨st, hr, hq, hlast⟩ : ∃ st, Reach DataLink.step Free .start st ∧
      st.Quiet ∧ (st.inserted .a).getLast? = (st.inserted .b).getLast? :=
    exists_reach_of_exec [.dial .a, .accept 0, .clientAdd 0, .server .b, .server .b, .server .b]
      (by decide +kernel)
  exact ⟨st, hr, hq, (DataLink.agreed_iff_last_inserted hr hq).mpr hlast⟩

/-- Both processes connect. Each adds its caller's end before its server thread adds the end of the
other connection in its place, which destroys the caller's end: both connections are torn down. -/
theorem DataLink.crossing_connections_lost :
    ∃ st, Reach DataLink.step Free .start st ∧ st.Quiet ∧ ¬ st.Agreed := by
  obtain ⟨st, hr, hq, hslot⟩ : ∃ st, Reach DataLink.step Free .start st ∧
      st.Quiet ∧ st.slot .a = none :=
    exists_reach_of_exec [.dial .a, .dial .b, .accept 0, .accept 1, .clientAdd 0, .clientAdd 1,
      .server .b, .server .b, .server .b, .server .a, .server .a, .server .a,
      .disconnected .a, .disconnected .b] (by decide +kernel)
  refine ⟨st, hr, hq, fun ⟨c, hc⟩ => ?_⟩
  rw [(hc .a).1] at hslot
  cases hslot

/-! ### One order -/

/-- The sides insert the same connections in the same order, one of them perhaps further. -/
structure InsertedAlike (st : DataLink) : Prop where
  nodup : ∀ side, (st.inserted side).Nodup
  same : ∀ {side : Side} {i c d : ℕ}, (st.inserted side)[i]? = some c →
    (st.inserted side.other)[i]? = some d → c = d

namespace InsertedAlike

variable {st st' : DataLink} {side : Side} {c : ℕ}

theorem start : InsertedAlike .start where
  nodup _ := List.nodup_nil
  same h := by cases h

theorem keep (h : InsertedAlike st) (hins : st'.inserted = st.inserted) : InsertedAlike st' := by
  obtain ⟨hnodup, hsame⟩ := h
  refine ⟨?_, ?_⟩
  · rwa [hins]
  · rwa [hins]

/-- A side inserts the connection that its peer inserted at this place. -/
theorem insert (h : InsertedAlike st) (hnew : c ∉ st.inserted side) (hfollows : st.Follows side c)
    (hins : st'.inserted = Function.update st.inserted side (st.inserted side ++ [c])) :
    InsertedAlike st' := by
  have hself : st'.inserted side = st.inserted side ++ [c] := by rw [hins, Function.update_self]
  have hother : ∀ s, s ≠ side → st'.inserted s = st.inserted s := fun s hs => by
    rw [hins, Function.update_of_ne hs]
  have hpair : ∀ {i x y : ℕ}, (st'.inserted side)[i]? = some x →
      (st'.inserted side.other)[i]? = some y → x = y := by
    intro i x y hx hy
    rw [hother _ side.other_ne] at hy
    rw [hself] at hx
    obtain hlt | hge := Nat.lt_or_ge i (st.inserted side).length
    · rw [List.getElem?_append_left hlt] at hx
      exact h.same hx hy
    · -- the new connection
      rw [List.getElem?_append_right hge, List.getElem?_singleton] at hx
      split_ifs at hx with hi
      obtain rfl := Option.some.inj hx
      obtain rfl : i = (st.inserted side).length := by omega
      exact (hfollows y hy).symm
  refine ⟨fun s => ?_, fun {s i x y} hx hy => ?_⟩
  · by_cases hs : s = side
    · rw [hs, hself]
      exact List.nodup_append_comm.mp (List.nodup_cons.mpr ⟨hnew, h.nodup side⟩)
    · rw [hother s hs]
      exact h.nodup s
  · by_cases hs : s = side
    · subst hs
      exact hpair hx hy
    · obtain rfl := Side.eq_other_of_ne hs
      rw [Side.other_other] at hy
      exact (hpair hy hx).symm

/-- **One step** in order keeps the two histories alike. -/
theorem step (h : InsertedAlike st) (hi : LinkInv st) {a : DataLinkAct} (ha : st.InOrder a)
    (hst : st.step a = some st') : InsertedAlike st' := by
  cases a with
  | dial side =>
    simp only [DataLink.step, Option.ite_none_right_eq_some, Option.some.injEq] at hst
    obtain ⟨-, rfl⟩ := hst
    exact h.keep rfl
  | accept c =>
    simp only [DataLink.step, Option.ite_none_right_eq_some, Option.some.injEq] at hst
    obtain ⟨-, rfl⟩ := hst
    exact h.keep rfl
  | clientAdd c =>
    simp only [DataLink.step, Option.ite_none_right_eq_some, Option.some.injEq] at hst
    obtain ⟨⟨hacc, hret⟩, rfl⟩ := hst
    exact h.insert (hi.not_mem_dialer hacc hret) ha rfl
  | server side =>
    simp only [DataLink.step] at hst
    split at hst
    · cases hst
    · obtain rfl := Option.some.inj hst
      exact h.keep rfl
    · obtain rfl := Option.some.inj hst
      exact h.keep DataLink.clear_inserted
    next c hth =>
      obtain rfl := Option.some.inj hst
      exact h.insert (hi.not_mem_server hth) (ha c hth) rfl
  | disconnected side =>
    simp only [DataLink.step, DataLink.removeEndpointIfMatch] at hst
    split at hst
    · split at hst
      · obtain rfl := Option.some.inj hst
        refine h.keep ?_
        split
        · exact DataLink.clear_inserted
        · rfl
      · obtain rfl := Option.some.inj hst
        exact h.keep rfl
    · cases hst

theorem of_reach (h : Reach DataLink.step DataLink.InOrder .start st) : InsertedAlike st :=
  h.invariant start fun _ _ _ hr hi ha hst => hi.step (LinkInv.of_reach hr.free) ha hst

/-- Sides that inserted the same connections inserted them in the same order. -/
theorem inserted_eq (h : InsertedAlike st)
    (hmem : ∀ c, c ∈ st.inserted .a ↔ c ∈ st.inserted .b) : st.inserted .a = st.inserted .b := by
  have hlen : (st.inserted .a).length = (st.inserted .b).length :=
    ((List.perm_ext_iff_of_nodup (h.nodup .a) (h.nodup .b)).mpr hmem).length_eq
  refine List.ext_getElem hlen fun i hi hi' => ?_
  exact h.same (List.getElem?_eq_getElem hi) (List.getElem?_eq_getElem hi')

end InsertedAlike

/-- **One order.** Where both sides insert the connections in one order, the link is sound whenever
everything is handled: both have inserted all of them by then, so the same one last. -/
theorem DataLink.agreed_of_inOrder {st : DataLink}
    (h : Reach DataLink.step DataLink.InOrder .start st) (hq : st.Quiet) : st.Agreed := by
  have hi := LinkInv.of_reach h.free
  have heq : st.inserted .a = st.inserted .b := (InsertedAlike.of_reach h).inserted_eq fun c =>
    ⟨fun hc => hi.inserted_of_quiet hq (hi.book.inserted_lt hc),
      fun hc => hi.inserted_of_quiet hq (hi.book.inserted_lt hc)⟩
  exact hi.agreed_of_getLast_eq hq (congrArg List.getLast? heq)

end HMC.Rdma
