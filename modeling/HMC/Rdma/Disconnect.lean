import HMC.Machine.Places
import HMC.Machine.Run
import HMC.Rdma.Server

/-!
# Late disconnects

The server thread establishes connections and handles `DISCONNECTED` events, while callers of
`connectTo` insert their ends under the same keys. To establish a connection it binds the `cm_id`
of the new endpoint in `g_bound_by_cmid`, takes what the endpoint map has for the peer out of it,
destroys that and inserts the new endpoint. For a `DISCONNECTED` it takes the entry of the event's
`cm_id`, and takes out and destroys the endpoint under its key if that has the `conn_id` of the
entry.

An endpoint that is replaced or removed is destroyed, and then its `cm_id` may be used again; its
entry in `g_bound_by_cmid` stays. `disconnected_removes_own` says that an event never removes the
endpoint of another connection, and leaves none of its own.

Between the parts of one event a caller may put another endpoint under the same key, and the entry
of the event's `cm_id` may be of an endpoint that is long gone. What decides is the comparison of
`conn_id`s, which are never given again: `RegistryInv.eq_of_taken` says that an endpoint which
passes it is that of the event. The invariant has the endpoints in one place each (`Registry.Kept`,
an instance of `HMC.Machine.Placed`) and every server's endpoint in the map bound to its key.
-/

namespace HMC.Rdma

open HMC.Machine

/-! ### The two tables -/

/-- `EndpointType`. -/
inductive EndpointType
  | client
  | server
  deriving DecidableEq

/-- An `RDMAEndpoint`, by its `cm_id`, its `conn_id_` and its role. -/
structure RdmaEnd extends ServerEndpoint where
  role : EndpointType
  deriving DecidableEq

/-- Where the server thread is. It establishes the connection of endpoint `e` and has bound its
`cm_id`, taken `old` out of the map, or destroyed that; or it handles a `DISCONNECTED` for the
`cm_id` of endpoint `e`, and has got the event, taken the entry, or taken `old` out of the map. -/
inductive RegistryPc
  | loop
  | bound (key : PeerKey) (e : RdmaEnd)
  | removing (key : PeerKey) (e : RdmaEnd) (old : Option RdmaEnd)
  | removed (key : PeerKey) (e : RdmaEnd)
  | disconnected (e : RdmaEnd)
  | taken (e : RdmaEnd) (key : BoundKey)
  | closing (e old : RdmaEnd)
  deriving DecidableEq

namespace RegistryPc

/-- The endpoint that is being established. -/
def hand : RegistryPc → Option RdmaEnd
  | .bound _ e | .removing _ e _ | .removed _ e => some e
  | _ => none

/-- The endpoint that is about to be destroyed. -/
def old : RegistryPc → Option RdmaEnd
  | .removing _ _ old => old
  | .closing _ old => some old
  | _ => none

/-- The endpoint whose `DISCONNECTED` is being handled. -/
def event : RegistryPc → Option RdmaEnd
  | .disconnected e | .taken e _ | .closing e _ => some e
  | _ => none

end RegistryPc

/-- The endpoint map and `g_bound_by_cmid`. `owner` is the endpoint that a `cm_id` belongs to, until
it is destroyed, and `made` the endpoint that was made with a `conn_id`. -/
structure Registry where
  endpoints : PeerKey → Option RdmaEnd
  bound : ℕ → Option BoundKey
  pc : RegistryPc
  owner : ℕ → Option RdmaEnd
  made : ℕ → Option RdmaEnd

/-- The server thread has made an endpoint for a new connection, gets a `DISCONNECTED`, or goes on;
or a call of `connectTo` inserts its endpoint. -/
inductive RegistryAct
  | establish (key : PeerKey) (cmId connId : ℕ)
  | disconnected (cmId : ℕ)
  | server
  | clientAdd (key : PeerKey) (cmId connId : ℕ)
  deriving DecidableEq

namespace Registry

/-- Nothing has been connected. -/
def start : Registry where
  endpoints _ := none
  bound _ := none
  pc := .loop
  owner _ := none
  made _ := none

variable (st : Registry)

/-- The `conn_id` of the endpoint is new, and its `cm_id` belongs to no other. -/
def Fresh (e : RdmaEnd) : Prop :=
  e.connId ≠ 0 ∧ st.owner e.cmId = none ∧ st.made e.connId = none

instance (e : RdmaEnd) : Decidable (st.Fresh e) :=
  inferInstanceAs (Decidable (_ ∧ _ ∧ _))

def create (e : RdmaEnd) : Registry :=
  { st with
    owner := Function.update st.owner e.cmId (some e)
    made := Function.update st.made e.connId (some e) }

/-- `~RDMAEndpoint`. -/
def destroy (old : Option RdmaEnd) : Registry :=
  { st with owner := release (fun e => e.cmId) st.owner old }

def goto (pc : RegistryPc) : Registry := { st with pc := pc }

/-- `bindCmid_`. -/
def bindCmid (id : ℕ) (key : BoundKey) : Registry :=
  { st with bound := Function.update st.bound id (some key) }

/-- `takeBind_`. -/
def takeBind (id : ℕ) : Option (BoundKey × Registry) :=
  (st.bound id).map fun key => (key, { st with bound := Function.update st.bound id none })

/-- Take the entry of a key out of the map. -/
def erase (key : PeerKey) : Registry :=
  { st with endpoints := Function.update st.endpoints key none }

/-- `_addEndpoint`: what was there is destroyed under the lock. -/
def addEndpoint (key : PeerKey) (e : RdmaEnd) : Registry :=
  { st.destroy (st.endpoints key) with
    endpoints := Function.update st.endpoints key (some e) }

/-- One step. `_removeEndpoint` and `_removeEndpointIfMatch` destroy after they have let the map
go. -/
def step : RegistryAct → Option Registry
  | .establish key cmId connId =>
    if st.pc = .loop ∧ st.Fresh ⟨⟨cmId, connId⟩, .server⟩ then
      some (((st.create ⟨⟨cmId, connId⟩, .server⟩).bindCmid cmId ⟨key, connId⟩).goto
        (.bound key ⟨⟨cmId, connId⟩, .server⟩))
    else none
  | .disconnected cmId =>
    match st.pc, st.owner cmId with
    | .loop, some e => if e.role = .server then some (st.goto (.disconnected e)) else none
    | _, _ => none
  | .clientAdd key cmId connId =>
    if st.Fresh ⟨⟨cmId, connId⟩, .client⟩ then
      some ((st.create ⟨⟨cmId, connId⟩, .client⟩).addEndpoint key ⟨⟨cmId, connId⟩, .client⟩)
    else none
  | .server =>
    match st.pc with
    | .loop => none
    | .bound key e => some ((st.erase key).goto (.removing key e (st.endpoints key)))
    | .removing key e old => some ((st.destroy old).goto (.removed key e))
    | .removed key e => some ((st.addEndpoint key e).goto .loop)
    | .disconnected e =>
      match st.takeBind e.cmId with
      | none => some (st.goto .loop)
      | some (key, st) => some (st.goto (.taken e key))
    | .taken e key =>
      match st.endpoints key.toPeerKey with
      | none => some (st.goto .loop)
      | some old =>
        if old.connId ≠ key.connId then some (st.goto .loop)
        else some ((st.erase key.toPeerKey).goto (.closing e old))
    | .closing _ old => some ((st.destroy (some old)).goto .loop)

end Registry

/-! ### Where the endpoints are -/

/-- A place that an endpoint may be in: the map, or the hands of the server thread. -/
inductive RegistryPlace
  | map (key : PeerKey)
  | hand
  | old
  deriving DecidableEq

namespace Registry

variable (st : Registry)

def place : RegistryPlace → Option RdmaEnd
  | .map key => st.endpoints key
  | .hand => st.pc.hand
  | .old => st.pc.old

/-- Every endpoint is in one place. -/
def Kept : Prop := Placed (fun e => e.cmId) (fun e => e.connId) st.place st.owner st.made

variable {st} {st' : Registry} {key : PeerKey} {e : RdmaEnd} {old : Option RdmaEnd}

theorem update_place_map (key k : PeerKey) (v : Option RdmaEnd) :
    Function.update st.place (.map key) v (.map k) = Function.update st.endpoints key v k := by
  simp [Function.update_apply, place]

namespace Kept

theorem placed (h : st.Kept) :
    Placed (fun e : RdmaEnd => e.cmId) (fun e => e.connId) st.place st.owner st.made := h

theorem start : Registry.start.Kept := by
  have hplace : Registry.start.place = fun _ => none := by
    funext p
    cases p <;> rfl
  rw [Kept, hplace]
  exact .empty

theorem same (h : st.Kept) (hend : st'.endpoints = st.endpoints) (hhand : st'.pc.hand = st.pc.hand)
    (hold : st'.pc.old = st.pc.old) (howner : st'.owner = st.owner) (hmade : st'.made = st.made) :
    st'.Kept := by
  have hplace : st'.place = st.place := by
    funext p
    cases p with
    | map k => exact congrFun hend k
    | hand => exact hhand
    | old => exact hold
  rw [Kept, hplace, howner, hmade]
  exact h

/-- A new endpoint has another `cm_id` than what is in the map. -/
theorem cmId_ne (h : st.Kept) (hfresh : st.Fresh e) {k : PeerKey} {d : RdmaEnd}
    (hkey : st.endpoints k = some d) : d.cmId ≠ e.cmId := by
  have hplace : st.place (.map k) = some d := hkey
  exact h.placed.handle_ne hfresh.2.1 hplace

/-- A new endpoint has another `conn_id` than what was made before. -/
theorem connId_ne (hfresh : st.Fresh e) {d : RdmaEnd} (hmade : st.made d.connId = some d) :
    d.connId ≠ e.connId := by
  intro heq
  rw [heq, hfresh.2.2] at hmade
  cases hmade

/-- The server thread makes an endpoint. -/
theorem establish (h : st.Kept) (hpc : st.pc = .loop) (hfresh : st.Fresh e) (b : BoundKey) :
    (((st.create e).bindCmid e.cmId b).goto (.bound key e)).Kept := by
  have hplace : (((st.create e).bindCmid e.cmId b).goto (.bound key e)).place =
      Function.update st.place .hand (some e) := by
    funext p
    cases p with
    | map k => rfl
    | hand => rfl
    | old => simp [place, hpc, goto, RegistryPc.old]
  rw [Kept, hplace]
  exact h.placed.insert (by rw [place, hpc]; rfl) hfresh.2.1 hfresh.2.2

/-- The server thread takes what is under a key. -/
theorem erase (h : st.Kept) {pc : RegistryPc} (hold : st.pc.old = none)
    (hhand : pc.hand = st.pc.hand) (hpc : pc.old = st.endpoints key) :
    ((st.erase key).goto pc).Kept := by
  have hplace : ((st.erase key).goto pc).place =
      Function.update (Function.update st.place (.map key) none) .old (st.place (.map key)) := by
    funext p
    cases p with
    | map k =>
      rw [Function.update_of_ne (by simp), update_place_map]
      rfl
    | hand => simp [place, goto, hhand]
    | old => simp [place, goto, hpc]
  rw [Kept, hplace]
  exact h.placed.move (by simp) hold

/-- The server thread destroys what it has taken. -/
theorem destroy (h : st.Kept) {pc : RegistryPc} (hold : st.pc.old = old)
    (hhand : pc.hand = st.pc.hand) (hpc : pc.old = none) : ((st.destroy old).goto pc).Kept := by
  have hplace : ((st.destroy old).goto pc).place = Function.update st.place .old none := by
    funext p
    cases p with
    | map k => simp [place, goto, Registry.destroy]
    | hand => simp [place, goto, hhand]
    | old => simp [place, goto, hpc]
  have hdes := h.placed.destroy .old
  rw [place, hold] at hdes
  rw [Kept, hplace]
  exact hdes

/-- The server thread inserts the endpoint that it has established. -/
theorem serverAdd (h : st.Kept) (hpc : st.pc = .removed key e) :
    ((st.addEndpoint key e).goto .loop).Kept := by
  have hplace : ((st.addEndpoint key e).goto .loop).place =
      Function.update (Function.update (Function.update st.place (.map key) none) .hand none)
        (.map key) (Function.update st.place (.map key) none .hand) := by
    funext p
    cases p with
    | map k => by_cases hk : k = key <;> simp [place, goto, addEndpoint, hk, hpc, RegistryPc.hand]
    | hand => simp [place, goto, RegistryPc.hand]
    | old => simp [place, goto, hpc, RegistryPc.old]
  rw [Kept, hplace]
  exact (h.placed.destroy (.map key)).move (by simp) (by simp)

/-- A call of `connectTo` inserts its endpoint. -/
theorem clientAdd (h : st.Kept) (hfresh : st.Fresh e) : ((st.create e).addEndpoint key e).Kept := by
  have hplace : ((st.create e).addEndpoint key e).place =
      Function.update (Function.update st.place (.map key) none) (.map key) (some e) := by
    funext p
    cases p with
    | map k => by_cases hk : k = key <;> simp [place, addEndpoint, create, Registry.destroy, hk]
    | hand => rfl
    | old => rfl
  -- the new endpoint has another `cm_id` than the one it replaces
  have howner : ((st.create e).addEndpoint key e).owner =
      Function.update (release (fun e => e.cmId) st.owner (st.endpoints key)) e.cmId (some e) := by
    cases hkey : st.endpoints key with
    | none => simp [addEndpoint, Registry.destroy, create, release, hkey]
    | some d =>
      simp only [addEndpoint, Registry.destroy, create, release, hkey]
      rw [Function.update_comm (h.cmId_ne hfresh hkey)]
  rw [Kept, hplace, howner]
  refine (h.placed.destroy (.map key)).insert (Function.update_self _ _ _) ?_ hfresh.2.2
  -- destroying leaves a free `cm_id` free
  rw [place]
  cases hkey : st.endpoints key with
  | none => exact hfresh.2.1
  | some d =>
    rw [release, Function.update_of_ne (h.cmId_ne hfresh hkey).symm]
    exact hfresh.2.1

end Kept

end Registry

/-- What is known where the server thread is: the entry of the endpoint that it establishes; or the
endpoint of an event, the entry that is taken, and the only key that the endpoint may still be
under. -/
def RegistryPc.Knows (st : Registry) : RegistryPc → Prop
  | .loop => True
  | .bound key e | .removing key e _ | .removed key e =>
    e.role = .server ∧ st.bound e.cmId = some ⟨key, e.connId⟩
  | .disconnected e =>
    st.made e.connId = some e ∧ e.role = .server ∧ ∃ key, st.bound e.cmId = some ⟨key, e.connId⟩
  | .taken e key =>
    st.made e.connId = some e ∧ key.connId = e.connId ∧
      ∀ k, st.endpoints k = some e → k = key.toPeerKey
  | .closing e old => st.made e.connId = some e ∧ old = e

/-- What is known stays known while no entry changes and no old endpoint is inserted. -/
theorem RegistryPc.Knows.mono {st st' : Registry} {pc : RegistryPc} (h : pc.Knows st)
    (hbound : st'.bound = st.bound)
    (hmade : ∀ d, st.made d.connId = some d → st'.made d.connId = some d)
    (hend : ∀ k d, st.made d.connId = some d → st'.endpoints k = some d →
      st.endpoints k = some d) : pc.Knows st' := by
  cases pc with
  | loop => trivial
  | bound k d | removing k d o | removed k d =>
    rw [RegistryPc.Knows, hbound]
    exact h
  | disconnected d =>
    rw [RegistryPc.Knows, hbound]
    exact ⟨hmade d h.1, h.2⟩
  | taken d b => exact ⟨hmade d h.1, h.2.1, fun k hk => h.2.2 k (hend k d h.1 hk)⟩
  | closing d o => exact ⟨hmade d h.1, h.2⟩

/-- The invariant: the `cm_id` of a server's endpoint in the map is bound to its key, unless its
`DISCONNECTED` is being handled. -/
structure RegistryInv (st : Registry) : Prop where
  kept : st.Kept
  bound : ∀ {key e}, st.endpoints key = some e → e.role = .server →
    st.bound e.cmId = some ⟨key, e.connId⟩ ∨ st.pc = .taken e ⟨key, e.connId⟩
  knows : st.pc.Knows st

namespace RegistryInv

variable {st st' : Registry} {key : PeerKey} {e e' : RdmaEnd}

theorem start : RegistryInv .start where
  kept := .start
  bound h := by cases h
  knows := trivial

/-- The endpoint of a `conn_id` is the one that was made with it. -/
theorem eq_of_connId (h : RegistryInv st) (hmade : st.made e.connId = some e)
    (hkey : st.endpoints key = some e') (he : e'.connId = e.connId) : e' = e := by
  have hmade' := h.kept.serial (p := .map key) hkey
  rw [he, hmade] at hmade'
  exact (Option.some.inj hmade').symm

/-- The `cm_id` of a server's endpoint is bound to its key while no event is being handled. -/
theorem bound_of_pc (h : RegistryInv st) (hpc : ∀ e key, st.pc ≠ .taken e key)
    (hkey : st.endpoints key = some e) (he : e.role = .server) :
    st.bound e.cmId = some ⟨key, e.connId⟩ :=
  (h.bound hkey he).resolve_right (hpc _ _)

/-- An endpoint other than the one of the event is bound to its key. -/
theorem bound_of_ne (h : RegistryInv st) {b : BoundKey} (hpc : st.pc = .taken e' b)
    (hkey : st.endpoints key = some e) (he : e.role = .server) (hne : e ≠ e') :
    st.bound e.cmId = some ⟨key, e.connId⟩ := by
  refine (h.bound hkey he).resolve_right fun htaken => hne ?_
  rw [hpc] at htaken
  exact (RegistryPc.taken.inj htaken).1.symm

/-- The server thread has made an endpoint and binds its `cm_id`. -/
theorem establish (h : RegistryInv st) {cmId connId : ℕ}
    (hst : st.step (.establish key cmId connId) = some st') : RegistryInv st' := by
  simp only [Registry.step, Option.ite_none_right_eq_some, Option.some.injEq] at hst
  obtain ⟨⟨hpc, hfresh⟩, rfl⟩ := hst
  refine ⟨h.kept.establish hpc hfresh _, fun {k d} hd hrole => .inl ?_, rfl, ?_⟩
  · -- the `cm_id` of another endpoint keeps its entry
    have hne : d.cmId ≠ cmId := h.kept.cmId_ne hfresh hd
    exact (Function.update_of_ne hne _ _).trans (h.bound_of_pc (by simp [hpc]) hd hrole)
  · exact Function.update_self _ _ _

/-- The server thread gets a `DISCONNECTED`. -/
theorem disconnected (h : RegistryInv st) {cmId : ℕ}
    (hst : st.step (.disconnected cmId) = some st') : RegistryInv st' := by
  simp only [Registry.step] at hst
  split at hst
  next d hpc howner =>
    obtain ⟨hrole, hst⟩ := Option.ite_none_right_eq_some.mp hst
    obtain rfl := Option.some.inj hst
    obtain ⟨-, p, hp⟩ := h.kept.placed.somewhere howner
    have hloop : ∀ e key, st.pc ≠ .taken e key := by simp [hpc]
    refine ⟨h.kept.same rfl (by rw [hpc]; rfl) (by rw [hpc]; rfl) rfl rfl,
      fun hk he => .inl (h.bound_of_pc hloop hk he), h.kept.placed.serial hp, hrole, ?_⟩
    -- the endpoint of the event is in the map
    cases p with
    | map k => exact ⟨k, h.bound_of_pc hloop hp hrole⟩
    | hand =>
      rw [Registry.place, hpc] at hp
      cases hp
    | old =>
      rw [Registry.place, hpc] at hp
      cases hp
  · cases hst

/-- A call of `connectTo` inserts its endpoint. -/
theorem clientAdd (h : RegistryInv st) {cmId connId : ℕ}
    (hst : st.step (.clientAdd key cmId connId) = some st') : RegistryInv st' := by
  simp only [Registry.step, Option.ite_none_right_eq_some, Option.some.injEq] at hst
  obtain ⟨hfresh, rfl⟩ := hst
  have hmade : ∀ {d}, st.made d.connId = some d →
      Function.update st.made connId (some ⟨⟨cmId, connId⟩, .client⟩) d.connId = some d := by
    intro d hd
    rw [Function.update_of_ne (Registry.Kept.connId_ne hfresh hd)]
    exact hd
  refine ⟨h.kept.clientAdd hfresh, fun {k d} hd hrole => ?_, ?_⟩
  · obtain ⟨-, hd⟩ | ⟨-, hd⟩ := update_eq_some.mp hd
    · obtain rfl := Option.some.inj hd
      cases hrole
    · exact h.bound hd hrole
  · refine h.knows.mono rfl (fun _ => hmade) fun k d hd hk => ?_
    obtain ⟨-, hk⟩ | ⟨-, hk⟩ := update_eq_some.mp hk
    · -- the new endpoint was not made before
      obtain rfl := Option.some.inj hk
      exact absurd rfl (Registry.Kept.connId_ne hfresh hd)
    · exact hk

/-! Establishing: what is under the key is taken out, destroyed, and the endpoint is inserted. -/

theorem remove (h : RegistryInv st) (hpc : st.pc = .bound key e) :
    RegistryInv ((st.erase key).goto (.removing key e (st.endpoints key))) := by
  have hknows := h.knows
  rw [hpc] at hknows
  refine ⟨h.kept.erase (by rw [hpc]; rfl) (by rw [hpc]; rfl) rfl, fun hk he => .inl ?_, hknows⟩
  exact h.bound_of_pc (by simp [hpc]) ((update_eq_some.mp hk).resolve_left (by simp)).2 he

theorem destroyOld (h : RegistryInv st) {old : Option RdmaEnd} (hpc : st.pc = .removing key e old) :
    RegistryInv ((st.destroy old).goto (.removed key e)) := by
  have hknows := h.knows
  rw [hpc] at hknows
  exact ⟨h.kept.destroy (by rw [hpc]; rfl) (by rw [hpc]; rfl) rfl,
    fun hk he => .inl (h.bound_of_pc (by simp [hpc]) hk he), hknows⟩

theorem serverAdd (h : RegistryInv st) (hpc : st.pc = .removed key e) :
    RegistryInv ((st.addEndpoint key e).goto .loop) := by
  have hknows := h.knows
  rw [hpc] at hknows
  refine ⟨h.kept.serverAdd hpc, fun {k d} hk hd => .inl ?_, trivial⟩
  obtain ⟨rfl, hself⟩ | ⟨-, hold⟩ := update_eq_some.mp hk
  · obtain rfl := Option.some.inj hself
    exact hknows.2
  · exact h.bound_of_pc (by simp [hpc]) hold hd

/-! A `DISCONNECTED`: the entry of the `cm_id` is taken, then the endpoint, which is destroyed. -/

theorem takeBind (h : RegistryInv st) (hpc : st.pc = .disconnected e) :
    ∃ k, st.bound e.cmId = some ⟨k, e.connId⟩ ∧
      RegistryInv ({ st with bound := Function.update st.bound e.cmId none }.goto
        (.taken e ⟨k, e.connId⟩)) := by
  have hknows := h.knows
  rw [hpc] at hknows
  obtain ⟨hmade, hrole, k, hk⟩ := hknows
  have hloop : ∀ e b, st.pc ≠ .taken e b := by simp [hpc]
  refine ⟨k, hk, h.kept.same rfl (by rw [hpc]; rfl) (by rw [hpc]; rfl) rfl rfl,
    fun {k' d} hd hdrole => ?_, hmade, rfl, fun k' hk' => ?_⟩
  · have hdbound := h.bound_of_pc hloop hd hdrole
    by_cases hcm : d.cmId = e.cmId
    · -- the entry that was taken is that of the event's endpoint
      rw [hcm, hk, Option.some.injEq, BoundKey.mk.injEq] at hdbound
      obtain ⟨rfl, hconn⟩ := hdbound
      obtain rfl := h.eq_of_connId hmade hd hconn.symm
      exact .inr rfl
    · exact .inl ((Function.update_of_ne hcm _ _).trans hdbound)
  · have hkbound := h.bound_of_pc hloop hk' hrole
    rw [hk, Option.some.injEq, BoundKey.mk.injEq] at hkbound
    exact hkbound.1.symm

/-- The entry that was taken leads to the endpoint of the event, if that is in the map. -/
theorem eq_of_taken (h : RegistryInv st) {b : BoundKey} (hpc : st.pc = .taken e b) {d : RdmaEnd}
    (hkey : st.endpoints b.toPeerKey = some d) : d.connId = b.connId ↔ d = e := by
  have hknows := h.knows
  rw [hpc] at hknows
  obtain ⟨hmade, hconn, -⟩ := hknows
  rw [hconn]
  exact ⟨h.eq_of_connId hmade hkey, fun hd => by rw [hd]⟩

theorem keepMap (h : RegistryInv st) {b : BoundKey} (hpc : st.pc = .taken e b)
    (hgone : st.endpoints b.toPeerKey ≠ some e) : RegistryInv (st.goto .loop) := by
  have hknows := h.knows
  rw [hpc] at hknows
  refine ⟨h.kept.same rfl (by rw [hpc]; rfl) (by rw [hpc]; rfl) rfl rfl,
    fun {k d} hk hd => .inl (h.bound_of_ne hpc hk hd ?_), trivial⟩
  rintro rfl
  rw [hknows.2.2 k hk] at hk
  exact hgone hk

theorem removeOwn (h : RegistryInv st) {b : BoundKey} (hpc : st.pc = .taken e b)
    (hkey : st.endpoints b.toPeerKey = some e) :
    RegistryInv ((st.erase b.toPeerKey).goto (.closing e e)) := by
  have hknows := h.knows
  rw [hpc] at hknows
  refine ⟨h.kept.erase (by rw [hpc]; rfl) (by rw [hpc]; rfl) (by rw [hkey]; rfl),
    fun {k d} hk hd => .inl ?_, hknows.1, rfl⟩
  obtain ⟨hne, hold⟩ := (update_eq_some.mp hk).resolve_left (by simp)
  refine h.bound_of_ne hpc hold hd fun hde => hne (hknows.2.2 k ?_)
  rw [← hde, hold]

theorem close (h : RegistryInv st) {old : RdmaEnd} (hpc : st.pc = .closing e old) :
    RegistryInv ((st.destroy (some old)).goto .loop) :=
  ⟨h.kept.destroy (by rw [hpc]; rfl) (by rw [hpc]; rfl) rfl,
    fun hk he => .inl (h.bound_of_pc (by simp [hpc]) hk he), trivial⟩

/-- What the server thread does next for an event: it takes the entry of the event's endpoint; it
finds that the endpoint is gone, or takes it out of the map; or it destroys it. -/
theorem event_cases (h : RegistryInv st) (he : st.pc.event = some e)
    (hst : st.step .server = some st') :
    (∃ k, st.pc = .disconnected e ∧ st.bound e.cmId = some ⟨k, e.connId⟩ ∧
      st' = { st with bound := Function.update st.bound e.cmId none }.goto
        (.taken e ⟨k, e.connId⟩)) ∨
    (∃ b, st.pc = .taken e b ∧ st.endpoints b.toPeerKey ≠ some e ∧ st' = st.goto .loop) ∨
    (∃ b, st.pc = .taken e b ∧ st.endpoints b.toPeerKey = some e ∧
      st' = (st.erase b.toPeerKey).goto (.closing e e)) ∨
    ∃ old, st.pc = .closing e old ∧ st' = (st.destroy (some old)).goto .loop := by
  cases hpc : st.pc with
  | loop | bound k d | removing k d o | removed k d =>
    rw [hpc] at he
    cases he
  | disconnected d =>
    rw [hpc] at he
    obtain rfl := Option.some.inj he
    obtain ⟨k, hk, -⟩ := h.takeBind hpc
    simp only [Registry.step, hpc, Registry.takeBind, hk, Option.map_some] at hst
    exact .inl ⟨k, rfl, hk, (Option.some.inj hst).symm⟩
  | taken d b =>
    rw [hpc] at he
    obtain rfl := Option.some.inj he
    right
    simp only [Registry.step, hpc] at hst
    split at hst
    next hnone => exact .inl ⟨b, rfl, by rw [hnone]; simp, (Option.some.inj hst).symm⟩
    next old hold =>
      have hown := h.eq_of_taken hpc hold
      split_ifs at hst with hconn
      · refine .inl ⟨b, rfl, fun hd => hconn (hown.mpr ?_), (Option.some.inj hst).symm⟩
        rw [hold] at hd
        exact Option.some.inj hd
      · obtain rfl := hown.mp (not_not.mp hconn)
        exact .inr (.inl ⟨b, rfl, hold, (Option.some.inj hst).symm⟩)
  | closing d old =>
    rw [hpc] at he
    obtain rfl := Option.some.inj he
    simp only [Registry.step, hpc, Option.some.injEq] at hst
    exact .inr (.inr (.inr ⟨old, rfl, hst.symm⟩))

/-- The server thread goes on. -/
theorem server (h : RegistryInv st) (hst : st.step .server = some st') : RegistryInv st' := by
  cases he : st.pc.event with
  | some e =>
    obtain ⟨k, hpc, hk, rfl⟩ | ⟨b, hpc, hgone, rfl⟩ | ⟨b, hpc, hkey, rfl⟩ | ⟨old, hpc, rfl⟩ :=
      h.event_cases he hst
    · obtain ⟨k', hk', hi⟩ := h.takeBind hpc
      obtain rfl : k = k' := by
        rw [hk] at hk'
        exact (BoundKey.mk.inj (Option.some.inj hk')).1
      exact hi
    · exact h.keepMap hpc hgone
    · exact h.removeOwn hpc hkey
    · exact h.close hpc
  | none =>
    cases hpc : st.pc with
    | loop => simp [Registry.step, hpc] at hst
    | bound k d =>
      simp only [Registry.step, hpc, Option.some.injEq] at hst
      exact hst ▸ h.remove hpc
    | removing k d o =>
      simp only [Registry.step, hpc, Option.some.injEq] at hst
      exact hst ▸ h.destroyOld hpc
    | removed k d =>
      simp only [Registry.step, hpc, Option.some.injEq] at hst
      exact hst ▸ h.serverAdd hpc
    | disconnected d | taken d b | closing d o =>
      rw [hpc] at he
      cases he

theorem of_reach (h : Reach Registry.step Free .start st) : RegistryInv st := by
  refine h.invariant start fun s a t _ hi _ hst => ?_
  cases a with
  | establish key cmId connId => exact hi.establish hst
  | disconnected cmId => exact hi.disconnected hst
  | server => exact hi.server hst
  | clientAdd key cmId connId => exact hi.clientAdd hst

end RegistryInv

/-- **Late disconnects.** While the server thread handles a `DISCONNECTED` of a connection, it takes
no endpoint out of the map but that connection's, and when it is done none of that connection is
left. For each step of the thread (`RegistryInv.event_cases`): only the one that has found the
endpoint of the event under the key takes something out, and in the states in which it stops the
endpoint is either destroyed or was not there. -/
theorem Registry.disconnected_removes_own {st st' : Registry} {e : RdmaEnd}
    (h : Reach Registry.step Free .start st) (he : st.pc.event = some e)
    (hst : st.step .server = some st') :
    (∀ key d, st.endpoints key = some d → st'.endpoints key ≠ some d → d = e) ∧
      (st'.pc = .loop → ∀ key d, st'.endpoints key = some d → d.connId ≠ e.connId) := by
  have hi := RegistryInv.of_reach h
  have hknows := hi.knows
  obtain ⟨k, hpc, -, rfl⟩ | ⟨b, hpc, hgone, rfl⟩ | ⟨b, hpc, hkey, rfl⟩ | ⟨old, hpc, rfl⟩ :=
    hi.event_cases he hst
  · exact ⟨fun key d hd hne => absurd hd hne, fun hloop => by cases hloop⟩
  · rw [hpc] at hknows
    refine ⟨fun key d hd hne => absurd hd hne, fun _ key d hd hconn => hgone ?_⟩
    obtain rfl := hi.eq_of_connId hknows.1 hd hconn
    rw [← hknows.2.2 key hd]
    exact hd
  · refine ⟨fun key d hd hne => ?_, fun hloop => by cases hloop⟩
    by_cases hk : key = b.toPeerKey
    · rw [hk, hkey] at hd
      exact (Option.some.inj hd).symm
    · exact absurd (update_eq_some.mpr (.inr ⟨hk, hd⟩)) hne
  · rw [hpc] at hknows
    refine ⟨fun key d hd hne => absurd hd hne, fun _ key d hd hconn => ?_⟩
    -- the endpoint is still in the hands of the thread
    obtain rfl := hi.eq_of_connId hknows.1 hd hconn
    have hmap : st.place (.map key) = some d := hd
    have hold : st.place .old = some d := by rw [Registry.place, hpc, hknows.2]; rfl
    cases hi.kept.placed.once hmap hold

/-- While the event of connection 7 is handled, a caller inserts the end of connection 8 under the
same key. It stays. -/
theorem Registry.disconnected_removes_own_replaced :
    ∃ st st' : Registry, st.step .server = some st' ∧ st'.pc = .loop ∧
      st'.endpoints ⟨"10.0.0.2", 2025⟩ = some ⟨⟨2, 8⟩, .client⟩ ∧
      ∀ key d, st'.endpoints key = some d → d.connId ≠ 7 := by
  obtain ⟨st, hr, he, hany⟩ : ∃ st, Reach Registry.step Free .start st ∧
      st.pc.event = some ⟨⟨1, 7⟩, .server⟩ ∧ (st.step .server).any (fun st' =>
        decide (st'.pc = .loop ∧
          st'.endpoints ⟨"10.0.0.2", 2025⟩ = some ⟨⟨2, 8⟩, .client⟩)) = true :=
    exists_reach_of_exec [.establish ⟨"10.0.0.2", 2025⟩ 1 7, .server, .server, .server,
      .disconnected 1, .server, .clientAdd ⟨"10.0.0.2", 2025⟩ 2 8] (by decide +kernel)
  obtain ⟨st', hst, hloop, hkey⟩ := exists_of_any hany
  exact ⟨st, st', hst, hloop, hkey, (Registry.disconnected_removes_own hr he hst).2 hloop⟩

end HMC.Rdma
