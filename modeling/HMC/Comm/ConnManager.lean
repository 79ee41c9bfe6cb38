import HMC.Core.Basic
import HMC.Machine.Run

/-!
# Endpoints under two levels of locks

A `ConnManager` keeps an entry for every peer in one map for each transport. An entry holds an
endpoint and a mutex, and is shared with the calls that have looked it up. `withEndpoint` and
`withP2pEndpoint` find the entry under the mutex of the map and run a callback on its endpoint under
the mutex of the entry. `_removeEndpoint` takes the entry out of the map, then the endpoint out of
the entry, each under its mutex; `_removeEndpointIfMatch` holds both. A step of the model goes from
one acquisition of a lock to the next.

`_addEndpoint` replaces the endpoint of an entry under the mutex of the map alone, although a
callback may be running on it (`replaced_while_running`). `undisturbed_of_reach` says that this is
the only way in which an endpoint is destroyed under a callback.

The callbacks of `putNB` and `getNB` note their endpoint in `inflight_ep_`, and `wait` uses it
without a lock of the manager.

The proof is by rely and guarantee. `Holds` is what a thread relies on at each place: the mutexes
that it holds, and that its entry is still the one it has found. A step of another thread leaves
this as it is (`Moves.kept`), and a thread that moves gets what it relies on at its next place
(`Moves.holds`). Neither needs the step condition, which serves for `OnEndpoint` only, that a
callback runs on the endpoint of its entry.
-/

namespace HMC.Comm

open HMC.Machine

/-! ### The manager -/

/-- The maps of the manager, one for each transport. -/
inductive MapKind
  | rdma
  | ucx
  | p2p
  deriving DecidableEq

/-- A key of one of the three maps. -/
inductive EntryKey
  | rdma (key : PeerKey)
  | ucx (key : PeerKey)
  | p2p (rank : ℤ)
  deriving DecidableEq

def EntryKey.kind : EntryKey → MapKind
  | .rdma _ => .rdma
  | .ucx _ => .ucx
  | .p2p _ => .p2p

def samplePeer : PeerKey := ⟨"192.168.0.2", 2025⟩

/-- Where a thread is. It has found the entry `e` and is about to lock it for a callback, runs the
callback on the endpoint `ep`, has taken `e` out of the map, has found `e` in the map and holds the
mutex of the map, or waits for handles of the endpoints `eps`. `nb` says that the callback has a
handle to note. -/
inductive ConnPc
  | idle
  | want (e : ℕ) (nb : Bool)
  | running (e ep : ℕ) (nb : Bool)
  | removing (e : ℕ)
  | matching (key : PeerKey) (e connId : ℕ)
  | waiting (eps : List ℕ)
  deriving DecidableEq

/-- The three maps, with the endpoints of their entries and the connection ids of the endpoints.
Entries and endpoints are numbered as they are made; `destroyed` says which endpoints are gone. -/
structure EndpointMaps where
  table : EntryKey → Option ℕ
  endpoint : ℕ → Option ℕ
  connId : ℕ → ℕ
  entries : ℕ
  endpoints : ℕ
  destroyed : ℕ → Bool

namespace EndpointMaps

def empty : EndpointMaps where
  table _ := none
  endpoint _ := none
  connId _ := 0
  entries := 0
  endpoints := 0
  destroyed _ := false

variable (m : EndpointMaps)

/-- Take a key out of its map. -/
def erase (key : EntryKey) : EndpointMaps :=
  { m with table := Function.update m.table key none }

/-- Change the endpoint of an entry; the old one is destroyed. -/
def setEndpoint (e : ℕ) (ep : Option ℕ) : EndpointMaps :=
  { m with
    endpoint := Function.update m.endpoint e ep
    destroyed := fun old => m.endpoint e = some old || m.destroyed old }

/-- A new entry without an endpoint. -/
def newEntry (key : EntryKey) : EndpointMaps :=
  { m with table := Function.update m.table key (some m.entries), entries := m.entries + 1 }

/-- A new endpoint for an entry. -/
def assign (e connId : ℕ) : EndpointMaps :=
  { m.setEndpoint e (some m.endpoints) with
    endpoints := m.endpoints + 1
    connId := Function.update m.connId m.endpoints connId }

/-- `_addEndpoint` and `_addP2pEndpoint`. -/
def add (key : EntryKey) (connId : ℕ) : EndpointMaps :=
  match m.table key with
  | some e => m.assign e connId
  | none => (m.newEntry key).assign m.entries connId

/-- No two keys share an entry, no two entries share an endpoint, and an endpoint that an entry
holds is not destroyed. -/
structure Inv : Prop where
  injective {key key' : EntryKey} {e : ℕ} :
    m.table key = some e → m.table key' = some e → key = key'
  entry_lt {key : EntryKey} {e : ℕ} : m.table key = some e → e < m.entries
  owner_lt {e ep : ℕ} : m.endpoint e = some ep → e < m.entries
  endpoint_lt {e ep : ℕ} : m.endpoint e = some ep → ep < m.endpoints
  once {e e' ep : ℕ} : m.endpoint e = some ep → m.endpoint e' = some ep → e = e'
  live {e ep : ℕ} : m.endpoint e = some ep → m.destroyed ep = false
  fresh {ep : ℕ} : m.endpoints ≤ ep → m.destroyed ep = false

end EndpointMaps

/-- A manager with the mutexes of its entries and of its maps, `inflight_ep_`, and where each thread
is. -/
structure ConnManager (τ : Type) where
  maps : EndpointMaps
  mutex : ℕ → Option τ
  mapMutex : MapKind → Option τ
  inflight : ℕ → Option ℕ
  pc : τ → ConnPc

/-- The critical sections of the calls. `addEndpoint` is `_addEndpoint` and `_addP2pEndpoint`,
`withEndpoint` and `removeEndpoint` likewise; `note` is what `putNB` and `getNB` do with the id of
their operation, and `waited` a use of an endpoint by `wait`. -/
inductive ConnAct (τ : Type)
  | withEndpoint (t : τ) (key : EntryKey) (nb : Bool)
  | enter (t : τ)
  | note (t : τ) (id : ℕ)
  | leave (t : τ)
  | addEndpoint (t : τ) (key : EntryKey) (connId : ℕ)
  | removeEndpoint (t : τ) (key : EntryKey)
  | moveOut (t : τ)
  | removeEndpointIfMatch (t : τ) (key : PeerKey) (connId : ℕ)
  | compare (t : τ)
  | wait (t : τ) (ids : List ℕ)
  | waited (t : τ) (ep : ℕ)
  | waitDone (t : τ)

/-- The locked part of `wait`: the endpoints of the ids, unless one of them is unknown, and what is
left of `inflight_ep_`. -/
def takeIds : List ℕ → (ℕ → Option ℕ) → Option (List ℕ) × (ℕ → Option ℕ)
  | [], inflight => (some [], inflight)
  | id :: ids, inflight =>
    if id = 0 then takeIds ids inflight
    else
      match inflight id with
      | none => (none, inflight)
      | some ep =>
        let r := takeIds ids (Function.update inflight id none)
        (r.1.map (ep :: ·), r.2)

namespace ConnManager

variable {τ : Type} [DecidableEq τ]

def start : ConnManager τ where
  maps := .empty
  mutex _ := none
  mapMutex _ := none
  inflight _ := none
  pc _ := .idle

variable (st : ConnManager τ)

def goto (t : τ) (pc : ConnPc) : ConnManager τ := { st with pc := Function.update st.pc t pc }

def lock (e : ℕ) (t : Option τ) : ConnManager τ := { st with mutex := Function.update st.mutex e t }

def lockMap (kind : MapKind) (t : Option τ) : ConnManager τ :=
  { st with mapMutex := Function.update st.mapMutex kind t }

def setMaps (maps : EndpointMaps) : ConnManager τ := { st with maps := maps }

def setInflight (inflight : ℕ → Option ℕ) : ConnManager τ := { st with inflight := inflight }

/-- One step. A thread begins a call when it is idle; a lock is acquired when it is free. The calls
on P2P endpoints differ in that `withP2pEndpoint` looks at the endpoint before it locks the entry;
`_removeEndpointIfMatch` is `_removeEndpoint` for UCX. -/
def step : ConnAct τ → Option (ConnManager τ)
  | .withEndpoint t key nb =>
    if st.pc t = .idle ∧ st.mapMutex key.kind = none then
      match st.maps.table key with
      | none => some st
      | some e =>
        if key.kind = .p2p ∧ st.maps.endpoint e = none then some st
        else some (st.goto t (.want e nb))
    else none
  | .enter t =>
    match st.pc t with
    | .want e nb =>
      if st.mutex e = none then
        match st.maps.endpoint e with
        | none => some (st.goto t .idle)
        | some ep => some ((st.lock e (some t)).goto t (.running e ep nb))
      else none
    | _ => none
  | .note t id =>
    match st.pc t with
    | .running e ep true =>
      if id = 0 then none
      else some ((st.setInflight (Function.update st.inflight id (some ep))).goto t
        (.running e ep false))
    | _ => none
  | .leave t =>
    match st.pc t with
    | .running e _ _ => some ((st.lock e none).goto t .idle)
    | _ => none
  | .addEndpoint t key connId =>
    if st.pc t = .idle ∧ st.mapMutex key.kind = none then some (st.setMaps (st.maps.add key connId))
    else none
  | .removeEndpoint t key =>
    if st.pc t = .idle ∧ st.mapMutex key.kind = none then
      match st.maps.table key with
      | none => some st
      | some e => some ((st.setMaps (st.maps.erase key)).goto t (.removing e))
    else none
  | .moveOut t =>
    match st.pc t with
    | .removing e =>
      if st.mutex e = none then some ((st.setMaps (st.maps.setEndpoint e none)).goto t .idle)
      else none
    | _ => none
  | .removeEndpointIfMatch t key connId =>
    if st.pc t = .idle ∧ st.mapMutex .rdma = none then
      match st.maps.table (.rdma key) with
      | none => some st
      | some e => some ((st.lockMap .rdma (some t)).goto t (.matching key e connId))
    else none
  | .compare t =>
    match st.pc t with
    | .matching key e connId =>
      if st.mutex e = none then
        match st.maps.endpoint e with
        | none =>
          some (((st.setMaps (st.maps.erase (.rdma key))).lockMap .rdma none).goto t .idle)
        | some ep =>
          if st.maps.connId ep ≠ connId then some ((st.lockMap .rdma none).goto t .idle)
          else some (((st.setMaps ((st.maps.setEndpoint e none).erase (.rdma key))).lockMap .rdma
            none).goto t .idle)
      else none
    | _ => none
  | .wait t ids =>
    if st.pc t = .idle then
      match takeIds ids st.inflight with
      | (none, inflight) => some (st.setInflight inflight)
      | (some eps, inflight) => some ((st.setInflight inflight).goto t (.waiting eps))
    else none
  | .waited t ep =>
    match st.pc t with
    | .waiting eps => if ep ∈ eps then some (st.goto t (.waiting (eps.erase ep))) else none
    | _ => none
  | .waitDone t =>
    match st.pc t with
    | .waiting _ => some (st.goto t .idle)
    | _ => none

/-- `_addEndpoint` finds no entry under its key whose endpoint a callback is running on. -/
def Undisturbing : ConnAct τ → Prop
  | .addEndpoint _ key _ => ∀ e ∈ st.maps.table key, st.mutex e = none
  | _ => True

instance : (a : ConnAct τ) → Decidable (st.Undisturbing a)
  | .addEndpoint _ key _ =>
    inferInstanceAs (Decidable (∀ e ∈ st.maps.table key, st.mutex e = none))
  | .withEndpoint .. | .enter _ | .note .. | .leave _ | .removeEndpoint .. | .moveOut _
  | .removeEndpointIfMatch .. | .compare _ | .wait .. | .waited .. | .waitDone _ => .isTrue trivial

/-- An endpoint that a callback is running on is not destroyed and still that of its entry, and no
second callback is running on it. -/
def Undisturbed : Prop :=
  ∀ t e ep nb, st.pc t = .running e ep nb →
    st.maps.endpoint e = some ep ∧ st.maps.destroyed ep = false ∧
      ∀ u e' nb', st.pc u = .running e' ep nb' → u = t

end ConnManager

/-! ### The maps -/

namespace EndpointMaps

variable {m : EndpointMaps} {key key' : EntryKey} {e e' ep c : ℕ}

theorem table_erase : (m.erase key).table key' = some e ↔ key' ≠ key ∧ m.table key' = some e := by
  by_cases h : key' = key
  · simp [erase, h]
  · simp [erase, h]

theorem endpoint_setEndpoint_none :
    (m.setEndpoint e none).endpoint e' = some ep ↔ e' ≠ e ∧ m.endpoint e' = some ep := by
  by_cases h : e' = e
  · simp [setEndpoint, h]
  · simp [setEndpoint, h]

theorem endpoint_assign : (m.assign e c).endpoint e' = some ep ↔
    e' = e ∧ ep = m.endpoints ∨ e' ≠ e ∧ m.endpoint e' = some ep := by
  by_cases h : e' = e
  · simp [assign, setEndpoint, h, eq_comm]
  · simp [assign, setEndpoint, h]

theorem table_newEntry : (m.newEntry key).table key' = some e ↔
    key' = key ∧ e = m.entries ∨ key' ≠ key ∧ m.table key' = some e := by
  by_cases h : key' = key
  · simp [newEntry, h, eq_comm]
  · simp [newEntry, h]

theorem not_destroyed_setEndpoint {x : Option ℕ} : (m.setEndpoint e x).destroyed ep = false ↔
    m.endpoint e ≠ some ep ∧ m.destroyed ep = false := by
  simp [setEndpoint]

/-- `_addEndpoint` by the entry that gets the endpoint. -/
theorem add_cases (m : EndpointMaps) (key : EntryKey) (c : ℕ) :
    (∃ e, m.table key = some e ∧ m.add key c = m.assign e c) ∨
      m.table key = none ∧ m.add key c = (m.newEntry key).assign m.entries c := by
  unfold add
  split
  · rename_i e h
    exact .inl ⟨e, h, rfl⟩
  · rename_i h
    exact .inr ⟨h, rfl⟩

namespace Inv

theorem empty : EndpointMaps.empty.Inv where
  injective := nofun
  entry_lt := nofun
  owner_lt := nofun
  endpoint_lt := nofun
  once := nofun
  live := nofun
  fresh _ := rfl

theorem erase (h : m.Inv) (key : EntryKey) : (m.erase key).Inv where
  injective h₁ h₂ := h.injective (table_erase.mp h₁).2 (table_erase.mp h₂).2
  entry_lt h₁ := h.entry_lt (table_erase.mp h₁).2
  owner_lt := h.owner_lt
  endpoint_lt := h.endpoint_lt
  once := h.once
  live := h.live
  fresh := h.fresh

theorem setEndpoint_none (h : m.Inv) (e : ℕ) : (m.setEndpoint e none).Inv where
  injective := h.injective
  entry_lt := h.entry_lt
  owner_lt h₁ := h.owner_lt (endpoint_setEndpoint_none.mp h₁).2
  endpoint_lt h₁ := h.endpoint_lt (endpoint_setEndpoint_none.mp h₁).2
  once h₁ h₂ := h.once (endpoint_setEndpoint_none.mp h₁).2 (endpoint_setEndpoint_none.mp h₂).2
  live h₁ := by
    obtain ⟨hne, h₁⟩ := endpoint_setEndpoint_none.mp h₁
    exact not_destroyed_setEndpoint.mpr ⟨fun h₂ => hne (h.once h₁ h₂), h.live h₁⟩
  fresh hle := not_destroyed_setEndpoint.mpr
    ⟨fun h₂ => absurd (h.endpoint_lt h₂) (Nat.not_lt.mpr hle), h.fresh hle⟩

theorem newEntry (h : m.Inv) (key : EntryKey) : (m.newEntry key).Inv where
  injective h₁ h₂ := by
    obtain ⟨rfl, he⟩ | ⟨-, hold⟩ := table_newEntry.mp h₁ <;>
      obtain ⟨rfl, he'⟩ | ⟨-, hold'⟩ := table_newEntry.mp h₂
    · rfl
    · exact absurd (h.entry_lt hold') (Nat.not_lt_of_le (Nat.le_of_eq he.symm))
    · exact absurd (h.entry_lt hold) (Nat.not_lt_of_le (Nat.le_of_eq he'.symm))
    · exact h.injective hold hold'
  entry_lt h₁ := by
    obtain ⟨-, rfl⟩ | ⟨-, h₁⟩ := table_newEntry.mp h₁
    · exact Nat.lt_succ_self _
    · exact Nat.lt_succ_of_lt (h.entry_lt h₁)
  owner_lt h₁ := Nat.lt_succ_of_lt (h.owner_lt h₁)
  endpoint_lt := h.endpoint_lt
  once := h.once
  live := h.live
  fresh := h.fresh

theorem assign (h : m.Inv) (he : e < m.entries) (c : ℕ) : (m.assign e c).Inv where
  injective := h.injective
  entry_lt := h.entry_lt
  owner_lt h₁ := by
    obtain ⟨rfl, -⟩ | ⟨-, h₁⟩ := endpoint_assign.mp h₁
    · exact he
    · exact h.owner_lt h₁
  endpoint_lt h₁ := by
    obtain ⟨-, rfl⟩ | ⟨-, h₁⟩ := endpoint_assign.mp h₁
    · exact Nat.lt_succ_self _
    · exact Nat.lt_succ_of_lt (h.endpoint_lt h₁)
  once h₁ h₂ := by
    obtain ⟨rfl, hep⟩ | ⟨-, hold⟩ := endpoint_assign.mp h₁ <;>
      obtain ⟨rfl, hep'⟩ | ⟨-, hold'⟩ := endpoint_assign.mp h₂
    · rfl
    · exact absurd (h.endpoint_lt hold') (Nat.not_lt_of_le (Nat.le_of_eq hep.symm))
    · exact absurd (h.endpoint_lt hold) (Nat.not_lt_of_le (Nat.le_of_eq hep'.symm))
    · exact h.once hold hold'
  live h₁ := by
    refine (not_destroyed_setEndpoint (x := some m.endpoints)).mpr ?_
    obtain ⟨-, rfl⟩ | ⟨hne, h₁⟩ := endpoint_assign.mp h₁
    · exact ⟨fun h₂ => Nat.lt_irrefl _ (h.endpoint_lt h₂), h.fresh (Nat.le_refl _)⟩
    · exact ⟨fun h₂ => hne (h.once h₁ h₂), h.live h₁⟩
  fresh hle := (not_destroyed_setEndpoint (x := some m.endpoints)).mpr
    ⟨fun h₂ => absurd (h.endpoint_lt h₂) (Nat.not_lt.mpr (Nat.le_of_succ_le hle)),
      h.fresh (Nat.le_of_succ_le hle)⟩

theorem add (h : m.Inv) (key : EntryKey) (c : ℕ) : (m.add key c).Inv := by
  obtain ⟨e, he, hadd⟩ | ⟨-, hadd⟩ := add_cases m key c
  · rw [hadd]
    exact h.assign (h.entry_lt he) c
  · rw [hadd]
    exact (h.newEntry key).assign (Nat.lt_succ_self _) c

end Inv

end EndpointMaps

/-! ### What a thread relies on -/

namespace ConnManager

variable {τ : Type} {st st' : ConnManager τ} {t : τ}

/-- What is true of the maps and the mutexes while the thread `t` is at a place. -/
def Holds (st : ConnManager τ) (t : τ) : ConnPc → Prop
  | .want e _ => e < st.maps.entries
  | .running e _ _ => st.mutex e = some t
  | .removing e => e < st.maps.entries ∧ ∀ key, st.maps.table key ≠ some e
  | .matching key e _ => st.maps.table (.rdma key) = some e ∧ st.mapMutex .rdma = some t
  | .idle | .waiting _ => True

/-- What the steps of the other threads leave to the thread `t`. -/
structure Kept (st st' : ConnManager τ) (t : τ) : Prop where
  entries : st.maps.entries ≤ st'.maps.entries
  table {key : EntryKey} {e : ℕ} :
    e < st.maps.entries → st'.maps.table key = some e → st.maps.table key = some e
  mutex {e : ℕ} : st.mutex e = some t → st'.mutex e = some t
  mapMutex : st.mapMutex .rdma = some t → st'.mapMutex .rdma = some t
  locked {key : PeerKey} {e : ℕ} : st.mapMutex .rdma = some t →
    st.maps.table (.rdma key) = some e → st'.maps.table (.rdma key) = some e

theorem Kept.holds (h : Kept st st' t) {pc : ConnPc} (hpc : st.Holds t pc) : st'.Holds t pc := by
  cases pc with
  | idle => trivial
  | want e nb => exact Nat.lt_of_lt_of_le hpc h.entries
  | running e ep nb => exact h.mutex hpc
  | removing e =>
    exact ⟨Nat.lt_of_lt_of_le hpc.1 h.entries, fun key he => hpc.2 key (h.table hpc.1 he)⟩
  | matching key e connId => exact ⟨h.locked hpc.2 hpc.1, h.mapMutex hpc.2⟩
  | waiting eps => trivial

/-- A callback runs on the endpoint of its entry. -/
def OnEndpoint (st : ConnManager τ) : Prop :=
  ∀ t e ep nb, st.pc t = .running e ep nb → st.maps.endpoint e = some ep

/-- The maps are consistent, and every thread finds what it relies on. -/
structure Inv (st : ConnManager τ) : Prop where
  maps : st.maps.Inv
  threads (t : τ) : st.Holds t (st.pc t)

namespace Inv

theorem start : Inv (start : ConnManager τ) := ⟨.empty, fun _ => trivial⟩

theorem want (h : Inv st) {e : ℕ} {nb : Bool} (hpc : st.pc t = .want e nb) :
    e < st.maps.entries := by
  have := h.threads t
  rwa [hpc] at this

theorem mutex (h : Inv st) {e ep : ℕ} {nb : Bool} (hpc : st.pc t = .running e ep nb) :
    st.mutex e = some t := by
  have := h.threads t
  rwa [hpc] at this

theorem removing (h : Inv st) {e : ℕ} (hpc : st.pc t = .removing e) :
    e < st.maps.entries ∧ ∀ key, st.maps.table key ≠ some e := by
  have := h.threads t
  rwa [hpc] at this

theorem matching (h : Inv st) {key : PeerKey} {e connId : ℕ}
    (hpc : st.pc t = .matching key e connId) :
    st.maps.table (.rdma key) = some e ∧ st.mapMutex .rdma = some t := by
  have := h.threads t
  rwa [hpc] at this

theorem undisturbed (hi : Inv st) (hon : OnEndpoint st) : st.Undisturbed := by
  intro t e ep nb hpc
  have hep := hon t e ep nb hpc
  refine ⟨hep, hi.maps.live hep, fun u e' nb' hpc' => ?_⟩
  obtain rfl : e' = e := hi.maps.once (hon u e' ep nb' hpc') hep
  exact Option.some.inj ((hi.mutex hpc').symm.trans (hi.mutex hpc))

end Inv

end ConnManager

/-! ### Steps -/

def ConnAct.thread {τ : Type} : ConnAct τ → τ
  | .withEndpoint t _ _ | .enter t | .note t _ | .leave t | .addEndpoint t _ _
  | .removeEndpoint t _ | .moveOut t | .removeEndpointIfMatch t _ _ | .compare t | .wait t _
  | .waited t _ | .waitDone t => t

namespace ConnManager

variable {τ : Type} [DecidableEq τ] {st st' : ConnManager τ} {a : ConnAct τ} {t u : τ}

/-- The branches of a step. -/
inductive Moves (st : ConnManager τ) : ConnAct τ → ConnManager τ → Prop
  | missed {t : τ} {key : EntryKey} {nb : Bool} : st.pc t = .idle →
      Moves st (.withEndpoint t key nb) st
  | found {t : τ} {key : EntryKey} {nb : Bool} {e : ℕ} :
      st.pc t = .idle → st.maps.table key = some e →
      Moves st (.withEndpoint t key nb) (st.goto t (.want e nb))
  | empty {t : τ} {e : ℕ} {nb : Bool} :
      st.pc t = .want e nb → st.maps.endpoint e = none → Moves st (.enter t) (st.goto t .idle)
  | entered {t : τ} {e ep : ℕ} {nb : Bool} :
      st.pc t = .want e nb → st.mutex e = none → st.maps.endpoint e = some ep →
      Moves st (.enter t) ((st.lock e (some t)).goto t (.running e ep nb))
  | noted {t : τ} {id e ep : ℕ} : st.pc t = .running e ep true →
      Moves st (.note t id) ((st.setInflight (Function.update st.inflight id (some ep))).goto t
        (.running e ep false))
  | left {t : τ} {e ep : ℕ} {nb : Bool} : st.pc t = .running e ep nb →
      Moves st (.leave t) ((st.lock e none).goto t .idle)
  | added {t : τ} {key : EntryKey} {connId : ℕ} : st.pc t = .idle →
      Moves st (.addEndpoint t key connId) (st.setMaps (st.maps.add key connId))
  | absent {t : τ} {key : EntryKey} : st.pc t = .idle → Moves st (.removeEndpoint t key) st
  | taken {t : τ} {key : EntryKey} {e : ℕ} :
      st.pc t = .idle → st.mapMutex key.kind = none → st.maps.table key = some e →
      Moves st (.removeEndpoint t key) ((st.setMaps (st.maps.erase key)).goto t (.removing e))
  | movedOut {t : τ} {e : ℕ} : st.pc t = .removing e → st.mutex e = none →
      Moves st (.moveOut t) ((st.setMaps (st.maps.setEndpoint e none)).goto t .idle)
  | unmatched {t : τ} {key : PeerKey} {connId : ℕ} : st.pc t = .idle →
      Moves st (.removeEndpointIfMatch t key connId) st
  | lockedMap {t : τ} {key : PeerKey} {e connId : ℕ} :
      st.pc t = .idle → st.mapMutex .rdma = none → st.maps.table (.rdma key) = some e →
      Moves st (.removeEndpointIfMatch t key connId)
        ((st.lockMap .rdma (some t)).goto t (.matching key e connId))
  | dropped {t : τ} {key : PeerKey} {e connId : ℕ} :
      st.pc t = .matching key e connId → st.maps.endpoint e = none →
      Moves st (.compare t)
        (((st.setMaps (st.maps.erase (.rdma key))).lockMap .rdma none).goto t .idle)
  | differed {t : τ} {key : PeerKey} {e connId : ℕ} : st.pc t = .matching key e connId →
      Moves st (.compare t) ((st.lockMap .rdma none).goto t .idle)
  | matched {t : τ} {key : PeerKey} {e ep : ℕ} :
      st.pc t = .matching key e (st.maps.connId ep) → st.mutex e = none →
      st.maps.endpoint e = some ep →
      Moves st (.compare t) (((st.setMaps ((st.maps.setEndpoint e none).erase (.rdma key))).lockMap
        .rdma none).goto t .idle)
  | unknown {t : τ} {ids : List ℕ} {inflight : ℕ → Option ℕ} :
      st.pc t = .idle → takeIds ids st.inflight = (none, inflight) →
      Moves st (.wait t ids) (st.setInflight inflight)
  | waits {t : τ} {ids eps : List ℕ} {inflight : ℕ → Option ℕ} :
      st.pc t = .idle → takeIds ids st.inflight = (some eps, inflight) →
      Moves st (.wait t ids) ((st.setInflight inflight).goto t (.waiting eps))
  | waited {t : τ} {ep : ℕ} {eps : List ℕ} : st.pc t = .waiting eps →
      Moves st (.waited t ep) (st.goto t (.waiting (eps.erase ep)))
  | waitDone {t : τ} {eps : List ℕ} : st.pc t = .waiting eps →
      Moves st (.waitDone t) (st.goto t .idle)

/-- What a step does, as one of the branches. -/
theorem moves_of_step (h : st.step a = some st') : Moves st a st' := by
  cases a with
  | withEndpoint t key nb =>
    simp only [step] at h
    split_ifs at h with hidle
    split at h
    · cases h
      exact .missed hidle.1
    · rename_i e he
      split_ifs at h
      · cases h
        exact .missed hidle.1
      · cases h
        exact .found hidle.1 he
  | enter t =>
    simp only [step] at h
    split at h
    · rename_i e nb hpc
      split_ifs at h with hfree
      split at h
      · rename_i hep
        cases h
        exact .empty hpc hep
      · rename_i ep hep
        cases h
        exact .entered hpc hfree hep
    · cases h
  | note t id =>
    simp only [step] at h
    split at h
    · rename_i e ep hpc
      split_ifs at h
      cases h
      exact .noted hpc
    · cases h
  | leave t =>
    simp only [step] at h
    split at h
    · rename_i e ep nb hpc
      cases h
      exact .left hpc
    · cases h
  | addEndpoint t key connId =>
    simp only [step] at h
    split_ifs at h with hidle
    cases h
    exact .added hidle.1
  | removeEndpoint t key =>
    simp only [step] at h
    split_ifs at h with hidle
    split at h
    · cases h
      exact .absent hidle.1
    · rename_i e he
      cases h
      exact .taken hidle.1 hidle.2 he
  | moveOut t =>
    simp only [step] at h
    split at h
    · rename_i e hpc
      split_ifs at h with hfree
      cases h
      exact .movedOut hpc hfree
    · cases h
  | removeEndpointIfMatch t key connId =>
    simp only [step] at h
    split_ifs at h with hidle
    split at h
    · cases h
      exact .unmatched hidle.1
    · rename_i e he
      cases h
      exact .lockedMap hidle.1 hidle.2 he
  | compare t =>
    simp only [step] at h
    split at h
    · rename_i key e connId hpc
      split_ifs at h with hfree
      split at h
      · rename_i hep
        cases h
        exact .dropped hpc hep
      · rename_i ep hep
        split_ifs at h with hid
        · cases h
          exact .differed hpc
        · cases h
          rw [not_not] at hid
          exact .matched (hid ▸ hpc) hfree hep
    · cases h
  | wait t ids =>
    simp only [step] at h
    split_ifs at h with hidle
    split at h
    · rename_i inflight hids
      cases h
      exact .unknown hidle hids
    · rename_i eps inflight hids
      cases h
      exact .waits hidle hids
  | waited t ep =>
    simp only [step] at h
    split at h
    · rename_i eps hpc
      split_ifs at h
      cases h
      exact .waited hpc
    · cases h
  | waitDone t =>
    simp only [step] at h
    split at h
    · rename_i eps hpc
      cases h
      exact .waitDone hpc
    · cases h

theorem Moves.pc_of_ne (h : Moves st a st') (hu : u ≠ a.thread) : st'.pc u = st.pc u := by
  cases h <;> first | rfl | exact Function.update_of_ne hu _ _

/-- Guarantee: a step of one thread leaves to the others what they rely on. -/
theorem Moves.kept (hi : Inv st) (h : Moves st a st') (hu : u ≠ a.thread) : Kept st st' u := by
  cases h with
  | missed | found | empty | noted | absent | unmatched | unknown | waits | waited | waitDone =>
    exact ⟨le_rfl, fun _ => id, id, id, fun _ => id⟩
  | @entered t e ep nb hpc hfree hep =>
    refine ⟨le_rfl, fun _ => id, ?_, id, fun _ => id⟩
    intro e' he'
    have hne : e' ≠ e := by
      rintro rfl
      cases hfree.symm.trans he'
    exact (Function.update_of_ne hne _ _).trans he'
  | @left t e ep nb hpc =>
    refine ⟨le_rfl, fun _ => id, ?_, id, fun _ => id⟩
    intro e' he'
    have hne : e' ≠ e := by
      rintro rfl
      exact hu (Option.some.inj (he'.symm.trans (hi.mutex hpc)))
    exact (Function.update_of_ne hne _ _).trans he'
  | @added t key c hpc =>
    obtain ⟨e, he, hadd⟩ | ⟨hnone, hadd⟩ := st.maps.add_cases key c
    · simp only [setMaps, hadd]
      exact ⟨le_rfl, fun _ => id, id, id, fun _ => id⟩
    · simp only [setMaps, hadd]
      refine ⟨Nat.le_succ _, ?_, id, id, ?_⟩
      · intro key' e he htab
        obtain ⟨-, rfl⟩ | ⟨-, htab⟩ := EndpointMaps.table_newEntry.mp htab
        · exact absurd he (Nat.lt_irrefl _)
        · exact htab
      · intro key' e _ htab
        refine EndpointMaps.table_newEntry.mpr (.inr ⟨?_, htab⟩)
        rintro rfl
        cases hnone.symm.trans htab
  | @taken t key e hpc hfree he =>
    refine ⟨le_rfl, fun _ htab => (EndpointMaps.table_erase.mp htab).2, id, id, ?_⟩
    intro key' e' hheld htab
    refine EndpointMaps.table_erase.mpr ⟨?_, htab⟩
    rintro rfl
    cases hfree.symm.trans hheld
  | @movedOut t e hpc hfree => exact ⟨le_rfl, fun _ => id, id, id, fun _ => id⟩
  | @lockedMap t key e connId hpc hfree he =>
    refine ⟨le_rfl, fun _ => id, id, ?_, fun _ => id⟩
    intro hheld
    cases hfree.symm.trans hheld
  | dropped hpc | differed hpc | matched hpc =>
    -- the mutex of the map is held by the thread that moves
    have hother : st.mapMutex .rdma ≠ some u := by
      intro hheld
      exact hu (Option.some.inj (hheld.symm.trans (hi.matching hpc).2))
    refine ⟨le_rfl, ?_, id, fun hheld => absurd hheld hother, fun hheld => absurd hheld hother⟩
    intro key' e' _ htab
    first | exact htab | exact (EndpointMaps.table_erase.mp htab).2

/-- A thread that moves relies on what it has done. -/
theorem Moves.holds (hi : Inv st) (h : Moves st a st') :
    st'.Holds a.thread (st'.pc a.thread) := by
  cases h with
  | missed hpc | added hpc | absent hpc | unmatched hpc | unknown hpc =>
    exact hpc.symm ▸ trivial
  | empty | left | movedOut | dropped | differed | matched | waits | waited | waitDone =>
    simp [goto, ConnAct.thread, Holds]
  | @found t key nb e hpc he =>
    simpa [goto, ConnAct.thread, Holds] using hi.maps.entry_lt he
  | entered => simp [goto, lock, ConnAct.thread, Holds]
  | noted hpc => simpa [goto, setInflight, ConnAct.thread, Holds] using hi.mutex hpc
  | @taken t key e hpc hfree he =>
    have hgone : ∀ key', (st.maps.erase key).table key' ≠ some e := fun key' he' =>
      (EndpointMaps.table_erase.mp he').1
        (hi.maps.injective (EndpointMaps.table_erase.mp he').2 he)
    simpa [goto, setMaps, ConnAct.thread, Holds] using ⟨hi.maps.entry_lt he, hgone⟩
  | lockedMap _ _ he => simpa [goto, lockMap, ConnAct.thread, Holds] using he

/-- **One step** keeps the invariant: of the thread that moves by what it has done, of the others
because they are left what they rely on. -/
theorem Moves.inv (hi : Inv st) (h : Moves st a st') : Inv st' := by
  constructor
  · cases h with
    | missed | found | empty | entered | noted | left | absent | unmatched | lockedMap | differed
    | unknown | waits | waited | waitDone => exact hi.maps
    | added => exact hi.maps.add _ _
    | taken | dropped => exact hi.maps.erase _
    | movedOut => exact hi.maps.setEndpoint_none _
    | matched => exact (hi.maps.setEndpoint_none _).erase _
  · intro u
    by_cases hu : u = a.thread
    · exact hu ▸ h.holds hi
    · rw [h.pc_of_ne hu]
      exact (h.kept hi hu).holds (hi.threads u)

theorem inv_of_reach {ok : ConnManager τ → ConnAct τ → Prop} (h : Reach step ok start st) :
    Inv st :=
  h.invariant .start fun _ _ _ _ hi _ hs => (moves_of_step hs).inv hi

/-! ### Endpoints under callbacks -/

/-- Except for `_addEndpoint`, a step changes the endpoint of an entry only while it holds the mutex
of the entry. -/
theorem Moves.endpoint_kept (hi : Inv st) (h : Moves st a st') (hok : st.Undisturbing a) {e ep : ℕ}
    (hlocked : st.mutex e = some u) (hep : st.maps.endpoint e = some ep) :
    st'.maps.endpoint e = some ep := by
  have hother : ∀ {e'}, st.mutex e' = none → e ≠ e' := by
    rintro e' hfree rfl
    cases hfree.symm.trans hlocked
  cases h with
  | missed | found | empty | entered | noted | left | absent | unmatched | lockedMap | differed
  | unknown | waits | waited | waitDone | taken | dropped => exact hep
  | @added t key c hpc =>
    obtain ⟨e', he', hadd⟩ | ⟨hnone, hadd⟩ := st.maps.add_cases key c
    · rw [setMaps, hadd]
      exact EndpointMaps.endpoint_assign.mpr (.inr ⟨hother (hok e' he'), hep⟩)
    · rw [setMaps, hadd]
      exact EndpointMaps.endpoint_assign.mpr (.inr ⟨Nat.ne_of_lt (hi.maps.owner_lt hep), hep⟩)
  | movedOut hpc hfree | matched hpc hfree =>
    exact EndpointMaps.endpoint_setEndpoint_none.mpr ⟨hother hfree, hep⟩

theorem Moves.onEndpoint (hi : Inv st) (h : Moves st a st') (hok : st.Undisturbing a)
    (hon : OnEndpoint st) : OnEndpoint st' := by
  intro u e ep nb hpc
  by_cases hu : u = a.thread
  · subst hu
    cases h with
    | missed hidle | added hidle | absent hidle | unmatched hidle | unknown hidle =>
      cases hpc.symm.trans hidle
    | entered hwant hfree hep =>
      simp only [goto, ConnAct.thread, Function.update_self] at hpc
      cases hpc
      exact hep
    | noted hrun =>
      simp only [goto, ConnAct.thread, Function.update_self] at hpc
      cases hpc
      exact hon _ _ _ _ hrun
    | found | empty | left | movedOut | dropped | differed | matched | waits | waited | waitDone
    | taken | lockedMap => simp [goto, ConnAct.thread] at hpc
  · rw [h.pc_of_ne hu] at hpc
    exact h.endpoint_kept hi hok (hi.mutex hpc) (hon u e ep nb hpc)

/-- **Callbacks are undisturbed.** While `_addEndpoint` replaces no endpoint that a callback is
running on, no endpoint is destroyed or replaced under a callback, and no second callback runs on
it. A second one would hold the mutex of the same entry, since no two entries share an endpoint; and
whoever else changes the endpoint of an entry holds its mutex, which the callback has
(`Moves.endpoint_kept`). -/
theorem undisturbed_of_reach (h : Reach step Undisturbing start st) : st.Undisturbed := by
  refine (inv_of_reach h).undisturbed ?_
  refine h.invariant (I := OnEndpoint) ?_ ?_
  · intro t e ep nb hpc
    cases hpc
  · intro s a s' hr hon hok hs
    exact (moves_of_step hs).onEndpoint (inv_of_reach hr) hok hon

/-- A callback that runs while another thread takes its entry out of the map. -/
def removedMeanwhile : List (ConnAct Bool) :=
  [.addEndpoint true (.rdma samplePeer) 1, .withEndpoint true (.rdma samplePeer) true, .enter true,
    .removeEndpoint false (.rdma samplePeer)]

theorem undisturbed_of_reach_removed : ∃ st : ConnManager Bool, Reach step Undisturbing start st ∧
    st.pc true = .running 0 0 true ∧ st.pc false = .removing 0 ∧ st.Undisturbed := by
  obtain ⟨st, hr, hrun, hremoving⟩ : ∃ st : ConnManager Bool, Reach step Undisturbing start st ∧
      st.pc true = .running 0 0 true ∧ st.pc false = .removing 0 :=
    exists_reach_of_execOk removedMeanwhile (by decide)
  exact ⟨st, hr, hrun, hremoving, undisturbed_of_reach hr⟩

/-- Two calls of `connectTo` find no endpoint. The one adds its endpoint and puts data, then the
other adds its endpoint. -/
def connectedTwice : List (ConnAct Bool) :=
  [.withEndpoint true (.rdma samplePeer) false, .withEndpoint false (.rdma samplePeer) false,
    .addEndpoint true (.rdma samplePeer) 1, .withEndpoint true (.rdma samplePeer) true, .enter true,
    .addEndpoint false (.rdma samplePeer) 2]

/-- The endpoint is destroyed under the callback. -/
theorem replaced_while_running : ∃ st : ConnManager Bool, Reach step Free start st ∧
    st.pc true = .running 0 0 true ∧ st.maps.destroyed 0 = true ∧ ¬ st.Undisturbed := by
  obtain ⟨st, hr, hrun, hgone⟩ : ∃ st : ConnManager Bool, Reach step Free start st ∧
      st.pc true = .running 0 0 true ∧ st.maps.destroyed 0 = true :=
    exists_reach_of_exec connectedTwice (by decide)
  refine ⟨st, hr, hrun, hgone, fun hun => ?_⟩
  obtain ⟨-, hlive, -⟩ := hun _ _ _ _ hrun
  cases hgone.symm.trans hlive

end ConnManager

end HMC.Comm
