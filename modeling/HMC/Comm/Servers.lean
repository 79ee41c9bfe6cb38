import HMC.Core.Basic
import HMC.Machine.Run
import Mathlib.Data.List.Nodup

/-!
# The servers of a connection manager

`ConnManager::initiateServer` registers a server and starts a thread, which looks the server up in
`servers_` by its type and calls `listen`. `stopServer` takes the servers and the threads out of
their maps, stops the servers, joins the threads and destroys the servers. Any number of threads
make these calls at the same time.

A thread that is late finds the server that was registered after its own was taken out. It listens
on that one with its own address, beside the thread of that server, and goes on when the server is
destroyed (`lateThread`). `proper_of_reach` says that nothing of this happens as long as a server
is registered only when no thread of its type has yet to look up.

A server and its thread have the same number, so that a thread which listens on its own server is
one that listens on its own number. `Inv` says where each server is: in the map, in the hands of one
call of `stopServer`, or destroyed; the two maps have the same numbers, and a call destroys its
servers when all the threads of its list are at their ends. Registering is the one step at which the
condition is used (`knows_register`).
-/

namespace HMC.Comm

open HMC.Machine

/-- Where the thread of a server is: at the look-up in `servers_`, in `listen` of the server that it
has found, or at its end. -/
inductive ListenPc
  | unborn
  | lookup (serverType : ConnType) (addr : PeerKey)
  | listen (server : ℕ)
  | exited
  deriving DecidableEq

/-- The thread has yet to look a server of this type up. -/
def ListenPc.LooksUp (serverType : ConnType) : ListenPc → Prop
  | .lookup t _ => t = serverType
  | _ => False

instance (serverType : ConnType) : (pc : ListenPc) → Decidable (pc.LooksUp serverType)
  | .lookup t _ => inferInstanceAs (Decidable (t = serverType))
  | .unborn | .listen _ | .exited => inferInstanceAs (Decidable False)

/-- Where a call of `stopServer` is: at `stopListen` of the servers that are left, or at `join` of
the threads that are left. -/
inductive StopPc
  | idle
  | tell (left servers threads : List ℕ)
  | join (servers left : List ℕ)
  deriving DecidableEq

/-- The servers that a call has taken out of the map. -/
def StopPc.servers : StopPc → List ℕ
  | .idle => []
  | .tell _ servers _ => servers
  | .join servers _ => servers

/-- The threads that a call has yet to join. -/
def StopPc.waits : StopPc → List ℕ
  | .idle => []
  | .tell _ _ threads => threads
  | .join _ left => left

/-- A call of `listen`. -/
structure Listen where
  thread : ℕ
  server : ℕ
  addr : PeerKey
  deriving DecidableEq

/-- What must not happen: an assignment to a joinable `std::thread`, the use of a server that is
destroyed, and a server destroyed twice. -/
inductive ServerFault
  | terminates (thread : ℕ)
  | usesDestroyed (server : ℕ)
  | destroysTwice (server : ℕ)
  deriving DecidableEq

/-- The two maps, the threads and the calls. Servers and threads are numbered in the order in which
they are made, a server and its thread with the same number; `addr` is what a server was registered
with, and `listens` and `faults` are histories. -/
structure ServerTable (κ : Type) where
  servers : ConnType → Option ℕ
  threads : ConnType → Option ℕ
  next : ℕ
  addr : ℕ → PeerKey
  thread : ℕ → ListenPc
  destroyed : ℕ → Bool
  call : κ → StopPc
  listens : List Listen
  faults : List ServerFault

/-- `initiateServer`; the look-up, the turns and the return of the thread `n`; and `stopServer` with
its `stopListen` of one server and its `join` of one thread. -/
inductive ServerAct (κ : Type)
  | initiateServer (serverType : ConnType) (addr : PeerKey)
  | lookup (n : ℕ)
  | serve (n : ℕ)
  | returns (n : ℕ)
  | stopServer (k : κ) (which : Option ConnType)
  | tell (k : κ)
  | join (k : κ)

namespace ServerTable

variable {κ : Type}

def empty : ServerTable κ where
  servers _ := none
  threads _ := none
  next := 0
  addr _ := ⟨"", 0⟩
  thread _ := .unborn
  destroyed _ := false
  call _ := .idle
  listens := []
  faults := []

section

variable (st : ServerTable κ)

def setThread (n : ℕ) (pc : ListenPc) : ServerTable κ :=
  { st with thread := Function.update st.thread n pc }

/-- A server and its thread are made and put into the maps. -/
def register (t : ConnType) (addr : PeerKey) : ServerTable κ :=
  { st with
    servers := Function.update st.servers t (some st.next)
    threads := Function.update st.threads t (some st.next)
    next := st.next + 1
    addr := Function.update st.addr st.next addr
    thread := Function.update st.thread st.next (.lookup t addr)
    faults := st.faults ++ (st.threads t).toList.map .terminates }

/-- `initiateServer`: `createServer` throws for a type that has no server. -/
def initiateServer (t : ConnType) (addr : PeerKey) : ServerTable κ :=
  match st.servers t with
  | some _ => st
  | none => if t = .p2p then st else st.register t addr

/-- A thread begins to listen on a server. -/
def listen (n s : ℕ) (addr : PeerKey) : ServerTable κ :=
  { st.setThread n (.listen s) with listens := st.listens ++ [⟨n, s, addr⟩] }

/-- A member function of a server is under way. -/
def use (s : ℕ) : ServerTable κ :=
  { st with faults := st.faults ++ if st.destroyed s then [.usesDestroyed s] else [] }

/-- Destroy the servers of a list. -/
def destroy (servers : List ℕ) : ServerTable κ :=
  { st with
    destroyed := fun s => st.destroyed s || servers.contains s
    faults := st.faults ++ (servers.filter st.destroyed).map .destroysTwice }

/-- The types that `stopServer()`, or `stopServer(t)`, is about. -/
def Selects (which : Option ConnType) (t : ConnType) : Prop := which = none ∨ which = some t

instance (which : Option ConnType) (t : ConnType) : Decidable (Selects which t) :=
  inferInstanceAs (Decidable (_ ∨ _))

/-- The entries of a map that a call takes. -/
def taken (which : Option ConnType) (map : ConnType → Option ℕ) : List ℕ :=
  [ConnType.rdma, .ucx, .p2p].filterMap fun t => if Selects which t then map t else none

/-- The map that a call leaves. -/
def remaining (which : Option ConnType) (map : ConnType → Option ℕ) : ConnType → Option ℕ :=
  fun t => if Selects which t then none else map t

end

variable [DecidableEq κ] (st : ServerTable κ)

def goto (k : κ) (pc : StopPc) : ServerTable κ := { st with call := Function.update st.call k pc }

/-- `stopServer` up to the end of its critical section. -/
def stopServer (k : κ) (which : Option ConnType) : ServerTable κ :=
  { st with
    servers := remaining which st.servers
    threads := remaining which st.threads
    call := Function.update st.call k (.tell (taken which st.servers) (taken which st.servers)
      (taken which st.threads)) }

/-- One step. A thread may return from `listen` at any time. -/
def step : ServerAct κ → Option (ServerTable κ)
  | .initiateServer t addr => some (st.initiateServer t addr)
  | .lookup n =>
    match st.thread n with
    | .lookup t addr =>
      match st.servers t with
      | none => some (st.setThread n .exited)
      | some s => some (st.listen n s addr)
    | _ => none
  | .serve n =>
    match st.thread n with
    | .listen s => some (st.use s)
    | _ => none
  | .returns n =>
    match st.thread n with
    | .listen _ => some (st.setThread n .exited)
    | _ => none
  | .stopServer k which =>
    match st.call k with
    | .idle => some (st.stopServer k which)
    | _ => none
  | .tell k =>
    match st.call k with
    | .tell (s :: left) servers threads => some ((st.use s).goto k (.tell left servers threads))
    | .tell [] servers threads => some (st.goto k (.join servers threads))
    | _ => none
  | .join k =>
    match st.call k with
    | .join servers (n :: left) =>
      if st.thread n = .exited then some (st.goto k (.join servers left)) else none
    | .join servers [] => some ((st.destroy servers).goto k .idle)
    | _ => none

/-- A server is registered only when no thread of its type has yet to look up. -/
def Settled : ServerAct κ → Prop
  | .initiateServer t _ => st.servers t = none → ∀ n < st.next, ¬ (st.thread n).LooksUp t
  | _ => True

instance : (a : ServerAct κ) → Decidable (st.Settled a)
  | .initiateServer _ _ => inferInstanceAs (Decidable (_ → _))
  | .lookup _ | .serve _ | .returns _ | .stopServer _ _ | .tell _ | .join _ =>
    inferInstanceAs (Decidable True)

/-! ### What is kept -/

/-- What a thread knows where it is. -/
def Knows (n : ℕ) : ListenPc → Prop
  | .lookup t addr => addr = st.addr n ∧ (st.servers t = some n ∨ st.servers t = none)
  | .listen s => s = n
  | _ => True

/-- What a call knows where it is. -/
def Holds : StopPc → Prop
  | .idle => True
  | .tell left servers threads => servers = threads ∧ left ⊆ servers
  | .join servers left => ∀ n ∈ servers, n ∈ left ∨ st.thread n = .exited

/-- A server that is in neither map nor destroyed is in the hands of one call. -/
structure Inv : Prop where
  agree : st.servers = st.threads
  clean : st.faults = []
  bound : ∀ {t n}, st.servers t = some n → n < st.next
  type : ∀ {t u n}, st.servers t = some n → st.servers u = some n → t = u
  unborn : ∀ {n}, st.next ≤ n → st.thread n = .unborn
  knows : ∀ n, st.Knows n (st.thread n)
  kept : ∀ {t n}, st.servers t = some n → st.destroyed n = false
  late : ∀ {n t addr}, st.thread n = .lookup t addr →
    st.servers t = some n ∨ ∃ k, n ∈ (st.call k).waits
  holds : ∀ k, st.Holds (st.call k)
  nodup : ∀ k, (st.call k).servers.Nodup
  taken : ∀ {k n}, n ∈ (st.call k).servers →
    n < st.next ∧ st.destroyed n = false ∧ ∀ t, st.servers t ≠ some n
  once : ∀ {j k n}, n ∈ (st.call j).servers → n ∈ (st.call k).servers → j = k
  joined : ∀ {n}, st.destroyed n = true → st.thread n = .exited
  own : ∀ l ∈ st.listens, l.server = l.thread ∧ l.addr = st.addr l.server
  past : ∀ l ∈ st.listens, l.server < st.next ∧ ∀ t addr, st.thread l.server ≠ .lookup t addr
  fresh : (st.listens.map Listen.server).Nodup

/-! ### The maps -/

section

variable {st} {which : Option ConnType} {map : ConnType → Option ℕ} {t : ConnType} {n : ℕ}

theorem mem_taken : n ∈ ServerTable.taken which map ↔ ∃ t, Selects which t ∧ map t = some n := by
  simp only [ServerTable.taken, List.mem_filterMap]
  constructor
  · rintro ⟨t, -, ht⟩
    exact ⟨t, Option.ite_none_right_eq_some.mp ht⟩
  · rintro ⟨t, hsel, hmap⟩
    exact ⟨t, by cases t <;> simp, Option.ite_none_right_eq_some.mpr ⟨hsel, hmap⟩⟩

theorem nodup_taken (h : ∀ {t u n}, map t = some n → map u = some n → t = u) :
    (ServerTable.taken which map).Nodup := by
  refine List.Nodup.filterMap (fun t u n ht hu => ?_) (by simp)
  exact h (Option.ite_none_right_eq_some.mp ht).2 (Option.ite_none_right_eq_some.mp hu).2

theorem remaining_eq_some :
    remaining which map t = some n ↔ ¬ Selects which t ∧ map t = some n := by
  unfold remaining
  exact Option.ite_none_left_eq_some

end

/-! ### One step -/

namespace Inv

variable {st} {k : κ} {t u v : ConnType} {n s : ℕ} {addr : PeerKey}

omit [DecidableEq κ] in
theorem empty : (empty : ServerTable κ).Inv where
  agree := rfl
  clean := rfl
  bound h := by cases h
  type h := by cases h
  unborn _ := rfl
  knows _ := trivial
  kept h := by cases h
  late h := by cases h
  holds _ := trivial
  nodup _ := List.nodup_nil
  taken h := by cases h
  once h := by cases h
  joined h := by cases h
  own l hl := by cases hl
  past l hl := by cases hl
  fresh := List.nodup_nil

omit [DecidableEq κ] in
/-- A thread goes on, and not to a look-up. -/
theorem setThread (h : st.Inv) {pc : ListenPc} (hborn : st.thread n ≠ .unborn)
    (hexited : st.thread n ≠ .exited) (hknows : st.Knows n pc)
    (hpc : ∀ t addr, pc ≠ .lookup t addr) : (st.setThread n pc).Inv where
  agree := h.agree
  clean := h.clean
  bound := h.bound
  type := h.type
  unborn {m} hm := by
    have hne : m ≠ n := by
      rintro rfl
      exact hborn (h.unborn hm)
    exact (Function.update_of_ne hne _ _).trans (h.unborn hm)
  knows m := by
    show st.Knows m (Function.update st.thread n pc m)
    by_cases hm : m = n
    · rw [hm, Function.update_self]
      exact hknows
    · rw [Function.update_of_ne hm]
      exact h.knows m
  kept := h.kept
  late {m t addr} hm := by
    replace hm : Function.update st.thread n pc m = .lookup t addr := hm
    by_cases hmn : m = n
    · rw [hmn, Function.update_self] at hm
      exact absurd hm (hpc t addr)
    · rw [Function.update_of_ne hmn] at hm
      exact h.late hm
  holds k := by
    have hk := h.holds k
    show (st.setThread n pc).Holds (st.call k)
    cases hc : st.call k with
    | idle => trivial
    | tell left servers threads =>
      rw [hc] at hk
      exact hk
    | join servers left =>
      rw [hc] at hk
      intro m hm
      refine (hk m hm).imp_right fun hex => ?_
      have hne : m ≠ n := by
        rintro rfl
        exact hexited hex
      exact (Function.update_of_ne hne _ _).trans hex
  nodup := h.nodup
  taken := h.taken
  once := h.once
  joined {m} hm := by
    have hne : m ≠ n := by
      rintro rfl
      exact hexited (h.joined hm)
    exact (Function.update_of_ne hne _ _).trans (h.joined hm)
  own := h.own
  past l hl := by
    refine ⟨(h.past l hl).1, fun t addr => ?_⟩
    show Function.update st.thread n pc l.server ≠ _
    by_cases hm : l.server = n
    · rw [hm, Function.update_self]
      exact hpc t addr
    · rw [Function.update_of_ne hm]
      exact (h.past l hl).2 t addr
  fresh := h.fresh

omit [DecidableEq κ] in
/-- A thread that finds a server finds its own. -/
theorem listen (h : st.Inv) (hn : st.thread n = .lookup t addr) (hs : st.servers t = some s) :
    (st.listen n s addr).Inv := by
  have hknows := h.knows n
  rw [hn] at hknows
  obtain ⟨haddr, hown⟩ := hknows
  obtain rfl : n = s := by
    rcases hown with hown | hown
    · exact Option.some.inj (hown.symm.trans hs)
    · rw [hown] at hs
      cases hs
  have hset : (st.setThread n (.listen n)).Inv :=
    h.setThread (by simp [hn]) (by simp [hn]) rfl (by simp)
  refine { hset with
    own := fun l hl => ?_
    past := fun l hl => ?_
    fresh := ?_ }
  · obtain hl | hl := List.mem_append.mp hl
    · exact h.own l hl
    · obtain rfl := List.mem_singleton.mp hl
      exact ⟨rfl, haddr⟩
  · obtain hl | hl := List.mem_append.mp hl
    · exact hset.past l hl
    · obtain rfl := List.mem_singleton.mp hl
      refine ⟨h.bound hs, fun u b => ?_⟩
      rw [show (st.listen n n addr).thread n = .listen n from Function.update_self _ _ _]
      simp
  · show ((st.listens ++ [_]).map Listen.server).Nodup
    rw [List.map_append]
    refine List.nodup_append.mpr ⟨h.fresh, List.pairwise_singleton _ _, fun m hm m' hm' => ?_⟩
    obtain ⟨l, hl, rfl⟩ := List.mem_map.mp hm
    obtain rfl := List.mem_singleton.mp hm'
    intro heq
    exact (h.past l hl).2 t addr (heq ▸ hn)

omit [DecidableEq κ] in
theorem use (h : st.Inv) (hs : st.destroyed s = false) : (st.use s).Inv := by
  have huse : st.use s = st := by simp [ServerTable.use, hs]
  rw [huse]
  exact h

/-- A call goes on with the servers that it has. -/
theorem goto (h : st.Inv) {pc : StopPc} (hservers : pc.servers = (st.call k).servers)
    (hwaits : ∀ n ∈ (st.call k).waits, n ∈ pc.waits ∨ st.thread n = .exited)
    (hholds : st.Holds pc) : (st.goto k pc).Inv := by
  have hsame : ∀ j, ((st.goto k pc).call j).servers = (st.call j).servers :=
    apply_update_of_eq hservers
  refine { h with
    late := fun {n t addr} hn => ?_
    holds := fun j => ?_
    nodup := fun j => hsame j ▸ h.nodup j
    taken := fun {j n} hn => h.taken (hsame j ▸ hn)
    once := fun {i j n} hi hj => h.once (hsame i ▸ hi) (hsame j ▸ hj) }
  · replace hn : st.thread n = .lookup t addr := hn
    refine (h.late hn).imp_right fun ⟨j, hj⟩ => ⟨j, ?_⟩
    show n ∈ (Function.update st.call k pc j).waits
    by_cases hjk : j = k
    · rw [hjk, Function.update_self]
      refine (hwaits n (hjk ▸ hj)).resolve_right fun hex => ?_
      rw [hex] at hn
      cases hn
    · rwa [Function.update_of_ne hjk]
  show st.Holds (Function.update st.call k pc j)
  by_cases hj : j = k
  · rw [hj, Function.update_self]
    exact hholds
  · rw [Function.update_of_ne hj]
    exact h.holds j

/-- The last step of a call: the servers are destroyed, whose threads are at their ends. -/
theorem destroy (h : st.Inv) {servers : List ℕ} (hk : st.call k = .join servers []) :
    ((st.destroy servers).goto k .idle).Inv := by
  have hservers : (st.call k).servers = servers := by rw [hk]; rfl
  have hmem : ∀ {n}, n ∈ servers → n ∈ (st.call k).servers := fun hn => hservers ▸ hn
  have hexited : ∀ n ∈ servers, st.thread n = .exited := by
    have hholds := h.holds k
    rw [hk] at hholds
    exact fun n hn => (hholds n hn).resolve_left (by simp)
  have hfaults : (servers.filter st.destroyed).map ServerFault.destroysTwice = [] := by
    have hnone : servers.filter st.destroyed = [] :=
      List.filter_eq_nil_iff.mpr fun n hn => by simp [(h.taken (hmem hn)).2.1]
    rw [hnone, List.map_nil]
  have hcall : ∀ {j n}, n ∈ (((st.destroy servers).goto k .idle).call j).servers →
      j ≠ k ∧ n ∈ (st.call j).servers := fun {j n} hn => by
    by_cases hj : j = k
    · rw [hj] at hn
      simp [ServerTable.goto, StopPc.servers] at hn
    · refine ⟨hj, ?_⟩
      simpa [ServerTable.goto, ServerTable.destroy, Function.update_of_ne hj] using hn
  have hother : ∀ {j n}, j ≠ k → n ∈ (st.call j).servers → n ∉ servers := fun hj hn hs =>
    hj (h.once hn (hmem hs))
  refine { h with
    clean := ?_
    kept := fun {t n} hn => ?_
    late := fun {n t addr} hn => ?_
    holds := fun j => ?_
    nodup := fun j => ?_
    taken := fun {j n} hn => ?_
    once := fun hi hj => h.once (hcall hi).2 (hcall hj).2
    joined := fun {n} hn => ?_ }
  · show st.faults ++ _ = []
    rw [hfaults, List.append_nil, h.clean]
  · have hns : n ∉ servers := fun hs => (h.taken (hmem hs)).2.2 t hn
    simp [ServerTable.goto, ServerTable.destroy, h.kept hn, hns]
  · refine (h.late hn).imp_right fun ⟨j, hj⟩ => ⟨j, ?_⟩
    show n ∈ (Function.update st.call k .idle j).waits
    have hjk : j ≠ k := by
      rintro rfl
      rw [hk] at hj
      cases hj
    rwa [Function.update_of_ne hjk]
  · show ((st.destroy servers).goto k .idle).Holds (Function.update st.call k .idle j)
    by_cases hj : j = k
    · rw [hj, Function.update_self]
      trivial
    · rw [Function.update_of_ne hj]
      exact h.holds j
  · show (Function.update st.call k .idle j).servers.Nodup
    by_cases hj : j = k
    · rw [hj, Function.update_self]
      exact List.nodup_nil
    · rw [Function.update_of_ne hj]
      exact h.nodup j
  · obtain ⟨hj, hn⟩ := hcall hn
    obtain ⟨hbound, hdestroyed, hmap⟩ := h.taken hn
    refine ⟨hbound, ?_, hmap⟩
    simp [ServerTable.goto, ServerTable.destroy, hdestroyed, hother hj hn]
  · have hor : st.destroyed n = true ∨ n ∈ servers := by
      simpa [ServerTable.goto, ServerTable.destroy] using hn
    exact hor.elim h.joined (hexited n)

/-- `stopServer` takes the same numbers out of both maps. -/
theorem stopServer (h : st.Inv) (hk : st.call k = .idle) (which : Option ConnType) :
    (st.stopServer k which).Inv := by
  have hold : ∀ {t n}, remaining which st.servers t = some n → st.servers t = some n :=
    fun hn => (remaining_eq_some.mp hn).2
  have hcall : ∀ {j n}, n ∈ ((st.stopServer k which).call j).servers →
      j = k ∧ n ∈ ServerTable.taken which st.servers ∨ j ≠ k ∧ n ∈ (st.call j).servers :=
    fun {j n} hn => by
      by_cases hj : j = k
      · subst hj
        exact .inl ⟨rfl, by simpa [ServerTable.stopServer, StopPc.servers] using hn⟩
      · exact .inr ⟨hj, by simpa [ServerTable.stopServer, Function.update_of_ne hj] using hn⟩
  refine { h with
    agree := ?_
    bound := fun hn => h.bound (hold hn)
    type := fun ht hu => h.type (hold ht) (hold hu)
    knows := fun n => ?_
    kept := fun hn => h.kept (hold hn)
    late := fun {n t addr} hn => ?_
    holds := fun j => ?_
    nodup := fun j => ?_
    taken := fun {j n} hn => ?_
    once := fun {i j n} hi hj => ?_ }
  · show remaining which st.servers = remaining which st.threads
    rw [h.agree]
  · have hn := h.knows n
    show (st.stopServer k which).Knows n (st.thread n)
    cases hpc : st.thread n with
    | lookup t addr =>
      rw [hpc] at hn
      refine ⟨hn.1, ?_⟩
      show remaining which st.servers t = some n ∨ remaining which st.servers t = none
      unfold remaining
      split_ifs
      · exact .inr rfl
      · exact hn.2
    | listen s =>
      rw [hpc] at hn
      exact hn
    | _ => trivial
  · -- the thread of an entry that is taken out is one that the call waits for
    show remaining which st.servers t = some n ∨ ∃ j, n ∈ (Function.update st.call k _ j).waits
    rcases h.late hn with hn | ⟨j, hj⟩
    · by_cases hsel : Selects which t
      · refine .inr ⟨k, ?_⟩
        rw [Function.update_self]
        exact mem_taken.mpr ⟨t, hsel, h.agree ▸ hn⟩
      · exact .inl (remaining_eq_some.mpr ⟨hsel, hn⟩)
    · have hjk : j ≠ k := by
        rintro rfl
        rw [hk] at hj
        cases hj
      exact .inr ⟨j, by rwa [Function.update_of_ne hjk]⟩
  · show (st.stopServer k which).Holds (Function.update st.call k _ j)
    by_cases hj : j = k
    · rw [hj, Function.update_self]
      exact ⟨by rw [h.agree], List.Subset.refl _⟩
    · rw [Function.update_of_ne hj]
      exact h.holds j
  · show (Function.update st.call k _ j).servers.Nodup
    by_cases hj : j = k
    · rw [hj, Function.update_self]
      exact nodup_taken h.type
    · rw [Function.update_of_ne hj]
      exact h.nodup j
  · obtain ⟨-, hn⟩ | ⟨-, hn⟩ := hcall hn
    · obtain ⟨t, hsel, ht⟩ := mem_taken.mp hn
      refine ⟨h.bound ht, h.kept ht, fun u hu => ?_⟩
      obtain ⟨hleft, hu⟩ := remaining_eq_some.mp hu
      exact hleft (h.type ht hu ▸ hsel)
    · obtain ⟨hbound, hdestroyed, hmap⟩ := h.taken hn
      exact ⟨hbound, hdestroyed, fun t ht => hmap t (hold ht)⟩
  · -- what is in a map is in no other hands
    have hmap : ∀ {j n}, n ∈ ServerTable.taken which st.servers → n ∉ (st.call j).servers := by
      intro j n hn hj
      obtain ⟨t, -, ht⟩ := mem_taken.mp hn
      exact (h.taken hj).2.2 t ht
    obtain ⟨hi, hni⟩ | ⟨-, hni⟩ := hcall hi
    · obtain ⟨hj, -⟩ | ⟨-, hnj⟩ := hcall hj
      · rw [hi, hj]
      · exact absurd hnj (hmap hni)
    · obtain ⟨-, hnj⟩ | ⟨-, hnj⟩ := hcall hj
      · exact absurd hni (hmap hnj)
      · exact h.once hni hnj

section register

omit [DecidableEq κ]

theorem servers_register (hn : (st.register t addr).servers u = some n) :
    u = t ∧ n = st.next ∨ u ≠ t ∧ st.servers u = some n :=
  (update_eq_some.mp hn).imp_left fun ⟨hu, hn⟩ => ⟨hu, (Option.some.inj hn).symm⟩

theorem thread_register_self : (st.register t addr).thread st.next = .lookup t addr :=
  Function.update_self _ _ _

theorem thread_register (hn : n ≠ st.next) : (st.register t addr).thread n = st.thread n :=
  Function.update_of_ne hn _ _

theorem addr_register (hn : n ≠ st.next) : (st.register t addr).addr n = st.addr n :=
  Function.update_of_ne hn _ _

/-- The new server is in the map under its own type only. -/
theorem type_register (h : st.Inv) (hu : (st.register t addr).servers u = some n)
    (hv : (st.register t addr).servers v = some n) : u = v := by
  rcases servers_register hu with ⟨rfl, rfl⟩ | ⟨-, hu⟩
  · rcases servers_register hv with ⟨rfl, -⟩ | ⟨-, hv⟩
    · rfl
    · exact absurd (h.bound hv) (lt_irrefl _)
  · rcases servers_register hv with ⟨-, rfl⟩ | ⟨-, hv⟩
    · exact absurd (h.bound hu) (lt_irrefl _)
    · exact h.type hu hv

/-- The new thread finds its own server, and no other thread looks up this type. -/
theorem knows_register (h : st.Inv) (hlate : ∀ n b, st.thread n ≠ .lookup t b) (n : ℕ) :
    (st.register t addr).Knows n ((st.register t addr).thread n) := by
  by_cases hn : n = st.next
  · subst hn
    rw [thread_register_self]
    exact ⟨(Function.update_self _ addr st.addr).symm, .inl (Function.update_self _ _ _)⟩
  · have hknows := h.knows n
    rw [thread_register hn]
    cases hpc : st.thread n with
    | lookup u b =>
      rw [hpc] at hknows
      have hu : u ≠ t := by
        rintro rfl
        exact hlate n b hpc
      refine ⟨hknows.1.trans (addr_register hn).symm, ?_⟩
      rw [show (st.register t addr).servers u = st.servers u from Function.update_of_ne hu _ _]
      exact hknows.2
    | listen s =>
      rw [hpc] at hknows
      exact hknows
    | _ => trivial

/-- Whoever has yet to look up is in the map, or in the hands of a call. -/
theorem late_register (h : st.Inv) (hlate : ∀ n b, st.thread n ≠ .lookup t b) {b : PeerKey}
    (hn : (st.register t addr).thread n = .lookup u b) :
    (st.register t addr).servers u = some n ∨ ∃ k, n ∈ (st.call k).waits := by
  by_cases hnn : n = st.next
  · subst hnn
    rw [thread_register_self] at hn
    obtain ⟨rfl, rfl⟩ := ListenPc.lookup.inj hn
    exact .inl (Function.update_self _ _ _)
  · rw [thread_register hnn] at hn
    refine (h.late hn).imp_left fun hu => ?_
    refine (Function.update_of_ne ?_ _ _).trans hu
    rintro rfl
    exact hlate n b hn

/-- A call that joins threads does not join the new one. -/
theorem holds_register (h : st.Inv) (k : κ) : (st.register t addr).Holds (st.call k) := by
  have hk := h.holds k
  cases hc : st.call k with
  | idle => trivial
  | tell left servers threads =>
    rw [hc] at hk
    exact hk
  | join servers left =>
    rw [hc] at hk
    intro n hn
    have hlt : n < st.next := (h.taken (k := k) (by rw [hc]; exact hn)).1
    rw [thread_register (Nat.ne_of_lt hlt)]
    exact hk n hn

/-- A server is registered, when no thread of its type has yet to look up. -/
theorem register (h : st.Inv) (ht : st.servers t = none)
    (hsettled : ∀ n < st.next, ¬ (st.thread n).LooksUp t) (addr : PeerKey) :
    (st.register t addr).Inv := by
  have hlate : ∀ n b, st.thread n ≠ .lookup t b := fun n b hn => by
    by_cases hlt : n < st.next
    · refine hsettled n hlt ?_
      rw [hn]
      rfl
    · rw [h.unborn (Nat.le_of_not_lt hlt)] at hn
      cases hn
  have hnew : st.thread st.next = .unborn := h.unborn le_rfl
  have hdestroyed : st.destroyed st.next = false := by
    by_contra hd
    rw [h.joined (Bool.not_eq_false _ ▸ hd)] at hnew
    cases hnew
  refine {
    agree := ?_
    clean := ?_
    bound := fun {u n} hn => ?_
    type := h.type_register
    unborn := fun {n} hn => ?_
    knows := h.knows_register hlate
    kept := fun {u n} hn => ?_
    late := h.late_register hlate
    holds := h.holds_register
    nodup := h.nodup
    taken := fun {j n} hn => ?_
    once := h.once
    joined := fun {n} hn => ?_
    own := fun l hl => ?_
    past := fun l hl => ?_
    fresh := h.fresh }
  · show Function.update st.servers t _ = Function.update st.threads t _
    rw [h.agree]
  · show st.faults ++ _ = []
    rw [← h.agree, ht, h.clean]
    rfl
  · show n < st.next + 1
    rcases servers_register hn with ⟨-, rfl⟩ | ⟨-, hn⟩
    · exact Nat.lt_succ_self _
    · exact Nat.lt_succ_of_lt (h.bound hn)
  · have hlt : st.next < n := hn
    rw [thread_register (Nat.ne_of_gt hlt)]
    exact h.unborn (Nat.le_of_lt hlt)
  · rcases servers_register hn with ⟨-, rfl⟩ | ⟨-, hn⟩
    · exact hdestroyed
    · exact h.kept hn
  · obtain ⟨hbound, hd, hmap⟩ := h.taken hn
    refine ⟨Nat.lt_succ_of_lt hbound, hd, fun u hu => ?_⟩
    rcases servers_register hu with ⟨-, rfl⟩ | ⟨-, hu⟩
    · exact absurd hbound (lt_irrefl _)
    · exact hmap u hu
  · have hne : n ≠ st.next := by
      rintro rfl
      rw [h.joined hn] at hnew
      cases hnew
    rw [thread_register hne]
    exact h.joined hn
  · rw [addr_register (Nat.ne_of_lt (h.past l hl).1)]
    exact h.own l hl
  · rw [thread_register (Nat.ne_of_lt (h.past l hl).1)]
    exact ⟨Nat.lt_succ_of_lt (h.past l hl).1, (h.past l hl).2⟩

end register

/-- **One step** keeps the invariant. The condition is used for `initiateServer` only. -/
theorem step (h : st.Inv) {a : ServerAct κ} {st' : ServerTable κ} (hok : st.Settled a)
    (hst : st.step a = some st') : st'.Inv := by
  cases a with
  | initiateServer t addr =>
    obtain rfl := Option.some.inj hst
    unfold ServerTable.initiateServer
    split
    next => exact h
    next hnone =>
      split_ifs
      · exact h
      · exact h.register hnone (hok hnone) addr
  | lookup n =>
    simp only [ServerTable.step] at hst
    split at hst
    next t addr hn =>
      split at hst
      next =>
        obtain rfl := Option.some.inj hst
        exact h.setThread (by simp [hn]) (by simp [hn]) trivial (by simp)
      next s hs =>
        obtain rfl := Option.some.inj hst
        exact h.listen hn hs
    next => cases hst
  | serve n =>
    simp only [ServerTable.step] at hst
    split at hst
    next s hn =>
      obtain rfl := Option.some.inj hst
      refine h.use (Bool.eq_false_iff.mpr fun hd => ?_)
      have hknows := h.knows n
      rw [hn] at hknows
      obtain rfl : s = n := hknows
      rw [h.joined hd] at hn
      cases hn
    next => cases hst
  | returns n =>
    simp only [ServerTable.step] at hst
    split at hst
    next s hn =>
      obtain rfl := Option.some.inj hst
      exact h.setThread (by simp [hn]) (by simp [hn]) trivial (by simp)
    next => cases hst
  | stopServer k which =>
    simp only [ServerTable.step] at hst
    split at hst
    next hk =>
      obtain rfl := Option.some.inj hst
      exact h.stopServer hk which
    next => cases hst
  | tell k =>
    have hholds := h.holds k
    simp only [ServerTable.step] at hst
    split at hst
    next s left servers threads hk =>
      obtain rfl := Option.some.inj hst
      rw [hk] at hholds
      have hs : s ∈ (st.call k).servers := by
        rw [hk]
        exact hholds.2 List.mem_cons_self
      have huse := h.use (h.taken hs).2.1
      have hcall : (st.use s).call k = .tell (s :: left) servers threads := hk
      exact huse.goto (by rw [hcall]; rfl) (by rw [hcall]; exact fun n hn => .inl hn)
        ⟨hholds.1, fun n hn => hholds.2 (List.mem_cons_of_mem _ hn)⟩
    next servers threads hk =>
      obtain rfl := Option.some.inj hst
      rw [hk] at hholds
      exact h.goto (by rw [hk]; rfl) (by rw [hk]; exact fun n hn => .inl hn)
        fun n hn => .inl (hholds.1 ▸ hn)
    next => cases hst
  | join k =>
    have hholds := h.holds k
    simp only [ServerTable.step] at hst
    split at hst
    next servers n left hk =>
      obtain ⟨hn, hst⟩ := Option.ite_none_right_eq_some.mp hst
      obtain rfl := Option.some.inj hst
      rw [hk] at hholds
      have hleft : ∀ m ∈ n :: left, m ∈ left ∨ st.thread m = .exited := fun m hm => by
        rcases List.mem_cons.mp hm with rfl | hm
        · exact .inr hn
        · exact .inl hm
      refine h.goto (by rw [hk]; rfl) (by rw [hk]; exact hleft) fun m hm => ?_
      rcases hholds m hm with hm | hm
      · exact hleft m hm
      · exact .inr hm
    next servers hk =>
      obtain rfl := Option.some.inj hst
      exact h.destroy hk
    next => cases hst

end Inv

/-! ### The result -/

/-- Each server is listened on by its own thread, with its own address and once at most, and only
while it exists; its thread is joined before it is destroyed; nothing goes wrong. A server refers to
its manager, so that the manager is destroyed when all servers are: then its maps are empty, and the
`stopServer` of its destructor has nothing to do. -/
structure Proper : Prop where
  own : ∀ l ∈ st.listens, l.server = l.thread ∧ l.addr = st.addr l.server
  once : (st.listens.map Listen.server).Nodup
  alive : ∀ n s, st.thread n = .listen s → s = n ∧ st.destroyed s = false
  joined : ∀ n, st.destroyed n = true → st.thread n = .exited
  clean : st.faults = []
  agree : st.servers = st.threads
  destructor : (∀ n < st.next, st.destroyed n = true) → ∀ t, st.servers t = none

omit [DecidableEq κ] in
theorem Proper.of_inv {st : ServerTable κ} (h : st.Inv) : st.Proper where
  own := h.own
  once := h.fresh
  alive n s hn := by
    have hknows := h.knows n
    rw [hn] at hknows
    obtain rfl : s = n := hknows
    refine ⟨rfl, Bool.eq_false_iff.mpr fun hd => ?_⟩
    rw [h.joined hd] at hn
    cases hn
  joined n := h.joined
  clean := h.clean
  agree := h.agree
  destructor hall t := by
    cases ht : st.servers t with
    | none => rfl
    | some n =>
      have hkept := h.kept ht
      rw [hall n (h.bound ht)] at hkept
      cases hkept

/-- **Each server has its own thread.** In every run in which servers are registered only when no
thread of their type has yet to look up, for any number of callers of `initiateServer` and
`stopServer`, also those that stop all servers at once, and with threads that return from `listen`
by themselves at any time. -/
theorem proper_of_reach {st : ServerTable κ} (h : Reach step Settled empty st) : st.Proper := by
  have hinv : st.Inv := h.invariant .empty fun _ _ _ _ hI hok hst => hI.step hok hst
  exact .of_inv hinv

/-- Two calls take a server each, of which one has returned from `listen` before. -/
theorem proper_of_reach_stopped : ∃ st : ServerTable Bool,
    (st.destroyed 0 = true ∧ st.destroyed 1 = true ∧ st.listens.length = 2) ∧ st.Proper := by
  obtain ⟨st, hst, hdestroyed⟩ : ∃ st : ServerTable Bool, Reach step Settled empty st ∧
      st.destroyed 0 = true ∧ st.destroyed 1 = true ∧ st.listens.length = 2 :=
    exists_reach_of_execOk [.initiateServer .rdma ⟨"10.0.0.1", 2025⟩,
      .initiateServer .ucx ⟨"10.0.0.1", 2026⟩, .lookup 1, .returns 1, .lookup 0,
      .stopServer true (some .ucx), .stopServer false none, .tell true, .tell false, .tell true,
      .join true, .serve 0, .tell false, .join true, .returns 0, .join false, .join false]
      (by decide)
  exact ⟨st, hdestroyed, proper_of_reach hst⟩

/-- The thread of the first server is late. -/
def lateThread : List (ServerAct Bool) :=
  [.initiateServer .rdma ⟨"10.0.0.1", 2025⟩, .stopServer true none, .tell true, .tell true,
    .initiateServer .rdma ⟨"10.0.0.2", 2026⟩, .lookup 0, .lookup 1, .stopServer false none,
    .tell false, .tell false, .returns 1, .join false, .join false, .serve 0]

example : (exec step empty lateThread).map (fun st => (st.listens, st.faults)) =
    some ([⟨0, 1, ⟨"10.0.0.1", 2025⟩⟩, ⟨1, 1, ⟨"10.0.0.2", 2026⟩⟩], [.usesDestroyed 1]) := by
  decide

end ServerTable

end HMC.Comm
