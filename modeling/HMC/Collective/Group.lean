import HMC.Comm.ConnectTo
import Mathlib.Data.List.DropRight
import Mathlib.Data.List.Sort

/-!
# Groups

Every rank builds a `Group` from the members that `all_gather_object` has brought: it sorts them by
their ranks and checks that these are `0..world-1`. A `Group` carries this as a field here, so that
`init_eq_ok_iff` can say what the checks accept: the permutations of the members of a group, and
nothing else.

Two ranks with the same members agree on everything that `_direct_alltoall_core` and
`_ring_alltoall_core` take from their groups (`agree_of_init`), and the members that `init_group`
gathers are accepted at every rank (`agree_of_initGroup`). With `conn="auto"` two Cambricon
members on one node are to use `P2P`, for which `connectTo` has no endpoint map: no such pair can be
connected, and every other pair can (`connects_iff`).

As members are ordered by ranks that do not repeat, there is one list in order for each set of
members, whatever the order they came in (`members_eq`). So two ranks that were given permutations
of one list have the same list, and what they take from it differs only by their own index.
-/

namespace HMC.Collective.Init

open HMC.Comm

/-- `GroupMember`. -/
structure GroupMember where
  rank : ℤ
  world : ℤ
  ip : String
  portUcx : ℤ
  portRdma : ℤ
  portCtrl : ℤ
  memType : ℤ
  deviceId : ℤ
  bufferSize : ℤ
  deriving DecidableEq

/-- The order that `sorted` gets as its key. -/
def ByRank (a b : GroupMember) : Prop := a.rank ≤ b.rank

instance : DecidableRel ByRank := fun a b => inferInstanceAs (Decidable (a.rank ≤ b.rank))

instance : Std.Total ByRank := ⟨fun a b => le_total a.rank b.rank⟩

instance : IsTrans GroupMember ByRank := ⟨fun _ _ _ h h' => le_trans h h'⟩

/-- The loop over the members in `Group.__init__`, from index `i` on. -/
def checkMembers (world : ℕ) : ℕ → List GroupMember → Except String Unit
  | _, [] => .ok ()
  | i, m :: ms =>
    if m.rank ≠ i then .error "members must be contiguous ranks 0..world-1"
    else if m.world ≠ world then .error "member.world mismatch"
    else checkMembers world (i + 1) ms

theorem checkMembers_eq_ok_iff {world i : ℕ} {ms : List GroupMember} :
    checkMembers world i ms = .ok () ↔
      ms.map GroupMember.rank = (List.range' i ms.length).map Nat.cast ∧
        ∀ m ∈ ms, m.world = world := by
  induction ms generalizing i with
  | nil => simp [checkMembers]
  | cons m ms ih =>
    rw [checkMembers, List.forall_mem_cons, List.map_cons, List.length_cons, List.range'_succ,
      List.map_cons, List.cons.injEq]
    split_ifs with hrank hworld
    · simp [hrank]
    · simp [hworld]
    · rw [ih]
      rw [not_not] at hrank hworld
      constructor
      · rintro ⟨hranks, hworlds⟩
        exact ⟨⟨hrank, hranks⟩, hworld, hworlds⟩
      · rintro ⟨⟨-, hranks⟩, -, hworlds⟩
        exact ⟨hranks, hworlds⟩

/-- `Group`, by what its constructor has checked. -/
structure Group where
  members : List GroupMember
  rank : ℕ
  rank_lt : rank < members.length
  ranks : members.map GroupMember.rank = (List.range members.length).map Nat.cast
  worlds : ∀ m ∈ members, m.world = members.length

/-- `Group.__init__`. -/
def Group.init (members : List GroupMember) (rank : ℤ) : Except String Group :=
  let members := members.insertionSort ByRank
  let world := members.length
  if world = 0 then .error "empty group"
  else if hrank : 0 ≤ rank ∧ rank < world then
    match hcheck : checkMembers world 0 members with
    | .error e => .error e
    | .ok () =>
      .ok
        { members := members
          rank := rank.toNat
          rank_lt := by omega
          ranks := by
            rw [List.range_eq_range']
            exact (checkMembers_eq_ok_iff.mp hcheck).1
          worlds := (checkMembers_eq_ok_iff.mp hcheck).2 }
  else .error s!"bad rank: {rank} (world={world})"

namespace Group

variable (g : Group)

def world : ℕ := g.members.length

theorem world_pos : 0 < g.world := Nat.lt_of_le_of_lt (Nat.zero_le _) g.rank_lt

def me : GroupMember := g.members.get ⟨g.rank, g.rank_lt⟩

/-- `peer`: an index from the end of the list may be negative. -/
def peer (r : ℤ) : Option GroupMember :=
  if 0 ≤ r then g.members[r.toNat]?
  else if 0 ≤ g.world + r then g.members[(g.world + r).toNat]?
  else none

def right : GroupMember := g.members.get ⟨(g.rank + 1) % g.world, Nat.mod_lt _ g.world_pos⟩

def left : GroupMember :=
  g.members.get ⟨(g.rank + g.world - 1) % g.world, Nat.mod_lt _ g.world_pos⟩

end Group

/-! ### What is accepted -/

namespace Group

variable {g g' : Group} {members members' : List GroupMember} {rank rank' : ℤ}

theorem pairwise_members (g : Group) : g.members.Pairwise ByRank := by
  have hranks : (g.members.map GroupMember.rank).Pairwise (· ≤ ·) := by
    rw [g.ranks, List.pairwise_map]
    exact List.pairwise_le_range.imp fun h => Int.ofNat_le.mpr h
  rw [List.pairwise_map] at hranks
  exact hranks

/-- Different members have different ranks. -/
theorem eq_of_rank {a b : GroupMember} (ha : a ∈ g.members) (hb : b ∈ g.members)
    (h : a.rank = b.rank) : a = b := by
  have hnodup : (g.members.map GroupMember.rank).Nodup := by
    rw [g.ranks]
    exact List.nodup_range.map fun _ _ => Int.ofNat_inj.mp
  exact List.inj_on_of_nodup_map hnodup ha hb h

/-- A list of members in order is what `sorted` makes of any permutation. -/
theorem insertionSort_eq (h : g.members.Perm members) :
    members.insertionSort ByRank = g.members := by
  have hperm : (members.insertionSort ByRank).Perm g.members :=
    (List.perm_insertionSort ByRank members).trans h.symm
  refine hperm.eq_of_pairwise ?_ (List.pairwise_insertionSort ByRank members) g.pairwise_members
  intro a b ha hb hab hba
  exact eq_of_rank (hperm.mem_iff.mp ha) hb (le_antisymm hab hba)

theorem members_eq (h : g.members.Perm g'.members) : g.members = g'.members := by
  rw [← insertionSort_eq h, insertionSort_eq (.refl g'.members)]

/-- **What the checks accept.** A list of members is accepted when it is a permutation of the
members of a group, and this is the group that comes out. -/
theorem init_eq_ok_iff : Group.init members rank = .ok g ↔
    g.members.Perm members ∧ (g.rank : ℤ) = rank := by
  constructor
  · intro h
    unfold Group.init at h
    dsimp only at h
    split_ifs at h with hempty hrank
    split at h
    · cases h
    · obtain rfl := Except.ok.inj h
      exact ⟨List.perm_insertionSort ByRank members, Int.toNat_of_nonneg hrank.1⟩
  · rintro ⟨hperm, rfl⟩
    have hsort := insertionSort_eq hperm
    have hcheck : checkMembers (members.insertionSort ByRank).length 0
        (members.insertionSort ByRank) = .ok () := by
      rw [checkMembers_eq_ok_iff, hsort, ← List.range_eq_range']
      exact ⟨g.ranks, g.worlds⟩
    have hlt := g.rank_lt
    rw [← hsort] at hlt
    unfold Group.init
    dsimp only
    rw [if_neg (by omega), dif_pos ⟨Int.natCast_nonneg _, by exact_mod_cast hlt⟩]
    split
    next e herror =>
      rw [hcheck] at herror
      cases herror
    next =>
      congr 1
      obtain ⟨ms, r, _, _, _⟩ := g
      simpa using hsort

/-- **Which lists are accepted**, and for which ranks: those whose ranks are a permutation of
`0..world-1`, each member with the right `world`, and an own rank that is one of them. -/
theorem isOk_init_iff : (∃ g, Group.init members rank = .ok g) ↔
    (0 ≤ rank ∧ rank < members.length) ∧
      (members.map GroupMember.rank).Perm ((List.range members.length).map Nat.cast) ∧
      ∀ m ∈ members, m.world = members.length := by
  constructor
  · rintro ⟨g, h⟩
    obtain ⟨hperm, rfl⟩ := init_eq_ok_iff.mp h
    have hlt := g.rank_lt
    have hranks := hperm.symm.map GroupMember.rank
    rw [g.ranks] at hranks
    rw [hperm.length_eq] at hlt hranks
    refine ⟨⟨Int.natCast_nonneg _, Int.ofNat_lt.mpr hlt⟩, hranks, fun m hm => ?_⟩
    rw [← hperm.length_eq]
    exact g.worlds m (hperm.mem_iff.mpr hm)
  · rintro ⟨⟨hnonneg, hlt⟩, hranks, hworlds⟩
    have hperm := List.perm_insertionSort ByRank members
    -- the sorted ranks are the range
    have hsorted : (members.insertionSort ByRank).map GroupMember.rank =
        (List.range members.length).map Nat.cast := by
      refine List.Perm.eq_of_pairwise (fun a b _ _ => le_antisymm) ?_ ?_
        ((hperm.map GroupMember.rank).trans hranks)
      · exact List.pairwise_map.mpr (List.pairwise_insertionSort ByRank members)
      · exact List.pairwise_map.mpr (List.pairwise_le_range.imp Int.ofNat_le.mpr)
    have hlength : (members.insertionSort ByRank).length = members.length := hperm.length_eq
    refine ⟨⟨members.insertionSort ByRank, rank.toNat, by omega, by rw [hlength, hsorted], ?_⟩, ?_⟩
    · intro m hm
      rw [hlength]
      exact hworlds m (hperm.mem_iff.mp hm)
    · exact init_eq_ok_iff.mpr ⟨hperm, Int.toNat_of_nonneg hnonneg⟩

end Group

/-! ### The transport of a pair -/

/-- `MemoryType(x)` of a number. -/
def memoryType : ℤ → Option MemoryType
  | 0 => some .default
  | 1 => some .cpu
  | 2 => some .nvidiaGpu
  | 3 => some .amdGpu
  | 4 => some .cambriconMlu
  | 5 => some .mooreGpu
  | _ => none

/-- `UCX_GPU`. -/
def ucxGpu : List MemoryType := [.nvidiaGpu, .amdGpu]

/-- `RDMA_GPU`. -/
def rdmaGpu : List MemoryType := [.cambriconMlu, .mooreGpu]

/-- `_pick_conn`. -/
def pickConn (a b : MemoryType) (sameNode : Bool) : ConnType :=
  if sameNode ∧ a = b ∧ a = .cambriconMlu then .p2p
  else if a = b then
    if a = .cpu then .ucx
    else if a ∈ ucxGpu then .ucx
    else if a ∈ rdmaGpu then .rdma
    else .ucx
  else if a = .cpu ∨ b = .cpu then
    let other := if a = .cpu then b else a
    if other ∈ rdmaGpu then .rdma else .ucx
  else if a ∈ ucxGpu ++ rdmaGpu ∧ b ∈ ucxGpu ++ rdmaGpu then .rdma
  else .ucx

theorem pickConn_comm (a b : MemoryType) (sameNode : Bool) :
    pickConn a b sameNode = pickConn b a sameNode := by
  cases a <;> cases b <;> cases sameNode <;> rfl

theorem pickConn_eq_p2p_iff {a b : MemoryType} {sameNode : Bool} :
    pickConn a b sameNode = .p2p ↔ sameNode = true ∧ a = .cambriconMlu ∧ b = .cambriconMlu := by
  cases a <;> cases b <;> cases sameNode <;> decide

/-- The argument `conn` of `alltoall`. -/
inductive ConnArg
  | auto
  | given (conn : ConnType)

/-- `port_for`. -/
def GroupMember.portFor (m : GroupMember) (conn : ConnType) : ℤ :=
  if conn = .ucx then m.portUcx else m.portRdma

/-- `_conn_for_pair`. -/
def connForPair (g : Group) (aRank bRank : ℤ) : ConnArg → Option ConnType
  | .given conn => some conn
  | .auto =>
    (g.peer aRank).bind fun a =>
      (g.peer bRank).bind fun b =>
        (memoryType a.memType).bind fun x =>
          (memoryType b.memType).map fun y => pickConn x y (a.ip = b.ip)

theorem connForPair_comm (g : Group) (a b : ℤ) (conn : ConnArg) :
    connForPair g a b conn = connForPair g b a conn := by
  cases conn with
  | given conn => rfl
  | auto =>
    simp only [connForPair]
    rcases g.peer a with _ | ma <;> rcases g.peer b with _ | mb <;> try rfl
    simp only [Option.bind_some]
    rcases memoryType ma.memType with _ | x <;> rcases memoryType mb.memType with _ | y <;> try rfl
    simp only [Option.bind_some, Option.map_some, pickConn_comm x y, eq_comm]

/-! ### What two ranks agree on -/

/-- The two groups have the same members under the same indices, take the same transport for a pair
from either end, and know each other; and when one is the next in the ring, they are neighbours. -/
structure Agree (g g' : Group) : Prop where
  members : g.members = g'.members
  conn : ∀ a b conn, connForPair g a b conn = connForPair g' b a conn
  peers : g.peer g'.rank = some g'.me ∧ g'.peer g.rank = some g.me
  ring : g'.rank = (g.rank + 1) % g.world → g.right = g'.me ∧ g'.left = g.me

theorem Group.peer_natCast {g : Group} {r : ℕ} (h : r < g.members.length) :
    g.peer r = some g.members[r] := by
  simp [Group.peer, h]

theorem agree_of_members {g g' : Group} (h : g.members = g'.members) : Agree g g' := by
  have hpeer : ∀ r, g.peer r = g'.peer r := by
    intro r
    rw [Group.peer, Group.peer, Group.world, Group.world, h]
  have hlt : g.rank < g.world := g.rank_lt
  have hlt' := g'.rank_lt
  refine ⟨h, fun a b conn => ?_, ⟨?_, ?_⟩, fun hring => ⟨?_, ?_⟩⟩
  · rw [connForPair_comm]
    cases conn with
    | given conn => rfl
    | auto => simp only [connForPair, hpeer]
  · rw [hpeer, Group.peer_natCast hlt']
    rfl
  · rw [← hpeer, Group.peer_natCast hlt]
    rfl
  · simp only [Group.right, Group.me, List.get_eq_getElem, ← hring, h]
  · have hworld : g.world = g'.world := congrArg List.length h
    have hleft : (g'.rank + g'.world - 1) % g'.world = g.rank := by
      rw [hring, ← hworld]
      by_cases hlast : g.rank + 1 = g.world
      · rw [hlast, Nat.mod_self, Nat.zero_add, Nat.mod_eq_of_lt (by omega)]
        omega
      · have hnext : g.rank + 1 < g.world := by omega
        rw [Nat.mod_eq_of_lt hnext, Nat.add_right_comm, Nat.add_sub_cancel, Nat.add_mod_right,
          Nat.mod_eq_of_lt hlt]
    simp only [Group.left, Group.me, List.get_eq_getElem, hleft, h]

/-- **Two ranks agree**, in whatever order the members came to each of them: the groups have the
same members, so every pair has one transport, whichever rank asks. -/
theorem agree_of_init {members members' : List GroupMember} {rank rank' : ℤ} {g g' : Group}
    (h : Group.init members rank = .ok g) (h' : Group.init members' rank' = .ok g')
    (hperm : members.Perm members') : Agree g g' := by
  refine agree_of_members (Group.members_eq ?_)
  exact ((Group.init_eq_ok_iff.mp h).1.trans hperm).trans (Group.init_eq_ok_iff.mp h').1.symm

/-- What a rank knows of itself. -/
structure LocalInfo where
  myIp : String
  portUcx : ℤ
  portRdma : ℤ
  portCtrl : ℤ
  memType : ℤ
  deviceId : ℤ
  size : ℤ

def LocalInfo.member (info : LocalInfo) (world rank : ℕ) : GroupMember :=
  ⟨rank, world, info.myIp, info.portUcx, info.portRdma, info.portCtrl, info.memType, info.deviceId,
    info.size⟩

/-- `init_group` at a rank, after `all_gather_object`. -/
def initGroup (info : ℕ → LocalInfo) (world rank : ℕ) : Except String Group :=
  Group.init ((List.range world).map fun r => (info r).member world r) rank

/-- `init_group` accepts what it has gathered, at every rank. -/
theorem exists_initGroup (info : ℕ → LocalInfo) {world rank : ℕ} (h : rank < world) :
    ∃ g, initGroup info world rank = .ok g ∧
      g.members = (List.range world).map fun r => (info r).member world r := by
  refine ⟨⟨(List.range world).map fun r => (info r).member world r, rank, by simpa using h, ?_, ?_⟩,
    ?_, rfl⟩
  · simp [LocalInfo.member, Function.comp_def]
  · simp [LocalInfo.member]
  · exact Group.init_eq_ok_iff.mpr ⟨.refl _, rfl⟩

/-- **Every rank of `init_group` has a group**, and any two of them agree. -/
theorem agree_of_initGroup (info : ℕ → LocalInfo) {world r r' : ℕ} (h : r < world)
    (h' : r' < world) :
    ∃ g g', initGroup info world r = .ok g ∧ initGroup info world r' = .ok g' ∧ Agree g g' := by
  obtain ⟨g, hg, hmembers⟩ := exists_initGroup info h
  obtain ⟨g', hg', hmembers'⟩ := exists_initGroup info h'
  exact ⟨g, g', hg, hg', agree_of_members (hmembers.trans hmembers'.symm)⟩

def sampleMember (rank memType : ℤ) (ip : String) : GroupMember :=
  ⟨rank, 2, ip, 2026, 2025, 5555, memType, 0, 1024⟩

/-- A group of a Cambricon member and another one. -/
def sampleGroup (memType : ℤ) (ip : String) (rank : ℕ) (h : rank < 2) : Group where
  members := [sampleMember 0 4 "10.0.0.1", sampleMember 1 memType ip]
  rank := rank
  rank_lt := h
  ranks := rfl
  worlds m hm := by
    rcases List.mem_pair.mp hm with rfl | rfl <;> rfl

/-- The second rank gets the members in the other order. -/
theorem agree_of_init_swapped :
    Agree (sampleGroup 4 "10.0.0.1" 0 (by decide)) (sampleGroup 4 "10.0.0.1" 1 (by decide)) := by
  have h₀ : Group.init (sampleGroup 4 "10.0.0.1" 0 (by decide)).members 0 =
      .ok (sampleGroup 4 "10.0.0.1" 0 (by decide)) := Group.init_eq_ok_iff.mpr ⟨.refl _, rfl⟩
  have h₁ : Group.init [sampleMember 1 4 "10.0.0.1", sampleMember 0 4 "10.0.0.1"] 1 =
      .ok (sampleGroup 4 "10.0.0.1" 1 (by decide)) :=
    Group.init_eq_ok_iff.mpr ⟨.swap _ _ _, rfl⟩
  exact agree_of_init h₀ h₁ (.swap _ _ _)

/-! ### Which pairs can be connected -/

/-- `_require_port`. -/
def requirePort (port : ℤ) : Option ℕ := if 0 < port ∧ port < 65536 then some port.toNat else none

/-- `str.isspace` of one character. -/
def isSpace (c : Char) : Bool :=
  let n := c.toNat
  (9 ≤ n ∧ n ≤ 13) ∨ (28 ≤ n ∧ n ≤ 32) ∨ n = 0x85 ∨ n = 0xA0 ∨ n = 0x1680 ∨
    (0x2000 ≤ n ∧ n ≤ 0x200A) ∨ n = 0x2028 ∨ n = 0x2029 ∨ n = 0x202F ∨ n = 0x205F ∨ n = 0x3000

/-- `_normalize_ip`. -/
def normalizeIp (s : String) : String :=
  String.ofList ((s.toList.dropWhile isSpace).rdropWhile isSpace)

variable {φ : Type} [DecidableEq φ]

/-- `_connect_peer`, with the link that `Session.connect` builds; `none` is an exception. -/
def connectPeer (g : Group) (peerRank : ℤ) (conn : ConnType) (link : CtrlLink) (st : Links φ)
    (env : ConnectEnv φ) : Option (Links φ) :=
  (g.peer peerRank).bind fun peer =>
    (requirePort (peer.portFor conn)).bind fun port =>
      let key : PeerKey := ⟨normalizeIp peer.ip, port⟩
      if st.maps.checkConn key conn = .success then some st
      else
        let r := st.connectTo peer.rank.toNat key link conn env
        if r.1 = .success then some r.2 else none

/-- The transport of the link has an address. -/
def Usable (link : CtrlLink) : Prop :=
  match link.transport with
  | .uds => link.udsPath ≠ ""
  | .tcp => link.ip ≠ "" ∧ link.port ≠ 0

/-- The peer answers. -/
def answering (fd : φ) : ConnectEnv φ := ⟨fun _ => some fd, true, some 0⟩

omit [DecidableEq φ] in
theorem dialed_answering {link : CtrlLink} (h : Usable link) (fd : φ) :
    link.dialed (answering fd) = some fd := by
  obtain ⟨transport, ip, port, udsPath⟩ := link
  cases transport with
  | uds => exact (if_neg h).trans rfl
  | tcp => exact (if_neg (not_or.mpr h)).trans rfl

/-- `connectTo` can succeed, except over `P2P`. -/
theorem connectTo_answering {st : Links φ} {peerId : ℕ} {key : PeerKey} {link : CtrlLink}
    {conn : ConnType} (hlink : Usable link) (hconn : conn ≠ .p2p) (fd : φ) :
    (st.connectTo peerId key link conn (answering fd)).1 = .success := by
  have hkey : ∃ k, entryKey key conn = some k := by
    cases conn with
    | p2p => exact absurd rfl hconn
    | rdma => exact ⟨_, rfl⟩
    | ucx => exact ⟨_, rfl⟩
  obtain ⟨k, hk⟩ := hkey
  have hctrl : (connectFd st.ctrl peerId (some fd) (answering fd).helloSent).1 = true := rfl
  have hdata : (st.maps.initiateConnectionAsClient key conn (answering fd).endpoint).1 =
      .success := by
    simp only [EndpointMaps.initiateConnectionAsClient, hk, answering]
  simp only [Links.connectTo, connectCtrl_eq, dialed_answering hlink, hctrl, hdata, if_true, ne_eq,
    not_true, if_false]
  split_ifs <;> rfl

/-- `connectTo` fails over `P2P`. -/
theorem connectTo_p2p {st : Links φ} {peerId : ℕ} {key : PeerKey} {link : CtrlLink}
    {env : ConnectEnv φ} : (st.connectTo peerId key link .p2p env).1 ≠ .success := by
  have hcheck : st.maps.checkConn key .p2p ≠ .success := by
    simp [EndpointMaps.checkConn, entryKey]
  have hdata : (st.maps.initiateConnectionAsClient key .p2p env.endpoint).1 = .invalidConfig := rfl
  simp only [Links.connectTo, if_neg hcheck]
  split_ifs with hctrl hfail
  · exact hctrl
  · rw [hdata]
    nofun
  · rw [hdata] at hfail
    exact absurd nofun hfail

/-- **Which pairs `"auto"` can connect**: all but two Cambricon members on one node. Memory types,
ports and the link are valid, and the peer may answer (`answering`), so that it is the chosen
transport alone that decides. -/
theorem connects_iff [Inhabited φ] {g : Group} {m : GroupMember} {r : ℤ} {x y : MemoryType}
    {st : Links φ} {link : CtrlLink} (hpeer : g.peer r = some m)
    (hx : memoryType g.me.memType = some x) (hy : memoryType m.memType = some y)
    (hports : ∀ conn, (requirePort (m.portFor conn)).isSome) (hlink : Usable link) :
    (∃ conn env, connForPair g g.rank r .auto = some conn ∧
      (connectPeer g r conn link st env).isSome) ↔
      ¬ (g.me.ip = m.ip ∧ x = .cambriconMlu ∧ y = .cambriconMlu) := by
  have hconn : connForPair g g.rank r .auto = some (pickConn x y (g.me.ip = m.ip)) := by
    have hme : g.peer g.rank = some g.me := Group.peer_natCast g.rank_lt
    simp [connForPair, hme, hpeer, hx, hy]
  have hp2p : pickConn x y (g.me.ip = m.ip) = .p2p ↔
      g.me.ip = m.ip ∧ x = .cambriconMlu ∧ y = .cambriconMlu := by
    rw [pickConn_eq_p2p_iff, decide_eq_true_eq]
  rw [← hp2p]
  constructor
  · rintro ⟨conn, env, hpick, hsome⟩ hauto
    obtain rfl := Option.some.inj (hconn.symm.trans hpick)
    rw [hauto] at hsome
    obtain ⟨port, hport⟩ := Option.isSome_iff_exists.mp (hports .p2p)
    have hcheck : st.maps.checkConn ⟨normalizeIp m.ip, port⟩ .p2p ≠ .success := by
      simp [EndpointMaps.checkConn, entryKey]
    simp only [connectPeer, hpeer, hport, Option.bind_some, if_neg hcheck, if_neg connectTo_p2p]
      at hsome
    cases hsome
  · intro hauto
    refine ⟨_, answering default, hconn, ?_⟩
    obtain ⟨port, hport⟩ := Option.isSome_iff_exists.mp (hports (pickConn x y (g.me.ip = m.ip)))
    simp only [connectPeer, hpeer, hport, Option.bind_some,
      if_pos (connectTo_answering hlink hauto default)]
    split_ifs <;> rfl

def sampleLink : CtrlLink := ⟨.tcp, "10.0.0.1", 5555, ""⟩

def unlinked : Links ℕ := ⟨.empty, .empty⟩

/-- Two Cambricon members on one node, and on two. -/
theorem connects_iff_cambricon :
    (¬ ∃ conn env, connForPair (sampleGroup 4 "10.0.0.1" 0 (by decide)) 0 1 .auto = some conn ∧
      (connectPeer (sampleGroup 4 "10.0.0.1" 0 (by decide)) 1 conn sampleLink unlinked
        env).isSome) ∧
      ∃ conn env, connForPair (sampleGroup 4 "10.0.0.2" 0 (by decide)) 0 1 .auto = some conn ∧
        (connectPeer (sampleGroup 4 "10.0.0.2" 0 (by decide)) 1 conn sampleLink unlinked
          env).isSome := by
  have hports : ∀ ip conn, (requirePort ((sampleMember 1 4 ip).portFor conn)).isSome := by
    intro ip conn
    cases conn <;> rfl
  have hlink : Usable sampleLink := ⟨by decide, by decide⟩
  constructor
  · intro h
    exact (connects_iff rfl rfl rfl (hports "10.0.0.1") hlink).mp h ⟨rfl, rfl, rfl⟩
  · exact (connects_iff rfl rfl rfl (hports "10.0.0.2") hlink).mpr fun h => absurd h.1 (by decide)

end HMC.Collective.Init
