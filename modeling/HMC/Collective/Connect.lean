import Mathlib.Data.List.Basic
import HMC.Core.Basic
import HMC.Machine.Run

/-!
# The connection rounds

Before its puts, `_direct_alltoall_core` goes through `w - 1` rounds. In round `s` rank `r` calls
`connectTo` towards rank `(r + s) % w` if that one is larger, and then all ranks meet at a
barrier. `connectTo` does nothing if the endpoint map has the peer already; otherwise it opens
the control link, exchanges two messages with the server thread of the peer, and inserts its
endpoint into its own map. The two messages are the connection request and the metadata of
RDMA, and the memory headers and remote keys of UCX.

The server thread of the peer has answered both messages when the client returns, but it has
still to check the client's data and to insert its own endpoint (`returns_before_insertion`).
`established_of_reach` says that all ranks can reach each other after the rounds in runs in
which a client returns after the server thread has come to the end of its work.

A pair is connected by the smaller of its ranks, in the round that is the difference, so each pair
has one connection in a call. The entries of the two maps for a pair are then changed by this
connection alone: before it they are as at the start, and when it has returned both are there
(`ConnectInv`). What was there at the start may be on one side only, and a server thread takes an
old entry out before it inserts the new one.
-/

namespace HMC.Collective

open HMC.Machine

/-! ### The parties -/

/-- How far a rank is with its connection to a peer: not begun, one or two messages sent, about
to insert its endpoint, or done. -/
inductive ClientPc
  | idle
  | first
  | second
  | insert
  | done
  deriving DecidableEq

/-- How far the server thread of the peer is with it: not begun, one or two messages answered,
about to remove an old endpoint and to insert the new one, done, or given up. -/
inductive AcceptPc
  | idle
  | first
  | second
  | replace
  | insert
  | added
  | dropped (answered : ℕ)
  deriving DecidableEq

/-- The messages a client has sent. -/
def ClientPc.sent : ClientPc → ℕ
  | .idle => 0
  | .first => 1
  | .second | .insert | .done => 2

/-- The messages a server thread has answered. -/
def AcceptPc.answered : AcceptPc → ℕ
  | .idle => 0
  | .first => 1
  | .second | .replace | .insert | .added => 2
  | .dropped n => n

/-- Where a rank is: in round `s`, at the barrier that ends it, or at its puts; a `connectTo` that
fails in round `s` ends the call. -/
inductive RankPc
  | round (s : ℕ)
  | barrier (s : ℕ)
  | puts
  | failed (s : ℕ)
  deriving DecidableEq

/-- How many barriers a rank has entered. -/
def RankPc.entered (w : ℕ) : RankPc → ℕ
  | .round s | .failed s => s - 1
  | .barrier s => s
  | .puts => w - 1

/-- How many barriers a rank has left. -/
def RankPc.left (w : ℕ) : RankPc → ℕ
  | .round s | .failed s | .barrier s => s - 1
  | .puts => w - 1

/-- A group of ranks. `map r q` says that the endpoint map of rank `r` has an entry under the
address and listening port of rank `q`, `accept r q` how far the server thread of `q` is with
the connection of `r`, and `busy q` whose connection it handles. `returned r q` records that
`connectTo` towards `q` has returned `SUCCESS` at `r`. -/
structure Group where
  map : ℕ → ℕ → Bool
  pc : ℕ → RankPc
  client : ℕ → ℕ → ClientPc
  accept : ℕ → ℕ → AcceptPc
  busy : ℕ → Option ℕ
  returned : ℕ → ℕ → Bool

/-- Rank `r` moves, or the server thread of rank `q` with the connection of `r`; `ok` is the
outcome of the calls it makes. -/
inductive ConnectAct
  | rank (r : ℕ) (ok : Bool)
  | server (q r : ℕ) (ok : Bool)
  deriving DecidableEq

/-- The size of the group and the transport its ranks use. -/
structure Rounds where
  world : ℕ
  conn : ConnType

namespace Group

variable (st : Group)

/-- `checkConn` of rank `r` for rank `q`, which `put` returns when it fails. -/
def checkConn (r q : ℕ) : Status := if st.map r q then .success else .notFound

/-- `connectTo` returns `SUCCESS`, and the rank enters the barrier of its round. -/
def returnTo (r q s : ℕ) : Group :=
  { st with
    returned := set₂ st.returned r q true
    pc := Function.update st.pc r (.barrier s) }

/-- `connectTo` fails. -/
def fail (r s : ℕ) : Group := { st with pc := Function.update st.pc r (.failed s) }

/-- The client side of a connection goes on. -/
def clientAt (r q : ℕ) (pc : ClientPc) : Group := { st with client := set₂ st.client r q pc }

/-- The server thread of `q` goes on with the connection of `r`, or is done with it. -/
def serverAt (q r : ℕ) (pc : AcceptPc) (busy : Option ℕ) : Group :=
  { st with accept := set₂ st.accept r q pc, busy := Function.update st.busy q busy }

/-- Rank `r` inserts or removes its endpoint of rank `q`. -/
def setMap (r q : ℕ) (v : Bool) : Group := { st with map := set₂ st.map r q v }

end Group

namespace Rounds

variable (c : Rounds)

/-- The endpoint maps `map`, and no connection under way. -/
def start (map : ℕ → ℕ → Bool) : Group where
  map := map
  pc := fun _ => if c.world ≤ 1 then .puts else .round 1
  client := fun _ _ => .idle
  accept := fun _ _ => .idle
  busy := fun _ => none
  returned := fun _ _ => false

/-- The rank that rank `r` may have to connect to in round `s`. -/
def peer (r s : ℕ) : ℕ := (r + s) % c.world

/-- What follows barrier `s`. -/
def afterBarrier (s : ℕ) : RankPc := if s + 1 < c.world then .round (s + 1) else .puts

/-- A step of the call of `connectTo` at rank `r` towards `q` in round `s`. -/
def connectTo (st : Group) (r q s : ℕ) (ok : Bool) : Option Group :=
  match st.client r q with
  | .idle =>
    if st.map r q then some (st.returnTo r q s)
    else if ok then some (st.clientAt r q .first) else some (st.fail r s)
  | .first =>
    if ok = false then some (st.fail r s)
    else if 1 ≤ (st.accept r q).answered then some (st.clientAt r q .second) else none
  | .second =>
    if ok = false then some (st.fail r s)
    else if 2 ≤ (st.accept r q).answered then some (st.clientAt r q .insert) else none
  | .insert => some (((st.setMap r q true).clientAt r q .done).returnTo r q s)
  | .done => none

/-- A step of the server thread of `q` with the connection of `r`. -/
def serve (st : Group) (q r : ℕ) (ok : Bool) : Option Group :=
  match st.accept r q with
  | .idle =>
    if st.busy q = none ∧ 1 ≤ (st.client r q).sent then
      some (if ok then st.serverAt q r .first (some r) else st.serverAt q r (.dropped 0) none)
    else none
  | .first =>
    if ok = false then some (st.serverAt q r (.dropped 1) none)
    else if 2 ≤ (st.client r q).sent then some (st.serverAt q r .second (some r)) else none
  | .second =>
    -- the client's data are checked after the last answer
    if ok = false then some (st.serverAt q r (.dropped 2) none)
    else some (st.serverAt q r (if c.conn = .rdma then .replace else .insert) (some r))
  | .replace => some ((st.setMap q r false).serverAt q r .insert (some r))
  | .insert => some ((st.setMap q r true).serverAt q r .added none)
  | .added => none
  | .dropped _ => none

/-- One step. -/
def step (st : Group) : ConnectAct → Option Group
  | .rank r ok =>
    if r < c.world then
      match st.pc r with
      | .round s =>
        if r < c.peer r s then connectTo st r (c.peer r s) s ok
        else some { st with pc := Function.update st.pc r (.barrier s) }
      | .barrier s =>
        if ∀ q < c.world, s ≤ (st.pc q).entered c.world then
          some { st with pc := Function.update st.pc r (c.afterBarrier s) }
        else none
      | .puts => none
      | .failed _ => none
    else none
  | .server q r ok => if r < c.world ∧ q < c.world then c.serve st q r ok else none

/-- Whenever `connectTo` has returned `SUCCESS`, the peer has an endpoint for the caller; and after
the last barrier no put finds its peer missing. -/
def Established (st : Group) : Prop :=
  (∀ r q, st.returned r q = true → st.checkConn q r = .success) ∧
    ∀ r < c.world, st.pc r = .puts → ∀ q < c.world, q ≠ r → st.checkConn r q = .success

/-- A client that is about to insert its endpoint and to return finds the server thread of its peer
done. -/
def Awaited (st : Group) : ConnectAct → Prop
  | .rank r _ => ∀ q < c.world, st.client r q = .insert → st.accept r q = .added
  | .server _ _ _ => True

/-! ### The schedule -/

variable {c} {st st' : Group} {r q s : ℕ}

/-- Rank `r` connects in round `s` to rank `r + s`, if there is one. -/
theorem lt_peer_iff (hr : r < c.world) (hs : 0 < s) (hsw : s < c.world) :
    r < c.peer r s ↔ r + s < c.world := by
  unfold peer
  by_cases hlt : r + s < c.world
  · rw [Nat.mod_eq_of_lt hlt]
    omega
  · rw [Nat.mod_eq_sub_mod (Nat.not_lt.mp hlt), Nat.mod_eq_of_lt (by omega)]
    omega

theorem peer_eq (h : r + s < c.world) : c.peer r s = r + s := Nat.mod_eq_of_lt h

end Rounds

/-- The rounds and barriers there are. -/
def RankPc.Valid (w : ℕ) : RankPc → Prop
  | .round s | .barrier s | .failed s => 0 < s ∧ s < w
  | .puts => True

theorem RankPc.left_le_entered (w : ℕ) (pc : RankPc) : pc.left w ≤ pc.entered w := by
  cases pc <;> simp [RankPc.left, RankPc.entered]

/-! ### The invariant -/

/-- Where the ranks are, and what their connections have done to the endpoint maps: a pair with no
connection is as at the start, and a returned `connectTo` has left both ends. -/
structure ConnectInv (c : Rounds) (map₀ : ℕ → ℕ → Bool) (st : Group) : Prop where
  upper : ∀ {r q}, st.client r q ≠ .idle → r < q
  fresh : ∀ {r q}, st.client r q = .idle → st.accept r q = .idle
  kept : ∀ {r q}, r < q → st.client r q = .idle →
    st.map r q = map₀ r q ∧ st.map q r = map₀ q r
  added : ∀ {r q}, st.accept r q = .added → st.map q r = true
  returned : ∀ {r q}, st.returned r q = true → r < q ∧
    (st.client r q = .idle ∨ st.client r q = .done ∧ st.accept r q = .added) ∧
      st.map r q = true ∧ st.map q r = true
  passed : ∀ {r q}, r < c.world → st.returned r q = true → q ≤ r + (st.pc r).entered c.world
  reached : ∀ {r s}, r < c.world → 0 < s → s ≤ (st.pc r).entered c.world → r + s < c.world →
    st.returned r (r + s) = true
  left_le : ∀ {r q}, r < c.world → q < c.world →
    (st.pc r).left c.world ≤ (st.pc q).entered c.world
  valid : ∀ {r}, r < c.world → (st.pc r).Valid c.world

namespace ConnectInv

variable {c : Rounds} {map₀ : ℕ → ℕ → Bool} {st st' : Group} {r q s : ℕ}

theorem start (c : Rounds) (map₀ : ℕ → ℕ → Bool) : ConnectInv c map₀ (c.start map₀) where
  upper h := absurd rfl h
  fresh _ := rfl
  kept _ _ := ⟨rfl, rfl⟩
  added h := by cases h
  returned h := by cases h
  passed _ h := by cases h
  reached {r s} _ hs hle hlt := by
    simp only [Rounds.start] at hle
    split_ifs at hle with hw <;> simp only [RankPc.entered] at hle <;> omega
  left_le _ _ := by
    simp only [Rounds.start]
    exact RankPc.left_le_entered _ _
  valid _ := by
    simp only [Rounds.start]
    split_ifs with hw
    · trivial
    · exact ⟨Nat.one_pos, by omega⟩

/-- What the invariant is for. -/
theorem established (h : ConnectInv c map₀ st) : c.Established st := by
  refine ⟨fun r q hret => if_pos (h.returned hret).2.2.2, fun r hr hpc q hq hne => if_pos ?_⟩
  obtain hlt | hlt := Nat.lt_or_gt_of_ne hne
  · -- the smaller rank has come through the round in which it connects to this one
    have hle := h.left_le hr hq
    rw [hpc, RankPc.left] at hle
    have hret := h.reached (s := r - q) hq (by omega) (by omega) (by omega)
    rw [Nat.add_sub_cancel' (Nat.le_of_lt hlt)] at hret
    exact (h.returned hret).2.2.2
  · have hent : (st.pc r).entered c.world = c.world - 1 := by rw [hpc, RankPc.entered]
    have hret := h.reached (s := q - r) hr (by omega) (by omega) (by omega)
    rw [Nat.add_sub_cancel' (Nat.le_of_lt hlt)] at hret
    exact (h.returned hret).2.2.1

/-- A rank has not come back from a connection of a later round. -/
theorem not_returned (h : ConnectInv c map₀ st) (hr : r < c.world) (hpc : st.pc r = .round s)
    (hq : q = r + s) (hs : 0 < s) : st.returned r q ≠ true := by
  intro hret
  have := h.passed hr hret
  rw [hpc, RankPc.entered] at this
  omega

/-! ### The moves of a rank -/

/-- A rank moves on, and may have come back from `connectTo`. -/
theorem goto (h : ConnectInv c map₀ st) {pc' : RankPc} {returned' : ℕ → ℕ → Bool}
    (hmono : ∀ {x y}, st.returned x y = true → returned' x y = true)
    (hnew : ∀ {x y}, returned' x y = true → st.returned x y = true ∨
      x = r ∧ r < y ∧ y ≤ r + pc'.entered c.world ∧
        (st.client r y = .idle ∨ st.client r y = .done ∧ st.accept r y = .added) ∧
          st.map r y = true ∧ st.map y r = true)
    (hvalid : r < c.world → pc'.Valid c.world)
    (hle : (st.pc r).entered c.world ≤ pc'.entered c.world)
    (hreach : ∀ {s}, (st.pc r).entered c.world < s → s ≤ pc'.entered c.world →
      r + s < c.world → returned' r (r + s) = true)
    (hleft : r < c.world → ∀ q < c.world, pc'.left c.world ≤ (st.pc q).entered c.world) :
    ConnectInv c map₀ { st with returned := returned', pc := Function.update st.pc r pc' } where
  upper := h.upper
  fresh := h.fresh
  kept := h.kept
  added := h.added
  returned {x y} hret := by
    obtain hret | ⟨rfl, hlt, -, hrest⟩ := hnew hret
    · exact h.returned hret
    · exact ⟨hlt, hrest⟩
  passed {x y} hx hret := by
    dsimp only
    by_cases hxr : x = r
    · subst hxr
      rw [Function.update_self]
      obtain hret | ⟨-, -, hy, -⟩ := hnew hret
      · exact Nat.le_trans (h.passed hx hret) (Nat.add_le_add_left hle _)
      · exact hy
    · rw [Function.update_of_ne hxr]
      obtain hret | ⟨rfl, -⟩ := hnew hret
      · exact h.passed hx hret
      · exact absurd rfl hxr
  reached {x s} hx hs hsle hlt := by
    dsimp only at hsle ⊢
    by_cases hxr : x = r
    · subst hxr
      rw [Function.update_self] at hsle
      obtain hold | hnew' := Nat.lt_or_ge ((st.pc x).entered c.world) s
      · exact hreach hold hsle hlt
      · exact hmono (h.reached hx hs hnew' hlt)
    · rw [Function.update_of_ne hxr] at hsle
      exact hmono (h.reached hx hs hsle hlt)
  left_le {x y} hx hy := by
    dsimp only
    by_cases hxr : x = r
    · subst hxr
      rw [Function.update_self]
      by_cases hyr : y = x
      · subst hyr
        rw [Function.update_self]
        exact RankPc.left_le_entered _ _
      · rw [Function.update_of_ne hyr]
        exact hleft hx y hy
    · rw [Function.update_of_ne hxr]
      by_cases hyr : y = r
      · subst hyr
        rw [Function.update_self]
        exact Nat.le_trans (h.left_le hx hy) hle
      · rw [Function.update_of_ne hyr]
        exact h.left_le hx hy
  valid {x} hx := by
    dsimp only
    by_cases hxr : x = r
    · subst hxr
      rw [Function.update_self]
      exact hvalid hx
    · rw [Function.update_of_ne hxr]
      exact h.valid hx

/-! ### The moves of a connection -/

/-- The client side goes on. -/
theorem clientAt (h : ConnectInv c map₀ st) (hlt : r < q) (hnot : st.returned r q ≠ true)
    {pc' : ClientPc} (hpc : pc' ≠ .idle) : ConnectInv c map₀ (st.clientAt r q pc') where
  upper {x y} hx := by
    simp only [Group.clientAt, set₂_apply] at hx
    split_ifs at hx with hxy
    · rwa [hxy.1, hxy.2]
    · exact h.upper hx
  fresh {x y} hx := by
    simp only [Group.clientAt, set₂_apply] at hx
    split_ifs at hx with hxy
    · exact absurd hx hpc
    · exact h.fresh hx
  kept {x y} hxy hx := by
    simp only [Group.clientAt, set₂_apply] at hx
    split_ifs at hx with heq
    · exact absurd hx hpc
    · exact h.kept hxy hx
  added := h.added
  returned {x y} hret := by
    have hne : ¬ (x = r ∧ y = q) := by
      rintro ⟨rfl, rfl⟩
      exact hnot hret
    simp only [Group.clientAt, set₂_apply, if_neg hne]
    exact h.returned hret
  passed := h.passed
  reached := h.reached
  left_le := h.left_le
  valid := h.valid

/-- The client inserts its endpoint. -/
theorem insert (h : ConnectInv c map₀ st) (hpc : st.client r q = .insert) :
    ConnectInv c map₀ ((st.setMap r q true).clientAt r q .done) := by
  have hlt := h.upper (show st.client r q ≠ .idle by rw [hpc]; decide)
  have hnot : st.returned r q ≠ true := by
    intro hret
    obtain hc | hc := (h.returned hret).2.1
    · exact absurd (hpc.symm.trans hc) (by decide)
    · exact absurd (hpc.symm.trans hc.1) (by decide)
  -- the entry is set, and no other changes
  have hmap : ∀ {x y}, st.map x y = true → (st.setMap r q true).map x y = true := by
    intro x y hx
    simp only [Group.setMap, set₂_apply]
    split_ifs
    · rfl
    · exact hx
  have h' : ConnectInv c map₀ (st.clientAt r q .done) := h.clientAt hlt hnot (by decide)
  refine
    { h' with
      kept := fun {x y} hxy hx => ?_
      added := fun ha => hmap (h'.added ha)
      returned := fun hret => ?_ }
  · have hne : ¬ (x = r ∧ y = q) := by
      rintro ⟨rfl, rfl⟩
      simp [Group.clientAt] at hx
    have hne' : ¬ (y = r ∧ x = q) := by
      rintro ⟨rfl, rfl⟩
      omega
    simp only [Group.clientAt, Group.setMap, set₂_apply, if_neg hne, if_neg hne']
    exact h'.kept hxy hx
  · obtain ⟨hxy, hc, h₁, h₂⟩ := h'.returned hret
    exact ⟨hxy, hc, hmap h₁, hmap h₂⟩

/-- The server thread goes on, and may change its entry for the client. -/
theorem serverAt (h : ConnectInv c map₀ st) (hc : st.client r q ≠ .idle)
    (ha : st.accept r q ≠ .added) {v : Bool} {pc' : AcceptPc} {busy : Option ℕ}
    (hv : pc' = .added → v = true) :
    ConnectInv c map₀ ((st.setMap q r v).serverAt q r pc' busy) := by
  have hlt := h.upper hc
  -- the reverse entry belongs to a pair in which the larger rank connects
  have hmap : ∀ {x y}, x < y → (st.setMap q r v).map x y = st.map x y := by
    intro x y hxy
    refine set₂_of_ne v fun hx hy => ?_
    omega
  have hback : ∀ {x y}, ¬ (x = r ∧ y = q) → (st.setMap q r v).map y x = st.map y x := by
    intro x y hne
    exact set₂_of_ne v fun hy hx => hne ⟨hx, hy⟩
  refine
    { h with
      fresh := fun {x y} hx => ?_
      kept := fun {x y} hxy hx => ?_
      added := fun {x y} hx => ?_
      returned := fun {x y} hret => ?_ }
  · have hne : ¬ (x = r ∧ y = q) := by
      rintro ⟨rfl, rfl⟩
      exact hc hx
    simp only [Group.serverAt, set₂_apply, if_neg hne]
    exact h.fresh hx
  · have hne : ¬ (x = r ∧ y = q) := by
      rintro ⟨rfl, rfl⟩
      exact hc hx
    simp only [Group.serverAt]
    rw [hmap hxy, hback hne]
    exact h.kept hxy hx
  · simp only [Group.serverAt, set₂_apply] at hx
    split_ifs at hx with hxy
    · rw [hxy.1, hxy.2]
      simp only [Group.serverAt, Group.setMap, set₂_self]
      exact hv hx
    · simp only [Group.serverAt]
      rw [hback hxy]
      exact h.added hx
  · obtain ⟨hxy, hcl, h₁, h₂⟩ := h.returned hret
    have hne : ¬ (x = r ∧ y = q) := by
      rintro ⟨rfl, rfl⟩
      exact hcl.elim hc fun hd => ha hd.2
    simp only [Group.serverAt, set₂_apply, if_neg hne]
    rw [hmap hxy, hback hne]
    exact ⟨hxy, hcl, h₁, h₂⟩

/-! ### Steps -/

theorem returnTo (h : ConnectInv c map₀ st) (hr : r < c.world) (hpc : st.pc r = .round s)
    (hq : r + s < c.world) (hsr : 0 < s)
    (hc : st.client r (r + s) = .idle ∨
      st.client r (r + s) = .done ∧ st.accept r (r + s) = .added)
    (hmap : st.map r (r + s) = true) (hback : st.map (r + s) r = true) :
    ConnectInv c map₀ (st.returnTo r (r + s) s) := by
  have hv := h.valid hr
  rw [hpc] at hv
  refine h.goto (fun {x y} hret => ?_) (fun {x y} hret => ?_) (fun _ => hv) ?_
    (fun {s'} hlt hle _ => ?_) fun _ q hq => ?_
  · rw [set₂_apply]
    split_ifs
    · rfl
    · exact hret
  · rw [set₂_apply] at hret
    split_ifs at hret with hxy
    · obtain ⟨rfl, rfl⟩ := hxy
      exact .inr ⟨rfl, by omega, Nat.le_refl _, hc, hmap, hback⟩
    · exact .inl hret
  · rw [hpc, RankPc.entered, RankPc.entered]
    omega
  · rw [hpc, RankPc.entered] at hlt
    rw [RankPc.entered] at hle
    obtain rfl : s' = s := by omega
    exact set₂_self _ _ _ _
  · have := h.left_le hr hq
    rwa [hpc] at this

/-- A rank moves within its call, without coming back from `connectTo`. -/
theorem moveTo (h : ConnectInv c map₀ st) {pc' : RankPc}
    (hvalid : r < c.world → pc'.Valid c.world)
    (hle : (st.pc r).entered c.world ≤ pc'.entered c.world)
    (hreach : ∀ {s}, (st.pc r).entered c.world < s → s ≤ pc'.entered c.world →
      ¬ r + s < c.world)
    (hleft : r < c.world → ∀ q < c.world, pc'.left c.world ≤ (st.pc q).entered c.world) :
    ConnectInv c map₀ { st with pc := Function.update st.pc r pc' } :=
  h.goto (fun hret => hret) (fun hret => .inl hret) hvalid hle
    (fun hlt hle hw => absurd hw (hreach hlt hle)) hleft

/-- `connectTo` fails. -/
theorem fail (h : ConnectInv c map₀ st) (hr : r < c.world) (hpc : st.pc r = .round s) :
    ConnectInv c map₀ (st.fail r s) := by
  have hv := h.valid hr
  rw [hpc] at hv
  refine h.moveTo (fun _ => hv) ?_ (fun {s'} hlt hle => ?_) fun _ q hq => ?_
  · rw [hpc]
    exact Nat.le_refl _
  · rw [hpc, RankPc.entered] at hlt
    rw [RankPc.entered] at hle
    omega
  · have := h.left_le hr hq
    rwa [hpc] at this

/-- A step of `connectTo`. -/
theorem connectTo (h : ConnectInv c map₀ st)
    (hsym : ∀ r q, r < q → map₀ r q = true → map₀ q r = true) (hr : r < c.world)
    (hpc : st.pc r = .round s) (hq : r + s < c.world) {ok : Bool}
    (hok : c.Awaited st (.rank r ok)) (hs : Rounds.connectTo st r (r + s) s ok = some st') :
    ConnectInv c map₀ st' := by
  have hsr : 0 < s := by
    have := h.valid hr
    rw [hpc] at this
    exact this.1
  have hlt : r < r + s := by omega
  have hnot := h.not_returned hr hpc rfl hsr
  unfold Rounds.connectTo at hs
  cases hcl : st.client r (r + s) <;> simp only [hcl] at hs
  case idle =>
    split_ifs at hs with hmap hok' <;> cases hs
    · -- an old endpoint of the peer: the peer still has its own
      obtain ⟨h₁, h₂⟩ := h.kept hlt hcl
      refine h.returnTo hr hpc hq hsr (.inl hcl) hmap (h₂.trans (hsym r _ hlt ?_))
      rw [← h₁]
      exact hmap
    · exact h.clientAt hlt hnot (by decide)
    · exact h.fail hr hpc
  case first =>
    split_ifs at hs <;> cases hs
    · exact h.fail hr hpc
    · exact h.clientAt hlt hnot (by decide)
  case second =>
    split_ifs at hs <;> cases hs
    · exact h.fail hr hpc
    · exact h.clientAt hlt hnot (by decide)
  case insert =>
    cases hs
    have hadded : st.accept r (r + s) = .added := hok _ hq hcl
    have h' := h.insert hcl
    refine h'.returnTo hr hpc hq hsr (.inr ⟨set₂_self _ _ _ _, hadded⟩) (set₂_self _ _ _ _) ?_
    exact h'.added hadded
  case done => cases hs

/-- A step of a server thread. -/
theorem serve (h : ConnectInv c map₀ st) {ok : Bool} (hs : c.serve st q r ok = some st') :
    ConnectInv c map₀ st' := by
  have hself : st.setMap q r (st.map q r) = st := by
    rw [Group.setMap, set₂_eq_self]
  have hbegun : st.accept r q ≠ .idle → st.client r q ≠ .idle := mt h.fresh
  -- a step that leaves the map alone
  have hstay : st.client r q ≠ .idle → st.accept r q ≠ .added → ∀ pc' busy, pc' ≠ .added →
      ConnectInv c map₀ (st.serverAt q r pc' busy) := fun hc ha pc' busy hne => by
    have hat : ConnectInv c map₀ ((st.setMap q r (st.map q r)).serverAt q r pc' busy) :=
      h.serverAt hc ha fun heq => absurd heq hne
    rwa [hself] at hat
  unfold Rounds.serve at hs
  cases ha : st.accept r q <;> simp only [ha] at hs hbegun
  case idle =>
    split_ifs at hs with hg hok <;> cases hs
    all_goals
      have hc : st.client r q ≠ .idle := fun hc => by
        rw [hc] at hg
        exact absurd hg.2 (by decide)
      exact hstay hc (by simp [ha]) _ _ (by simp)
  case first =>
    have hc := hbegun (by decide)
    split_ifs at hs <;> cases hs
    · exact hstay hc (by simp [ha]) _ _ (by simp)
    · exact hstay hc (by simp [ha]) _ _ (by simp)
  case second =>
    have hc := hbegun (by decide)
    split_ifs at hs <;> cases hs
    · exact hstay hc (by simp [ha]) _ _ (by simp)
    · exact hstay hc (by simp [ha]) _ _ (by simp)
    · exact hstay hc (by simp [ha]) _ _ (by simp)
  case replace =>
    cases hs
    exact h.serverAt (hbegun (by decide)) (by simp [ha]) (by simp)
  case insert =>
    cases hs
    exact h.serverAt (hbegun (by decide)) (by simp [ha]) (by simp)
  case added => cases hs
  case dropped => cases hs

/-- **One step** keeps the invariant. -/
theorem step (h : ConnectInv c map₀ st)
    (hsym : ∀ r q, r < q → map₀ r q = true → map₀ q r = true) {a : ConnectAct}
    (hok : c.Awaited st a) (hs : c.step st a = some st') : ConnectInv c map₀ st' := by
  obtain ⟨r, ok⟩ | ⟨q, r, ok⟩ := a
  · simp only [Rounds.step] at hs
    split_ifs at hs with hr
    have hv := h.valid hr
    cases hpc : st.pc r <;> simp only [hpc] at hs
    case round s =>
      rw [hpc] at hv
      split_ifs at hs with hlt
      · rw [Rounds.lt_peer_iff hr hv.1 hv.2] at hlt
        rw [Rounds.peer_eq hlt] at hs
        exact h.connectTo hsym hr hpc hlt hok hs
      · cases hs
        rw [Rounds.lt_peer_iff hr hv.1 hv.2] at hlt
        refine h.moveTo (fun _ => hv) ?_ (fun {s'} hs' hle => ?_) fun _ q hq => ?_
        · rw [hpc, RankPc.entered, RankPc.entered]
          omega
        · rw [hpc, RankPc.entered] at hs'
          rw [RankPc.entered] at hle
          omega
        · have := h.left_le hr hq
          rwa [hpc] at this
    case barrier s =>
      rw [hpc] at hv
      obtain ⟨-, hsw⟩ := hv
      split_ifs at hs with hall
      cases hs
      obtain ⟨hvalid, he, hl⟩ : (c.afterBarrier s).Valid c.world ∧
          (c.afterBarrier s).entered c.world = s ∧ (c.afterBarrier s).left c.world = s := by
        unfold Rounds.afterBarrier
        split_ifs with hlast
        · exact ⟨⟨Nat.succ_pos _, hlast⟩, rfl, rfl⟩
        · refine ⟨trivial, ?_, ?_⟩ <;> simp only [RankPc.entered, RankPc.left] <;> omega
      refine h.moveTo (fun _ => hvalid) ?_ (fun {s'} hs' hle => ?_) fun _ q hq => ?_
      · rw [hpc, he, RankPc.entered]
      · rw [hpc, RankPc.entered] at hs'
        omega
      · rw [hl]
        exact hall q hq
    case puts => cases hs
    case failed => cases hs
  · simp only [Rounds.step] at hs
    split_ifs at hs
    exact h.serve hs

end ConnectInv

namespace Rounds

/-- **Both directions.** If every client returns after the server thread of its peer has come to the
end of its work, a returned `connectTo` has left an endpoint at the peer, and after the rounds every
rank reaches every other. The endpoints that are there at the start may be those of earlier calls.
At the puts a rank has left all barriers, so the others have entered them and have returned from all
their rounds. -/
theorem established_of_reach (c : Rounds) {map₀ : ℕ → ℕ → Bool}
    (hsym : ∀ r q, r < q → map₀ r q = true → map₀ q r = true) {st : Group}
    (hr : Reach c.step c.Awaited (c.start map₀) st) : c.Established st :=
  (hr.invariant (I := ConnectInv c map₀) (.start c map₀)
    fun _ _ _ _ h hok hs => h.step hsym hok hs).established

instance (c : Rounds) (st : Group) (a : ConnectAct) : Decidable (c.Awaited st a) := by
  cases a <;> unfold Awaited <;> infer_instance

/-- Two ranks without endpoints. -/
def pair (conn : ConnType) : Rounds where
  world := 2
  conn := conn

/-- Rank 0 connects, waits for the server thread of rank 1, and both ranks come to their puts. -/
theorem established_pair :
    ∃ st, Reach (pair .rdma).step (pair .rdma).Awaited ((pair .rdma).start fun _ _ => false) st ∧
      st.pc 0 = .puts ∧ st.pc 1 = .puts ∧ (pair .rdma).Established st := by
  obtain ⟨st, hr, h₀, h₁⟩ : ∃ st, Reach (pair .rdma).step (pair .rdma).Awaited
      ((pair .rdma).start fun _ _ => false) st ∧ st.pc 0 = .puts ∧ st.pc 1 = .puts :=
    exists_reach_of_execOk [.rank 0 true, .server 1 0 true, .rank 0 true, .server 1 0 true,
      .rank 0 true, .server 1 0 true, .server 1 0 true, .server 1 0 true, .rank 0 true,
      .rank 1 true, .rank 0 true, .rank 1 true] (by decide +kernel)
  exact ⟨st, hr, h₀, h₁, established_of_reach _ (fun _ _ _ h => by cases h) hr⟩

/-- **The client is early.** Over RDMA and over UCX, rank 0 returns from `connectTo` when the server
thread of rank 1 has sent its last answer; both ranks pass the barrier, and rank 1 has no endpoint
for its put. -/
theorem returns_before_insertion :
    [ConnType.rdma, .ucx].Forall fun conn =>
      ∃ st, Reach (pair conn).step Free ((pair conn).start fun _ _ => false) st ∧
        st.returned 0 1 = true ∧ st.pc 1 = .puts ∧ st.checkConn 1 0 = .notFound ∧
          ¬ (pair conn).Established st := by
  refine List.forall_iff_forall_mem.mpr fun conn hconn => ?_
  obtain ⟨st, hr, hret, hpc, hcheck⟩ :
      ∃ st, Reach (pair conn).step Free ((pair conn).start fun _ _ => false) st ∧
        st.returned 0 1 = true ∧ st.pc 1 = .puts ∧ st.checkConn 1 0 = .notFound := by
    simp only [List.mem_cons, List.not_mem_nil, or_false] at hconn
    obtain rfl | rfl := hconn
    all_goals
      exact exists_reach_of_exec [.rank 0 true, .server 1 0 true, .rank 0 true, .server 1 0 true,
        .rank 0 true, .rank 0 true, .rank 1 true, .rank 0 true, .rank 1 true] (by decide +kernel)
  refine ⟨st, hr, hret, hpc, hcheck, fun h => ?_⟩
  have := h.1 0 1 hret
  rw [hcheck] at this
  cases this

end Rounds

end HMC.Collective
