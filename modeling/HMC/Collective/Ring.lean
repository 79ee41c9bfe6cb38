import Mathlib.Algebra.Order.BigOperators.Group.Finset
import Mathlib.Data.Finset.Max
import HMC.Core.Basic
import HMC.Machine.Run

/-!
# The ring alltoall

`_ring_alltoall_core` on `w` ranks. After a barrier, rank `r` takes `w - 1` steps; in step
`s` it gets a block from its left neighbour, puts a block to its right neighbour, and
exchanges the tag `s` with both. The ranks are interleaved freely by `Ring.step`: one action
lets one rank make its next call.

A put or get moves its range at once, as the transports' synchronous calls do, and control
tags travel along the ring in order.

The block that step `s` fetches is block `r + s` of the *left neighbour's* send region, where
the transpose wants block `r` of rank `r + s`. For two ranks or more, block `r - 1` of rank
`r` is written by nothing but the last get, which delivers the left neighbour's own block
(`RingState.Stale`). `transposes_iff` says when the call is a block transpose: when there is
one rank, or nothing to move.

A statement about completed calls would be empty if none could be completed. The tags on the way to
a rank are those that its left neighbour has sent and it has not received (`RingInv`), so no rank
finds a tag that it does not expect; a rank that waits does so for one that has received fewer, so
somebody can always move (`RingInv.enabled`), and each move brings its rank nearer to the end.
-/

namespace HMC.Collective

open HMC.Machine

/-- A call of `_ring_alltoall_core`, with the arguments that all ranks share. -/
structure Ring where
  world : ℕ
  sendBase : ℕ
  recvBase : ℕ
  bytesPerPeer : ℕ
  chunkBytes : ℤ
  doSelfCopy : Bool

/-- Where a rank stands: in `_connect_peer`, in `dist.barrier`, or before the call it makes
next. `raised` is the step tag mismatch, or a size that is no `size_t`. -/
inductive RingPc
  | connect
  | barrier
  | selfCopy
  | get (s moved : ℕ)
  | put (s moved : ℕ)
  | ctrlSend (s : ℕ)
  | ctrlRecv (s : ℕ)
  | done
  | raised
  deriving DecidableEq

/-- The `ConnBuffer` and the location of every rank, and the tags on the way from every rank
to its right neighbour. -/
structure RingState where
  mem : ℕ → Bytes
  pc : ℕ → RingPc
  link : ℕ → List ℕ

/-- Continue rank `r` at `pc`. -/
def RingState.goto (st : RingState) (r : ℕ) (pc : RingPc) : RingState :=
  { st with pc := Function.update st.pc r pc }

/-- Write `n` bytes at `off` of the `ConnBuffer` of rank `r`. -/
def RingState.write (st : RingState) (r off : ℕ) (src : Bytes) (n : ℕ) : RingState :=
  { st with mem := Function.update st.mem r (blit (st.mem r) off src n) }

/-- Replace the tags on the way from rank `r`. -/
def RingState.setLink (st : RingState) (r : ℕ) (tags : List ℕ) : RingState :=
  { st with link := Function.update st.link r tags }

namespace RingState

variable {st : RingState} {r q : ℕ}

@[simp] theorem goto_mem {pc : RingPc} : (st.goto r pc).mem = st.mem := rfl

@[simp] theorem goto_link {pc : RingPc} : (st.goto r pc).link = st.link := rfl

@[simp] theorem goto_pc {pc : RingPc} : (st.goto r pc).pc = Function.update st.pc r pc := rfl

@[simp] theorem setLink_mem {tags : List ℕ} : (st.setLink r tags).mem = st.mem := rfl

@[simp] theorem setLink_pc {tags : List ℕ} : (st.setLink r tags).pc = st.pc := rfl

@[simp] theorem setLink_link {tags : List ℕ} :
    (st.setLink r tags).link = Function.update st.link r tags := rfl

@[simp] theorem write_pc {off n : ℕ} {src : Bytes} : (st.write r off src n).pc = st.pc := rfl

@[simp] theorem write_link {off n : ℕ} {src : Bytes} :
    (st.write r off src n).link = st.link := rfl

/-- A write leaves every address outside its range alone. -/
theorem write_mem_of_not_mem {off n a : ℕ} {src : Bytes} (h : q = r → a < off ∨ off + n ≤ a) :
    (st.write r off src n).mem q a = st.mem q a :=
  update_blit_of_not_mem h

/-- The first byte of a written range. -/
theorem write_mem_first {off n : ℕ} {src : Bytes} (hn : 0 < n) :
    (st.write r off src n).mem r off = src 0 := by
  simp only [write, Function.update_self]
  exact blit_apply_add hn

end RingState

namespace Ring

variable (c : Ring)

/-- `Group.right`. -/
def right (r : ℕ) : ℕ := (r + 1) % c.world

/-- `Group.left`. -/
def left (r : ℕ) : ℕ := (r + c.world - 1) % c.world

def sendPeer (r s : ℕ) : ℕ := (r + c.world - s) % c.world

def recvPeer (r s : ℕ) : ℕ := (r + s) % c.world

/-- `n` of the current chunk. -/
def chunkAt (moved : ℕ) : ℕ := (min c.chunkBytes (c.bytesPerPeer - moved)).toNat

/-- The head of the transfer loop of step `s`. -/
def moveHead (s moved : ℕ) : RingPc :=
  if moved < c.bytesPerPeer then .get s moved else .ctrlSend s

/-- The head of the loop over the steps. -/
def stepHead (s : ℕ) : RingPc := if s < c.world then c.moveHead s 0 else .done

/-- `_copy_self_if_needed`. -/
def copySelf (st : RingState) (r : ℕ) : RingState :=
  if c.doSelfCopy = false ∨ c.bytesPerPeer = 0 then st
  else st.write r (c.recvBase + r * c.bytesPerPeer)
    (fun k => st.mem r (c.sendBase + r * c.bytesPerPeer + k)) c.bytesPerPeer

/-- `get_remote` of the current chunk, from the left neighbour. -/
def getRemote (st : RingState) (r s moved : ℕ) : RingState :=
  st.write r (c.recvBase + c.recvPeer r s * c.bytesPerPeer + moved)
    (fun k => st.mem (c.left r) (c.sendBase + c.recvPeer r s * c.bytesPerPeer + moved + k))
    (c.chunkAt moved)

/-- `put_remote` of the current chunk, to the right neighbour. -/
def putRemote (st : RingState) (r s moved : ℕ) : RingState :=
  st.write (c.right r) (c.recvBase + c.recvPeer r s * c.bytesPerPeer + moved)
    (fun k => st.mem r (c.sendBase + c.sendPeer r s * c.bytesPerPeer + moved + k))
    (c.chunkAt moved)

/-- Rank `r` makes its next call. A get of a negative size raises. -/
def step (st : RingState) (r : ℕ) : Option RingState :=
  if r < c.world then
    match st.pc r with
    | .connect => some (st.goto r .barrier)
    | .barrier =>
      if ∀ q < c.world, st.pc q ≠ .connect then some (st.goto r .selfCopy) else none
    | .selfCopy => some ((c.copySelf st r).goto r (c.stepHead 1))
    | .get s moved =>
      if c.chunkBytes < 0 then some (st.goto r .raised)
      else some ((c.getRemote st r s moved).goto r (.put s moved))
    | .put s moved =>
      some ((c.putRemote st r s moved).goto r (c.moveHead s (moved + c.chunkAt moved)))
    | .ctrlSend s => some ((st.setLink r (st.link r ++ [s])).goto r (.ctrlRecv s))
    | .ctrlRecv s =>
      match st.link (c.left r) with
      | [] => none
      | tag :: rest =>
        some ((st.setLink (c.left r) rest).goto r (if tag ≠ s then .raised else c.stepHead (s + 1)))
    | .done => none
    | .raised => none
  else none

/-- All ranks enter the call; `mem` is what their buffers hold. -/
def start (mem : ℕ → Bytes) : RingState where
  mem := mem
  pc := fun _ => if c.world ≤ 1 then .selfCopy else .connect
  link := fun _ => []

/-- The call has returned on every rank. -/
def Complete (st : RingState) : Prop := ∀ r < c.world, st.pc r = .done

/-- Receive block `j` of rank `i` is what send block `i` of rank `j` was. -/
def Transposed (mem₀ mem : ℕ → Bytes) : Prop :=
  ∀ i < c.world, ∀ j < c.world, ∀ k < c.bytesPerPeer,
    mem i (c.recvBase + j * c.bytesPerPeer + k) = mem₀ j (c.sendBase + i * c.bytesPerPeer + k)

/-- The send and receive regions do not overlap. -/
def Disjoint : Prop :=
  c.sendBase + c.world * c.bytesPerPeer ≤ c.recvBase ∨
    c.recvBase + c.world * c.bytesPerPeer ≤ c.sendBase

/-! ### Neighbours and blocks -/

variable {c} {r q : ℕ} {st st' : RingState} {mem₀ : ℕ → Bytes}

theorem left_lt (h : r < c.world) : c.left r < c.world := Nat.mod_lt _ (by omega)

theorem right_left (h : r < c.world) : c.right (c.left r) = r := by
  obtain rfl | hpos := Nat.eq_zero_or_pos r
  · have hl : c.left 0 = c.world - 1 := by
      rw [left, Nat.zero_add, Nat.mod_eq_of_lt (by omega)]
    rw [hl, right, Nat.sub_add_cancel (by omega), Nat.mod_self]
  · have hl : c.left r = r - 1 := by
      rw [left, show r + c.world - 1 = (r - 1) + c.world by omega, Nat.add_mod_right,
        Nat.mod_eq_of_lt (by omega)]
    rw [hl, right, Nat.sub_add_cancel hpos, Nat.mod_eq_of_lt h]

theorem left_right (h : r < c.world) : c.left (c.right r) = r := by
  obtain hlt | heq := Nat.lt_or_eq_of_le (Nat.succ_le_of_lt h)
  · have hr : c.right r = r + 1 := Nat.mod_eq_of_lt hlt
    rw [hr, left, show r + 1 + c.world - 1 = r + c.world by omega, Nat.add_mod_right,
      Nat.mod_eq_of_lt h]
  · have hr : c.right r = 0 := by rw [right, ← heq, Nat.mod_self]
    rw [hr, left, Nat.zero_add, ← heq, Nat.succ_sub_one, Nat.mod_eq_of_lt (by omega)]

/-- A chunk of block `p` lies inside its block, so inside the receive region. -/
theorem chunk_bounds {p moved : ℕ} (hp : p < c.world) (hn : 0 < c.chunkAt moved) :
    c.recvBase + p * c.bytesPerPeer + moved + c.chunkAt moved ≤
      c.recvBase + c.world * c.bytesPerPeer := by
  have hle : (p + 1) * c.bytesPerPeer ≤ c.world * c.bytesPerPeer := Nat.mul_le_mul_right _ hp
  rw [Nat.add_mul, Nat.one_mul] at hle
  rw [chunkAt] at hn ⊢
  omega

/-! ### What a step can do -/

@[simp] theorem copySelf_pc : (c.copySelf st r).pc = st.pc := by
  unfold copySelf
  split_ifs <;> rfl

@[simp] theorem copySelf_link : (c.copySelf st r).link = st.link := by
  unfold copySelf
  split_ifs <;> rfl

@[simp] theorem getRemote_pc {s moved : ℕ} : (c.getRemote st r s moved).pc = st.pc := rfl

@[simp] theorem getRemote_link {s moved : ℕ} : (c.getRemote st r s moved).link = st.link := rfl

@[simp] theorem putRemote_pc {s moved : ℕ} : (c.putRemote st r s moved).pc = st.pc := rfl

@[simp] theorem putRemote_link {s moved : ℕ} : (c.putRemote st r s moved).link = st.link := rfl

/-- The moves of rank `r`, one constructor for each of its calls. -/
inductive Move (c : Ring) (st : RingState) (r : ℕ) : RingState → Prop
  | connect : st.pc r = .connect → Move c st r (st.goto r .barrier)
  | barrier : st.pc r = .barrier → (∀ q < c.world, st.pc q ≠ .connect) →
      Move c st r (st.goto r .selfCopy)
  | selfCopy : st.pc r = .selfCopy → Move c st r ((c.copySelf st r).goto r (c.stepHead 1))
  | refused {s moved : ℕ} : st.pc r = .get s moved → c.chunkBytes < 0 →
      Move c st r (st.goto r .raised)
  | get {s moved : ℕ} : st.pc r = .get s moved → 0 ≤ c.chunkBytes →
      Move c st r ((c.getRemote st r s moved).goto r (.put s moved))
  | put {s moved : ℕ} : st.pc r = .put s moved →
      Move c st r
        ((c.putRemote st r s moved).goto r (c.moveHead s (moved + c.chunkAt moved)))
  | ctrlSend {s : ℕ} : st.pc r = .ctrlSend s →
      Move c st r ((st.setLink r (st.link r ++ [s])).goto r (.ctrlRecv s))
  | ctrlRecv {s : ℕ} {rest : List ℕ} : st.pc r = .ctrlRecv s → st.link (c.left r) = s :: rest →
      Move c st r ((st.setLink (c.left r) rest).goto r (c.stepHead (s + 1)))
  | mismatch {s tag : ℕ} {rest : List ℕ} : st.pc r = .ctrlRecv s →
      st.link (c.left r) = tag :: rest → tag ≠ s →
      Move c st r ((st.setLink (c.left r) rest).goto r .raised)

/-- What a step does, by the place where the rank was. -/
theorem move_of_step (hs : c.step st r = some st') : r < c.world ∧ c.Move st r st' := by
  have hr : r < c.world := by
    by_contra hr
    rw [step, if_neg hr] at hs
    cases hs
  refine ⟨hr, ?_⟩
  rw [step, if_pos hr] at hs
  cases hpc : st.pc r <;> simp only [hpc] at hs
  case connect => cases hs; exact .connect hpc
  case barrier =>
    split_ifs at hs with hb
    cases hs
    exact .barrier hpc hb
  case selfCopy => cases hs; exact .selfCopy hpc
  case get s moved =>
    split_ifs at hs with hneg <;> cases hs
    · exact .refused hpc hneg
    · exact .get hpc (Int.not_lt.mp hneg)
  case put s moved => cases hs; exact .put hpc
  case ctrlSend s => cases hs; exact .ctrlSend hpc
  case ctrlRecv s =>
    split at hs
    · cases hs
    · rename_i tag rest hlink
      cases hs
      split_ifs with htag
      · exact .mismatch hpc hlink htag
      · rw [not_not] at htag
        subst htag
        exact .ctrlRecv hpc hlink
  case done => cases hs
  case raised => cases hs

/-- A step moves only its own rank. -/
theorem Move.pc_of_ne (h : c.Move st r st') (hq : q ≠ r) : st'.pc q = st.pc q := by
  cases h <;> simp [hq]

/-! ### Tags -/

/-- The number of tags a rank has sent. -/
def sent : RingPc → ℕ
  | .get s _ | .put s _ | .ctrlSend s => s - 1
  | .ctrlRecv s => s
  | .done => c.world - 1
  | _ => 0

/-- The number of tags a rank has received. -/
def received : RingPc → ℕ
  | .get s _ | .put s _ | .ctrlSend s | .ctrlRecv s => s - 1
  | .done => c.world - 1
  | _ => 0

/-- The locations a rank can be at: `1 ≤ s < w` in every step, and something left to move in
a transfer. -/
def RingPc.Valid (w b : ℕ) : RingPc → Prop
  | .get s moved | .put s moved => 0 < s ∧ s < w ∧ moved < b
  | .ctrlSend s | .ctrlRecv s => 0 < s ∧ s < w
  | .raised => False
  | _ => True

/-- Every rank is at a valid location, and the tags on the way to a rank are the ones its left
neighbour has sent and it has not received. -/
structure RingInv (c : Ring) (st : RingState) : Prop where
  valid : ∀ r < c.world, RingPc.Valid c.world c.bytesPerPeer (st.pc r)
  le : ∀ r < c.world, c.received (st.pc (c.right r)) ≤ c.sent (st.pc r)
  link : ∀ r < c.world, st.link r = List.range' (c.received (st.pc (c.right r)) + 1)
    (c.sent (st.pc r) - c.received (st.pc (c.right r)))

theorem valid_moveHead {s moved : ℕ} (hs : 0 < s) (hw : s < c.world) :
    RingPc.Valid c.world c.bytesPerPeer (c.moveHead s moved) := by
  unfold moveHead
  split_ifs with h
  · exact ⟨hs, hw, h⟩
  · exact ⟨hs, hw⟩

theorem valid_stepHead {s : ℕ} (hs : 0 < s) :
    RingPc.Valid c.world c.bytesPerPeer (c.stepHead s) := by
  unfold stepHead
  split_ifs with h
  · exact valid_moveHead hs h
  · trivial

@[simp] theorem sent_moveHead {s moved : ℕ} : c.sent (c.moveHead s moved) = s - 1 := by
  unfold moveHead
  split_ifs <;> rfl

@[simp] theorem received_moveHead {s moved : ℕ} : c.received (c.moveHead s moved) = s - 1 := by
  unfold moveHead
  split_ifs <;> rfl

theorem sent_stepHead {s : ℕ} (hs : s ≤ c.world) : c.sent (c.stepHead s) = s - 1 := by
  unfold stepHead
  split_ifs
  · exact sent_moveHead
  · rw [sent, Nat.le_antisymm hs (by omega)]

theorem received_stepHead {s : ℕ} (hs : s ≤ c.world) : c.received (c.stepHead s) = s - 1 := by
  unfold stepHead
  split_ifs
  · exact received_moveHead
  · rw [received, Nat.le_antisymm hs (by omega)]

namespace RingInv

theorem start (c : Ring) (mem : ℕ → Bytes) : RingInv c (c.start mem) := by
  have hpc : ∀ r, c.sent ((c.start mem).pc r) = 0 ∧ c.received ((c.start mem).pc r) = 0 ∧
      RingPc.Valid c.world c.bytesPerPeer ((c.start mem).pc r) := fun r => by
    unfold Ring.start
    dsimp only
    split_ifs
    · exact ⟨rfl, rfl, trivial⟩
    · exact ⟨rfl, rfl, trivial⟩
  refine ⟨fun r _ => (hpc r).2.2, fun r _ => ?_, fun r _ => ?_⟩
  · rw [(hpc r).1, (hpc _).2.1]
  · rw [(hpc r).1, (hpc _).2.1]
    rfl

/-- A call that exchanges no tag. -/
theorem local_move (h : RingInv c st) {pc : RingPc} (hlink : st'.link = st.link)
    (hpc : st'.pc = Function.update st.pc r pc)
    (hv : RingPc.Valid c.world c.bytesPerPeer pc)
    (hsent : c.sent pc = c.sent (st.pc r)) (hrecv : c.received pc = c.received (st.pc r)) :
    RingInv c st' := by
  have hs : ∀ q, c.sent (st'.pc q) = c.sent (st.pc q) := by
    rw [hpc]
    exact apply_update_of_eq hsent
  have hr : ∀ q, c.received (st'.pc q) = c.received (st.pc q) := by
    rw [hpc]
    exact apply_update_of_eq hrecv
  refine ⟨fun q hq => ?_, fun q hq => ?_, fun q hq => ?_⟩
  · rw [hpc]
    by_cases hqr : q = r
    · subst hqr
      rwa [Function.update_self]
    · rw [Function.update_of_ne hqr]
      exact h.valid q hq
  · rw [hs, hr]
    exact h.le q hq
  · rw [hs, hr, hlink]
    exact h.link q hq

theorem ctrlSend (h : RingInv c st) (hr : r < c.world) {s : ℕ} (hpc : st.pc r = .ctrlSend s) :
    RingInv c ((st.setLink r (st.link r ++ [s])).goto r (.ctrlRecv s)) := by
  obtain ⟨hpos, hlt⟩ : 0 < s ∧ s < c.world := by simpa [hpc, RingPc.Valid] using h.valid r hr
  have hrecv : ∀ q, c.received (Function.update st.pc r (.ctrlRecv s) q) =
      c.received (st.pc q) := apply_update_of_eq (by rw [hpc]; rfl)
  have hsent : c.sent (st.pc r) = s - 1 := by rw [hpc]; rfl
  have hle := h.le r hr
  refine ⟨fun q hq => ?_, fun q hq => ?_, fun q hq => ?_⟩ <;>
    simp only [RingState.goto_pc, RingState.goto_link, RingState.setLink_pc,
      RingState.setLink_link] <;>
    by_cases hqr : q = r
  · subst hqr
    rw [Function.update_self]
    exact ⟨hpos, hlt⟩
  · rw [Function.update_of_ne hqr]
    exact h.valid q hq
  · subst hqr
    rw [hrecv, Function.update_self]
    simp only [sent]
    omega
  · rw [hrecv, Function.update_of_ne hqr]
    exact h.le q hq
  · subst hqr
    rw [hrecv, Function.update_self, Function.update_self, h.link q hq, hsent]
    simp only [sent]
    have hone : s - c.received (st.pc (c.right q)) =
        s - 1 - c.received (st.pc (c.right q)) + 1 := by omega
    rw [hone, List.range'_1_concat]
    congr 2
    omega
  · rw [hrecv, Function.update_of_ne hqr, Function.update_of_ne hqr]
    exact h.link q hq

theorem ctrlRecv (h : RingInv c st) (hr : r < c.world) {s : ℕ} {rest : List ℕ}
    (hpc : st.pc r = .ctrlRecv s) (hlink : st.link (c.left r) = s :: rest) :
    RingInv c ((st.setLink (c.left r) rest).goto r (c.stepHead (s + 1))) := by
  obtain ⟨hpos, hlt⟩ : 0 < s ∧ s < c.world := by simpa [hpc, RingPc.Valid] using h.valid r hr
  have hl := left_lt hr
  have hright := right_left hr
  have hsent : ∀ q, c.sent (Function.update st.pc r (c.stepHead (s + 1)) q) =
      c.sent (st.pc q) := apply_update_of_eq (by rw [hpc, sent_stepHead hlt]; rfl)
  have hrange := h.link _ hl
  have hle := h.le _ hl
  rw [hright, hpc, hlink] at hrange
  rw [hright, hpc] at hle
  simp only [received] at hrange hle
  obtain ⟨n, hn⟩ : ∃ n, c.sent (st.pc (c.left r)) = s + n := by
    refine ⟨c.sent (st.pc (c.left r)) - s, ?_⟩
    by_contra hlt'
    rw [show c.sent (st.pc (c.left r)) - (s - 1) = 0 by omega] at hrange
    cases hrange
  rw [hn, show s + n - (s - 1) = n + 1 by omega, List.range'_succ] at hrange
  obtain ⟨-, hrest⟩ := List.cons.inj hrange
  refine ⟨fun q hq => ?_, fun q hq => ?_, fun q hq => ?_⟩ <;>
    simp only [RingState.goto_pc, RingState.goto_link, RingState.setLink_pc,
      RingState.setLink_link]
  · by_cases hqr : q = r
    · subst hqr
      rw [Function.update_self]
      exact valid_stepHead (Nat.succ_pos s)
    · rw [Function.update_of_ne hqr]
      exact h.valid q hq
  · rw [hsent]
    by_cases hqr : c.right q = r
    · rw [hqr, Function.update_self, received_stepHead hlt, ← left_right hq, hqr, hn]
      omega
    · rw [Function.update_of_ne hqr]
      exact h.le q hq
  · rw [hsent]
    by_cases hqr : c.right q = r
    · have hq' : q = c.left r := by rw [← left_right hq, hqr]
      rw [hqr, hq', Function.update_self, Function.update_self, received_stepHead hlt, hn, hrest]
      congr 1 <;> omega
    · have hq' : q ≠ c.left r := fun he => hqr (by rw [he, hright])
      rw [Function.update_of_ne hqr, Function.update_of_ne hq']
      exact h.link q hq

/-- **One call** keeps the tags in order; in particular no rank raises a tag mismatch. -/
theorem step (hc : 0 < c.chunkBytes) (h : RingInv c st) (hr : r < c.world)
    (hm : c.Move st r st') : RingInv c st' := by
  have hvalid := h.valid r hr
  cases hm with
  | connect hpc => exact h.local_move rfl rfl trivial (by rw [hpc]; rfl) (by rw [hpc]; rfl)
  | barrier hpc => exact h.local_move rfl rfl trivial (by rw [hpc]; rfl) (by rw [hpc]; rfl)
  | selfCopy hpc =>
    have hpc' : ((c.copySelf st r).goto r (c.stepHead 1)).pc =
        Function.update st.pc r (c.stepHead 1) := by simp
    refine h.local_move (by simp) hpc' (valid_stepHead (by omega)) ?_ ?_
    · rw [sent_stepHead (by omega), hpc]
      rfl
    · rw [received_stepHead (by omega), hpc]
      rfl
  | refused _ hneg => omega
  | get hpc =>
    rw [hpc] at hvalid
    exact h.local_move rfl rfl hvalid (by rw [hpc]; rfl) (by rw [hpc]; rfl)
  | put hpc =>
    rw [hpc] at hvalid
    refine h.local_move rfl rfl (valid_moveHead hvalid.1 hvalid.2.1) ?_ ?_
    · rw [sent_moveHead, hpc]
      rfl
    · rw [received_moveHead, hpc]
      rfl
  | ctrlSend hpc => exact h.ctrlSend hr hpc
  | ctrlRecv hpc hlink => exact h.ctrlRecv hr hpc hlink
  | @mismatch s tag rest hpc hlink htag =>
    rw [hpc] at hvalid
    have hrange := h.link _ (left_lt hr)
    rw [right_left hr, hpc, hlink, received, Nat.sub_add_cancel hvalid.1] at hrange
    cases hn : c.sent (st.pc (c.left r)) - (s - 1) with
    | zero => rw [hn] at hrange; cases hrange
    | succ n =>
      rw [hn, List.range'_succ] at hrange
      exact absurd (List.cons.inj hrange).1 htag

/-- The tags are in order in every run. -/
theorem reach (hc : 0 < c.chunkBytes) {mem : ℕ → Bytes}
    (hr : Reach c.step Free (c.start mem) st) : RingInv c st :=
  hr.invariant (start c mem) fun _ _ _ _ h _ hs =>
    let hm := move_of_step hs
    h.step hc hm.1 hm.2

end RingInv

/-! ### Every run can be completed -/

/-- A bound on the calls a rank still makes. -/
def remaining : RingPc → ℕ
  | .connect => c.world * (2 * c.bytesPerPeer + 3) + 3
  | .barrier => c.world * (2 * c.bytesPerPeer + 3) + 2
  | .selfCopy => c.world * (2 * c.bytesPerPeer + 3) + 1
  | .get s moved =>
    (c.world - (s + 1)) * (2 * c.bytesPerPeer + 3) + 2 * (c.bytesPerPeer - moved) + 2
  | .put s moved =>
    (c.world - (s + 1)) * (2 * c.bytesPerPeer + 3) + 2 * (c.bytesPerPeer - moved) + 1
  | .ctrlSend s => (c.world - (s + 1)) * (2 * c.bytesPerPeer + 3) + 2
  | .ctrlRecv s => (c.world - (s + 1)) * (2 * c.bytesPerPeer + 3) + 1
  | .done | .raised => 0

theorem remaining_moveHead {s moved : ℕ} : c.remaining (c.moveHead s moved) ≤
    (c.world - (s + 1)) * (2 * c.bytesPerPeer + 3) + 2 * (c.bytesPerPeer - moved) + 2 := by
  unfold moveHead
  split_ifs
  · exact Nat.le_refl _
  · simp only [remaining]
    omega

theorem remaining_stepHead {s : ℕ} :
    c.remaining (c.stepHead s) ≤ (c.world - s) * (2 * c.bytesPerPeer + 3) := by
  unfold stepHead
  split_ifs with h
  · refine remaining_moveHead.trans ?_
    rw [show c.world - s = c.world - (s + 1) + 1 by omega, Nat.add_mul]
    omega
  · exact Nat.zero_le _

/-- Every call brings its rank closer to the end. -/
theorem Move.remaining_lt (hc : 0 < c.chunkBytes) (h : RingInv c st) (hr : r < c.world)
    (hm : c.Move st r st') : c.remaining (st'.pc r) < c.remaining (st.pc r) := by
  have hvalid := h.valid r hr
  cases hm with
  | connect hpc => simp [hpc, remaining]
  | barrier hpc => simp [hpc, remaining]
  | selfCopy hpc =>
    have hle : (c.world - 1) * (2 * c.bytesPerPeer + 3) ≤
        c.world * (2 * c.bytesPerPeer + 3) := Nat.mul_le_mul_right _ (by omega)
    rw [RingState.goto_pc, copySelf_pc, Function.update_self, hpc]
    exact Nat.lt_succ_of_le (remaining_stepHead.trans hle)
  | refused _ hneg => omega
  | get hpc => simp [hpc, remaining]
  | @put s moved hpc =>
    rw [hpc] at hvalid
    have hn : 0 < c.chunkAt moved := by
      have := hvalid.2.2
      rw [chunkAt]
      omega
    have hlt := hvalid.2.2
    rw [RingState.goto_pc, putRemote_pc, Function.update_self, hpc]
    refine Nat.lt_of_le_of_lt remaining_moveHead ?_
    simp only [remaining]
    omega
  | ctrlSend hpc => simp [hpc, remaining]
  | @ctrlRecv s rest hpc =>
    rw [RingState.goto_pc, RingState.setLink_pc, Function.update_self, hpc]
    exact Nat.lt_succ_of_le remaining_stepHead
  | mismatch hpc => simp [hpc, remaining]

/-- A rank that waits for a tag, with none on the way, waits for a rank that has received
fewer tags. -/
theorem RingInv.received_lt (h : RingInv c st) (hr : r < c.world) {s : ℕ}
    (hpc : st.pc r = .ctrlRecv s) (hlink : st.link (c.left r) = [])
    (hwait : ∀ q < c.world, (∃ s, st.pc q = .ctrlRecv s) ∨ st.pc q = .done) :
    c.received (st.pc (c.left r)) < c.received (st.pc r) := by
  have hl := left_lt hr
  have hvalid := h.valid r hr
  have hle := h.le _ hl
  have hrange := congrArg List.length (h.link _ hl)
  rw [right_left hr, hlink, hpc, List.length_range', List.length_nil] at hrange
  rw [right_left hr, hpc] at hle
  rw [hpc] at hvalid ⊢
  simp only [received] at hle hrange ⊢
  obtain ⟨s', hpc'⟩ | hpc' := hwait _ hl
  · have hvalid' := h.valid _ hl
    rw [hpc'] at hvalid' hle hrange ⊢
    simp only [sent] at hle hrange ⊢
    have := hvalid'.1
    omega
  · rw [hpc'] at hle hrange
    simp only [sent] at hle hrange
    have := hvalid.1
    have := hvalid.2
    omega

/-- **No deadlock**: until every rank has returned, some rank can make its next call. -/
theorem RingInv.enabled (h : RingInv c st) (hf : ¬ c.Complete st) :
    ∃ r st', c.step st r = some st' := by
  by_contra hstuck
  have hnone : ∀ r, c.step st r = none := fun r => by
    by_contra hr
    obtain ⟨st', hst'⟩ := Option.ne_none_iff_exists'.mp hr
    exact hstuck ⟨r, st', hst'⟩
  have hconnect : ∀ r < c.world, st.pc r ≠ .connect := fun r hr hpc => by
    have := hnone r
    simp [Ring.step, hr, hpc] at this
  have hwait : ∀ r < c.world,
      (∃ s, st.pc r = .ctrlRecv s ∧ st.link (c.left r) = []) ∨ st.pc r = .done := by
    intro r hr
    have hvalid := h.valid r hr
    have hblock := hnone r
    rw [Ring.step, if_pos hr] at hblock
    cases hpc : st.pc r <;> simp only [hpc] at hblock hvalid
    case barrier =>
      rw [if_pos hconnect] at hblock
      cases hblock
    case ctrlRecv s =>
      cases hlink : st.link (c.left r) with
      | nil => exact .inl ⟨s, rfl, rfl⟩
      | cons tag rest => rw [hlink] at hblock; cases hblock
    case done => exact .inr rfl
    case raised => exact absurd hvalid id
    case get =>
      split_ifs at hblock
    all_goals cases hblock
  have hwait' : ∀ q < c.world, (∃ s, st.pc q = .ctrlRecv s) ∨ st.pc q = .done := fun q hq =>
    (hwait q hq).imp_left fun ⟨s, hs, _⟩ => ⟨s, hs⟩
  -- the rank that has received the fewest tags
  obtain ⟨r₀, hr₀, hpc₀⟩ : ∃ r < c.world, st.pc r ≠ .done := by
    by_contra hall
    exact hf fun r hr => by
      by_contra hpc
      exact hall ⟨r, hr, hpc⟩
  obtain ⟨r, hr, hmin⟩ := (Finset.range c.world).exists_min_image
    (fun r => c.received (st.pc r)) ⟨r₀, Finset.mem_range.mpr hr₀⟩
  rw [Finset.mem_range] at hr
  obtain ⟨s, hpc, hlink⟩ | hpc := hwait r hr
  · have hlt := h.received_lt hr hpc hlink hwait'
    have hle := hmin _ (Finset.mem_range.mpr (left_lt hr))
    omega
  · obtain ⟨s, hs, -⟩ := (hwait r₀ hr₀).resolve_right hpc₀
    have hle := hmin _ (Finset.mem_range.mpr hr₀)
    have hvalid := h.valid r₀ hr₀
    rw [hs] at hvalid
    have := hvalid.1
    have := hvalid.2
    simp only [hpc, hs, received] at hle
    omega

/-- From any contents of the buffers, some run returns on every rank. -/
theorem exists_complete (c : Ring) (hc : 0 < c.chunkBytes) (mem : ℕ → Bytes) :
    ∃ st, Reach c.step Free (c.start mem) st ∧ c.Complete st := by
  refine exists_reach_final (fun st => ∑ r ∈ Finset.range c.world, c.remaining (st.pc r)) ?_
  intro st hreach hf
  have hinv := RingInv.reach hc hreach
  obtain ⟨r, st', hst'⟩ := hinv.enabled hf
  obtain ⟨hr, hm⟩ := move_of_step hst'
  refine ⟨r, st', trivial, hst', Finset.sum_lt_sum (fun q _ => ?_) ⟨r, ?_, ?_⟩⟩
  · by_cases hq : q = r
    · rw [hq]
      exact (hm.remaining_lt hc hinv hr).le
    · rw [hm.pc_of_ne hq]
  · exact Finset.mem_range.mpr hr
  · exact hm.remaining_lt hc hinv hr

/-! ### The block of the left neighbour -/

/-- No call changes a byte outside the receive regions. -/
theorem Move.mem_outside (hm : c.Move st r st') (hr : r < c.world) {a : ℕ}
    (ha : a < c.recvBase ∨ c.recvBase + c.world * c.bytesPerPeer ≤ a) :
    st'.mem q a = st.mem q a := by
  have hchunk : ∀ p < c.world, ∀ moved,
      a < c.recvBase + p * c.bytesPerPeer + moved ∨
        c.recvBase + p * c.bytesPerPeer + moved + c.chunkAt moved ≤ a := by
    intro p hp moved
    obtain hn | hn := Nat.eq_zero_or_pos (c.chunkAt moved)
    · omega
    · have := chunk_bounds hp hn
      omega
  have hpeer : ∀ s, c.recvPeer r s < c.world := fun s => Nat.mod_lt _ (by omega)
  cases hm with
  | selfCopy =>
    simp only [RingState.goto_mem, copySelf]
    split_ifs
    · rfl
    · refine RingState.write_mem_of_not_mem fun _ => ?_
      have hle : (r + 1) * c.bytesPerPeer ≤ c.world * c.bytesPerPeer :=
        Nat.mul_le_mul_right _ hr
      rw [Nat.add_mul, Nat.one_mul] at hle
      omega
  | get => exact RingState.write_mem_of_not_mem fun _ => hchunk _ (hpeer _) _
  | put => exact RingState.write_mem_of_not_mem fun _ => hchunk _ (hpeer _) _
  | _ => rfl

/-- Rank `1` has made the first get of its last step. -/
def fetched : RingPc → Prop
  | .get s moved => s + 1 = c.world ∧ 0 < moved
  | .put s _ | .ctrlSend s | .ctrlRecv s => s + 1 = c.world
  | .done => True
  | _ => False

theorem fetched_moveHead {s moved : ℕ} (h : c.fetched (c.moveHead s moved)) :
    s + 1 = c.world := by
  unfold moveHead at h
  split_ifs at h
  · exact h.1
  · exact h

theorem fetched_stepHead {s : ℕ} (hb : 0 < c.bytesPerPeer) (h : c.fetched (c.stepHead s)) :
    c.world ≤ s := by
  unfold stepHead moveHead at h
  split_ifs at h with hs
  · exact absurd h.2 (Nat.lt_irrefl 0)
  · omega

/-- Block `0` of rank `1` starts with the first byte of block `0` of rank `0`, where the
transpose wants its block `1`. -/
structure Stale (c : Ring) (mem₀ : ℕ → Bytes) (st : RingState) : Prop where
  source : st.mem 0 c.sendBase = mem₀ 0 c.sendBase
  fetched : c.fetched (st.pc 1) → st.mem 1 c.recvBase = mem₀ 0 c.sendBase

/-- Only the first get of its last step writes the first byte of block `0` of rank `1`. -/
theorem Move.mem_first (hm : c.Move st r st') (hinv : RingInv c st) (hr : r < c.world)
    (hw : 2 ≤ c.world) (hb : 0 < c.bytesPerPeer)
    (hget : ∀ s, r = 1 → st.pc r = .get s 0 → s + 1 ≠ c.world) :
    st'.mem 1 c.recvBase = st.mem 1 c.recvBase := by
  have hvalid := hinv.valid r hr
  have hblock : ∀ p moved, 0 < p → c.recvBase < c.recvBase + p * c.bytesPerPeer + moved :=
    fun p moved hp => by
      have := Nat.mul_pos hp hb
      omega
  cases hm with
  | selfCopy hpc =>
    simp only [RingState.goto_mem, copySelf]
    split_ifs
    · rfl
    · exact RingState.write_mem_of_not_mem fun hr1 => .inl (hblock r 0 (by omega))
  | @get s moved hpc =>
    refine RingState.write_mem_of_not_mem fun hr1 => .inl ?_
    rw [hpc] at hvalid
    obtain ⟨hs, hsw, -⟩ := hvalid
    by_cases hlast : s + 1 = c.world
    · have hmoved : 0 < moved := Nat.pos_of_ne_zero fun h0 =>
        hget s hr1.symm (h0 ▸ hpc) hlast
      omega
    · refine hblock _ _ ?_
      rw [recvPeer, ← hr1, Nat.mod_eq_of_lt (by omega)]
      omega
  | @put s moved hpc =>
    refine RingState.write_mem_of_not_mem fun hr1 => .inl (hblock _ _ ?_)
    rw [hpc] at hvalid
    obtain ⟨hs, hsw, -⟩ := hvalid
    have hr0 : r = 0 := by
      rw [← left_right hr, ← hr1, left, show 1 + c.world - 1 = c.world by omega, Nat.mod_self]
    rw [recvPeer, hr0, Nat.zero_add, Nat.mod_eq_of_lt hsw]
    exact hs
  | _ => rfl

namespace Stale

theorem start (mem₀ : ℕ → Bytes) : Stale c mem₀ (c.start mem₀) where
  source := rfl
  fetched h := by
    unfold Ring.start at h
    dsimp only at h
    split_ifs at h <;> exact absurd h id

/-- The send regions stay as they are, so the last get of rank `1` fetches what was there at the
start. -/
theorem step (hw : 2 ≤ c.world) (hb : 0 < c.bytesPerPeer) (hc : 0 < c.chunkBytes)
    (hd : c.Disjoint) (h : Stale c mem₀ st) (hinv : RingInv c st) (hr : r < c.world)
    (hm : c.Move st r st') : Stale c mem₀ st' := by
  have hsend : c.sendBase < c.recvBase ∨
      c.recvBase + c.world * c.bytesPerPeer ≤ c.sendBase := by
    have hpos := Nat.mul_pos (show 0 < c.world by omega) hb
    rcases hd with hd | hd <;> omega
  refine ⟨(hm.mem_outside hr hsend).trans h.source, fun hf => ?_⟩
  by_cases hget : ∃ s, r = 1 ∧ st.pc r = .get s 0 ∧ s + 1 = c.world
  · -- the get that fetches the block
    obtain ⟨s, rfl, hpc, hlast⟩ := hget
    have hpeer : c.recvPeer 1 s = 0 := by
      rw [recvPeer, Nat.add_comm, hlast, Nat.mod_self]
    have hleft : c.left 1 = 0 := by
      rw [left, show 1 + c.world - 1 = c.world by omega, Nat.mod_self]
    have hn : 0 < c.chunkAt 0 := by
      rw [chunkAt]
      omega
    cases hm with
    | @get s' moved hpc' =>
      rw [hpc] at hpc'
      cases hpc'
      rw [RingState.goto_mem, getRemote, hpeer, hleft, Nat.zero_mul, Nat.add_zero,
        RingState.write_mem_first hn]
      exact h.source
    | refused _ hneg => omega
    | _ => simp_all
  · rw [hm.mem_first hinv hr hw hb fun s h₁ h₂ h₃ => hget ⟨s, h₁, h₂, h₃⟩]
    refine h.fetched ?_
    by_cases hr1 : 1 = r
    · subst hr1
      have hvalid := hinv.valid 1 hr
      cases hm with
      | connect hpc => simp [Ring.fetched] at hf
      | barrier hpc => simp [Ring.fetched] at hf
      | selfCopy hpc =>
        rw [RingState.goto_pc, copySelf_pc, Function.update_self] at hf
        have := fetched_stepHead hb hf
        omega
      | refused _ hneg => omega
      | @get s moved hpc =>
        rw [RingState.goto_pc, Function.update_self] at hf
        rw [hpc]
        refine ⟨hf, Nat.pos_of_ne_zero fun h0 => hget ⟨s, rfl, h0 ▸ hpc, hf⟩⟩
      | put hpc =>
        rw [RingState.goto_pc, Function.update_self] at hf
        rw [hpc]
        exact fetched_moveHead hf
      | ctrlSend hpc =>
        rw [RingState.goto_pc, Function.update_self] at hf
        rw [hpc]
        exact hf
      | ctrlRecv hpc =>
        rw [RingState.goto_pc, Function.update_self] at hf
        rw [hpc] at hvalid ⊢
        have := fetched_stepHead hb hf
        exact Nat.le_antisymm hvalid.2 this
      | mismatch hpc => simp [Ring.fetched] at hf
    · rwa [hm.pc_of_ne hr1] at hf

theorem reach (hw : 2 ≤ c.world) (hb : 0 < c.bytesPerPeer) (hc : 0 < c.chunkBytes)
    (hd : c.Disjoint) (hr : Reach c.step Free (c.start mem₀) st) : Stale c mem₀ st :=
  hr.invariant (start mem₀) fun _ _ _ hr' h _ hs =>
    let hm := move_of_step hs
    h.step hw hb hc hd (.reach hc hr') hm.1 hm.2

end Stale

/-! ### When the call is a transpose -/

theorem single_step (hw : c.world = 1) (hs : c.doSelfCopy = true)
    (h : st.pc 0 = .selfCopy ∧ st.mem = mem₀ ∨ st.pc 0 = .done ∧ c.Transposed mem₀ st.mem)
    (hst : c.step st r = some st') :
    st'.pc 0 = .selfCopy ∧ st'.mem = mem₀ ∨ st'.pc 0 = .done ∧ c.Transposed mem₀ st'.mem := by
  obtain ⟨hr, hm⟩ := move_of_step hst
  obtain rfl : r = 0 := by omega
  obtain ⟨hpc, hmem⟩ | ⟨hpc, -⟩ := h
  · cases hm with
    | selfCopy =>
      refine .inr ⟨by simp [stepHead, hw], fun i hi j hj k hk => ?_⟩
      obtain rfl : i = 0 := by omega
      obtain rfl : j = 0 := by omega
      have hb : c.bytesPerPeer ≠ 0 := by omega
      simp only [RingState.goto_mem, copySelf, hs, hb, Bool.true_eq_false, or_self, if_false,
        RingState.write, Function.update_self, hmem]
      exact blit_apply_add hk
    | _ => simp_all
  · cases hm <;> simp_all

/-- A single rank copies its own block. -/
theorem transposed_of_single (hw : c.world = 1) (hs : c.doSelfCopy = true)
    (hr : Reach c.step Free (c.start mem₀) st) (hf : c.Complete st) :
    c.Transposed mem₀ st.mem := by
  have hinv : st.pc 0 = .selfCopy ∧ st.mem = mem₀ ∨
      st.pc 0 = .done ∧ c.Transposed mem₀ st.mem := by
    refine hr.invariant
      (I := fun st => st.pc 0 = .selfCopy ∧ st.mem = mem₀ ∨
        st.pc 0 = .done ∧ c.Transposed mem₀ st.mem)
      (.inl ⟨by simp [start, hw], rfl⟩) fun st r st' _ h _ hst => single_step hw hs h hst
  obtain ⟨hpc, -⟩ | ⟨-, h⟩ := hinv
  · rw [hf 0 (by omega)] at hpc
    cases hpc
  · exact h

/-- After a completed call, a transposing ring has two equal bytes in rank `0`'s buffer. -/
theorem eq_of_transposed (hw : 2 ≤ c.world) (hb : 0 < c.bytesPerPeer) (hc : 0 < c.chunkBytes)
    (hd : c.Disjoint) (hr : Reach c.step Free (c.start mem₀) st) (hf : c.Complete st)
    (ht : c.Transposed mem₀ st.mem) :
    mem₀ 0 c.sendBase = mem₀ 0 (c.sendBase + c.bytesPerPeer) := by
  have hstale := (Stale.reach hw hb hc hd hr).fetched (by rw [hf 1 hw]; trivial)
  have hblock := ht 1 hw 0 (by omega) 0 hb
  rw [Nat.zero_mul, Nat.one_mul, Nat.add_zero, Nat.add_zero] at hblock
  exact hstale.symm.trans hblock

/-- **When the ring transposes.** Every completed call is a block transpose exactly when there is
one rank or nothing to move. If rank `1` has completed a transpose, the first byte of its block `0`
is both what the transpose wants and what its last get has brought, so two bytes of rank `0` are
equal (`eq_of_transposed`); a buffer in which they differ refutes this. -/
theorem transposes_iff (c : Ring) (hw : 1 ≤ c.world) (hc : 1 ≤ c.chunkBytes) (hd : c.Disjoint)
    (hs : c.doSelfCopy = true) :
    (∀ mem st, Reach c.step Free (c.start mem) st → c.Complete st → c.Transposed mem st.mem) ↔
      c.world = 1 ∨ c.bytesPerPeer = 0 := by
  constructor
  · intro h
    by_contra hne
    rw [not_or] at hne
    have hb : 0 < c.bytesPerPeer := Nat.pos_of_ne_zero hne.2
    let mem : ℕ → Bytes := fun _ a => if a = c.sendBase then 1 else 0
    obtain ⟨st, hr, hf⟩ := exists_complete c hc mem
    have heq := eq_of_transposed (by omega) hb hc hd hr hf (h mem st hr hf)
    simp [mem, hne.2] at heq
  · rintro (hw' | hb) mem st hr hf
    · exact transposed_of_single hw' hs hr hf
    · intro i _ j _ k hk
      omega

instance (c : Ring) (mem₀ mem : ℕ → Bytes) : Decidable (c.Transposed mem₀ mem) :=
  inferInstanceAs (Decidable (∀ i < c.world, ∀ j < c.world, ∀ k < c.bytesPerPeer,
    mem i (c.recvBase + j * c.bytesPerPeer + k) = mem₀ j (c.sendBase + i * c.bytesPerPeer + k)))

instance (c : Ring) (st : RingState) : Decidable (c.Complete st) :=
  inferInstanceAs (Decidable (∀ r < c.world, st.pc r = .done))

/-- Two ranks and one byte per peer. -/
def pair : Ring where
  world := 2
  sendBase := 0
  recvBase := 2
  bytesPerPeer := 1
  chunkBytes := 1
  doSelfCopy := true

/-- Send block `i` of rank `r` is `10 * r + i`. -/
def pairMem : ℕ → Bytes := fun r a => UInt8.ofNat (10 * r + a)

theorem transposes_iff_pair :
    ¬ ∀ mem st, Reach pair.step Free (pair.start mem) st → pair.Complete st →
      pair.Transposed mem st.mem :=
  mt (transposes_iff pair (by decide) (by decide) (.inl (by decide)) rfl).mp (by decide)

/-- **The ring is no transpose.** Two ranks run the call to its end, in turns. -/
theorem pair_not_transposed :
    1 ≤ pair.world ∧ 1 ≤ pair.chunkBytes ∧ pair.Disjoint ∧ pair.doSelfCopy = true ∧
      ∃ st, Reach pair.step Free (pair.start pairMem) st ∧ pair.Complete st ∧
        ¬ pair.Transposed pairMem st.mem :=
  ⟨by decide, by decide, .inl (by decide), rfl,
    exists_reach_of_exec [0, 1, 0, 1, 0, 1, 0, 0, 0, 1, 1, 1, 0, 1] (by decide +kernel)⟩

end Ring

end HMC.Collective
