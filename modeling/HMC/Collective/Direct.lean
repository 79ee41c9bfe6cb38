import Mathlib.Logic.Function.Basic
import HMC.Core.Basic
import HMC.Machine.Run

/-!
# The direct alltoall

`alltoall(algo="direct")`, called any number of times by the `w` ranks of a group. A rank
stages its send tensor, goes through `w - 1` rounds of connecting and a barrier each, copies
its own block, puts block `dst` of its send region into the receive region of every other
rank `dst`, chunk by chunk, and after one more barrier copies its receive region out. The
ranks are interleaved freely by `Direct.step`.

A put writes its range at once, and a connect always succeeds. `dist.barrier` counts: a rank
leaves its `n`-th barrier when every rank has entered its `n`-th one.

`transposed_of_reach` says that every call that has returned is a block transpose. Its
invariant has two layers: `SyncInv`, what the barriers guarantee about where the ranks are,
and `DataInv`, which bytes have arrived.

The barriers are counted over all calls, since a fast rank may be in its next call while a slow one
is still at the end of the last. `call_le` turns the counts into what is needed: whoever puts finds
the others in the same call with their tensors staged, and whoever copies out finds them past their
puts. A put writes a part of one block at one rank, so all that has to be shown of it is that this
part, and nothing else that was delivered, has changed (`BlockWrite`).
-/

namespace HMC.Collective

open HMC.Machine

/-! ### The arguments -/

/-- The arguments of `_direct_alltoall_core` that all ranks share. -/
structure DirectCall where
  sendBase : ℕ
  recvBase : ℕ
  bytesPerPeer : ℕ
  chunkBytes : ℤ

/-- The checks of `alltoall` on a group of `w` ranks and a `ConnBuffer` of `size` bytes, and what
it hands to the core. -/
def alltoallArgs (w nSend nRecv size sendBias : ℕ) (recvBias : Option ℕ) (chunkBytes : ℤ) :
    Except String DirectCall :=
  if nSend ≠ nRecv then .error s!"send/recv nbytes mismatch: send={nSend} recv={nRecv}"
  else if w = 0 then .error "bad group world"
  else if nSend % w ≠ 0 then
    .error s!"send nbytes must be divisible by world: nbytes={nSend} world={w}"
  else
    let base := recvBias.getD (sendBias + nSend)
    let need := base + nSend
    if need > size then .error s!"ConnBuffer too small: need={need} have={size}"
    else .ok ⟨sendBias, base, nSend / w, chunkBytes⟩

/-- The send and receive regions do not overlap. -/
def DirectCall.Disjoint (a : DirectCall) (w : ℕ) : Prop :=
  a.sendBase + w * a.bytesPerPeer ≤ a.recvBase ∨ a.recvBase + w * a.bytesPerPeer ≤ a.sendBase

/-- The default `recv_bias` puts the receive region behind the send region. -/
theorem disjoint_of_alltoallArgs {w nSend nRecv size sendBias : ℕ} {chunkBytes : ℤ} {a : DirectCall}
    (h : alltoallArgs w nSend nRecv size sendBias none chunkBytes = .ok a) :
    a.Disjoint w ∧ a.recvBase + w * a.bytesPerPeer ≤ size := by
  unfold alltoallArgs at h
  dsimp only [Option.getD_none] at h
  split_ifs at h with h₁ h₂ h₃ h₄
  obtain rfl := Except.ok.inj h
  have hdvd : w * (nSend / w) = nSend :=
    Nat.mul_div_cancel' (Nat.dvd_of_mod_eq_zero (not_not.mp h₃))
  refine ⟨.inl ?_, ?_⟩ <;> simp only [hdvd]
  · exact Nat.le_refl _
  · omega

/-! ### The ranks -/

/-- The calls of a group: their arguments, and the send tensor of every rank. -/
structure Direct where
  world : ℕ
  args : ℕ → DirectCall
  send : ℕ → ℕ → Bytes

/-- Where a rank stands in `alltoall`. Barrier `s < w` ends connection round `s`, barrier `w` ends
the puts. -/
inductive DirectPc
  | stage
  | connect (s : ℕ)
  | barrier (s : ℕ)
  | selfCopy
  | put (dst moved : ℕ)
  | copyOut
  deriving DecidableEq

/-- The locations a rank can be at. -/
def DirectPc.Valid (w b : ℕ) : DirectPc → Prop
  | .connect s => 0 < s ∧ s < w
  | .barrier s => 0 < s ∧ s ≤ w ∧ 1 < w
  | .put dst moved => 1 < w ∧ dst ≤ w ∧ moved ≤ b
  | _ => True

/-- How many barriers of its call a rank has entered. -/
def DirectPc.entered (w : ℕ) : DirectPc → ℕ
  | .stage => 0
  | .connect s => s - 1
  | .barrier s => s
  | .selfCopy | .put _ _ => w - 1
  | .copyOut => w

/-- How many barriers of its call a rank has left. -/
def DirectPc.left (w : ℕ) : DirectPc → ℕ
  | .stage => 0
  | .connect s | .barrier s => s - 1
  | .selfCopy | .put _ _ => w - 1
  | .copyOut => w

theorem DirectPc.entered_le {w b : ℕ} {pc : DirectPc} (h : pc.Valid w b) : pc.entered w ≤ w := by
  cases pc <;> simp only [DirectPc.Valid, DirectPc.entered] at h ⊢ <;> omega

/-- How many bytes of its block for rank `i` rank `j` has delivered in this call. -/
def DirectPc.delivered (w b j i : ℕ) : DirectPc → ℕ
  | .put dst moved => if i = j ∨ i < dst then b else if i = dst then moved else 0
  | .barrier s => if s = w then b else 0
  | .copyOut => b
  | _ => 0

/-- The `ConnBuffer` and the location of every rank, the call it is in, how many barriers it has
entered, and the receive tensor of each of its calls. -/
structure DirectState where
  mem : ℕ → Bytes
  pc : ℕ → DirectPc
  call : ℕ → ℕ
  entered : ℕ → ℕ
  out : ℕ → ℕ → Bytes

namespace DirectState

variable (st : DirectState)

/-- Continue rank `r` at `pc`. -/
def goto (r : ℕ) (pc : DirectPc) : DirectState := { st with pc := Function.update st.pc r pc }

/-- Write `n` bytes at `off` of the `ConnBuffer` of rank `r`. -/
def write (r off : ℕ) (src : Bytes) (n : ℕ) : DirectState :=
  { st with mem := Function.update st.mem r (blit (st.mem r) off src n) }

/-- Rank `r` enters barrier `s` of its call. -/
def enter (r s : ℕ) : DirectState :=
  { st with
    entered := Function.update st.entered r (st.entered r + 1)
    pc := Function.update st.pc r (.barrier s) }

/-- Rank `r` returns from its call, with `out` in its receive tensor. -/
def finish (r : ℕ) (out : Bytes) : DirectState :=
  { st with
    out := Function.update st.out r (Function.update (st.out r) (st.call r) out)
    call := Function.update st.call r (st.call r + 1)
    pc := Function.update st.pc r .stage }

end DirectState

/-- All ranks enter their first call; `mem` is what their buffers hold. -/
def DirectState.start (mem : ℕ → Bytes) : DirectState where
  mem := mem
  pc := fun _ => .stage
  call := fun _ => 0
  entered := fun _ => 0
  out := fun _ _ _ => 0

namespace Direct

variable (c : Direct)

/-- `n` of the current chunk. -/
def chunkAt (k moved : ℕ) : ℕ :=
  (min (c.args k).chunkBytes ((c.args k).bytesPerPeer - moved)).toNat

/-- The size of the send tensor. -/
def total (k : ℕ) : ℕ := c.world * (c.args k).bytesPerPeer

/-- `buf.put` of the send tensor. -/
def stage (st : DirectState) (r : ℕ) : DirectState :=
  let k := st.call r
  st.write r (c.args k).sendBase (c.send k r) (c.total k)

/-- `_copy_self_if_needed`. -/
def copySelf (st : DirectState) (r : ℕ) : DirectState :=
  let a := c.args (st.call r)
  if a.bytesPerPeer = 0 then st
  else st.write r (a.recvBase + r * a.bytesPerPeer)
    (fun b => st.mem r (a.sendBase + r * a.bytesPerPeer + b)) a.bytesPerPeer

/-- `put_remote` of the current chunk to rank `dst`. -/
def putRemote (st : DirectState) (r dst moved : ℕ) : DirectState :=
  let a := c.args (st.call r)
  st.write dst (a.recvBase + r * a.bytesPerPeer + moved)
    (fun b => st.mem r (a.sendBase + dst * a.bytesPerPeer + moved + b))
    (c.chunkAt (st.call r) moved)

/-- `buf.get_into` of the receive region. -/
def received (st : DirectState) (r : ℕ) : Bytes := fun b =>
  st.mem r ((c.args (st.call r)).recvBase + b)

/-- What follows barrier `s`. -/
def afterBarrier (s : ℕ) : DirectPc :=
  if s + 1 < c.world then .connect (s + 1) else if s < c.world then .selfCopy else .copyOut

/-- Rank `r` makes its next move. A group of one rank has neither connections nor barriers. A put of
a negative size raises, and the rank makes no more moves. -/
def step (st : DirectState) (r : ℕ) : Option DirectState :=
  if r < c.world then
    match st.pc r with
    | .stage =>
      some ((c.stage st r).goto r (if c.world ≤ 1 then .selfCopy else .connect 1))
    | .connect s => some (st.enter r s)
    | .barrier s =>
      if ∀ q < c.world, st.entered r ≤ st.entered q then some (st.goto r (c.afterBarrier s))
      else none
    | .selfCopy =>
      some ((c.copySelf st r).goto r (if c.world ≤ 1 then .copyOut else .put 0 0))
    | .put dst moved =>
      if dst < c.world then
        if dst = r then some (st.goto r (.put (dst + 1) 0))
        else if moved < (c.args (st.call r)).bytesPerPeer then
          if 0 ≤ (c.args (st.call r)).chunkBytes then
            some ((c.putRemote st r dst moved).goto r
              (.put dst (moved + c.chunkAt (st.call r) moved)))
          else none
        else some (st.goto r (.put (dst + 1) 0))
      else some (st.enter r c.world)
    | .copyOut => some (st.finish r (c.received st r))
  else none

/-- **Block transpose.** Receive block `j` of rank `i` from call `k` is the send block `i` that rank
`j` passed to call `k`. -/
def Transposed (st : DirectState) (i k : ℕ) : Prop :=
  ∀ j < c.world, ∀ a < (c.args k).bytesPerPeer,
    st.out i k (j * (c.args k).bytesPerPeer + a) =
      c.send k j (i * (c.args k).bytesPerPeer + a)

/-- The moves of rank `r`. -/
inductive Move (c : Direct) (st : DirectState) (r : ℕ) : DirectState → Prop
  | stage : st.pc r = .stage →
      Move c st r ((c.stage st r).goto r (if c.world ≤ 1 then .selfCopy else .connect 1))
  | connect {s : ℕ} : st.pc r = .connect s → Move c st r (st.enter r s)
  | barrier {s : ℕ} : st.pc r = .barrier s → (∀ q < c.world, st.entered r ≤ st.entered q) →
      Move c st r (st.goto r (c.afterBarrier s))
  | selfCopy : st.pc r = .selfCopy →
      Move c st r ((c.copySelf st r).goto r (if c.world ≤ 1 then .copyOut else .put 0 0))
  | next {dst moved : ℕ} : st.pc r = .put dst moved → dst < c.world →
      (dst = r ∨ (c.args (st.call r)).bytesPerPeer ≤ moved) →
      Move c st r (st.goto r (.put (dst + 1) 0))
  | put {dst moved : ℕ} : st.pc r = .put dst moved → dst < c.world → dst ≠ r →
      moved < (c.args (st.call r)).bytesPerPeer → 0 ≤ (c.args (st.call r)).chunkBytes →
      Move c st r ((c.putRemote st r dst moved).goto r
        (.put dst (moved + c.chunkAt (st.call r) moved)))
  | finish {dst moved : ℕ} : st.pc r = .put dst moved → c.world ≤ dst →
      Move c st r (st.enter r c.world)
  | copyOut : st.pc r = .copyOut → Move c st r (st.finish r (c.received st r))

variable {c} {st st' : DirectState} {r q : ℕ}

/-- What a step does, by the place where the rank was. -/
theorem move_of_step (hs : c.step st r = some st') : r < c.world ∧ c.Move st r st' := by
  have hr : r < c.world := by
    by_contra hr
    rw [step, if_neg hr] at hs
    cases hs
  refine ⟨hr, ?_⟩
  rw [step, if_pos hr] at hs
  cases hpc : st.pc r <;> simp only [hpc] at hs
  case stage => cases hs; exact .stage hpc
  case connect s => cases hs; exact .connect hpc
  case barrier s =>
    split_ifs at hs with hb
    cases hs
    exact .barrier hpc hb
  case selfCopy => cases hs; exact .selfCopy hpc
  case put dst moved =>
    split_ifs at hs with hdst hself hmoved hchunk <;> cases hs
    · exact .next hpc hdst (.inl hself)
    · exact .put hpc hdst hself hmoved hchunk
    · exact .next hpc hdst (.inr (Nat.not_lt.mp hmoved))
    · exact .finish hpc (Nat.not_lt.mp hdst)
  case copyOut => cases hs; exact .copyOut hpc

/-! ### What the barriers guarantee -/

/-- Every call has `w` barriers, and no rank has left a barrier that another has not entered. -/
structure SyncInv (c : Direct) (st : DirectState) : Prop where
  valid : ∀ r < c.world, (st.pc r).Valid c.world (c.args (st.call r)).bytesPerPeer
  entered : 1 < c.world → ∀ r < c.world,
    st.entered r = st.call r * c.world + (st.pc r).entered c.world
  left_le : 1 < c.world → ∀ r < c.world, ∀ q < c.world,
    st.call r * c.world + (st.pc r).left c.world ≤ st.entered q

/-- Barrier counts of calls: with more barriers left than the other has entered, a rank is not in
an earlier call. -/
theorem call_le {w k k' x y : ℕ} (h : k * w + x ≤ k' * w + y) (hy : y < w + x) : k ≤ k' := by
  by_contra hlt
  have hmul := Nat.mul_le_mul_right w (Nat.not_le.mp hlt)
  rw [Nat.succ_mul] at hmul
  omega

namespace SyncInv

theorem start (c : Direct) (mem : ℕ → Bytes) : SyncInv c (.start mem) where
  valid _ _ := trivial
  entered _ _ _ := by simp [DirectState.start, DirectPc.entered]
  left_le _ _ _ _ _ := by simp [DirectState.start, DirectPc.left]

/-- A rank that puts finds every other rank in the same call, with its tensor staged. -/
theorem same_call_of_put (h : SyncInv c st) (hr : r < c.world) (hq : q < c.world)
    {dst moved : ℕ} (hpc : st.pc r = .put dst moved) :
    st.call q = st.call r ∧ st.pc q ≠ .stage := by
  have hw : 1 < c.world := by
    have := h.valid r hr
    rw [hpc] at this
    exact this.1
  have h₁ := h.left_le hw r hr q hq
  have h₂ := h.left_le hw q hq r hr
  rw [h.entered hw q hq, hpc, DirectPc.left] at h₁
  rw [h.entered hw r hr, hpc, DirectPc.entered] at h₂
  have hle := DirectPc.entered_le (h.valid q hq)
  have hk₁ := call_le h₁ (by omega)
  have hk₂ := call_le h₂ (by omega)
  have hk : st.call q = st.call r := by omega
  refine ⟨hk, fun hstage => ?_⟩
  rw [hk, hstage, DirectPc.entered] at h₁
  omega

/-- A rank that copies out finds every other rank past its puts. -/
theorem finished_of_copyOut (h : SyncInv c st) (hw : 1 < c.world) (hr : r < c.world)
    (hq : q < c.world) (hpc : st.pc r = .copyOut) :
    st.call r < st.call q ∨ st.call q = st.call r ∧
      (st.pc q = .copyOut ∨ st.pc q = .barrier c.world) := by
  have h₁ := h.left_le hw r hr q hq
  have hv := h.valid q hq
  rw [h.entered hw q hq, hpc, DirectPc.left] at h₁
  have hle := DirectPc.entered_le hv
  have hk := call_le h₁ (by omega)
  obtain hlt | heq := Nat.lt_or_eq_of_le hk
  · exact .inl hlt
  · refine .inr ⟨heq.symm, ?_⟩
    rw [← heq] at h₁
    cases hpq : st.pc q <;> simp only [hpq, DirectPc.entered, DirectPc.Valid] at h₁ hv
    case barrier s =>
      obtain rfl : s = c.world := by omega
      exact .inr rfl
    case copyOut => exact .inl rfl
    all_goals omega

/-- A rank that has not staged its tensor finds no other rank at its puts of the same call. -/
theorem unstarted_of_stage (h : SyncInv c st) (hw : 1 < c.world) (hr : r < c.world)
    (hq : q < c.world) (hpc : st.pc r = .stage) :
    st.call q < st.call r ∨ st.call q = st.call r ∧ (st.pc q).left c.world = 0 := by
  have h₁ := h.left_le hw q hq r hr
  rw [h.entered hw r hr, hpc, DirectPc.entered] at h₁
  have hk := call_le h₁ (by omega)
  obtain hlt | heq := Nat.lt_or_eq_of_le hk
  · exact .inl hlt
  · refine .inr ⟨heq, ?_⟩
    rw [heq] at h₁
    omega

/-- Only the rank that moves changes where it stands. -/
theorem of_move {pc' : DirectPc} (h : SyncInv c st) (call' n : ℕ)
    (hpc : st'.pc = Function.update st.pc r pc')
    (hcall : st'.call = Function.update st.call r call')
    (hent : st'.entered = Function.update st.entered r n)
    (hv : pc'.Valid c.world (c.args call').bytesPerPeer)
    (hn : 1 < c.world → n = call' * c.world + pc'.entered c.world)
    (hmono : st.entered r ≤ n)
    (hleft : 1 < c.world → ∀ q < c.world, call' * c.world + pc'.left c.world ≤ st.entered q ∨
      q = r ∧ pc'.left c.world ≤ pc'.entered c.world) : SyncInv c st' := by
  have hge : ∀ q, st.entered q ≤ st'.entered q := by
    intro q
    rw [hent]
    by_cases hq : q = r
    · subst hq
      rwa [Function.update_self]
    · rw [Function.update_of_ne hq]
  refine ⟨fun q hq => ?_, fun hw q hq => ?_, fun hw p hp q hq => ?_⟩
  · rw [hpc, hcall]
    by_cases hqr : q = r
    · subst hqr
      simpa using hv
    · simpa [hqr] using h.valid q hq
  · rw [hpc, hcall, hent]
    by_cases hqr : q = r
    · subst hqr
      simpa using hn hw
    · simpa [hqr] using h.entered hw q hq
  · rw [hpc, hcall]
    by_cases hpr : p = r
    · subst hpr
      simp only [Function.update_self]
      obtain hle | ⟨rfl, hle⟩ := hleft hw q hq
      · exact Nat.le_trans hle (hge q)
      · rw [hent, Function.update_self, hn hw]
        omega
    · simp only [Function.update_of_ne hpr]
      exact Nat.le_trans (h.left_le hw p hp q hq) (hge q)

/-- The rank moves on within its call without entering or leaving a barrier. -/
theorem of_goto {pc' : DirectPc} (h : SyncInv c st) (hr : r < c.world)
    (hpc : st'.pc = Function.update st.pc r pc') (hcall : st'.call = st.call)
    (hent : st'.entered = st.entered)
    (hv : pc'.Valid c.world (c.args (st.call r)).bytesPerPeer)
    (heq : 1 < c.world → pc'.entered c.world = (st.pc r).entered c.world ∧
      pc'.left c.world = (st.pc r).left c.world) : SyncInv c st' := by
  refine h.of_move (st.call r) (st.entered r) hpc (hcall.trans (Function.update_eq_self r _).symm)
    (hent.trans (Function.update_eq_self r _).symm) hv (fun hw => ?_) (Nat.le_refl _)
    fun hw q hq => .inl ?_
  · rw [(heq hw).1]
    exact h.entered hw r hr
  · rw [(heq hw).2]
    exact h.left_le hw r hr q hq

/-- The rank enters its next barrier. -/
theorem of_enter {pc' : DirectPc} (h : SyncInv c st) (hr : r < c.world)
    (hpc : st'.pc = Function.update st.pc r pc') (hcall : st'.call = st.call)
    (hent : st'.entered = Function.update st.entered r (st.entered r + 1))
    (hv : pc'.Valid c.world (c.args (st.call r)).bytesPerPeer)
    (heq : 1 < c.world → pc'.entered c.world = (st.pc r).entered c.world + 1 ∧
      pc'.left c.world = (st.pc r).left c.world) : SyncInv c st' := by
  refine h.of_move (st.call r) (st.entered r + 1) hpc
    (hcall.trans (Function.update_eq_self r _).symm) hent hv (fun hw => ?_) (Nat.le_succ _)
    fun hw q hq => .inl ?_
  · rw [(heq hw).1, h.entered hw r hr, Nat.add_assoc]
  · rw [(heq hw).2]
    exact h.left_le hw r hr q hq

@[simp] theorem copySelf_pc : (c.copySelf st r).pc = st.pc := by
  unfold Direct.copySelf
  dsimp only
  split_ifs <;> rfl

@[simp] theorem copySelf_call : (c.copySelf st r).call = st.call := by
  unfold Direct.copySelf
  dsimp only
  split_ifs <;> rfl

@[simp] theorem copySelf_entered : (c.copySelf st r).entered = st.entered := by
  unfold Direct.copySelf
  dsimp only
  split_ifs <;> rfl

/-- **One move** keeps the ranks in step. -/
theorem move (h : SyncInv c st) (hr : r < c.world) (hm : c.Move st r st') : SyncInv c st' := by
  have hv := h.valid r hr
  cases hm with
  | stage hpc =>
    refine h.of_goto hr rfl rfl rfl ?_ fun hw => ?_
    · split_ifs with hw
      · trivial
      · exact ⟨Nat.one_pos, by omega⟩
    · rw [if_neg (by omega), hpc]
      exact ⟨rfl, rfl⟩
  | @connect s hpc =>
    rw [hpc] at hv
    obtain ⟨hs, hsw⟩ := hv
    refine h.of_enter hr rfl rfl rfl ⟨hs, by omega, by omega⟩ fun hw => ?_
    rw [hpc]
    exact ⟨by simp only [DirectPc.entered]; omega, rfl⟩
  | @barrier s hpc hall =>
    rw [hpc] at hv
    obtain ⟨hs, hsw, hw⟩ := hv
    have hent := h.entered hw r hr
    rw [hpc, DirectPc.entered] at hent
    obtain ⟨hvalid, he, hl⟩ : (c.afterBarrier s).Valid c.world (c.args (st.call r)).bytesPerPeer ∧
        (c.afterBarrier s).entered c.world = s ∧ (c.afterBarrier s).left c.world = s := by
      unfold Direct.afterBarrier
      split_ifs with h₁ h₂
      · exact ⟨⟨Nat.succ_pos _, h₁⟩, rfl, rfl⟩
      · refine ⟨trivial, ?_, ?_⟩ <;> simp only [DirectPc.entered, DirectPc.left] <;> omega
      · refine ⟨trivial, ?_, ?_⟩ <;> simp only [DirectPc.entered, DirectPc.left] <;> omega
    refine h.of_move (st.call r) (st.entered r) rfl (Function.update_eq_self r _).symm
      (Function.update_eq_self r _).symm
      hvalid (fun _ => by rw [he, hent]) (Nat.le_refl _) fun _ q hq => .inl ?_
    -- the guard of the barrier
    rw [hl, ← hent]
    exact hall q hq
  | selfCopy hpc =>
    refine h.of_goto hr (congrArg (Function.update · r _) copySelf_pc) copySelf_call
      copySelf_entered ?_ fun hw => ?_
    · split_ifs with hw
      · trivial
      · exact ⟨by omega, Nat.zero_le _, Nat.zero_le _⟩
    · rw [if_neg (by omega), hpc]
      exact ⟨rfl, rfl⟩
  | next hpc hdst _ =>
    rw [hpc] at hv
    refine h.of_goto hr rfl rfl rfl ⟨hv.1, hdst, Nat.zero_le _⟩ fun hw => ?_
    rw [hpc]
    exact ⟨rfl, rfl⟩
  | put hpc hdst hne hmoved _ =>
    rw [hpc] at hv
    refine h.of_goto hr rfl rfl rfl ⟨hv.1, hv.2.1, ?_⟩ fun hw => ?_
    · rw [Direct.chunkAt]
      omega
    · rw [hpc]
      exact ⟨rfl, rfl⟩
  | finish hpc hdst =>
    rw [hpc] at hv
    refine h.of_enter hr rfl rfl rfl ⟨by omega, Nat.le_refl _, hv.1⟩ fun hw => ?_
    rw [hpc]
    exact ⟨by simp only [DirectPc.entered]; omega, rfl⟩
  | copyOut hpc =>
    refine h.of_move (st.call r + 1) (st.entered r) rfl rfl (Function.update_eq_self r _).symm
      trivial (fun hw => ?_)
      (Nat.le_refl _) fun hw q hq => .inl ?_
    · rw [h.entered hw r hr, hpc, DirectPc.entered, DirectPc.entered, Nat.succ_mul, Nat.add_zero]
    · have := h.left_le hw r hr q hq
      rw [hpc, DirectPc.left] at this
      rw [DirectPc.left, Nat.succ_mul]
      omega

end SyncInv

/-! ### What has arrived -/

/-- How many bytes of its block for rank `i` in call `k` rank `j` has delivered. -/
def delivered (c : Direct) (st : DirectState) (k j i : ℕ) : ℕ :=
  if st.call j = k then (st.pc j).delivered c.world (c.args k).bytesPerPeer j i
  else if k < st.call j then (c.args k).bytesPerPeer else 0

/-- The tensors are staged, the delivered bytes are in the receive regions, and the calls that
have returned are block transposes. -/
structure DataInv (c : Direct) (st : DirectState) : Prop where
  send : ∀ i < c.world, st.pc i ≠ .stage → ∀ a < c.total (st.call i),
    st.mem i ((c.args (st.call i)).sendBase + a) = c.send (st.call i) i a
  recv : ∀ i < c.world, ∀ j < c.world, ∀ a < c.delivered st (st.call i) j i,
    st.mem i ((c.args (st.call i)).recvBase + (j * (c.args (st.call i)).bytesPerPeer + a)) =
      c.send (st.call i) j (i * (c.args (st.call i)).bytesPerPeer + a)
  out : ∀ i < c.world, ∀ k < st.call i, c.Transposed st i k

theorem Transposed.of_out {i k : ℕ} (h : c.Transposed st i k) (hout : st'.out = st.out) :
    c.Transposed st' i k := by
  intro j hj a ha
  rw [hout]
  exact h j hj a ha

/-- A rank whose tensor is staged was staged before another call that is not `stage`. -/
theorem ne_stage_of_move {pc' : DirectPc} {i : ℕ} (hpc : st'.pc = Function.update st.pc r pc')
    (hstage : st.pc r ≠ .stage) (hne : st'.pc i ≠ .stage) : st.pc i ≠ .stage := by
  by_cases hir : i = r
  · exact hir ▸ hstage
  · rwa [hpc, Function.update_of_ne hir] at hne

/-- A byte of a block lies in the region. -/
theorem block_lt {w b i a : ℕ} (hi : i < w) (ha : a < b) : i * b + a < w * b := by
  have hle := Nat.mul_le_mul_right b (Nat.succ_le_of_lt hi)
  rw [Nat.succ_mul] at hle
  omega

/-- A byte of one block lies outside every part of another. -/
theorem block_ne {b j r a m n : ℕ} (hne : j ≠ r) (ha : a < b) (hm : m + n ≤ b) :
    j * b + a < r * b + m ∨ r * b + m + n ≤ j * b + a := by
  obtain hlt | hlt := Nat.lt_or_gt_of_ne hne
  · have hle := Nat.mul_le_mul_right b (Nat.succ_le_of_lt hlt)
    rw [Nat.succ_mul] at hle
    omega
  · have hle := Nat.mul_le_mul_right b (Nat.succ_le_of_lt hlt)
    rw [Nat.succ_mul] at hle
    omega

theorem delivered_le (h : SyncInv c st) {k j i : ℕ} (hj : j < c.world) :
    c.delivered st k j i ≤ (c.args k).bytesPerPeer := by
  unfold delivered
  split_ifs with hk
  · have hv := h.valid j hj
    rw [hk] at hv
    cases hpc : st.pc j <;> simp only [hpc, DirectPc.Valid, DirectPc.delivered] at hv ⊢
    case put dst moved => split_ifs <;> omega
    case barrier s => split_ifs <;> omega
    all_goals omega
  · exact Nat.le_refl _
  · exact Nat.zero_le _

/-- Before a rank has staged its tensor, nothing of the call has been delivered to it. -/
theorem delivered_of_stage (h : SyncInv c st) (hr : r < c.world) (hpc : st.pc r = .stage) {j : ℕ}
    (hj : j < c.world) : c.delivered st (st.call r) j r = 0 := by
  unfold delivered
  by_cases hjr : j = r
  · subst hjr
    rw [if_pos rfl, hpc]
    rfl
  · obtain hlt | ⟨heq, hleft⟩ := h.unstarted_of_stage (by omega) hr hj hpc
    · rw [if_neg (by omega), if_neg (by omega)]
    · rw [if_pos heq]
      have hv := h.valid j hj
      cases hpj : st.pc j <;>
        simp only [hpj, DirectPc.left, DirectPc.Valid, DirectPc.delivered] at hleft hv ⊢
      case barrier s => rw [if_neg (by omega)]
      all_goals omega

/-- A rank that copies out has received every block. -/
theorem delivered_of_copyOut (h : SyncInv c st) (hr : r < c.world) (hpc : st.pc r = .copyOut)
    {j : ℕ} (hj : j < c.world) :
    c.delivered st (st.call r) j r = (c.args (st.call r)).bytesPerPeer := by
  unfold delivered
  by_cases hjr : j = r
  · subst hjr
    rw [if_pos rfl, hpc, DirectPc.delivered]
  · obtain hlt | ⟨heq, hp | hp⟩ := h.finished_of_copyOut (by omega) hr hj hpc
    · rw [if_neg (by omega), if_pos hlt]
    · rw [if_pos heq, hp, DirectPc.delivered]
    · rw [if_pos heq, hp, DirectPc.delivered, if_pos rfl]

/-- Where a rank that moved within its call stands counts for its own blocks only. -/
theorem delivered_goto {pc' : DirectPc} (hpc : st'.pc = Function.update st.pc r pc')
    (hcall : st'.call = st.call) (k j i : ℕ) :
    c.delivered st' k j i =
      if j = r ∧ st.call r = k then pc'.delivered c.world (c.args k).bytesPerPeer r i
      else c.delivered st k j i := by
  unfold delivered
  rw [hcall, hpc]
  by_cases hj : j = r
  · subst hj
    rw [Function.update_self]
    split_ifs <;> simp_all
  · simp only [Function.update_of_ne hj, hj, false_and, if_false]

/-- A rank that returns has delivered its blocks. -/
theorem delivered_finish (hpc : st.pc r = .copyOut) (out : Bytes) (k j i : ℕ) :
    c.delivered (st.finish r out) k j i = c.delivered st k j i := by
  unfold delivered
  by_cases hj : j = r
  · subst hj
    simp only [DirectState.finish, Function.update_self, hpc, DirectPc.delivered]
    split_ifs <;> omega
  · simp only [DirectState.finish, Function.update_of_ne hj]

/-- A write of part `[m, m + n)` of receive block `r` of rank `q`. -/
structure BlockWrite (c : Direct) (st : DirectState) (q r m n : ℕ) (src : Bytes) : Prop where
  rank : r < c.world
  inside : m + n ≤ (c.args (st.call q)).bytesPerPeer
  disjoint : (c.args (st.call q)).Disjoint c.world

namespace BlockWrite

variable {m n : ℕ} {src : Bytes}

/-- The memory after the write. -/
abbrev after (_ : BlockWrite c st q r m n src) : ℕ → Bytes :=
  (st.write q ((c.args (st.call q)).recvBase + (r * (c.args (st.call q)).bytesPerPeer + m)) src
    n).mem

theorem send_eq (h : BlockWrite c st q r m n src) {i a : ℕ} (ha : a < c.total (st.call i)) :
    h.after i ((c.args (st.call i)).sendBase + a) =
      st.mem i ((c.args (st.call i)).sendBase + a) := by
  refine update_blit_of_not_mem fun hi => ?_
  subst hi
  have hin := h.inside
  have hle := Nat.mul_le_mul_right (c.args (st.call i)).bytesPerPeer (Nat.succ_le_of_lt h.rank)
  rw [Nat.succ_mul] at hle
  rw [total] at ha
  obtain hd | hd := h.disjoint <;> omega

theorem recv_eq (h : BlockWrite c st q r m n src) {i j a : ℕ} (hne : i ≠ q ∨ j ≠ r)
    (ha : a < (c.args (st.call i)).bytesPerPeer) :
    h.after i ((c.args (st.call i)).recvBase + (j * (c.args (st.call i)).bytesPerPeer + a)) =
      st.mem i ((c.args (st.call i)).recvBase + (j * (c.args (st.call i)).bytesPerPeer + a)) := by
  refine update_blit_of_not_mem fun hi => ?_
  subst hi
  have := block_ne (hne.resolve_left fun hii => hii rfl) ha h.inside
  omega

theorem written (h : BlockWrite c st q r m n src) {b : ℕ} (hb : b < n) :
    h.after q ((c.args (st.call q)).recvBase +
      (r * (c.args (st.call q)).bytesPerPeer + (m + b))) = src b := by
  simp only [after, DirectState.write, Function.update_self]
  rw [← Nat.add_assoc (r * _) m b, ← Nat.add_assoc _ (r * _ + m) b]
  exact blit_apply_add hb

theorem kept (h : BlockWrite c st q r m n src) {a : ℕ} (ha : a < m) :
    h.after q ((c.args (st.call q)).recvBase + (r * (c.args (st.call q)).bytesPerPeer + a)) =
      st.mem q ((c.args (st.call q)).recvBase + (r * (c.args (st.call q)).bytesPerPeer + a)) :=
  update_blit_of_not_mem fun _ => by omega

end BlockWrite

namespace DataInv

theorem start (c : Direct) (mem : ℕ → Bytes) : DataInv c (.start mem) where
  send _ _ hne := absurd rfl hne
  recv i hi j hj a ha := by
    rw [delivered_of_stage (SyncInv.start c mem) hi rfl hj] at ha
    exact absurd ha (Nat.not_lt_zero a)
  out _ _ _ hk := absurd hk (Nat.not_lt_zero _)

variable {pc' : DirectPc}

/-- A rank moves on without a write. -/
theorem of_goto (h : DataInv c st) (hmem : st'.mem = st.mem)
    (hpc : st'.pc = Function.update st.pc r pc') (hcall : st'.call = st.call)
    (hout : st'.out = st.out) (hstage : st.pc r ≠ .stage)
    (hle : ∀ i < c.world, pc'.delivered c.world (c.args (st.call r)).bytesPerPeer r i ≤
      (st.pc r).delivered c.world (c.args (st.call r)).bytesPerPeer r i) : DataInv c st' where
  send i hi hne := by
    rw [hmem, hcall]
    exact h.send i hi (ne_stage_of_move hpc hstage hne)
  recv i hi j hj a ha := by
    rw [hcall, delivered_goto hpc hcall] at ha
    rw [hmem, hcall]
    refine h.recv i hi j hj a ?_
    split_ifs at ha with hjr
    · obtain ⟨rfl, hk⟩ := hjr
      rw [delivered, if_pos hk, ← hk]
      rw [← hk] at ha
      exact Nat.lt_of_lt_of_le ha (hle i hi)
    · exact ha
  out i hi k hk := by
    rw [hcall] at hk
    exact (h.out i hi k hk).of_out hout

/-- A rank moves on after a write of part `[m, m + n)` of its block at rank `q`. -/
theorem of_blockWrite {m n : ℕ} {src : Bytes} (h : DataInv c st) (hs : SyncInv c st)
    (hw : BlockWrite c st q r m n src) (hmem : st'.mem = hw.after)
    (hpc : st'.pc = Function.update st.pc r pc') (hcall : st'.call = st.call)
    (hout : st'.out = st.out) (hstage : st.pc r ≠ .stage) (hcq : st.call q = st.call r)
    (hle : ∀ i < c.world, i ≠ q → pc'.delivered c.world (c.args (st.call r)).bytesPerPeer r i ≤
      (st.pc r).delivered c.world (c.args (st.call r)).bytesPerPeer r i)
    (hold : m ≤ (st.pc r).delivered c.world (c.args (st.call r)).bytesPerPeer r q)
    (hnew : pc'.delivered c.world (c.args (st.call r)).bytesPerPeer r q ≤ m + n)
    (hsrc : ∀ b < n, src b =
      c.send (st.call q) r (q * (c.args (st.call q)).bytesPerPeer + (m + b))) :
    DataInv c st' where
  send i hi hne a ha := by
    rw [hcall] at ha ⊢
    rw [hmem, hw.send_eq ha]
    exact h.send i hi (ne_stage_of_move hpc hstage hne) a ha
  recv i hi j hj a ha := by
    rw [hcall, delivered_goto hpc hcall] at ha
    rw [hmem, hcall]
    by_cases hblock : i = q ∧ j = r
    · -- the block that was written to: old bytes below `m`, new ones from there
      obtain ⟨rfl, rfl⟩ := hblock
      rw [if_pos ⟨rfl, hcq.symm⟩, hcq] at ha
      obtain hlt | hge := Nat.lt_or_ge a m
      · rw [hw.kept hlt]
        refine h.recv i hi j hj a ?_
        rw [delivered, if_pos hcq.symm, hcq]
        exact Nat.lt_of_lt_of_le hlt hold
      · obtain ⟨b, rfl⟩ := Nat.exists_eq_add_of_le hge
        have hb : b < n := by omega
        rw [hw.written hb, hsrc b hb]
    · have hne : i ≠ q ∨ j ≠ r := not_and_or.mp hblock
      have hdel : a < c.delivered st (st.call i) j i := by
        split_ifs at ha with hjr
        · obtain ⟨rfl, hk⟩ := hjr
          rw [delivered, if_pos hk, ← hk]
          rw [← hk] at ha
          exact Nat.lt_of_lt_of_le ha (hle i hi (hne.resolve_right fun hj => hj rfl))
        · exact ha
      rw [hw.recv_eq hne (Nat.lt_of_lt_of_le hdel (delivered_le hs hj))]
      exact h.recv i hi j hj a hdel
  out i hi k hk := by
    rw [hcall] at hk
    exact (h.out i hi k hk).of_out hout

/-- A rank stages its tensor. -/
theorem stage (h : DataInv c st) (hs : SyncInv c st) (hr : r < c.world) (hpc : st.pc r = .stage)
    (hzero : ∀ w b j i, pc'.delivered w b j i = 0) :
    DataInv c ((c.stage st r).goto r pc') where
  send i hi hne a ha := by
    simp only [Direct.stage, DirectState.write, DirectState.goto] at hne ha ⊢
    by_cases hir : i = r
    · subst hir
      rw [Function.update_self]
      exact blit_apply_add ha
    · rw [Function.update_of_ne hir]
      rw [Function.update_of_ne hir] at hne
      exact h.send i hi hne a ha
  recv i hi j hj a ha := by
    have hpc' : ((c.stage st r).goto r pc').pc = Function.update st.pc r pc' := rfl
    have hcall : ((c.stage st r).goto r pc').call = st.call := rfl
    have hdel : c.delivered ((c.stage st r).goto r pc') (st.call i) j i ≤
        c.delivered st (st.call i) j i := by
      rw [delivered_goto hpc' hcall]
      split_ifs
      · rw [hzero]
        exact Nat.zero_le _
      · exact Nat.le_refl _
    have ha' := Nat.lt_of_lt_of_le ha hdel
    by_cases hir : i = r
    · -- nothing of this call has been put to the rank yet
      subst hir
      rw [delivered_of_stage hs hi hpc hj] at ha'
      exact absurd ha' (Nat.not_lt_zero a)
    · simp only [Direct.stage, DirectState.write, DirectState.goto, Function.update_of_ne hir]
      exact h.recv i hi j hj a ha'
  out := h.out

/-- A rank copies its own block. -/
theorem selfCopy (h : DataInv c st) (hs : SyncInv c st)
    (hd : (c.args (st.call r)).Disjoint c.world) (hr : r < c.world) (hpc : st.pc r = .selfCopy) :
    DataInv c ((c.copySelf st r).goto r (if c.world ≤ 1 then .copyOut else .put 0 0)) := by
  have hstage : st.pc r ≠ .stage := by simp [hpc]
  -- no other rank has been put anything
  have hother : ∀ i < c.world, i ≠ r → ∀ b,
      (if c.world ≤ 1 then DirectPc.copyOut else .put 0 0).delivered c.world b r i = 0 := by
    intro i hi hne b
    rw [if_neg (by omega), DirectPc.delivered, if_neg (by omega), ite_self]
  have hself : ∀ b,
      (if c.world ≤ 1 then DirectPc.copyOut else .put 0 0).delivered c.world b r r = b := by
    intro b
    split_ifs
    · rfl
    · rw [DirectPc.delivered, if_pos (.inl rfl)]
  by_cases hb : (c.args (st.call r)).bytesPerPeer = 0
  · have hst : c.copySelf st r = st := if_pos hb
    rw [hst]
    refine h.of_goto rfl rfl rfl rfl hstage fun i hi => ?_
    by_cases hir : i = r
    · rw [hir, hself, hb]
      exact Nat.zero_le _
    · rw [hother i hi hir]
      exact Nat.zero_le _
  · have hw : BlockWrite c st r r 0 (c.args (st.call r)).bytesPerPeer fun b => st.mem r
        ((c.args (st.call r)).sendBase + r * (c.args (st.call r)).bytesPerPeer + b) :=
      ⟨hr, by omega, hd⟩
    refine h.of_blockWrite hs hw ?_ (congrArg (Function.update · r _) SyncInv.copySelf_pc)
      SyncInv.copySelf_call ?_ hstage rfl ?_ (Nat.zero_le _) ?_ ?_
    · simp only [DirectState.goto, Direct.copySelf, if_neg hb, BlockWrite.after, Nat.add_zero]
    · simp only [DirectState.goto, Direct.copySelf, if_neg hb, DirectState.write]
    · intro i hi hne
      rw [hother i hi hne]
      exact Nat.zero_le _
    · rw [hself, Nat.zero_add]
    · intro b hlt
      rw [Nat.zero_add, Nat.add_assoc]
      exact h.send r hr hstage _ (block_lt hr hlt)

/-- A rank puts a chunk. -/
theorem put (h : DataInv c st) (hs : SyncInv c st) (hd : (c.args (st.call r)).Disjoint c.world)
    {dst moved : ℕ} (hr : r < c.world) (hpc : st.pc r = .put dst moved) (hdst : dst < c.world)
    (hne : dst ≠ r) (hmoved : moved < (c.args (st.call r)).bytesPerPeer) :
    DataInv c ((c.putRemote st r dst moved).goto r
      (.put dst (moved + c.chunkAt (st.call r) moved))) := by
  have hstage : st.pc r ≠ .stage := by simp [hpc]
  have hcall : st.call dst = st.call r := (hs.same_call_of_put hr hdst hpc).1
  have hchunk : moved + c.chunkAt (st.call r) moved ≤ (c.args (st.call r)).bytesPerPeer := by
    rw [Direct.chunkAt]
    omega
  have hw : BlockWrite c st dst r moved (c.chunkAt (st.call r) moved) fun b => st.mem r
      ((c.args (st.call r)).sendBase + dst * (c.args (st.call r)).bytesPerPeer + moved + b) :=
    ⟨hr, hcall ▸ hchunk, hcall ▸ hd⟩
  refine h.of_blockWrite hs hw ?_ rfl rfl rfl hstage hcall ?_ ?_ ?_ ?_
  · simp only [DirectState.goto, Direct.putRemote, BlockWrite.after, hcall, Nat.add_assoc]
  · intro i _ hid
    rw [hpc, DirectPc.delivered, DirectPc.delivered, if_neg hid, if_neg hid]
  · rw [hpc, DirectPc.delivered, if_neg (by omega), if_pos rfl]
  · rw [DirectPc.delivered, if_neg (by omega), if_pos rfl]
  · intro b hlt
    rw [hcall]
    simp only [Nat.add_assoc]
    exact h.send r hr hstage _ (block_lt hdst (by omega))

/-- A rank returns from its call. -/
theorem copyOut (h : DataInv c st) (hs : SyncInv c st) (hr : r < c.world)
    (hpc : st.pc r = .copyOut) : DataInv c (st.finish r (c.received st r)) where
  send i hi hne a ha := by
    simp only [DirectState.finish] at hne ha ⊢
    by_cases hir : i = r
    · subst hir
      exact absurd (Function.update_self ..) hne
    · rw [Function.update_of_ne hir] at hne ha ⊢
      exact h.send i hi hne a ha
  recv i hi j hj a ha := by
    by_cases hir : i = r
    · -- nothing of the next call has been put to the rank yet
      subst hir
      rw [delivered_of_stage (hs.move hi (.copyOut hpc)) hi (Function.update_self ..) hj] at ha
      exact absurd ha (Nat.not_lt_zero a)
    · rw [delivered_finish hpc] at ha
      simp only [DirectState.finish, Function.update_of_ne hir] at ha ⊢
      exact h.recv i hi j hj a ha
  out i hi k hk j hj a ha := by
    by_cases hir : i = r
    · subst hir
      simp only [DirectState.finish, Function.update_self] at hk ⊢
      obtain hlt | rfl := Nat.lt_or_eq_of_le (Nat.le_of_lt_succ hk)
      · rw [Function.update_of_ne (Nat.ne_of_lt hlt)]
        exact h.out i hi k hlt j hj a ha
      · rw [Function.update_self]
        refine h.recv i hi j hj a ?_
        rwa [delivered_of_copyOut hs hi hpc hj]
    · simp only [DirectState.finish, Function.update_of_ne hir] at hk ⊢
      exact h.out i hi k hk j hj a ha

/-- **One move** keeps the data where it belongs. -/
theorem move (h : DataInv c st) (hs : SyncInv c st) (hd : ∀ k, (c.args k).Disjoint c.world)
    (hr : r < c.world) (hm : c.Move st r st') : DataInv c st' := by
  have hv := hs.valid r hr
  cases hm with
  | stage hpc =>
    refine h.stage hs hr hpc fun w b j i => ?_
    split_ifs <;> rfl
  | connect hpc =>
    rw [hpc] at hv
    refine h.of_goto rfl rfl rfl rfl (by simp [hpc]) fun i _ => ?_
    rw [DirectPc.delivered, if_neg (Nat.ne_of_lt hv.2)]
    exact Nat.zero_le _
  | @barrier s hpc _ =>
    rw [hpc] at hv
    refine h.of_goto rfl rfl rfl rfl (by simp [hpc]) fun i _ => ?_
    obtain ⟨-, hsw, -⟩ := hv
    rw [hpc, Direct.afterBarrier]
    obtain hlt | rfl := Nat.lt_or_eq_of_le hsw
    · split_ifs <;> exact Nat.zero_le _
    · rw [if_neg (by omega), if_neg (by omega), DirectPc.delivered, DirectPc.delivered,
        if_pos rfl]
  | selfCopy hpc => exact h.selfCopy hs (hd _) hr hpc
  | next hpc hdst hdone =>
    rw [hpc] at hv
    refine h.of_goto rfl rfl rfl rfl (by simp [hpc]) fun i _ => ?_
    rw [hpc, DirectPc.delivered, DirectPc.delivered]
    split_ifs <;> omega
  | put hpc hdst hne hmoved _ => exact h.put hs (hd _) hr hpc hdst hne hmoved
  | finish hpc hdst =>
    refine h.of_goto rfl rfl rfl rfl (by simp [hpc]) fun i hi => ?_
    rw [hpc, DirectPc.delivered, DirectPc.delivered, if_pos rfl, if_pos (by omega)]
  | copyOut hpc => exact h.copyOut hs hr hpc

end DataInv

/-- **The direct alltoall transposes.** However the ranks are interleaved, every call that a rank
has returned from is a block transpose. The calls may differ in their sizes and their offsets;
within one, the send and receive regions must not overlap, which holds for the default `recv_bias`
(`disjoint_of_alltoallArgs`). -/
theorem transposed_of_reach (c : Direct) (mem : ℕ → Bytes) (hd : ∀ k, (c.args k).Disjoint c.world)
    {st : DirectState} (hr : Reach c.step Free (.start mem) st) :
    ∀ i < c.world, ∀ k < st.call i, c.Transposed st i k := by
  have hinv : SyncInv c st ∧ DataInv c st := by
    refine hr.invariant (I := fun s => SyncInv c s ∧ DataInv c s)
      ⟨.start c mem, .start c mem⟩ fun s r t _ ⟨hs, h⟩ _ hst => ?_
    obtain ⟨hrank, hm⟩ := move_of_step hst
    exact ⟨hs.move hrank hm, h.move hs hd hrank hm⟩
  exact hinv.2.out

/-- Two ranks; call `k` moves `k + 1` bytes per peer, with the default `recv_bias`. -/
def pair : Direct where
  world := 2
  args k := ⟨0, 2 * (k + 1), k + 1, 1⟩
  send k r a := UInt8.ofNat (100 * k + 10 * r + a)

/-- Rank 1 returns from two calls while rank 0 is in the second one. -/
theorem transposed_of_reach_pair :
    ∃ st, Reach pair.step Free (.start fun _ _ => 0) st ∧ st.call 1 = 2 ∧
      pair.Transposed st 1 1 := by
  obtain ⟨st, hr, hcall⟩ : ∃ st, Reach pair.step Free (.start fun _ _ => 0) st ∧ st.call 1 = 2 :=
    exists_reach_of_exec (schedule [(2, 0), (8, 1), (6, 0), (4, 1), (4, 0), (7, 1), (7, 0), (2, 1)])
      (by decide +kernel)
  exact ⟨st, hr, hcall, transposed_of_reach pair _ (fun _ => .inl (Nat.le_of_eq (Nat.zero_add _)))
    hr 1 (by decide) 1 (hcall ▸ by decide)⟩

end Direct

end HMC.Collective
