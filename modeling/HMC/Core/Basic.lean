import Mathlib.Algebra.Group.Nat.Even
import Mathlib.Logic.Function.Basic
import Mathlib.Tactic.Common
import HMC.Machine.Tables

/-!
# Words, status codes and bytes

The vocabulary every component shares: the status codes, the names of peers, the fixed-width
arithmetic that the code relies on (`wrap64` for `size_t` and the id counters, `wrap32` for the
`uint32_t` fields), the environment overrides, and a block of memory with its block copy.

Sizes and offsets are natural numbers, and a computation that the code makes in a fixed width is
followed by its `wrap`: where the result is in range the wrap goes away (`wrap64_of_lt`,
`wrap32_of_lt`), and where it is not, the model has the value that the code has. A memory is a
function of all offsets, so a copy outside a buffer is a copy like any other and not excluded by its
type. `blit` is the only way to change one: it writes its range (`blit_apply_add`) and
nothing else (`blit_apply_of_not_mem`).
-/

namespace HMC

/-- `status_t`. -/
inductive Status
  | success
  | error
  | unsupport
  | invalidConfig
  | timeout
  | notFound
  deriving DecidableEq, Repr

/-- `MemoryType`. -/
inductive MemoryType
  | default
  | cpu
  | nvidiaGpu
  | amdGpu
  | cambriconMlu
  | mooreGpu
  deriving DecidableEq, Repr

/-- `ConnType`. -/
inductive ConnType
  | rdma
  | ucx
  | p2p
  deriving DecidableEq, Repr

/-- `PeerKey`: the address under which an endpoint is kept. -/
structure PeerKey where
  ip : String
  port : ℕ
  deriving DecidableEq, Repr

/-! ### Fixed-width arithmetic -/

/-- The value a `size_t` or `uint64_t` holds after a computation with result `x`. -/
def wrap64 (x : ℕ) : ℕ := x % 2 ^ 64

/-- The value a `uint32_t` holds after a computation with result `x`. -/
def wrap32 (x : ℕ) : ℕ := x % 2 ^ 32

theorem wrap64_of_lt {x : ℕ} (h : x < 2 ^ 64) : wrap64 x = x := Nat.mod_eq_of_lt h

theorem wrap32_of_lt {x : ℕ} (h : x < 2 ^ 32) : wrap32 x = x := Nat.mod_eq_of_lt h

theorem wrap32_lt (x : ℕ) : wrap32 x < 2 ^ 32 := Nat.mod_lt _ (by decide)

/-- `envU32OrDefault`: `v` is the number `strtoul` reads from the variable, `none` when the
variable is unset or empty or is not a number; a value above `UINT32_MAX` is ignored. -/
def envU32OrDefault (v : Option ℕ) (defv : ℕ) : ℕ :=
  match v with
  | none => defv
  | some out => if out > 2 ^ 32 - 1 then defv else out

theorem envU32OrDefault_lt {v : Option ℕ} {defv : ℕ} (h : defv < 2 ^ 32) :
    envU32OrDefault v defv < 2 ^ 32 := by
  unfold envU32OrDefault
  split
  · exact h
  · split
    · exact h
    · omega

/-! ### Transfers -/

/-- The two byte ranges that an endpoint hands to its transport, as offsets into the local and
into the peer's buffer. -/
structure Transfer where
  localOff : ℕ
  remoteOff : ℕ
  size : ℕ
  deriving DecidableEq

namespace Transfer

variable {t : Transfer} {localSize remoteSize peerSize : ℕ}

/-- Both ranges lie in their buffers. -/
def Inside (t : Transfer) (localSize peerSize : ℕ) : Prop :=
  t.localOff + t.size ≤ localSize ∧ t.remoteOff + t.size ≤ peerSize

/-- Neither range ends beyond what a `size_t` can hold. -/
def Exact (t : Transfer) : Prop :=
  t.localOff + t.size < 2 ^ 64 ∧ t.remoteOff + t.size < 2 ^ 64

/-- The range checks, as `size_t` sums. -/
def Checked (t : Transfer) (localSize remoteSize : ℕ) : Prop :=
  wrap64 (t.localOff + t.size) ≤ localSize ∧ wrap64 (t.remoteOff + t.size) ≤ remoteSize

instance : Decidable (t.Inside localSize peerSize) :=
  inferInstanceAs (Decidable (t.localOff + t.size ≤ localSize ∧ t.remoteOff + t.size ≤ peerSize))

instance : Decidable t.Exact :=
  inferInstanceAs (Decidable (t.localOff + t.size < 2 ^ 64 ∧ t.remoteOff + t.size < 2 ^ 64))

/-- A transfer that has passed the checks is inside the buffers exactly when no sum wrapped. -/
theorem inside_iff_exact (h : t.Checked localSize remoteSize) (hlocal : localSize < 2 ^ 64)
    (hpeer : peerSize < 2 ^ 64) (hle : remoteSize ≤ peerSize) :
    t.Inside localSize peerSize ↔ t.Exact := by
  obtain ⟨h₁, h₂⟩ := h
  constructor
  · rintro ⟨hl, hr⟩
    exact ⟨Nat.lt_of_le_of_lt hl hlocal, Nat.lt_of_le_of_lt hr hpeer⟩
  · rintro ⟨hl, hr⟩
    rw [wrap64_of_lt hl] at h₁
    rw [wrap64_of_lt hr] at h₂
    exact ⟨h₁, Nat.le_trans h₂ hle⟩

end Transfer

/-! ### Bytes -/

/-- The contents of a block of memory, by offset. -/
abbrev Bytes := ℕ → UInt8

/-- `memcpy` of `size` bytes of `src` to offset `off` of `dst`. -/
def blit (dst : Bytes) (off : ℕ) (src : Bytes) (size : ℕ) : Bytes := fun a =>
  if off ≤ a ∧ a < off + size then src (a - off) else dst a

/-- The copied range holds the source bytes. -/
theorem blit_apply_add {dst src : Bytes} {off size k : ℕ} (h : k < size) :
    blit dst off src size (off + k) = src k := by
  rw [blit, if_pos ⟨by omega, by omega⟩, Nat.add_sub_cancel_left]

/-- Frame: the bytes outside the copied range are unchanged. -/
theorem blit_apply_of_not_mem {dst src : Bytes} {off size a : ℕ}
    (h : a < off ∨ off + size ≤ a) : blit dst off src size a = dst a := by
  rw [blit, if_neg (by omega)]

/-- Only the bytes that are copied matter. -/
theorem blit_congr {dst f g : Bytes} {off size : ℕ} (h : ∀ k < size, f k = g k) :
    blit dst off f size = blit dst off g size := by
  funext a
  by_cases ha : off ≤ a ∧ a < off + size
  · rw [blit, if_pos ha, blit, if_pos ha]
    exact h _ (by omega)
  · rw [blit, if_neg ha, blit, if_neg ha]

/-- Frame: a copy into the memory of owner `r` leaves every address outside its range alone. -/
theorem update_blit_of_not_mem {mem : ℕ → Bytes} {src : Bytes} {r q off size a : ℕ}
    (h : q = r → a < off ∨ off + size ≤ a) :
    Function.update mem r (blit (mem r) off src size) q a = mem q a := by
  by_cases hq : q = r
  · subst hq
    rw [Function.update_self, blit_apply_of_not_mem (h rfl)]
  · rw [Function.update_of_ne hq]

end HMC
