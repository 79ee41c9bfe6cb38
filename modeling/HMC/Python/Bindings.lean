import Mathlib.Algebra.Order.Ring.Int
import HMC.Core.ConnBuffer

/-!
# The Python bindings of the connection buffer

The bindings convert their integers to `size_t`, check the range and the Python buffer once more,
and call the `ConnBuffer`. The Python code turns every status but `SUCCESS` into an exception.
`none` is an exception, whichever it is.

The range is checked twice, in the binding and in the `ConnBuffer`, both times with a sum of
`size_t` that may wrap (`InRange`). Of a Python buffer the number of bytes is checked, and for reads
that it may be written; where it has strides, the binding still takes its bytes to follow one
another. Each binding has one lemma, which says when it returns and what it leaves.
-/

namespace HMC

/-- The conversion of an argument to `size_t`; `none` is a `TypeError`. -/
def sizeT (x : ℤ) : Option ℕ := if 0 ≤ x ∧ x < 2 ^ 64 then some x.toNat else none

theorem sizeT_eq_some {x : ℤ} {k : ℕ} : sizeT x = some k ↔ (0 ≤ x ∧ x < 2 ^ 64) ∧ x.toNat = k := by
  rw [sizeT]
  split_ifs with h
  · rw [Option.some_inj, and_iff_right h]
  · constructor
    · intro hn
      cases hn
    · intro hk
      exact absurd hk.1 h

/-- What `request()` says about a Python buffer. -/
structure BufferInfo where
  ptr : ℕ
  nbytes : ℕ
  readonly : Bool

/-- `_ensure_ok`. -/
def ensureOk : Status × Bytes → Option Bytes
  | (.success, out) => some out
  | _ => none

namespace Binding

variable (b : ConnBuffer)

/-- `ConnBuffer.readToCpu` of the module `_core`. -/
def readToCpu (bytes out : Bytes) (dest : BufferInfo) (size bias : ℤ) (copied : Bool) :
    Option (Status × Bytes) := do
  let size ← sizeT size
  let bias ← sizeT bias
  if wrap64 (size + bias) > b.bufferSize then none
  else if dest.nbytes < size then none
  else if dest.readonly then none
  else some (b.readToCpu bytes out dest.ptr size bias copied)

/-- `ConnBuffer.readToGpu` of the module `_core`. -/
def readToGpu (bytes out : Bytes) (destPtr : ℕ) (size bias : ℤ) (copied : Bool) :
    Option (Status × Bytes) := do
  let size ← sizeT size
  let bias ← sizeT bias
  if wrap64 (size + bias) > b.bufferSize then none
  else some (b.readToGpu bytes out destPtr size bias copied)

/-- `ConnBuffer.writeFromCpu` of the module `_core`: the bytes follow the first one of the Python
buffer, whatever its strides are. -/
def writeFromCpu (bytes mem : Bytes) (src : BufferInfo) (size bias : ℤ) (copied : Bool) :
    Option (Status × Bytes) := do
  let size ← sizeT size
  let bias ← sizeT bias
  if wrap64 (size + bias) > b.bufferSize then none
  else if src.nbytes < size then none
  else some (b.writeFromCpu bytes (fun k => mem (src.ptr + k)) size bias copied)

/-- `ConnBuffer.writeFromGpu` of the module `_core`. -/
def writeFromGpu (bytes mem : Bytes) (srcPtr : ℕ) (size bias : ℤ) (copied : Bool) :
    Option (Status × Bytes) := do
  let size ← sizeT size
  let bias ← sizeT bias
  if wrap64 (size + bias) > b.bufferSize then none
  else some (b.writeFromGpu bytes (fun k => mem (srcPtr + k)) size bias copied)

/-- The checks of a range of `nbytes` bytes at `offset`. -/
structure InRange (nbytes : ℕ) (offset : ℤ) : Prop where
  size_lt : nbytes < 2 ^ 64
  offset_nonneg : 0 ≤ offset
  offset_lt : offset < 2 ^ 64
  sum_le : wrap64 (nbytes + offset.toNat) ≤ b.bufferSize

variable {b} {bytes out out' : Bytes} {nbytes : ℕ} {offset : ℤ} {copied : Bool}

theorem ensureOk_eq_some {r : Status × Bytes} : ensureOk r = some out ↔ r = (.success, out) := by
  obtain ⟨status, out'⟩ := r
  cases status <;> simp [ensureOk]

theorem sizeT_natCast {n k : ℕ} : sizeT n = some k ↔ n < 2 ^ 64 ∧ n = k := by
  rw [sizeT_eq_some]
  omega

/-- The `size_t` values that a checked range becomes. -/
theorem InRange.sizeT (h : InRange b nbytes offset) :
    HMC.sizeT nbytes = some nbytes ∧ HMC.sizeT offset = some offset.toNat := by
  constructor
  · exact sizeT_natCast.mpr ⟨h.size_lt, rfl⟩
  · rw [sizeT_eq_some]
    exact ⟨⟨h.offset_nonneg, h.offset_lt⟩, rfl⟩

theorem readToCpu_eq_some {dest : BufferInfo} :
    (readToCpu b bytes out dest nbytes offset copied).bind ensureOk = some out' ↔
      InRange b nbytes offset ∧ nbytes ≤ dest.nbytes ∧ dest.readonly = false ∧
        (b.memType = .cpu ∨ copied = true) ∧
          blit out dest.ptr (fun k => bytes (offset.toNat + k)) nbytes = out' := by
  constructor
  · intro h
    obtain ⟨r, hr, hok⟩ := Option.bind_eq_some_iff.mp h
    rw [readToCpu, Option.bind_eq_bind] at hr
    obtain ⟨size, hsize, hr⟩ := Option.bind_eq_some_iff.mp hr
    obtain ⟨bias, hbias, hr⟩ := Option.bind_eq_some_iff.mp hr
    obtain ⟨hlt, rfl⟩ := sizeT_natCast.mp hsize
    obtain ⟨⟨hoff, hofflt⟩, rfl⟩ := sizeT_eq_some.mp hbias
    split_ifs at hr with hsum hroom hro
    rw [← Option.some.inj hr, ensureOk_eq_some, ConnBuffer.readToCpu] at hok
    split_ifs at hok with _ hmem
    · cases hok
    · exact ⟨⟨hlt, hoff, hofflt, Nat.not_lt.mp hsum⟩, Nat.not_lt.mp hroom, by simpa using hro, hmem,
        congrArg Prod.snd hok⟩
    · cases hok
  · rintro ⟨h, hroom, hro, hmem, rfl⟩
    obtain ⟨hsize, hbias⟩ := h.sizeT
    rw [readToCpu, hsize, hbias]
    simp only [Option.bind_eq_bind, Option.bind_some]
    rw [if_neg (Nat.not_lt.mpr h.sum_le), if_neg (Nat.not_lt.mpr hroom), if_neg (by simp [hro]),
      Option.bind_some, ensureOk_eq_some, ConnBuffer.readToCpu]
    rw [Nat.add_comm, if_neg (Nat.not_lt.mpr h.sum_le), if_pos hmem]

theorem readToGpu_eq_some {destPtr : ℕ} :
    (readToGpu b bytes out destPtr nbytes offset copied).bind ensureOk = some out' ↔
      InRange b nbytes offset ∧ (b.memType ≠ .cpu ∧ copied = true) ∧
        blit out destPtr (fun k => bytes (offset.toNat + k)) nbytes = out' := by
  constructor
  · intro h
    obtain ⟨r, hr, hok⟩ := Option.bind_eq_some_iff.mp h
    rw [readToGpu, Option.bind_eq_bind] at hr
    obtain ⟨size, hsize, hr⟩ := Option.bind_eq_some_iff.mp hr
    obtain ⟨bias, hbias, hr⟩ := Option.bind_eq_some_iff.mp hr
    obtain ⟨hlt, rfl⟩ := sizeT_natCast.mp hsize
    obtain ⟨⟨hoff, hofflt⟩, rfl⟩ := sizeT_eq_some.mp hbias
    split_ifs at hr with hsum
    rw [← Option.some.inj hr, ensureOk_eq_some, ConnBuffer.readToGpu] at hok
    split_ifs at hok with _ hcpu hmem
    · cases hok
    · cases hok
    · exact ⟨⟨hlt, hoff, hofflt, Nat.not_lt.mp hsum⟩, ⟨hcpu, hmem⟩, congrArg Prod.snd hok⟩
    · cases hok
  · rintro ⟨h, ⟨hcpu, hmem⟩, rfl⟩
    obtain ⟨hsize, hbias⟩ := h.sizeT
    rw [readToGpu, hsize, hbias]
    simp only [Option.bind_eq_bind, Option.bind_some]
    rw [if_neg (Nat.not_lt.mpr h.sum_le), Option.bind_some, ensureOk_eq_some, ConnBuffer.readToGpu]
    rw [Nat.add_comm, if_neg (Nat.not_lt.mpr h.sum_le), if_neg hcpu, if_pos hmem]

/-- A size that converts to `size_t` is a natural number. -/
theorem sizeT_eq_some_iff {x : ℤ} {k : ℕ} : HMC.sizeT x = some k ↔ x = k ∧ k < 2 ^ 64 := by
  rw [sizeT_eq_some]
  omega

variable {mem : Bytes} {size : ℤ}

theorem writeFromCpu_eq_some {src : BufferInfo} :
    (writeFromCpu b bytes mem src size offset copied).bind ensureOk = some out' ↔
      ∃ n : ℕ, size = n ∧ InRange b n offset ∧ n ≤ src.nbytes ∧ copied = true ∧
        blit bytes offset.toNat (fun k => mem (src.ptr + k)) n = out' := by
  constructor
  · intro h
    obtain ⟨r, hr, hok⟩ := Option.bind_eq_some_iff.mp h
    rw [writeFromCpu, Option.bind_eq_bind] at hr
    obtain ⟨n, hsize, hr⟩ := Option.bind_eq_some_iff.mp hr
    obtain ⟨bias, hbias, hr⟩ := Option.bind_eq_some_iff.mp hr
    obtain ⟨rfl, hlt⟩ := sizeT_eq_some_iff.mp hsize
    obtain ⟨⟨hoff, hofflt⟩, rfl⟩ := sizeT_eq_some.mp hbias
    split_ifs at hr with hsum hroom
    rw [← Option.some.inj hr, ensureOk_eq_some, ConnBuffer.writeFromCpu] at hok
    split_ifs at hok with _ hcopied
    · cases hok
    · exact ⟨n, rfl, ⟨hlt, hoff, hofflt, Nat.not_lt.mp hsum⟩, Nat.not_lt.mp hroom, hcopied,
        congrArg Prod.snd hok⟩
    · cases hok
  · rintro ⟨n, rfl, h, hroom, rfl, rfl⟩
    obtain ⟨hsize, hbias⟩ := h.sizeT
    rw [writeFromCpu, hsize, hbias]
    simp only [Option.bind_eq_bind, Option.bind_some]
    rw [if_neg (Nat.not_lt.mpr h.sum_le), if_neg (Nat.not_lt.mpr hroom), Option.bind_some,
      ensureOk_eq_some, ConnBuffer.writeFromCpu]
    rw [Nat.add_comm, if_neg (Nat.not_lt.mpr h.sum_le), if_pos rfl]

theorem writeFromGpu_eq_some {srcPtr : ℕ} :
    (writeFromGpu b bytes mem srcPtr size offset copied).bind ensureOk = some out' ↔
      ∃ n : ℕ, size = n ∧ InRange b n offset ∧ (b.memType ≠ .cpu ∧ copied = true) ∧
        blit bytes offset.toNat (fun k => mem (srcPtr + k)) n = out' := by
  constructor
  · intro h
    obtain ⟨r, hr, hok⟩ := Option.bind_eq_some_iff.mp h
    rw [writeFromGpu, Option.bind_eq_bind] at hr
    obtain ⟨n, hsize, hr⟩ := Option.bind_eq_some_iff.mp hr
    obtain ⟨bias, hbias, hr⟩ := Option.bind_eq_some_iff.mp hr
    obtain ⟨rfl, hlt⟩ := sizeT_eq_some_iff.mp hsize
    obtain ⟨⟨hoff, hofflt⟩, rfl⟩ := sizeT_eq_some.mp hbias
    split_ifs at hr with hsum
    rw [← Option.some.inj hr, ensureOk_eq_some, ConnBuffer.writeFromGpu] at hok
    split_ifs at hok with _ hcpu hcopied
    · cases hok
    · cases hok
    · exact ⟨n, rfl, ⟨hlt, hoff, hofflt, Nat.not_lt.mp hsum⟩, ⟨hcpu, hcopied⟩,
        congrArg Prod.snd hok⟩
    · cases hok
  · rintro ⟨n, rfl, h, ⟨hcpu, rfl⟩, rfl⟩
    obtain ⟨hsize, hbias⟩ := h.sizeT
    rw [writeFromGpu, hsize, hbias]
    simp only [Option.bind_eq_bind, Option.bind_some]
    rw [if_neg (Nat.not_lt.mpr h.sum_le), Option.bind_some, ensureOk_eq_some,
      ConnBuffer.writeFromGpu]
    rw [Nat.add_comm, if_neg (Nat.not_lt.mpr h.sum_le), if_neg hcpu, if_pos rfl]

end Binding

end HMC
