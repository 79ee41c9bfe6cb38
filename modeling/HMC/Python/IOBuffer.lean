import Mathlib.Algebra.BigOperators.Group.List.Lemmas
import HMC.Machine.Strided
import HMC.Python.Bindings

/-!
# Reading the connection buffer into Python objects

`IOBuffer.get_into` copies bytes of the `ConnBuffer` to a numpy array, a torch tensor or another
object with a buffer. On the CPU it demands a contiguous destination with enough room. For a CUDA
tensor it demands nothing: of a tensor that is not contiguous it fills a contiguous copy, and it
writes `nbytes` bytes however long the tensor is. Without numpy a CPU tensor is filled with `copy_`,
which broadcasts, and a tensor without elements may take bytes and drop them.

`fillsOrRaises_iff` says that `get_into` fills its destination or raises exactly when a call that
passes the checks of its path stays below `2 ^ 64` and, unless there is nothing to read, has a
contiguous destination with enough room.

There are three ways to copy (`Path`), and for each of them `Takes` says when a call goes that way
and passes its checks, and `written` what it leaves. The branches of the source are gone through
once, in `getInto_eq_some`; the rest is about `Takes` and `written`. That the condition is necessary
is shown at a memory in which the bytes that are read differ from those that the destination holds.
-/

namespace HMC.IOBuffer

open HMC.Machine

/-! ### Destinations -/

/-- What `get_into` tells apart: numpy arrays, torch tensors by device, and other objects with a
buffer. -/
inductive DestKind
  | numpy
  | torchCpu
  | torchCuda
  | buffer
  deriving DecidableEq

/-- A destination: the address of its first element, the size of an element, and its dimensions with
their strides in bytes. -/
structure Dest where
  kind : DestKind
  ptr : ℕ
  itemsize : ℕ
  dims : List Dim
  writeable : Bool

namespace Dest

variable (d : Dest)

/-- The bytes of an element are one more dimension. -/
def byteDims : List Dim := d.dims ++ [⟨d.itemsize, 1⟩]

/-- The addresses of the bytes, in the logical order of the elements. -/
def addresses : List ℕ := (offsets d.byteDims).map fun o : ℤ => ((d.ptr : ℤ) + o).toNat

/-- `nbytes` of numpy, `numel() * element_size()` of torch. -/
def nbytes : ℕ := numel d.byteDims

/-- `C_CONTIGUOUS` of numpy, `is_contiguous()` of torch, and what `memoryview.cast` asks for. -/
def isContiguous : Bool := contiguous d.byteDims

end Dest

/-- `DeviceHint`. -/
inductive DeviceHint
  | none
  | cpu
  | cuda
  | ptr
  deriving DecidableEq

/-- A call of `get_into`. `numpy` says that numpy can be imported, `supported` that neither the
views of the destination nor an allocation raises, `copied` is the outcome of the backend's copy,
and `fresh` where the storage is that `contiguous()` allocates. -/
structure GetInto where
  core : ConnBuffer
  fits : core.bufferSize < 2 ^ 64
  dst : Dest
  nbytes : ℕ
  offset : ℤ
  device : DeviceHint
  numpy : Bool
  supported : Bool
  copied : Bool
  fresh : ℕ

/-! ### `copy_` -/

/-- The shape of `dst.view(torch.uint8)`: the last dimension counts bytes. `none` for a tensor
without dimensions, which cannot be sliced. -/
def byteShape (itemsize : ℕ) : List ℕ → Option (List ℕ)
  | [] => none
  | [n] => some [n * itemsize]
  | n :: ns => (byteShape itemsize ns).map (n :: ·)

/-- `[:nbytes]`. -/
def sliceFirst (nbytes : ℕ) : List ℕ → List ℕ
  | [] => []
  | n :: ns => min nbytes n :: ns

/-- A tensor of the shape `[m]` can be broadcast to a shape. -/
def expands (m : ℕ) (shape : List ℕ) : Bool := m == 1 || shape.getLast? == some m

namespace GetInto

variable (c : GetInto)

/-- What `dst.view(torch.uint8)[:nbytes].copy_(..)` copies, as a number of bytes of `dst`; `none` is
an exception. `torch.frombuffer` refuses an empty buffer. -/
def broadcast : Option ℕ :=
  if c.nbytes = 0 then none
  else do
    let shape := sliceFirst c.nbytes (← byteShape c.dst.itemsize (c.dst.dims.map Dim.size))
    if expands c.nbytes shape then some shape.prod else none

variable (bytes mem : Bytes)

/-- `core.readToCpu(mv, nbytes, offset)` of a view of the destination. -/
def readView : Option Bytes :=
  if c.dst.nbytes < c.nbytes then none
  else (Binding.readToCpu c.core bytes mem ⟨c.dst.ptr, c.dst.nbytes, false⟩ c.nbytes c.offset
    c.copied).bind ensureOk

/-- A CPU tensor without numpy: through a `bytearray`. Each byte of a row of `dst` gets the byte of
`tmp` in its column, and all get the only one if there is one. -/
def readTmp : Option Bytes := do
  let tmp ← (Binding.readToCpu c.core bytes (fun _ => 0) ⟨0, c.nbytes, false⟩ c.nbytes c.offset
    c.copied).bind ensureOk
  let n ← c.broadcast
  return blit mem c.dst.ptr (fun k => tmp (k % c.nbytes)) n

/-- `buffer_get_cpu_into`. -/
def bufferGetCpuInto : Option Bytes :=
  if c.dst.kind = .numpy ∧ c.numpy then
    if !c.dst.isContiguous then none
    else if !c.dst.writeable then none
    else if c.supported then c.readView bytes mem else none
  else if c.dst.kind = .torchCpu ∨ c.dst.kind = .torchCuda then
    if c.dst.kind = .torchCuda then none
    else if !c.dst.isContiguous then none
    else if !c.supported then none
    -- without numpy the size of the destination is left to `copy_`
    else if c.numpy then c.readView bytes mem else c.readTmp bytes mem
  -- `memoryview(dst).cast("B")` demands that `dst` is contiguous
  else if !c.dst.isContiguous || !c.supported then none
  else if !c.dst.writeable then none
  else c.readView bytes mem

/-- `_torch_cuda_ptr_and_nbytes`, with `nbytes` given. The copy that `contiguous()` makes belongs to
nobody else, and `mem` is the memory with the copy in it. -/
def torchCudaPtr : Option ℕ :=
  if c.dst.kind ≠ .torchCuda then none
  else if c.dst.isContiguous then some c.dst.ptr
  -- `t = t.contiguous()`, and `data_ptr()` of that
  else if c.supported then some c.fresh
  else none

/-- `buffer_get_cuda`. -/
def bufferGetCuda : Option Bytes := do
  let ptr ← c.torchCudaPtr
  (Binding.readToGpu c.core bytes mem ptr c.nbytes c.offset c.copied).bind ensureOk

/-- `IOBuffer.get_into`, with the bytes of the `ConnBuffer` and the memory of the destination: the
memory after it, or `none` for an exception. A destination is no `int`, which `device='ptr'`
demands. -/
def getInto : Option Bytes :=
  if c.device = .ptr then none
  else if c.device = .cuda ∨ c.device = .none ∧ c.dst.kind = .torchCuda then
    c.bufferGetCuda bytes mem
  else c.bufferGetCpuInto bytes mem

/-- The claim about a call that returns: its range lies in the `ConnBuffer`, the first bytes of the
destination are those of the range, and nothing outside the destination has changed. -/
structure Filled (mem' : Bytes) : Prop where
  room : c.nbytes ≤ c.dst.nbytes
  range : c.offset.toNat + c.nbytes ≤ c.core.bufferSize
  filled : ∀ k < c.nbytes, ∀ a, c.dst.addresses[k]? = some a → mem' a = bytes (c.offset.toNat + k)
  frame : ∀ a ∉ c.dst.addresses, mem' a = mem a

/-- The claim. -/
def FillsOrRaises : Prop :=
  ∀ bytes mem mem', c.getInto bytes mem = some mem' → c.Filled bytes mem mem'

/-- What torch promises: the storage of a contiguous copy is no storage of the tensor. -/
def FreshStorage : Prop :=
  ∀ a ∈ c.dst.addresses, a < c.fresh ∨ c.fresh + c.dst.nbytes ≤ a

/-! ### The paths -/

/-- The three ways to copy: through a view of the destination, through a `bytearray`, and to the
address of a CUDA tensor. -/
inductive Path
  | view
  | tmp
  | cuda

/-- `get_into` chooses the CPU. -/
def OnCpu : Prop := (c.device = .none ∨ c.device = .cpu) ∧ c.dst.kind ≠ .torchCuda

/-- What every path checks: the range, and that the copy succeeds. -/
def Copies : Prop :=
  Binding.InRange c.core c.nbytes c.offset ∧ (c.core.memType = .cpu ∨ c.copied = true)

/-- A call takes a path and passes its checks. -/
def Takes : Path → Prop
  | .view =>
    c.OnCpu ∧ c.dst.isContiguous = true ∧ c.supported = true ∧
      (if c.dst.kind = .torchCpu then c.numpy else c.dst.writeable) = true ∧
        c.nbytes ≤ c.dst.nbytes ∧ c.Copies
  | .tmp =>
    c.OnCpu ∧ c.dst.isContiguous = true ∧ c.supported = true ∧ c.dst.kind = .torchCpu ∧
      c.numpy = false ∧ c.broadcast.isSome = true ∧ c.Copies
  | .cuda =>
    (c.device = .none ∨ c.device = .cuda) ∧ c.dst.kind = .torchCuda ∧
      (c.dst.isContiguous || c.supported) = true ∧
        Binding.InRange c.core c.nbytes c.offset ∧ c.core.memType ≠ .cpu ∧ c.copied = true

/-- The memory that a path leaves. -/
def written : Path → Bytes
  | .view => blit mem c.dst.ptr (fun k => bytes (c.offset.toNat + k)) c.nbytes
  | .tmp =>
    blit mem c.dst.ptr (fun k => bytes (c.offset.toNat + k % c.nbytes)) (c.broadcast.getD 0)
  | .cuda =>
    blit mem (if c.dst.isContiguous then c.dst.ptr else c.fresh)
      (fun k => bytes (c.offset.toNat + k)) c.nbytes

/-- No `size_t` sum wraps, and the destination has the bytes, one after another. -/
def Sound : Prop :=
  c.offset.toNat + c.nbytes < 2 ^ 64 ∧
    (c.nbytes = 0 ∨ c.dst.isContiguous = true ∧ c.nbytes ≤ c.dst.nbytes)

end GetInto

/-! ### Contiguous destinations -/

namespace Dest

variable {d : Dest}

@[simp] theorem length_addresses : d.addresses.length = d.nbytes := by
  rw [addresses, List.length_map, length_offsets, nbytes]

theorem addresses_of_contiguous (h : d.isContiguous = true) :
    d.addresses = (List.range d.nbytes).map (d.ptr + ·) := by
  rw [addresses, offsets_of_contiguous h, List.map_map]
  refine List.map_congr_left fun k _ => ?_
  rw [Function.comp_apply]
  omega

theorem mem_addresses (h : d.isContiguous = true) {a : ℕ} :
    a ∈ d.addresses ↔ d.ptr ≤ a ∧ a < d.ptr + d.nbytes := by
  rw [addresses_of_contiguous h, List.mem_map]
  constructor
  · rintro ⟨k, hk, rfl⟩
    rw [List.mem_range] at hk
    omega
  · rintro ⟨hle, hlt⟩
    exact ⟨a - d.ptr, List.mem_range.mpr (by omega), by omega⟩

theorem getElem?_addresses (h : d.isContiguous = true) {k a : ℕ} (ha : d.addresses[k]? = some a) :
    a = d.ptr + k := by
  rw [addresses_of_contiguous h, List.getElem?_map, Option.map_eq_some_iff] at ha
  obtain ⟨k', hk', rfl⟩ := ha
  rw [List.getElem?_eq_some_iff] at hk'
  obtain ⟨hlt, rfl⟩ := hk'
  rw [List.getElem_range]

end Dest

namespace GetInto

variable {c : GetInto} {bytes mem mem' : Bytes}

/-- Writing a contiguous destination: at least the bytes asked for, and at most all of it. -/
theorem filled_blit {src : Bytes} {n : ℕ} (h : c.dst.isContiguous = true) (hn : c.nbytes ≤ n)
    (hroom : n ≤ c.dst.nbytes) (hrange : c.offset.toNat + c.nbytes ≤ c.core.bufferSize)
    (hsrc : ∀ k < c.nbytes, src k = bytes (c.offset.toNat + k)) :
    c.Filled bytes mem (blit mem c.dst.ptr src n) where
  room := Nat.le_trans hn hroom
  range := hrange
  filled := by
    intro k hk a ha
    rw [Dest.getElem?_addresses h ha, blit_apply_add (Nat.lt_of_lt_of_le hk hn)]
    exact hsrc k hk
  frame := by
    intro a ha
    rw [Dest.mem_addresses h] at ha
    exact blit_apply_of_not_mem (by omega)

/-- Nothing to read, and nothing written. -/
theorem filled_self (h0 : c.nbytes = 0)
    (hrange : c.offset.toNat + c.nbytes ≤ c.core.bufferSize) : c.Filled bytes mem mem where
  room := by omega
  range := hrange
  filled k hk := absurd hk (by omega)
  frame _ _ := rfl

theorem blit_zero {dst src : Bytes} {off : ℕ} : blit dst off src 0 = dst :=
  funext fun _ => blit_apply_of_not_mem (by omega)

theorem range_of_sum_lt (h : Binding.InRange c.core c.nbytes c.offset)
    (hlt : c.offset.toNat + c.nbytes < 2 ^ 64) :
    c.offset.toNat + c.nbytes ≤ c.core.bufferSize := by
  rw [Nat.add_comm] at hlt ⊢
  rw [← wrap64_of_lt hlt]
  exact h.sum_le

/-! ### `copy_` fills what it is given -/

theorem prod_byteShape {w : ℕ} {dims : List Dim} {shape : List ℕ}
    (h : byteShape w (dims.map Dim.size) = some shape) :
    shape.prod = numel (dims ++ [⟨w, 1⟩]) := by
  induction dims generalizing shape with
  | nil => cases h
  | cons d dims ih =>
    cases dims with
    | nil =>
      cases h
      simp [numel]
    | cons d' dims =>
      obtain ⟨shape', hshape, rfl⟩ := Option.map_eq_some_iff.mp h
      rw [List.prod_cons, ih hshape]
      rfl

theorem prod_sliceFirst_le (n : ℕ) (shape : List ℕ) : (sliceFirst n shape).prod ≤ shape.prod := by
  cases shape with
  | nil => exact Nat.le_refl _
  | cons m ms =>
    rw [sliceFirst, List.prod_cons, List.prod_cons]
    exact Nat.mul_le_mul_right _ (Nat.min_le_right n m)

theorem prod_sliceFirst_pos {n : ℕ} {shape : List ℕ} (hn : 0 < n) (h : 0 < shape.prod) :
    0 < (sliceFirst n shape).prod := by
  cases shape with
  | nil => exact h
  | cons m ms =>
    rw [List.prod_cons] at h
    rw [sliceFirst, List.prod_cons]
    have hm : 0 < m := Nat.pos_of_mul_pos_right h
    exact Nat.mul_pos (Nat.lt_min.mpr ⟨hn, hm⟩) (Nat.pos_of_mul_pos_left h)

/-- A shape that a row can be broadcast to has room for it, unless it has no elements. -/
theorem le_prod_of_expands {m : ℕ} {shape : List ℕ} (h : expands m shape = true)
    (hpos : 0 < shape.prod) : m ≤ shape.prod := by
  rw [expands, Bool.or_eq_true, beq_iff_eq, beq_iff_eq] at h
  obtain rfl | hlast := h
  · exact hpos
  · exact Nat.le_of_dvd hpos (List.dvd_prod (List.mem_of_getLast? hlast))

theorem broadcast_eq_some {n : ℕ} (h : c.broadcast = some n) :
    0 < c.nbytes ∧ n ≤ c.dst.nbytes ∧ (c.nbytes ≤ c.dst.nbytes → c.nbytes ≤ n) := by
  rw [broadcast, Option.bind_eq_bind] at h
  split_ifs at h with h0
  obtain ⟨shape, hshape, hn⟩ := Option.bind_eq_some_iff.mp h
  have hprod : shape.prod = c.dst.nbytes := prod_byteShape hshape
  dsimp only at hn
  split_ifs at hn with hexp
  rw [Option.some_inj] at hn
  subst hn
  refine ⟨Nat.pos_of_ne_zero h0, ?_, fun hroom => ?_⟩
  · rw [← hprod]
    exact prod_sliceFirst_le _ _
  · exact le_prod_of_expands hexp (prod_sliceFirst_pos (by omega) (by omega))

/-! ### The outcome of a call -/

theorem readView_eq_some : c.readView bytes mem = some mem' ↔
    c.nbytes ≤ c.dst.nbytes ∧ c.Copies ∧ c.written bytes mem .view = mem' := by
  rw [readView]
  split_ifs with hroom
  · simp [Nat.not_le.mpr hroom]
  · rw [Binding.readToCpu_eq_some, Copies, written]
    simp [Nat.not_lt.mp hroom, and_assoc]

/-- The bytes of a row in the `bytearray`. -/
theorem row_of_tmp (h : 0 < c.nbytes) :
    (fun k => blit (fun _ => 0) 0 (fun i => bytes (c.offset.toNat + i)) c.nbytes (k % c.nbytes)) =
      fun k => bytes (c.offset.toNat + k % c.nbytes) := by
  funext k
  have hread : blit (fun _ => 0) 0 (fun i => bytes (c.offset.toNat + i)) c.nbytes
      (0 + k % c.nbytes) = bytes (c.offset.toNat + k % c.nbytes) :=
    blit_apply_add (Nat.mod_lt k h)
  rwa [Nat.zero_add] at hread

theorem readTmp_eq_some : c.readTmp bytes mem = some mem' ↔
    c.broadcast.isSome = true ∧ c.Copies ∧ c.written bytes mem .tmp = mem' := by
  rw [readTmp, written]
  constructor
  · intro h
    obtain ⟨tmp, htmp, h⟩ := Option.bind_eq_some_iff.mp h
    obtain ⟨n, hn, h⟩ := Option.bind_eq_some_iff.mp h
    obtain ⟨hin, -, -, hcopy, rfl⟩ := Binding.readToCpu_eq_some.mp htmp
    rw [row_of_tmp (broadcast_eq_some hn).1] at h
    rw [hn]
    exact ⟨rfl, ⟨hin, hcopy⟩, Option.some.inj h⟩
  · rintro ⟨hsome, ⟨hin, hcopy⟩, rfl⟩
    obtain ⟨n, hn⟩ := Option.isSome_iff_exists.mp hsome
    refine Option.bind_eq_some_iff.mpr ⟨_, Binding.readToCpu_eq_some.mpr
      ⟨hin, Nat.le_refl _, rfl, hcopy, rfl⟩, Option.bind_eq_some_iff.mpr ⟨n, hn, ?_⟩⟩
    rw [row_of_tmp (broadcast_eq_some hn).1, hn]
    rfl

theorem torchCudaPtr_eq_some {ptr : ℕ} : c.torchCudaPtr = some ptr ↔
    c.dst.kind = .torchCuda ∧ (c.dst.isContiguous || c.supported) = true ∧
      (if c.dst.isContiguous then c.dst.ptr else c.fresh) = ptr := by
  rw [torchCudaPtr]
  by_cases hkind : c.dst.kind = .torchCuda
  · rw [if_neg (not_not.mpr hkind), and_iff_right hkind]
    split_ifs <;> simp [*]
  · simp [hkind]

theorem bufferGetCuda_eq_some : c.bufferGetCuda bytes mem = some mem' ↔
    c.dst.kind = .torchCuda ∧ (c.dst.isContiguous || c.supported) = true ∧
      Binding.InRange c.core c.nbytes c.offset ∧ (c.core.memType ≠ .cpu ∧ c.copied = true) ∧
        c.written bytes mem .cuda = mem' := by
  rw [bufferGetCuda, written]
  constructor
  · intro h
    obtain ⟨ptr, hptr, h⟩ := Option.bind_eq_some_iff.mp h
    obtain ⟨hin, hmem, hmem'⟩ := Binding.readToGpu_eq_some.mp h
    obtain ⟨hkind, hsupp, rfl⟩ := torchCudaPtr_eq_some.mp hptr
    exact ⟨hkind, hsupp, hin, hmem, hmem'⟩
  · rintro ⟨hkind, hsupp, hin, hmem, hmem'⟩
    exact Option.bind_eq_some_iff.mpr ⟨_, torchCudaPtr_eq_some.mpr ⟨hkind, hsupp, rfl⟩,
      Binding.readToGpu_eq_some.mpr ⟨hin, hmem, hmem'⟩⟩

/-- What the CPU path asks of a destination before it looks at its size. -/
theorem bufferGetCpuInto_eq_some : c.bufferGetCpuInto bytes mem = some mem' ↔
    c.dst.kind ≠ .torchCuda ∧ c.dst.isContiguous = true ∧ c.supported = true ∧
      if c.dst.kind = .torchCpu then
        if c.numpy then c.readView bytes mem = some mem' else c.readTmp bytes mem = some mem'
      else c.dst.writeable = true ∧ c.readView bytes mem = some mem' := by
  rw [bufferGetCpuInto]
  cases hkind : c.dst.kind <;> cases c.dst.isContiguous <;> cases c.supported <;>
    cases c.dst.writeable <;> cases c.numpy <;> simp

theorem onCpu_of_not (hptr : c.device ≠ .ptr)
    (hpath : ¬ (c.device = .cuda ∨ c.device = .none ∧ c.dst.kind = .torchCuda))
    (hkind : c.dst.kind ≠ .torchCuda) : c.OnCpu := by
  refine ⟨?_, hkind⟩
  cases hdev : c.device with
  | none => exact .inl rfl
  | cpu => exact .inr rfl
  | cuda => exact absurd (.inl hdev) hpath
  | ptr => exact absurd hdev hptr

/-- A call that chooses the CPU does not take the CUDA path, and the other way round. -/
theorem not_onCpu (hpath : c.device = .cuda ∨ c.device = .none ∧ c.dst.kind = .torchCuda) :
    ¬ c.OnCpu := by
  rintro ⟨hdev, hkind⟩
  obtain hcuda | ⟨-, htorch⟩ := hpath
  · simp [hcuda] at hdev
  · exact hkind htorch

theorem bufferGetCpuInto_eq_some_iff_takes (hptr : c.device ≠ .ptr)
    (hpath : ¬ (c.device = .cuda ∨ c.device = .none ∧ c.dst.kind = .torchCuda)) :
    c.bufferGetCpuInto bytes mem = some mem' ↔
      ∃ p, c.Takes p ∧ c.written bytes mem p = mem' := by
  rw [bufferGetCpuInto_eq_some, readView_eq_some, readTmp_eq_some]
  constructor
  · rintro ⟨hkind, hcont, hsupp, h⟩
    have hcpu : c.OnCpu := onCpu_of_not hptr hpath hkind
    split_ifs at h with htorch hnumpy
    · obtain ⟨hroom, hcopies, hmem'⟩ := h
      exact ⟨.view, ⟨hcpu, hcont, hsupp, by rwa [if_pos htorch], hroom, hcopies⟩, hmem'⟩
    · obtain ⟨hsome, hcopies, hmem'⟩ := h
      exact ⟨.tmp, ⟨hcpu, hcont, hsupp, htorch, by simpa using hnumpy, hsome, hcopies⟩, hmem'⟩
    · obtain ⟨hwrite, hroom, hcopies, hmem'⟩ := h
      exact ⟨.view, ⟨hcpu, hcont, hsupp, by rwa [if_neg htorch], hroom, hcopies⟩, hmem'⟩
  · rintro ⟨p, htakes, hmem'⟩
    cases p with
    | view =>
      obtain ⟨hcpu, hcont, hsupp, hwrite, hroom, hcopies⟩ := htakes
      refine ⟨hcpu.2, hcont, hsupp, ?_⟩
      split_ifs at hwrite ⊢ with htorch
      · exact ⟨hroom, hcopies, hmem'⟩
      · exact ⟨hwrite, hroom, hcopies, hmem'⟩
    | tmp =>
      obtain ⟨hcpu, hcont, hsupp, htorch, hnumpy, hsome, hcopies⟩ := htakes
      refine ⟨hcpu.2, hcont, hsupp, ?_⟩
      rw [if_pos htorch, if_neg (by simp [hnumpy])]
      exact ⟨hsome, hcopies, hmem'⟩
    | cuda =>
      obtain ⟨hnone | hcuda, hkind, -⟩ := htakes
      · exact absurd (.inr ⟨hnone, hkind⟩) hpath
      · exact absurd (.inl hcuda) hpath

/-- **The outcome.** A call returns when it takes a path and passes the checks there. -/
theorem getInto_eq_some :
    c.getInto bytes mem = some mem' ↔ ∃ p, c.Takes p ∧ c.written bytes mem p = mem' := by
  rw [getInto]
  split_ifs with hptr hpath
  · constructor
    · intro h
      cases h
    · rintro ⟨p, htakes, -⟩
      cases p <;> simp [Takes, OnCpu, hptr] at htakes
  · rw [bufferGetCuda_eq_some]
    constructor
    · rintro ⟨hkind, hsupp, hin, hmem, hmem'⟩
      exact ⟨.cuda, ⟨hpath.symm.imp_left And.left, hkind, hsupp, hin, hmem⟩, hmem'⟩
    · rintro ⟨p, htakes, hmem'⟩
      cases p with
      | view => exact absurd htakes.1 (not_onCpu hpath)
      | tmp => exact absurd htakes.1 (not_onCpu hpath)
      | cuda =>
        obtain ⟨-, hkind, hsupp, hin, hmem⟩ := htakes
        exact ⟨hkind, hsupp, hin, hmem, hmem'⟩
  · exact bufferGetCpuInto_eq_some_iff_takes hptr hpath

/-! ### The claim -/

/-- Every path checks the range. -/
theorem Takes.inRange {p : Path} (h : c.Takes p) : Binding.InRange c.core c.nbytes c.offset := by
  cases p with
  | view => exact h.2.2.2.2.2.1
  | tmp => exact h.2.2.2.2.2.2.1
  | cuda => exact h.2.2.2.1

/-- A sound call fills its destination, whichever path it takes. -/
theorem filled_of_sound {p : Path} (h : c.Takes p) (hs : c.Sound) :
    c.Filled bytes mem (c.written bytes mem p) := by
  have hrange := range_of_sum_lt h.inRange hs.1
  cases p with
  | view =>
    obtain ⟨-, hcont, -, -, hroom, -⟩ := h
    exact filled_blit hcont (Nat.le_refl _) hroom hrange fun _ _ => rfl
  | tmp =>
    obtain ⟨-, hcont, -, -, -, hsome, -⟩ := h
    obtain ⟨n, hn⟩ := Option.isSome_iff_exists.mp hsome
    obtain ⟨hpos, hle, hge⟩ := broadcast_eq_some hn
    have hroom : c.nbytes ≤ c.dst.nbytes := (hs.2.resolve_left (by omega)).2
    rw [written, hn]
    -- the rows behind the first one stay inside the destination
    exact filled_blit hcont (hge hroom) hle hrange fun k hk => by rw [Nat.mod_eq_of_lt hk]
  | cuda =>
    obtain h0 | ⟨hcont, hroom⟩ := hs.2
    · rw [written, h0, blit_zero]
      exact filled_self h0 hrange
    · rw [written, if_pos hcont]
      exact filled_blit hcont (Nat.le_refl _) hroom hrange fun _ _ => rfl

/-- A tensor that is not contiguous keeps its bytes. -/
theorem not_filled_of_fresh (h : c.FreshStorage) (hcont : c.dst.isContiguous = false)
    (hpos : 0 < c.nbytes) :
    ¬ c.Filled (fun _ => 1) (fun _ => 0) (c.written (fun _ => 1) (fun _ => 0) .cuda) := by
  intro hf
  have hlt : 0 < c.dst.addresses.length := by
    rw [Dest.length_addresses]
    exact Nat.lt_of_lt_of_le hpos hf.room
  have hread := hf.filled 0 hpos _ (List.getElem?_eq_getElem hlt)
  have hroom := hf.room
  rw [written, if_neg (by simp [hcont]), blit_apply_of_not_mem] at hread
  · cases hread
  · have hfresh := h _ (List.getElem_mem hlt)
    omega

/-- **When `get_into` fills its destination or raises**: exactly when every call that takes a path
and passes its checks is sound. On the CPU paths this is a matter of the wrapping sum alone, since
they have checked the destination; the CUDA path has checked neither its size nor its strides. -/
theorem fillsOrRaises_iff (c : GetInto) (h : c.FreshStorage) :
    c.FillsOrRaises ↔ ∀ p, c.Takes p → c.Sound := by
  constructor
  · intro hc p hp
    -- ones are read, over zeros
    have hf : c.Filled (fun _ => 1) (fun _ => 0) (c.written (fun _ => 1) (fun _ => 0) p) :=
      hc _ _ _ (getInto_eq_some.mpr ⟨p, hp, rfl⟩)
    refine ⟨Nat.lt_of_le_of_lt hf.range c.fits, ?_⟩
    obtain h0 | hpos := Nat.eq_zero_or_pos c.nbytes
    · exact .inl h0
    · refine .inr ⟨?_, hf.room⟩
      cases p with
      | view => exact hp.2.1
      | tmp => exact hp.2.1
      | cuda =>
        by_contra hcont
        exact not_filled_of_fresh h (by simpa using hcont) hpos hf
  · intro hs bytes mem mem' hmem'
    obtain ⟨p, hp, rfl⟩ := getInto_eq_some.mp hmem'
    exact filled_of_sound hp (hs p hp)

/-- A CUDA tensor of two rows of two floats, read whole. -/
def readTensor : GetInto where
  core := ⟨64, .nvidiaGpu⟩
  fits := by decide
  dst := ⟨.torchCuda, 0, 4, [⟨2, 8⟩, ⟨2, 4⟩], true⟩
  nbytes := 16
  offset := 8
  device := .none
  numpy := true
  supported := true
  copied := true
  fresh := 256

theorem fillsOrRaises_tensor : readTensor.FillsOrRaises :=
  (fillsOrRaises_iff readTensor (by unfold FreshStorage; decide)).mpr fun _ _ =>
    ⟨by decide, .inr ⟨by decide, by decide⟩⟩

/-- The first column of that tensor. -/
def readColumn : GetInto :=
  { readTensor with dst := ⟨.torchCuda, 0, 4, [⟨2, 8⟩], true⟩, nbytes := 8 }

/-- **A tensor that stays as it was.** The call returns, and not a byte of the column is there: it
is in a copy that nobody holds. -/
theorem column_not_filled :
    (readColumn.getInto (fun _ => 1) (fun _ => 0)).map
        (fun mem => readColumn.dst.addresses.map mem) = some [0, 0, 0, 0, 0, 0, 0, 0] ∧
      ¬ readColumn.FillsOrRaises := by
  refine ⟨by decide, fun hc => ?_⟩
  refine not_filled_of_fresh (c := readColumn) (by unfold FreshStorage; decide) rfl (by decide) ?_
  refine hc _ _ _ (getInto_eq_some.mpr ⟨.cuda, ?_, rfl⟩)
  exact ⟨.inl rfl, rfl, rfl, ⟨by decide, by decide, by decide, by decide⟩, by decide, rfl⟩

end GetInto

end HMC.IOBuffer
