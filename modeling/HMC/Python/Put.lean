import HMC.Python.IOBuffer

/-!
# Writing Python objects to the connection buffer

`IOBuffer.put` copies a numpy array, a torch tensor, another object with a buffer, or the bytes at
a pointer to the `ConnBuffer`. On the CPU an array or a tensor that is not contiguous is copied
first, and the copy lives until its bytes have been read. Of a CUDA tensor only the address of the
copy is kept, and its storage has been freed when it is read. A view with the format "B" is not
cast: `len` counts its first dimension only, and the binding reads on from its first byte whatever
the strides are.

`storesOrRaises_iff` says which calls store what they are given. As for reading, there are three
paths (`Path`), and `Takes` and `reads` say for each when it is taken and which bytes it reads; the
calls of the source are gone through once, in `put_eq_some`. A path stores what it reads, so that
what is to be compared is the byte that it reads for the byte `k` with the one that the source has
there. Where the two addresses differ, a memory that has one byte set tells them apart (`mark`).
-/

namespace HMC.IOBuffer

open HMC.Machine

/-! ### Sources -/

/-- A source is an object as a destination is. `isB` says that its format is "B", bytes without a
sign. -/
structure Source extends Dest where
  isB : Bool
  byte : isB = true → itemsize = 1

/-- What is put: an object, or an `int` that is an address. -/
inductive Data
  | object (src : Source)
  | pointer (ptr : ℕ)

namespace Data

/-- Where the byte `k` is, in the logical order. -/
def address? : Data → ℕ → Option ℕ
  | .object src, k => src.addresses[k]?
  | .pointer ptr, k => some (ptr + k)

/-- The size of an object. -/
def nbytes? : Data → Option ℕ
  | .object src => some src.nbytes
  | .pointer _ => none

end Data

/-- A view that the binding gets: the memory that it shows, the address of its first byte, its `len`
and its number of bytes. -/
structure View where
  mem : Bytes
  ptr : ℕ
  len : ℕ
  nbytes : ℕ

namespace Source

variable (s : Source) (mem : Bytes)

/-- `len` of a view that has not been cast. -/
def firstDim : ℕ :=
  match s.dims with
  | [] => 1
  | d :: _ => d.size

/-- The memory with a contiguous copy of the source in it. -/
def copyAt (fresh : ℕ) : Bytes := blit mem fresh (fun k => mem (s.addresses.getD k 0)) s.nbytes

/-- `mv.cast("B") if mv.format != "B" else mv`: a cast demands a contiguous view, and its result has
one dimension. -/
def castB (mem : Bytes) (ptr : ℕ) (contiguous : Bool) : Option View :=
  if s.isB then some ⟨mem, ptr, s.firstDim, s.nbytes⟩
  else if contiguous then some ⟨mem, ptr, s.nbytes, s.nbytes⟩
  else none

/-- The first `n` bytes lie one after another. -/
def Linear (n : ℕ) : Prop := ∀ k < n, s.addresses[k]? = some (s.ptr + k)

instance (n : ℕ) : Decidable (s.Linear n) :=
  inferInstanceAs (Decidable (∀ k < n, s.addresses[k]? = some (s.ptr + k)))

theorem linear_of_contiguous {s : Source} (h : s.isContiguous = true) {n : ℕ} (hn : n ≤ s.nbytes) :
    s.Linear n := by
  intro k hk
  rw [Dest.addresses_of_contiguous h, List.getElem?_map, List.getElem?_range (by omega)]
  rfl

end Source

/-! ### `put` -/

/-- A call of `put`. The fields are those of `GetInto`; `supported` says here that neither a view of
the source, its `len` nor an allocation raises. -/
structure Put where
  core : ConnBuffer
  fits : core.bufferSize < 2 ^ 64
  data : Data
  nbytes : Option ℤ
  offset : ℤ
  device : DeviceHint
  numpy : Bool
  supported : Bool
  copied : Bool
  fresh : ℕ

namespace Put

variable (c : Put) (bytes mem freed : Bytes)

/-- `_as_cpu_contiguous_bytes_view`. -/
def asCpuContiguousBytesView (s : Source) : Option View :=
  if !c.supported then none
  else if s.kind = .numpy ∧ c.numpy then
    -- `np.ascontiguousarray(x)`
    if !s.isContiguous then s.castB (s.copyAt mem c.fresh) c.fresh true
    else s.castB mem s.ptr true
  else if s.kind = .torchCpu ∨ s.kind = .torchCuda then
    if s.kind = .torchCuda then none
    -- without numpy, the bytes object of `tobytes()`
    else if !c.numpy then some ⟨s.copyAt mem c.fresh, c.fresh, s.nbytes, s.nbytes⟩
    -- `x.contiguous()`
    else if !s.isContiguous then s.castB (s.copyAt mem c.fresh) c.fresh true
    else s.castB mem s.ptr true
  else s.castB mem s.ptr s.isContiguous

/-- `buffer_put_cpu`. -/
def bufferPutCpu (s : Source) : Option (ℤ × Bytes) := do
  let mv ← c.asCpuContiguousBytesView mem s
  let n := c.nbytes.getD mv.len
  let bytes' ← (Binding.writeFromCpu c.core bytes mv.mem ⟨mv.ptr, mv.nbytes, true⟩ n c.offset
    c.copied).bind ensureOk
  return (n, bytes')

/-- `buffer_put_gpu_ptr`, reading the given memory. -/
def bufferPutGpuPtr (src : Bytes) (ptr : ℕ) (n : ℤ) : Option (ℤ × Bytes) := do
  let bytes' ← (Binding.writeFromGpu c.core bytes src ptr n c.offset c.copied).bind ensureOk
  return (n, bytes')

/-- `buffer_put_cuda`. The copy that `contiguous()` makes goes out of scope when
`_torch_cuda_ptr_and_nbytes` returns, and `freed` is what its storage holds when it is read. -/
def bufferPutCuda (s : Source) : Option (ℤ × Bytes) :=
  if s.kind ≠ .torchCuda then none
  else if s.isContiguous then c.bufferPutGpuPtr bytes mem s.ptr (c.nbytes.getD s.nbytes)
  else if c.supported then c.bufferPutGpuPtr bytes freed c.fresh (c.nbytes.getD s.nbytes)
  else none

/-- `IOBuffer.put`, with the bytes of the `ConnBuffer` and the memory of the source: the number of
bytes that it returns and the bytes after it, or `none` for an exception. An `int` has no buffer and
is no tensor. -/
def put : Option (ℤ × Bytes) :=
  match c.data with
  | .pointer ptr =>
    if c.device = .ptr then
      match c.nbytes with
      | none => none
      | some n => c.bufferPutGpuPtr bytes mem ptr n
    else none
  | .object s =>
    if c.device = .ptr then none
    else if c.device = .cuda ∨ c.device = .none ∧ s.kind = .torchCuda then
      c.bufferPutCuda bytes mem freed s
    else c.bufferPutCpu bytes mem s

/-- What `put` promises when it returns `n`: `n` is the number asked for, or else the size of the
source, and the first `n` bytes of the source are in the `ConnBuffer`, which is the same
elsewhere. -/
structure Stored (n : ℕ) (bytes' : Bytes) : Prop where
  count : c.nbytes.or (c.data.nbytes?.map Nat.cast) = some (n : ℤ)
  room : ∀ m, c.data.nbytes? = some m → n ≤ m
  range : c.offset.toNat + n ≤ c.core.bufferSize
  stored : ∀ k < n, ∀ a, c.data.address? k = some a → bytes' (c.offset.toNat + k) = mem a
  frame : ∀ i, i < c.offset.toNat ∨ c.offset.toNat + n ≤ i → bytes' i = bytes i

/-- Every call that returns keeps the promise. -/
def StoresOrRaises : Prop :=
  ∀ bytes mem freed n bytes', c.put bytes mem freed = some (n, bytes') →
    ∃ k : ℕ, n = k ∧ c.Stored bytes mem k bytes'

/-! ### The paths -/

/-- The three ways to read what is put: through a view, at the address of a CUDA tensor, and at an
address that is given. -/
inductive Path
  | view (src : Source)
  | cuda (src : Source)
  | pointer (ptr : ℕ)

/-- `put` chooses the CPU. -/
def OnCpu (s : Source) : Prop := (c.device = .none ∨ c.device = .cpu) ∧ s.kind ≠ .torchCuda

/-- The view shows a copy. -/
def copies (s : Source) : Bool :=
  match s.kind with
  | .numpy => c.numpy && !s.isContiguous
  | .torchCpu => !c.numpy || !s.isContiguous
  | _ => false

/-- The `len` of the view. -/
def viewLen (s : Source) : ℕ :=
  if s.isB = true ∧ (s.kind = .torchCpu → c.numpy = true) then s.firstDim else s.nbytes

/-- The view of a source, when there is one. -/
def viewOf (s : Source) : View :=
  if c.copies s then ⟨s.copyAt mem c.fresh, c.fresh, c.viewLen s, s.nbytes⟩
  else ⟨mem, s.ptr, c.viewLen s, s.nbytes⟩

/-- What every path checks: the range, and that the copy succeeds. -/
def Copies (n : ℕ) : Prop := Binding.InRange c.core n c.offset ∧ c.copied = true

/-- A call takes a path with `n` bytes, and passes its checks. -/
def Takes (n : ℕ) : Path → Prop
  | .view s =>
    c.data = .object s ∧ c.OnCpu s ∧ c.supported = true ∧
      (c.copies s || s.isB || s.isContiguous) = true ∧ c.nbytes.getD (c.viewLen s) = n ∧
        n ≤ s.nbytes ∧ c.Copies n
  | .cuda s =>
    c.data = .object s ∧ (c.device = .none ∨ c.device = .cuda) ∧ s.kind = .torchCuda ∧
      (s.isContiguous || c.supported) = true ∧ c.nbytes.getD s.nbytes = n ∧
        c.core.memType ≠ .cpu ∧ c.Copies n
  | .pointer ptr =>
    c.data = .pointer ptr ∧ c.device = .ptr ∧ c.nbytes = some (n : ℤ) ∧ c.core.memType ≠ .cpu ∧
      c.Copies n

/-- The byte that is read for the byte `k`. -/
def reads (k : ℕ) : Path → UInt8
  | .view s => if c.copies s then mem (s.addresses.getD k 0) else mem (s.ptr + k)
  | .cuda s => if s.isContiguous then mem (s.ptr + k) else freed (c.fresh + k)
  | .pointer ptr => mem (ptr + k)

/-- The bytes that a path leaves. -/
def written (n : ℕ) (p : Path) : Bytes :=
  blit bytes c.offset.toNat (fun k => c.reads mem freed k p) n

/-- No `size_t` sum wraps. A view shows a copy or bytes that lie one after another, and its `len` is
the size of the source where that counts. A CUDA tensor is contiguous and has the bytes, unless none
is read. -/
def Sound (n : ℕ) (p : Path) : Prop :=
  c.offset.toNat + n < 2 ^ 64 ∧
    match p with
    | .view s => (c.copies s = true ∨ s.Linear n) ∧ (c.nbytes = none → c.viewLen s = s.nbytes)
    | .cuda s => n = 0 ∨ s.isContiguous = true ∧ n ≤ s.nbytes
    | .pointer _ => True

/-! ### The outcome of a call -/

variable {c : Put} {bytes mem freed : Bytes} {s : Source}

theorem asCpuContiguousBytesView_eq_some {v : View} :
    c.asCpuContiguousBytesView mem s = some v ↔
      c.supported = true ∧ s.kind ≠ .torchCuda ∧
        (c.copies s || s.isB || s.isContiguous) = true ∧ c.viewOf mem s = v := by
  rw [asCpuContiguousBytesView, viewOf, copies, viewLen]
  cases hkind : s.kind <;> cases c.supported <;> cases c.numpy <;> cases s.isContiguous <;>
    cases hB : s.isB <;> simp [Source.castB, hB]

@[simp] theorem len_viewOf : (c.viewOf mem s).len = c.viewLen s := by
  rw [viewOf]
  split_ifs <;> rfl

@[simp] theorem nbytes_viewOf : (c.viewOf mem s).nbytes = s.nbytes := by
  rw [viewOf]
  split_ifs <;> rfl

variable (freed) in
/-- What is read of a copy is what the source holds. -/
theorem blit_viewOf {n : ℕ} (h : n ≤ s.nbytes) :
    blit bytes c.offset.toNat (fun k => (c.viewOf mem s).mem ((c.viewOf mem s).ptr + k)) n =
      c.written bytes mem freed n (.view s) := by
  refine blit_congr fun k hk => ?_
  rw [viewOf, reads]
  split_ifs
  · dsimp only
    exact blit_apply_add (Nat.lt_of_lt_of_le hk h)
  · rfl

variable (freed) in
theorem bufferPutCpu_eq_some {r : ℤ × Bytes} :
    c.bufferPutCpu bytes mem s = some r ↔
      ∃ n : ℕ, (c.supported = true ∧ s.kind ≠ .torchCuda ∧
        (c.copies s || s.isB || s.isContiguous) = true ∧ c.nbytes.getD (c.viewLen s) = n ∧
          n ≤ s.nbytes ∧ c.Copies n) ∧ ((n : ℤ), c.written bytes mem freed n (.view s)) = r := by
  rw [bufferPutCpu]
  constructor
  · intro h
    obtain ⟨v, hv, h⟩ := Option.bind_eq_some_iff.mp h
    obtain ⟨bytes', hbytes', h⟩ := Option.bind_eq_some_iff.mp h
    obtain ⟨hsupp, hkind, hview, rfl⟩ := asCpuContiguousBytesView_eq_some.mp hv
    obtain ⟨n, hn, hin, hroom, hcopied, rfl⟩ := Binding.writeFromCpu_eq_some.mp hbytes'
    rw [nbytes_viewOf] at hroom
    rw [blit_viewOf freed hroom, hn] at h
    rw [len_viewOf] at hn
    exact ⟨n, ⟨hsupp, hkind, hview, hn, hroom, hin, hcopied⟩, Option.some.inj h⟩
  · rintro ⟨n, ⟨hsupp, hkind, hview, hn, hroom, hin, hcopied⟩, rfl⟩
    rw [← show (c.viewOf mem s).len = c.viewLen s from len_viewOf] at hn
    refine Option.bind_eq_some_iff.mpr
      ⟨_, asCpuContiguousBytesView_eq_some.mpr ⟨hsupp, hkind, hview, rfl⟩,
        Option.bind_eq_some_iff.mpr ⟨_, Binding.writeFromCpu_eq_some.mpr
          ⟨n, hn, hin, by rwa [nbytes_viewOf], hcopied, blit_viewOf freed hroom⟩, ?_⟩⟩
    rw [hn]
    rfl

theorem bufferPutGpuPtr_eq_some {src : Bytes} {ptr : ℕ} {size : ℤ} {r : ℤ × Bytes} :
    c.bufferPutGpuPtr bytes src ptr size = some r ↔
      ∃ n : ℕ, size = n ∧ c.core.memType ≠ .cpu ∧ c.Copies n ∧
        ((n : ℤ), blit bytes c.offset.toNat (fun k => src (ptr + k)) n) = r := by
  rw [bufferPutGpuPtr]
  constructor
  · intro h
    obtain ⟨bytes', hbytes', h⟩ := Option.bind_eq_some_iff.mp h
    obtain ⟨n, rfl, hin, ⟨hmem, hcopied⟩, rfl⟩ := Binding.writeFromGpu_eq_some.mp hbytes'
    exact ⟨n, rfl, hmem, ⟨hin, hcopied⟩, Option.some.inj h⟩
  · rintro ⟨n, rfl, hmem, ⟨hin, hcopied⟩, rfl⟩
    exact Option.bind_eq_some_iff.mpr ⟨_, Binding.writeFromGpu_eq_some.mpr
      ⟨n, rfl, hin, ⟨hmem, hcopied⟩, rfl⟩, rfl⟩

theorem bufferPutCuda_eq_some {r : ℤ × Bytes} :
    c.bufferPutCuda bytes mem freed s = some r ↔
      ∃ n : ℕ, (s.kind = .torchCuda ∧ (s.isContiguous || c.supported) = true ∧
        c.nbytes.getD s.nbytes = n ∧ c.core.memType ≠ .cpu ∧ c.Copies n) ∧
          ((n : ℤ), c.written bytes mem freed n (.cuda s)) = r := by
  rw [bufferPutCuda]
  by_cases hkind : s.kind = .torchCuda
  · rw [if_neg (not_not.mpr hkind)]
    by_cases hcont : s.isContiguous = true
    · simp [hkind, hcont, bufferPutGpuPtr_eq_some, written, reads, and_assoc]
    · by_cases hsupp : c.supported = true
      · simp [hkind, hcont, hsupp, bufferPutGpuPtr_eq_some, written, reads, and_assoc]
      · simp [hcont, hsupp]
  · simp [hkind]

/-- **The outcome.** A call returns when it takes a path and passes the checks there. -/
theorem put_eq_some {r : ℤ × Bytes} : c.put bytes mem freed = some r ↔
    ∃ (n : ℕ) (p : Path), c.Takes n p ∧ ((n : ℤ), c.written bytes mem freed n p) = r := by
  rw [put]
  constructor
  · intro h
    split at h
    next ptr hdata =>
      split_ifs at h with hdev
      split at h
      next => cases h
      next size hsize =>
        obtain ⟨n, rfl, hmem, hcopies, rfl⟩ := bufferPutGpuPtr_eq_some.mp h
        exact ⟨n, .pointer ptr, ⟨hdata, hdev, hsize, hmem, hcopies⟩, rfl⟩
    next s hdata =>
      split_ifs at h with hptr hpath
      · obtain ⟨n, ⟨hkind, hread⟩, rfl⟩ := bufferPutCuda_eq_some.mp h
        exact ⟨n, .cuda s, ⟨hdata, hpath.symm.imp_left And.left, hkind, hread⟩, rfl⟩
      · obtain ⟨n, ⟨hsupp, hkind, hview⟩, rfl⟩ := (bufferPutCpu_eq_some freed).mp h
        refine ⟨n, .view s, ⟨hdata, ⟨?_, hkind⟩, hsupp, hview⟩, rfl⟩
        cases hdev : c.device with
        | none => exact .inl rfl
        | cpu => exact .inr rfl
        | cuda => exact absurd (.inl hdev) hpath
        | ptr => exact absurd hdev hptr
  · rintro ⟨n, p, htakes, rfl⟩
    cases p with
    | view s =>
      obtain ⟨hdata, ⟨hdev, hkind⟩, hsupp, hview⟩ := htakes
      have hptr : c.device ≠ .ptr := by rintro hptr; simp [hptr] at hdev
      have hpath : ¬ (c.device = .cuda ∨ c.device = .none ∧ s.kind = .torchCuda) := by
        rintro (hcuda | ⟨-, hcuda⟩)
        · simp [hcuda] at hdev
        · exact hkind hcuda
      simp only [hdata]
      rw [if_neg hptr, if_neg hpath]
      exact (bufferPutCpu_eq_some freed).mpr ⟨n, ⟨hsupp, hkind, hview⟩, rfl⟩
    | cuda s =>
      obtain ⟨hdata, hdev, hkind, hread⟩ := htakes
      have hptr : c.device ≠ .ptr := by rintro hptr; simp [hptr] at hdev
      simp only [hdata]
      rw [if_neg hptr, if_pos (hdev.symm.imp_right fun h => ⟨h, hkind⟩)]
      exact bufferPutCuda_eq_some.mpr ⟨n, ⟨hkind, hread⟩, rfl⟩
    | pointer ptr =>
      obtain ⟨hdata, hdev, hsize, hmem, hcopies⟩ := htakes
      simp only [hdata, hsize, if_pos hdev]
      exact bufferPutGpuPtr_eq_some.mpr ⟨n, rfl, hmem, hcopies, rfl⟩

/-! ### What is stored -/

theorem Takes.copies {n : ℕ} {p : Path} (h : c.Takes n p) : c.Copies n := by
  cases p with
  | view s => exact h.2.2.2.2.2.2
  | cuda s => exact h.2.2.2.2.2.2
  | pointer ptr => exact h.2.2.2.2

/-- The number that a path returns. -/
theorem count_of_getD {n m k : ℕ} (h : c.nbytes.getD k = n) (hwhole : c.nbytes = none → k = m) :
    c.nbytes.or (some (m : ℤ)) = some (n : ℤ) := by
  cases hn : c.nbytes with
  | none =>
    rw [hn, Option.getD_none] at h
    rw [Option.none_or, ← hwhole hn, h]
  | some size =>
    rw [hn, Option.getD_some] at h
    rw [Option.some_or, h]

/-- A path stores what it reads, and it reads the source. -/
theorem stored_of_reads {n : ℕ} {p : Path} (h : c.Takes n p) (h64 : c.offset.toNat + n < 2 ^ 64)
    (hcount : c.nbytes.or (c.data.nbytes?.map Nat.cast) = some (n : ℤ))
    (hroom : ∀ m, c.data.nbytes? = some m → n ≤ m)
    (hreads : ∀ k < n, ∀ a, c.data.address? k = some a → c.reads mem freed k p = mem a) :
    c.Stored bytes mem n (c.written bytes mem freed n p) where
  count := hcount
  room := hroom
  range := by
    have hsum := h.copies.1.sum_le
    rw [wrap64_of_lt (by omega)] at hsum
    omega
  stored := by
    intro k hk a ha
    rw [written, blit_apply_add hk]
    exact hreads k hk a ha
  frame := by
    intro i hi
    exact blit_apply_of_not_mem hi

/-- The bytes of an object, in a row. -/
theorem Stored.eq_blit {n : ℕ} {bytes' : Bytes} (h : c.Stored bytes mem n bytes')
    (hdata : c.data = .object s) :
    bytes' = blit bytes c.offset.toNat (fun k => mem (s.addresses.getD k 0)) n := by
  funext i
  by_cases hi : c.offset.toNat ≤ i ∧ i < c.offset.toNat + n
  · obtain ⟨k, rfl⟩ := Nat.exists_eq_add_of_le hi.1
    have hk : k < n := by omega
    have hlt : k < s.addresses.length := by
      rw [Dest.length_addresses]
      exact Nat.lt_of_lt_of_le hk (h.room _ (by rw [hdata]; rfl))
    rw [blit_apply_add hk, List.getD_eq_getElem?_getD, List.getElem?_eq_getElem hlt]
    exact h.stored k hk _ (by rw [hdata]; exact List.getElem?_eq_getElem hlt)
  · rw [blit_apply_of_not_mem (by omega)]
    exact h.frame i (by omega)

/-- A sound call keeps its promise, whichever path it takes. -/
theorem stored_of_sound {n : ℕ} {p : Path} (h : c.Takes n p) (hs : c.Sound n p) :
    c.Stored bytes mem n (c.written bytes mem freed n p) := by
  obtain ⟨h64, hs⟩ := hs
  cases p with
  | view s =>
    obtain ⟨hlin, hwhole⟩ := hs
    obtain ⟨hdata, -, -, -, hn, hroom, -⟩ := id h
    refine stored_of_reads h h64 ?_ ?_ ?_
    · rw [hdata]
      exact count_of_getD hn hwhole
    · rw [hdata]
      rintro m ⟨⟩
      exact hroom
    · rw [hdata]
      intro k hk a ha
      rw [reads]
      split_ifs with hcopy
      · rw [List.getD_eq_getElem?_getD]
        exact congrArg (fun a => mem (a.getD 0)) ha
      · have hk := hlin.resolve_left hcopy k hk
        exact congrArg mem (Option.some.inj (hk.symm.trans ha))
  | cuda s =>
    obtain ⟨hdata, -, -, -, hn, -, -⟩ := id h
    refine stored_of_reads h h64 ?_ ?_ ?_
    · rw [hdata]
      exact count_of_getD hn fun _ => rfl
    · rw [hdata]
      rintro m ⟨⟩
      obtain rfl | ⟨-, hroom⟩ := hs
      · exact Nat.zero_le _
      · exact hroom
    · rw [hdata]
      intro k hk a ha
      rw [reads]
      obtain rfl | ⟨hcont, -⟩ := hs
      · omega
      · rw [if_pos hcont, Dest.getElem?_addresses hcont ha]
  | pointer ptr =>
    obtain ⟨hdata, -, hsize, -, -⟩ := id h
    refine stored_of_reads h h64 ?_ ?_ ?_
    · rw [hsize, Option.some_or]
    · rw [hdata]
      rintro m ⟨⟩
    · rw [hdata]
      rintro k - a ⟨⟩
      rfl

/-- The contents of a memory in which one byte is set. -/
def mark (a : ℕ) : Bytes := fun x => if x = a then 1 else 0

/-- A call that keeps its promise over every memory is sound. -/
theorem sound_of_stored {n : ℕ} {p : Path} (h : c.Takes n p)
    (hs : ∀ bytes mem freed, c.Stored bytes mem n (c.written bytes mem freed n p)) :
    c.Sound n p := by
  have hs₀ := hs (fun _ => 0) (fun _ => 0) fun _ => 1
  refine ⟨Nat.lt_of_le_of_lt hs₀.range c.fits, ?_⟩
  cases p with
  | view s =>
    obtain ⟨hdata, -, -, -, hn, hroom, -⟩ := h
    constructor
    · by_cases hcopy : c.copies s = true
      · exact .inl hcopy
      · refine .inr fun k hk => ?_
        have hlt : k < s.addresses.length := by
          rw [Dest.length_addresses]
          omega
        -- mark the byte `k` of the source, and look for it in the buffer
        have hmark := (hs (fun _ => 0) (mark s.addresses[k]) fun _ => 0).stored k hk _
          (by rw [hdata]; exact List.getElem?_eq_getElem hlt)
        rw [written, blit_apply_add hk, reads, if_neg hcopy, mark, mark, if_pos rfl] at hmark
        split_ifs at hmark with haddr
        · rw [List.getElem?_eq_getElem hlt, haddr]
        · cases hmark
    · intro hnone
      have hcount := hs₀.count
      rw [hnone, Option.getD_none] at hn
      rw [hnone, hdata, Option.none_or, ← hn] at hcount
      exact_mod_cast (Option.some.inj hcount).symm
  | cuda s =>
    obtain ⟨hdata, -⟩ := h
    have hroom : n ≤ s.nbytes := hs₀.room _ (by rw [hdata]; rfl)
    obtain rfl | hpos := Nat.eq_zero_or_pos n
    · exact .inl rfl
    · refine .inr ⟨?_, hroom⟩
      by_contra hcont
      have hlt : 0 < s.addresses.length := by
        rw [Dest.length_addresses]
        omega
      -- zeros are put, and the storage of the copy holds ones
      have hread := hs₀.stored 0 hpos _ (by rw [hdata]; exact List.getElem?_eq_getElem hlt)
      rw [written, blit_apply_add hpos, reads, if_neg hcont] at hread
      cases hread
  | pointer ptr => trivial

/-- **When `put` stores what it is given**: exactly when every call that takes a path and passes its
checks is sound. The claim is over every content of the memory, of the storage that was freed, and
of the buffer; the condition is about the layout of the source, the sizes and the offsets. -/
theorem storesOrRaises_iff (c : Put) : c.StoresOrRaises ↔ ∀ n p, c.Takes n p → c.Sound n p := by
  constructor
  · intro hc n p h
    refine sound_of_stored h fun bytes mem freed => ?_
    obtain ⟨k, hk, hs⟩ := hc _ _ _ _ _ (put_eq_some.mpr ⟨n, p, h, rfl⟩)
    rwa [← Int.ofNat_inj.mp hk] at hs
  · intro hs bytes mem freed n bytes' h
    obtain ⟨k, p, htakes, hr⟩ := put_eq_some.mp h
    cases hr
    exact ⟨k, rfl, stored_of_sound htakes (hs k p htakes)⟩

/-- A matrix of two rows of three bytes. -/
def byteMatrix : Put where
  core := ⟨12, .cpu⟩
  fits := by decide
  data := .object ⟨⟨.numpy, 0, 1, [⟨2, 3⟩, ⟨3, 1⟩], true⟩, true, fun _ => rfl⟩
  nbytes := none
  offset := 0
  device := .none
  numpy := true
  supported := true
  copied := true
  fresh := 256

/-- The `len` of the matrix is 2, and its other bytes are not put. -/
example : (byteMatrix.put (fun _ => 0) (fun _ => 1) fun _ => 0).map Prod.fst = some 2 := by decide

end Put

end HMC.IOBuffer
