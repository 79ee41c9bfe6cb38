import HMC.Collective.Direct
import HMC.Python.Put

/-!
# The direct alltoall between objects

`alltoall(algo="direct")` with the objects that it is called with. A rank puts its send object into
the `ConnBuffer`, takes part in the exchange of `Collective/Direct`, and gets its receive region
into its receive object. `Direct` starts and ends with bytes in a row; here they start and end in
arrays and tensors of any layout, in the memory of the processes.

`Alltoall.step` is the machine with the objects. Each of its runs is followed by the machine of
`Direct` (`exists_direct_of_reach`), which sends the bytes of the send objects in their logical
order. So every call that returns has exchanged the blocks of the objects (`exchanged_of_reach`),
as long as CUDA tensors are contiguous: what else `put` and `get_into` need is checked by `_nbytes`
and `alltoall`.

`Direct` has one function for the tensors behind the calls, where the ranks have memories. `Follows`
relates the two: `out` is what the receive objects show of these memories. Between the two copies
the machines make the same moves, which do not look at `out` (`direct_step_withOut`); the copies
themselves are the calls of `Python/Put` and `Python/IOBuffer`, and their results there say what
they stage and what they fill (`put_eq`, `filled_of_get`).
-/

namespace HMC.Collective

open HMC.Machine HMC.IOBuffer

/-! ### The machine -/

/-- `_nbytes`; `none` is the exception of `cast`, which demands a contiguous view. -/
def nbytes (numpy : Bool) (x : Dest) : Option ℕ :=
  if x.kind = .numpy ∧ numpy then some x.nbytes
  else if x.kind = .torchCpu ∨ x.kind = .torchCuda then some x.nbytes
  else if x.isContiguous then some x.nbytes
  else none

/-- What the two copies of a call meet: whether numpy is there, and for `put` and `get_into` whether
views and allocations work, the outcome of the backend, and where a contiguous copy is stored.
`freed` is what the storage of a copy that nobody holds contains. -/
structure CopyEnv where
  numpy : Bool
  putSupported : Bool
  putCopied : Bool
  putFresh : ℕ
  freed : Bytes
  getSupported : Bool
  getCopied : Bool
  getFresh : ℕ

/-- The calls of the ranks of a group, call `k` of rank `r` with its objects, and `heap k r`, the
memory of the process when it enters the call. All ranks pass the checks with the same arguments. -/
structure Alltoall where
  world : ℕ
  sendBias : ℕ → ℕ
  recvBias : ℕ → Option ℕ
  chunkBytes : ℕ → ℤ
  core : ℕ → ConnBuffer
  fits : ∀ r, (core r).bufferSize < 2 ^ 64
  send : ℕ → ℕ → Source
  recv : ℕ → ℕ → Dest
  heap : ℕ → ℕ → Bytes
  env : ℕ → ℕ → CopyEnv
  args : ℕ → DirectCall
  checked : ∀ k, ∀ r < world, (do
    let nSend ← nbytes (env k r).numpy (send k r).toDest
    let nRecv ← nbytes (env k r).numpy (recv k r)
    return alltoallArgs world nSend nRecv (core r).bufferSize (sendBias k) (recvBias k)
      (chunkBytes k)) = some (.ok (args k))

namespace Alltoall

variable (c : Alltoall)

/-- `sess.buf.put(send, nbytes=total, offset=int(send_bias), device=None)`. -/
def put (k r : ℕ) : Put where
  core := c.core r
  fits := c.fits r
  data := .object (c.send k r)
  nbytes := some (c.send k r).nbytes
  offset := (c.args k).sendBase
  device := .none
  numpy := (c.env k r).numpy
  supported := (c.env k r).putSupported
  copied := (c.env k r).putCopied
  fresh := (c.env k r).putFresh

/-- `sess.buf.get_into(recv, nbytes=total, offset=int(recv_bias), device=None)`. -/
def get (k r : ℕ) : GetInto where
  core := c.core r
  fits := c.fits r
  dst := c.recv k r
  nbytes := (c.send k r).nbytes
  offset := (c.args k).recvBase
  device := .none
  numpy := (c.env k r).numpy
  supported := (c.env k r).getSupported
  copied := (c.env k r).getCopied
  fresh := (c.env k r).getFresh

/-- The exchange of the bytes: what a rank sends are the bytes of its object, in logical order. -/
def direct : Direct where
  world := c.world
  args := c.args
  send k r a := c.heap k r ((c.send k r).addresses.getD a 0)

/-- Rank `r` makes its next move; `st.out r k` is the memory of its process behind call `k`. A rank
whose `put` or `get_into` raises makes no more moves. -/
def step (st : DirectState) (r : ℕ) : Option DirectState :=
  if r < c.world then
    match st.pc r with
    | .stage =>
      ((c.put (st.call r) r).put (st.mem r) (c.heap (st.call r) r) (c.env (st.call r) r).freed).map
        fun out => { st with mem := Function.update st.mem r out.2 }.goto r
          (if c.world ≤ 1 then .selfCopy else .connect 1)
    | .copyOut =>
      ((c.get (st.call r) r).getInto (st.mem r) (c.heap (st.call r) r)).map (st.finish r)
    | _ => c.direct.step st r
  else none

/-- What `alltoall` leaves to its caller: CUDA tensors are contiguous, and the send region lies in
the buffer. -/
structure Plain (k r : ℕ) : Prop where
  sendCuda : (c.send k r).kind = .torchCuda → (c.send k r).isContiguous = true
  recvCuda : (c.recv k r).kind = .torchCuda → (c.recv k r).isContiguous = true
  range : (c.args k).sendBase + (c.send k r).nbytes ≤ (c.core r).bufferSize

/-- **Block exchange.** Block `j` of the receive object of rank `i` is block `i` of the send object
of rank `j`, byte by byte, and the rest of the memory is as it was. -/
structure Exchanged (st : DirectState) (i k : ℕ) : Prop where
  block : ∀ j < c.world, ∀ a < (c.args k).bytesPerPeer, ∀ x y,
    (c.recv k i).addresses[j * (c.args k).bytesPerPeer + a]? = some x →
      (c.send k j).addresses[i * (c.args k).bytesPerPeer + a]? = some y →
        st.out i k x = c.heap k j y
  frame : ∀ x ∉ (c.recv k i).addresses, st.out i k x = c.heap k i x

/-! ### The two copies -/

/-- What the checks of `alltoall` have established. -/
theorem alltoallArgs_eq_ok {w nSend nRecv size sendBias : ℕ} {recvBias : Option ℕ} {chunkBytes : ℤ}
    {a : DirectCall}
    (h : alltoallArgs w nSend nRecv size sendBias recvBias chunkBytes = .ok a) :
    nRecv = nSend ∧ nSend = w * a.bytesPerPeer ∧ a.recvBase + nSend ≤ size := by
  rw [alltoallArgs] at h
  split_ifs at h with hne hw hmod
  dsimp only at h
  split_ifs at h with hneed
  obtain rfl := Except.ok.inj h
  refine ⟨(not_not.mp hne).symm, ?_, Nat.not_lt.mp hneed⟩
  exact (Nat.mul_div_cancel' (Nat.dvd_of_mod_eq_zero (not_not.mp hmod))).symm

theorem nbytes_eq_some {numpy : Bool} {x : Dest} {n : ℕ} (h : nbytes numpy x = some n) :
    n = x.nbytes ∧ ((x.kind = .numpy → numpy = false) → x.kind ≠ .torchCpu → x.kind ≠ .torchCuda →
      x.isContiguous = true) := by
  rw [nbytes] at h
  split_ifs at h with hnumpy htorch hcont
  · exact ⟨(Option.some.inj h).symm, fun hn => absurd (hn hnumpy.1) (by simp [hnumpy.2])⟩
  · exact ⟨(Option.some.inj h).symm, fun _ hcpu hcuda => (htorch.elim hcpu hcuda).elim⟩
  · exact ⟨(Option.some.inj h).symm, fun _ _ _ => hcont⟩

variable {c} {k r : ℕ} {bytes bytes' mem' : Bytes}

/-- What a call has passed. -/
theorem checked_spec (hr : r < c.world) :
    (∃ n, nbytes (c.env k r).numpy (c.send k r).toDest = some n) ∧
      (c.recv k r).nbytes = (c.send k r).nbytes ∧ (c.send k r).nbytes = c.direct.total k ∧
        (c.args k).recvBase + (c.send k r).nbytes ≤ (c.core r).bufferSize := by
  obtain ⟨nSend, hsend, h⟩ := Option.bind_eq_some_iff.mp (c.checked k r hr)
  obtain ⟨nRecv, hrecv, h⟩ := Option.bind_eq_some_iff.mp h
  obtain ⟨rfl, -⟩ := nbytes_eq_some hsend
  obtain ⟨rfl, -⟩ := nbytes_eq_some hrecv
  exact ⟨⟨_, hsend⟩, alltoallArgs_eq_ok (Option.some.inj h)⟩

theorem nbytes_send (hr : r < c.world) : (c.send k r).nbytes = c.direct.total k :=
  (checked_spec hr).2.2.1

theorem nbytes_recv (hr : r < c.world) : (c.recv k r).nbytes = (c.send k r).nbytes :=
  (checked_spec hr).2.1

/-- A view of a send object shows a copy, or bytes in a row. -/
theorem view_send (hr : r < c.world) (hkind : (c.send k r).kind ≠ .torchCuda) :
    (c.put k r).copies (c.send k r) = true ∨ (c.send k r).Linear (c.send k r).nbytes := by
  by_cases hcont : (c.send k r).isContiguous = true
  · exact .inr (Source.linear_of_contiguous hcont (Nat.le_refl _))
  · obtain ⟨⟨n, hn⟩, -⟩ := checked_spec (c := c) (k := k) hr
    have hview := (nbytes_eq_some hn).2
    refine .inl ?_
    rw [Put.copies]
    cases h : (c.send k r).kind with
    | numpy =>
      have hnumpy : (c.env k r).numpy = true := by
        by_contra hne
        exact hcont (hview (fun _ => by simpa using hne) (by simp [h]) hkind)
      simp [put, hnumpy, hcont]
    | torchCpu => simp [hcont]
    | torchCuda => exact absurd h hkind
    | buffer => exact absurd (hview (by simp [h]) (by simp [h]) hkind) hcont

/-- A plain object is put as it is. -/
theorem sound_put (hr : r < c.world) (h : c.Plain k r) {n : ℕ} {p : Put.Path}
    (ht : (c.put k r).Takes n p) : (c.put k r).Sound n p := by
  have hfits := c.fits r
  have hrange := h.range
  cases p with
  | view s =>
    obtain ⟨hdata, ⟨-, hkind⟩, -, -, hn, -⟩ := ht
    obtain rfl := Data.object.inj hdata
    obtain rfl : (c.send k r).nbytes = n := Int.ofNat_inj.mp hn
    exact ⟨Nat.lt_of_le_of_lt hrange hfits, view_send hr hkind, fun hnone => nomatch hnone⟩
  | cuda s =>
    obtain ⟨hdata, -, hkind, -, hn, -⟩ := ht
    obtain rfl := Data.object.inj hdata
    obtain rfl : (c.send k r).nbytes = n := Int.ofNat_inj.mp hn
    exact ⟨Nat.lt_of_le_of_lt hrange hfits, .inr ⟨h.sendCuda hkind, Nat.le_refl _⟩⟩
  | pointer ptr => cases ht.1

/-- A plain object is filled. -/
theorem sound_get (hr : r < c.world) (h : c.Plain k r) {p : GetInto.Path}
    (ht : (c.get k r).Takes p) : (c.get k r).Sound := by
  refine ⟨Nat.lt_of_le_of_lt (checked_spec hr).2.2.2 (c.fits r), .inr ⟨?_, ?_⟩⟩
  · cases p with
    | view => exact ht.2.1
    | tmp => exact ht.2.1
    | cuda => exact h.recvCuda ht.2.1
  · exact Nat.le_of_eq (nbytes_recv hr).symm

/-- `put` stages what `Direct` sends. -/
theorem put_eq {n : ℤ} (hr : r < c.world) (h : c.Plain k r)
    (hput : (c.put k r).put bytes (c.heap k r) (c.env k r).freed = some (n, bytes')) :
    bytes' = blit bytes (c.args k).sendBase (c.direct.send k r) (c.direct.total k) := by
  obtain ⟨m, p, ht, heq⟩ := Put.put_eq_some.mp hput
  obtain ⟨-, hwritten⟩ := Prod.mk.inj heq
  have hstored : (c.put k r).Stored bytes (c.heap k r) m bytes' :=
    hwritten ▸ Put.stored_of_sound ht (sound_put hr h ht)
  have hm : c.direct.total k = m := by
    have hcount := Option.some.inj hstored.count
    rw [← nbytes_send hr]
    exact Int.ofNat_inj.mp hcount
  rw [hm]
  exact hstored.eq_blit rfl

/-- `get_into` fills the receive object. -/
theorem filled_of_get (hr : r < c.world) (h : c.Plain k r)
    (hget : (c.get k r).getInto bytes (c.heap k r) = some mem') :
    (c.get k r).Filled bytes (c.heap k r) mem' := by
  obtain ⟨p, ht, rfl⟩ := GetInto.getInto_eq_some.mp hget
  exact GetInto.filled_of_sound ht (sound_get hr h ht)

/-! ### Following the machine -/

/-- The same state, with other bytes behind the calls. -/
def withOut (st : DirectState) (out : ℕ → ℕ → Bytes) : DirectState := { st with out := out }

/-- `out` holds the bytes that the receive objects show behind the calls that have returned. -/
structure Follows (c : Alltoall) (st : DirectState) (out : ℕ → ℕ → Bytes) : Prop where
  shown : ∀ i < c.world, ∀ k < st.call i, ∀ x < c.direct.total k, ∀ a,
    (c.recv k i).addresses[x]? = some a → st.out i k a = out i k x
  frame : ∀ i < c.world, ∀ k < st.call i, ∀ a ∉ (c.recv k i).addresses,
    st.out i k a = c.heap k i a

variable {st st' : DirectState} {out : ℕ → ℕ → Bytes}

/-- What a rank can do: put its object, get its object, or move as in `Direct`. -/
theorem step_cases (hs : c.step st r = some st') : r < c.world ∧
    ((∃ n bytes', st.pc r = .stage ∧
        (c.put (st.call r) r).put (st.mem r) (c.heap (st.call r) r) (c.env (st.call r) r).freed =
          some (n, bytes') ∧
        st' = { st with mem := Function.update st.mem r bytes' }.goto r
          (if c.world ≤ 1 then .selfCopy else .connect 1)) ∨
      (∃ mem', st.pc r = .copyOut ∧
        (c.get (st.call r) r).getInto (st.mem r) (c.heap (st.call r) r) = some mem' ∧
        st' = st.finish r mem') ∨
      (st.pc r ≠ .stage ∧ st.pc r ≠ .copyOut ∧ c.direct.step st r = some st')) := by
  obtain ⟨hr, hs⟩ := Option.ite_none_right_eq_some.mp hs
  refine ⟨hr, ?_⟩
  split at hs
  next hpc =>
    obtain ⟨⟨n, bytes'⟩, hput, rfl⟩ := Option.map_eq_some_iff.mp hs
    exact .inl ⟨n, bytes', hpc, hput, rfl⟩
  next hpc =>
    obtain ⟨mem', hget, rfl⟩ := Option.map_eq_some_iff.mp hs
    exact .inr (.inl ⟨mem', hpc, hget, rfl⟩)
  next hstage hout => exact .inr (.inr ⟨hstage, hout, hs⟩)

theorem copySelf_withOut {d : Direct} :
    d.copySelf (withOut st out) r = withOut (d.copySelf st r) out := by
  simp only [Direct.copySelf, show (withOut st out).call = st.call from rfl]
  split_ifs <;> rfl

theorem copySelf_out {d : Direct} : (d.copySelf st r).out = st.out := by
  rw [Direct.copySelf]
  split_ifs <;> rfl

/-- Moves between the two copies do not look at what is behind the calls. -/
theorem direct_step_withOut (hpc : st.pc r ≠ .copyOut) (hs : c.direct.step st r = some st') :
    c.direct.step (withOut st out) r = some (withOut st' out) ∧ st'.out = st.out ∧
      st'.call = st.call := by
  obtain ⟨hr, hs⟩ := Option.ite_none_right_eq_some.mp hs
  rw [Direct.step, if_pos hr, show (withOut st out).pc = st.pc from rfl,
    show (withOut st out).call = st.call from rfl]
  cases h : st.pc r with
  | stage =>
    simp only [h] at hs ⊢
    cases hs
    exact ⟨rfl, rfl, rfl⟩
  | connect s =>
    simp only [h] at hs ⊢
    cases hs
    exact ⟨rfl, rfl, rfl⟩
  | barrier s =>
    simp only [h] at hs ⊢
    obtain ⟨hb, hs⟩ := Option.ite_none_right_eq_some.mp hs
    cases hs
    exact ⟨if_pos hb, rfl, rfl⟩
  | selfCopy =>
    simp only [h] at hs ⊢
    cases hs
    rw [copySelf_withOut]
    exact ⟨rfl, copySelf_out, Direct.SyncInv.copySelf_call⟩
  | put dst moved =>
    simp only [h] at hs ⊢
    split_ifs at hs ⊢ <;> cases hs <;> exact ⟨rfl, rfl, rfl⟩
  | copyOut => exact absurd h hpc

namespace Follows

/-- Nothing has returned yet. -/
theorem start (c : Alltoall) (mem : ℕ → Bytes) : c.Follows (.start mem) fun _ _ _ => 0 where
  shown _ _ k hk := absurd hk (Nat.not_lt_zero k)
  frame _ _ k hk := absurd hk (Nat.not_lt_zero k)

/-- A move that does not return from a call. -/
theorem of_eq (h : c.Follows st out) (hout : st'.out = st.out) (hcall : st'.call = st.call) :
    c.Follows st' out := by
  refine ⟨fun i hi k hk => ?_, fun i hi k hk => ?_⟩ <;> rw [hcall] at hk <;> rw [hout]
  · exact h.shown i hi k hk
  · exact h.frame i hi k hk

/-- A rank returns from its call. -/
theorem finish (h : c.Follows st out) (hr : r < c.world)
    (hfilled : (c.get (st.call r) r).Filled (st.mem r) (c.heap (st.call r) r) mem') :
    c.Follows (st.finish r mem') (Function.update out r
      (Function.update (out r) (st.call r) (c.direct.received st r))) := by
  have hcases : ∀ i k, k < (st.finish r mem').call i →
      (i = r ∧ k = st.call r) ∨ (k < st.call i ∧ (i = r → k ≠ st.call r)) := by
    intro i k hk
    by_cases hir : i = r
    · subst hir
      simp only [DirectState.finish, Function.update_self] at hk
      omega
    · simp only [DirectState.finish, Function.update_of_ne hir] at hk
      exact .inr ⟨hk, fun heq => absurd heq hir⟩
  have hold : ∀ (f : ℕ → ℕ → Bytes) (b : Bytes) i k, (i = r → k ≠ st.call r) →
      Function.update f r (Function.update (f r) (st.call r) b) i k = f i k := by
    intro f b i k hne
    by_cases hir : i = r
    · subst hir
      rw [Function.update_self, Function.update_of_ne (hne rfl)]
    · rw [Function.update_of_ne hir]
  refine ⟨fun i hi k hk x hx a ha => ?_, fun i hi k hk a ha => ?_⟩
  · obtain ⟨rfl, rfl⟩ | ⟨hlt, hne⟩ := hcases i k hk
    · simp only [DirectState.finish, Function.update_self]
      exact hfilled.filled x (by rwa [← nbytes_send hi] at hx) a ha
    · dsimp only [DirectState.finish]
      rw [hold _ _ _ _ hne, hold _ _ _ _ hne]
      exact h.shown i hi k hlt x hx a ha
  · obtain ⟨rfl, rfl⟩ | ⟨hlt, hne⟩ := hcases i k hk
    · simp only [DirectState.finish, Function.update_self]
      exact hfilled.frame a ha
    · dsimp only [DirectState.finish]
      rw [hold _ _ _ _ hne]
      exact h.frame i hi k hlt a ha

/-- **One move** is followed by `Direct`. -/
theorem step (h : c.Follows st out) (hplain : ∀ k, ∀ r < c.world, c.Plain k r)
    (hs : c.step st r = some st') : ∃ out',
      c.direct.step (withOut st out) r = some (withOut st' out') ∧ c.Follows st' out' := by
  obtain ⟨hr, hs⟩ := step_cases hs
  obtain ⟨n, bytes', hpc, hput, rfl⟩ | ⟨mem', hpc, hget, rfl⟩ | ⟨-, hpc, hs⟩ := hs
  · refine ⟨out, ?_, h.of_eq rfl rfl⟩
    rw [put_eq hr (hplain _ r hr) hput, Direct.step, if_pos (show r < c.direct.world from hr),
      show (withOut st out).pc r = .stage from hpc]
    rfl
  · refine ⟨_, ?_, h.finish hr (filled_of_get hr (hplain _ r hr) hget)⟩
    rw [Direct.step, if_pos (show r < c.direct.world from hr),
      show (withOut st out).pc r = .copyOut from hpc]
    rfl
  · obtain ⟨hstep, hout, hcall⟩ := direct_step_withOut hpc hs
    exact ⟨out, hstep, h.of_eq hout hcall⟩

end Follows

/-- **The objects are bytes.** Every run with objects is followed by a run of `Direct`. -/
theorem exists_direct_of_reach {mem : ℕ → Bytes} (hplain : ∀ k, ∀ r < c.world, c.Plain k r)
    (hr : Reach c.step Free (.start mem) st) :
    ∃ out, Reach c.direct.step Free (.start mem) (withOut st out) ∧ c.Follows st out := by
  have hsim : ∃ sd, Reach c.direct.step Free (.start mem) sd ∧
      ∃ out, sd = withOut st out ∧ c.Follows st out := by
    refine hr.simulate (R := fun s sd => ∃ out, sd = withOut s out ∧ c.Follows s out)
      ⟨_, rfl, Follows.start c mem⟩ ?_
    rintro s r s' _ ⟨out, rfl, hf⟩ - hs
    obtain ⟨out', hstep, hf'⟩ := hf.step hplain hs
    exact ⟨_, .tail .refl trivial hstep, out', rfl, hf'⟩
  obtain ⟨_, hrun, out, rfl, hf⟩ := hsim
  exact ⟨out, hrun, hf⟩

/-- The data of `Direct` is where it belongs in all of its runs. -/
theorem dataInv_of_reach {d : Direct} {mem : ℕ → Bytes} (hd : ∀ k, (d.args k).Disjoint d.world)
    (hr : Reach d.step Free (.start mem) st) : d.DataInv st := by
  refine (hr.invariant (I := fun s => d.SyncInv s ∧ d.DataInv s) ⟨.start d mem, .start d mem⟩
    fun s r t _ ⟨hs, h⟩ _ hst => ?_).2
  obtain ⟨hrank, hm⟩ := Direct.move_of_step hst
  exact ⟨hs.move hrank hm, h.move hs hd hrank hm⟩

/-- **The direct alltoall exchanges the blocks of its objects**, whatever the layouts of the objects
and however the ranks are interleaved. The assumptions are those of `Direct`, where all ranks pass
the same arguments and a put has arrived when it returns, and that the objects are plain. -/
theorem exchanged_of_reach (c : Alltoall) (mem : ℕ → Bytes)
    (hplain : ∀ k, ∀ r < c.world, c.Plain k r) (hd : ∀ k, (c.args k).Disjoint c.world)
    {st : DirectState} (hr : Reach c.step Free (.start mem) st) :
    ∀ i < c.world, ∀ k < st.call i, c.Exchanged st i k := by
  obtain ⟨out, hrun, hf⟩ := exists_direct_of_reach hplain hr
  have hout := (dataInv_of_reach (d := c.direct) hd hrun).out
  intro i hi k hk
  refine ⟨fun j hj a ha x y hx hy => ?_, hf.frame i hi k hk⟩
  calc st.out i k x = out i k (j * (c.args k).bytesPerPeer + a) :=
        hf.shown i hi k hk _ (Direct.block_lt hj ha) x hx
    _ = c.direct.send k j (i * (c.args k).bytesPerPeer + a) := hout i hi k hk j hj a ha
    _ = c.heap k j y := by
        refine congrArg (c.heap k j) ?_
        rw [List.getD_eq_getElem?_getD, hy, Option.getD_some]

/-- Two ranks exchange one byte each. They send every second byte of a row, and receive into a
`bytearray`. -/
def everySecond : Alltoall where
  world := 2
  sendBias _ := 0
  recvBias _ := none
  chunkBytes _ := 1
  core _ := ⟨4, .cpu⟩
  fits _ := by decide
  send _ _ := ⟨⟨.numpy, 0, 1, [⟨2, 2⟩], true⟩, true, fun _ => rfl⟩
  recv _ _ := ⟨.buffer, 16, 1, [⟨2, 1⟩], true⟩
  heap k r a := UInt8.ofNat (100 * k + 10 * r + a)
  env _ _ := ⟨true, true, true, 32, fun _ => 0, true, true, 32⟩
  args _ := ⟨0, 2, 1, 1⟩
  checked _ _ _ := rfl

theorem exchanged_of_reach_everySecond :
    ∃ st, Reach everySecond.step Free (.start fun _ _ => 0) st ∧ st.call 1 = 1 ∧
      everySecond.Exchanged st 1 0 := by
  obtain ⟨st, hr, hcall⟩ : ∃ st, Reach everySecond.step Free (.start fun _ _ => 0) st ∧
      st.call 1 = 1 :=
    exists_reach_of_exec (schedule [(2, 0), (8, 1), (6, 0), (2, 1)]) (by decide +kernel)
  have hplain : ∀ k, ∀ r < everySecond.world, everySecond.Plain k r := fun k r _ =>
    ⟨nofun, nofun, Nat.le_of_ble_eq_true rfl⟩
  have hargs : alltoallArgs 2 2 2 4 0 none 1 = .ok ⟨0, 2, 1, 1⟩ := rfl
  exact ⟨st, hr, hcall, exchanged_of_reach everySecond _ hplain
    (fun _ => (disjoint_of_alltoallArgs hargs).1) hr 1 (by decide) 0 (by omega)⟩

end Alltoall

end HMC.Collective
