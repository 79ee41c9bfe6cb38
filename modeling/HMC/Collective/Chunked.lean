import Mathlib.Data.List.Nodup
import HMC.Collective.Direct
import HMC.Core.Tiles
import HMC.Python.Bindings

/-!
# The chunk loops of the collectives

`_put_chunked`, `_get_chunked` and the transfer loop of `_ring_alltoall_core` are one loop: each
iteration makes one call or two with the next `min(chunk_bytes, nbytes - moved)` bytes. The numbers
are Python integers; a call whose offset or size is no `size_t` raises, and so does one that the
session refuses.

`alltoall` lets every `chunk_bytes` through (`alltoallArgs`). A negative one makes the
first call raise, but with `0` the calls move no bytes and the loop never ends
(`zero_chunk_never_ends`). `endsTiled_iff` says that this is the only case.

That a run is finite is shown by a measure: the bytes that are left, and within an iteration the
calls that are left. It goes down as long as an iteration moves bytes, which a positive
`chunk_bytes` makes sure of; a negative one is no `size_t`, so the first iteration is not completed.
With `0` the same holds if an offset is refused (`Stopped`), and otherwise there are runs of any
length (`exists_long_run`). Each kind of calls tiles the range by itself, since the calls of an
iteration have the same `moved` (`Sent`).
-/

namespace HMC.Collective

open HMC.Machine

/-! ### The loop -/

/-- `put_remote` or `get_remote`. -/
inductive RemoteOp
  | put
  | get
  deriving DecidableEq

/-- One of the calls of an iteration, with the offsets that `moved` is added to. -/
structure Lane where
  op : RemoteOp
  localOff : ℤ
  remoteOff : ℤ

/-- A chunk loop: its calls are made in turn in each iteration. -/
structure ChunkLoop where
  nbytes : ℕ
  chunkBytes : ℤ
  lanes : List Lane
  nonempty : lanes ≠ []
  nodup : (lanes.map Lane.op).Nodup

/-- `_put_chunked`. -/
def putChunked (localOff remoteOff : ℤ) (nbytes : ℕ) (chunkBytes : ℤ) : ChunkLoop where
  nbytes := nbytes
  chunkBytes := chunkBytes
  lanes := [⟨.put, localOff, remoteOff⟩]
  nonempty := List.cons_ne_nil _ _
  nodup := by simp

/-- `_get_chunked`. -/
def getChunked (localOff remoteOff : ℤ) (nbytes : ℕ) (chunkBytes : ℤ) : ChunkLoop where
  nbytes := nbytes
  chunkBytes := chunkBytes
  lanes := [⟨.get, localOff, remoteOff⟩]
  nonempty := List.cons_ne_nil _ _
  nodup := by simp

/-- The inner loop of `_ring_alltoall_core`: `left.get`, then `right.put`. -/
def ringTransfer (myRecvOff srcOffOnLeft sendOff dstOffOnRight : ℤ) (bytesPerPeer : ℕ)
    (chunkBytes : ℤ) : ChunkLoop where
  nbytes := bytesPerPeer
  chunkBytes := chunkBytes
  lanes := [⟨.get, myRecvOff, srcOffOnLeft⟩, ⟨.put, sendOff, dstOffOnRight⟩]
  nonempty := List.cons_ne_nil _ _
  nodup := by simp

/-- The arguments of a call of `n` bytes, as the core gets them. -/
def Lane.args (l : Lane) (moved n : ℤ) : Option Transfer := do
  let localOff ← sizeT (l.localOff + moved)
  let remoteOff ← sizeT (l.remoteOff + moved)
  let size ← sizeT n
  return ⟨localOff, remoteOff, size⟩

/-- At the loop condition, before the remaining calls of an iteration, or at the end. -/
inductive ChunkPc
  | head
  | call (rest : List Lane)
  | returned
  | raised

/-- `issued` is what the calls of each kind have moved. -/
structure ChunkState where
  pc : ChunkPc
  moved : ℤ
  issued : RemoteOp → List Transfer

def ChunkState.start : ChunkState := ⟨.head, 0, fun _ => []⟩

namespace ChunkLoop

variable (L : ChunkLoop)

/-- `n` of an iteration. -/
def size (moved : ℤ) : ℤ := min L.chunkBytes (L.nbytes - moved)

/-- One step of the loop; `ok` is what the session makes of a call. -/
def step (s : ChunkState) (ok : Bool) : Option ChunkState :=
  match s.pc with
  | .head => some { s with pc := if s.moved < L.nbytes then .call L.lanes else .returned }
  | .call [] => some { s with pc := .head, moved := s.moved + L.size s.moved }
  | .call (l :: rest) =>
    match l.args s.moved (L.size s.moved) with
    | none => some { s with pc := .raised }
    | some t =>
      if ok then
        some { s with
          pc := .call rest
          issued := Function.update s.issued l.op (s.issued l.op ++ [t]) }
      else some { s with pc := .raised }
  | .returned => none
  | .raised => none

/-- The claim: whatever the session makes of the calls, every run is finite and goes on until the
loop raises or returns, and when it has returned, each kind of calls has tiled the range. -/
structure EndsTiled : Prop where
  progress : ∀ s, Reach L.step Free ChunkState.start s → s.pc ≠ .returned → s.pc ≠ .raised →
    ∀ ok, ∃ t, L.step s ok = some t
  bounded : ∃ n, ∀ as s, exec L.step ChunkState.start as = some s → as.length ≤ n
  tiles : ∀ s, Reach L.step Free ChunkState.start s → s.pc = .returned → ∀ l ∈ L.lanes,
    (L.nbytes ≠ 0 → 0 ≤ l.localOff ∧ 0 ≤ l.remoteOff) ∧
      Tiles L.chunkBytes.toNat l.localOff.toNat l.remoteOff.toNat L.nbytes (s.issued l.op)

/-- The offsets of the first calls are not all `size_t`. -/
def OffsetRefused : Prop := ∃ l ∈ L.lanes, sizeT l.localOff = none ∨ sizeT l.remoteOff = none

/-! ### Single calls -/

variable {L} {l : Lane} {moved n : ℤ} {t : Transfer}

theorem args_eq_some (h : l.args moved n = some t) : 0 ≤ l.localOff + moved ∧
    0 ≤ l.remoteOff + moved ∧ 0 ≤ n ∧
      t = ⟨(l.localOff + moved).toNat, (l.remoteOff + moved).toNat, n.toNat⟩ := by
  simp only [Lane.args, Option.bind_eq_bind, Option.bind_eq_some_iff, sizeT_eq_some,
    Option.pure_def, Option.some_inj] at h
  obtain ⟨_, ⟨⟨hl, -⟩, rfl⟩, _, ⟨⟨hr, -⟩, rfl⟩, _, ⟨⟨hn, -⟩, rfl⟩, rfl⟩ := h
  exact ⟨hl, hr, hn, rfl⟩

/-- A lane has moved `m` bytes. -/
def Sent (L : ChunkLoop) (s : ChunkState) (m : ℤ) (l : Lane) : Prop :=
  (m ≠ 0 → 0 ≤ l.localOff ∧ 0 ≤ l.remoteOff) ∧
    Tiles L.chunkBytes.toNat l.localOff.toNat l.remoteOff.toNat m.toNat (s.issued l.op)

/-- One more chunk. -/
theorem Sent.call {s s' : ChunkState} (h : L.Sent s moved l) (h0 : 0 ≤ moved) (hpos : 0 < n)
    (hn : n ≤ L.chunkBytes) (hargs : l.args moved n = some t)
    (hissued : s'.issued l.op = s.issued l.op ++ [t]) : L.Sent s' (moved + n) l := by
  obtain ⟨hl, hr, -, rfl⟩ := args_eq_some hargs
  have hoff : 0 ≤ l.localOff ∧ 0 ≤ l.remoteOff := by
    obtain rfl | hne := eq_or_ne moved 0
    · omega
    · exact h.1 hne
  refine ⟨fun _ => hoff, ?_⟩
  rw [hissued, Int.toNat_add h0 (Int.le_of_lt hpos)]
  have hlocal := Int.toNat_add hoff.1 h0
  have hremote := Int.toNat_add hoff.2 h0
  exact h.2.snoc (t := ⟨_, _, n.toNat⟩) hlocal hremote (Int.lt_toNat.mpr hpos)
    (Int.toNat_le_toNat hn)

/-- Calls of another kind change nothing. -/
theorem Sent.congr {s s' : ChunkState} (h : L.Sent s moved l)
    (hissued : s'.issued l.op = s.issued l.op) : L.Sent s' moved l := by
  rw [Sent, hissued]
  exact h

/-! ### The invariant -/

/-- Where the loop stands: at its condition or before the calls in `rest`, having made those in
`done`. -/
inductive Inv (L : ChunkLoop) (s : ChunkState) : Prop
  | head (hpc : s.pc = .head) (h0 : 0 ≤ s.moved) (hle : s.moved ≤ L.nbytes)
      (hsent : ∀ l ∈ L.lanes, L.Sent s s.moved l)
  | call (done rest : List Lane) (hpc : s.pc = .call rest) (hlanes : done ++ rest = L.lanes)
      (h0 : 0 ≤ s.moved) (hlt : s.moved < L.nbytes) (hpos : done ≠ [] → 0 < L.chunkBytes)
      (hdone : ∀ l ∈ done, L.Sent s (s.moved + L.size s.moved) l)
      (hrest : ∀ l ∈ rest, L.Sent s s.moved l)
  | returned (hpc : s.pc = .returned) (hsent : ∀ l ∈ L.lanes, L.Sent s L.nbytes l)
  | raised (hpc : s.pc = .raised)

/-- How far the loop is from its end. -/
def measure (L : ChunkLoop) (s : ChunkState) : ℕ :=
  match s.pc with
  | .head => (L.nbytes - s.moved).toNat * (L.lanes.length + 2) + 1
  | .call rest => ((L.nbytes - s.moved).toNat - 1) * (L.lanes.length + 2) + rest.length + 2
  | .returned => 0
  | .raised => 0

variable {s s' : ChunkState} {ok : Bool}

theorem size_le : L.size moved ≤ L.chunkBytes := Int.min_le_left _ _

theorem size_le_rest : L.size moved ≤ L.nbytes - moved := Int.min_le_right _ _

theorem Inv.initial : Inv L ChunkState.start := by
  refine .head rfl (Int.le_refl 0) (Int.natCast_nonneg _) fun l _ => ⟨fun h => absurd rfl h, ?_⟩
  exact rfl

/-- The loop condition. -/
theorem Inv.step_head (h0 : 0 ≤ s.moved) (hle : s.moved ≤ L.nbytes)
    (hsent : ∀ l ∈ L.lanes, L.Sent s s.moved l) (hpc : s.pc = .head) (hs : L.step s ok = some s') :
    Inv L s' ∧ L.measure s' < L.measure s := by
  simp only [step, hpc] at hs
  obtain rfl := Option.some.inj hs
  by_cases hlt : s.moved < L.nbytes
  · rw [if_pos hlt]
    refine ⟨.call [] L.lanes rfl rfl h0 hlt (fun h => absurd rfl h) ?_ hsent, ?_⟩
    · exact fun l hl => absurd hl (List.not_mem_nil)
    · have hne : (L.nbytes - s.moved).toNat ≠ 0 := by omega
      obtain ⟨k, hk⟩ := Nat.exists_eq_succ_of_ne_zero hne
      simp only [measure, hpc, hk, Nat.succ_mul, Nat.succ_sub_one]
      omega
  · have heq : s.moved = L.nbytes := by omega
    rw [if_neg hlt]
    refine ⟨.returned rfl fun l hl => ?_, ?_⟩
    · rw [← heq]
      exact hsent l hl
    · simp only [measure, hpc]
      omega

/-- The end of an iteration. -/
theorem Inv.step_next {done : List Lane} (hlanes : done ++ [] = L.lanes) (h0 : 0 ≤ s.moved)
    (hlt : s.moved < L.nbytes) (hpos : done ≠ [] → 0 < L.chunkBytes)
    (hdone : ∀ l ∈ done, L.Sent s (s.moved + L.size s.moved) l) (hpc : s.pc = .call [])
    (hs : L.step s ok = some s') : Inv L s' ∧ L.measure s' < L.measure s := by
  rw [List.append_nil] at hlanes
  subst hlanes
  -- an iteration makes at least one call, which was not refused
  have hchunk := hpos L.nonempty
  have hsize : 0 < L.size s.moved := Int.lt_min.mpr ⟨hchunk, by omega⟩
  have hrest : L.size s.moved ≤ L.nbytes - s.moved := size_le_rest
  simp only [step, hpc] at hs
  obtain rfl := Option.some.inj hs
  refine ⟨.head rfl ?_ ?_ hdone, ?_⟩
  · dsimp only
    omega
  · dsimp only
    omega
  · simp only [measure, hpc, List.length_nil]
    have hle : (L.nbytes - (s.moved + L.size s.moved)).toNat ≤ (L.nbytes - s.moved).toNat - 1 := by
      omega
    have := Nat.mul_le_mul_right (L.lanes.length + 2) hle
    omega

/-- A call. -/
theorem Inv.step_call {done rest : List Lane} {l : Lane} (hlanes : done ++ l :: rest = L.lanes)
    (hchunk : L.chunkBytes ≠ 0) (h0 : 0 ≤ s.moved) (hlt : s.moved < L.nbytes)
    (hdone : ∀ l ∈ done, L.Sent s (s.moved + L.size s.moved) l)
    (hrest : ∀ l' ∈ l :: rest, L.Sent s s.moved l') (hpc : s.pc = .call (l :: rest))
    (hs : L.step s ok = some s') : Inv L s' ∧ L.measure s' < L.measure s := by
  have hraised : Inv L { s with pc := .raised } ∧
      L.measure { s with pc := .raised } < L.measure s := by
    refine ⟨.raised rfl, ?_⟩
    simp only [measure, hpc]
    omega
  simp only [step, hpc] at hs
  cases hargs : l.args s.moved (L.size s.moved) with
  | none =>
    rw [hargs] at hs
    obtain rfl := Option.some.inj hs
    exact hraised
  | some t =>
    rw [hargs] at hs
    dsimp only at hs
    split_ifs at hs with hok
    · obtain rfl := Option.some.inj hs
      -- the call was made, so `n` is a `size_t`
      have hn : 0 ≤ L.size s.moved := (args_eq_some hargs).2.2.1
      have hpos : 0 < L.chunkBytes := by
        have := Int.le_trans hn size_le
        omega
      have hsize : 0 < L.size s.moved := Int.lt_min.mpr ⟨hpos, by omega⟩
      -- no other call of the iteration is of its kind
      have hother : ∀ l' ∈ done ++ rest, l'.op ≠ l.op := by
        have hnodup := L.nodup
        rw [← hlanes, List.map_append, List.map_cons] at hnodup
        rw [List.nodup_middle, List.nodup_cons, ← List.map_append] at hnodup
        exact fun l' hl' heq => hnodup.1 (heq ▸ List.mem_map_of_mem hl')
      refine ⟨.call (done ++ [l]) rest rfl ?_ h0 hlt (fun _ => hpos) ?_ ?_, ?_⟩
      · rw [List.append_assoc]
        exact hlanes
      · intro l' hl'
        obtain hl' | hl' := List.mem_append.mp hl'
        · refine (hdone l' hl').congr (Function.update_of_ne ?_ _ _)
          exact hother l' (List.mem_append_left _ hl')
        · obtain rfl := List.mem_singleton.mp hl'
          exact (hrest l' (.head _)).call h0 hsize size_le hargs (Function.update_self _ _ _)
      · intro l' hl'
        refine (hrest l' (.tail _ hl')).congr (Function.update_of_ne ?_ _ _)
        exact hother l' (List.mem_append_right _ hl')
      · simp only [measure, hpc, List.length_cons]
        omega
    · obtain rfl := Option.some.inj hs
      exact hraised

/-- **One step** comes nearer to the end, and each kind of calls has tiled what was moved. -/
theorem Inv.step (h : L.Inv s) (hchunk : L.nbytes = 0 ∨ L.chunkBytes ≠ 0)
    (hs : L.step s ok = some s') : L.Inv s' ∧ L.measure s' < L.measure s := by
  cases h with
  | head hpc h0 hle hsent => exact step_head h0 hle hsent hpc hs
  | call done rest hpc hlanes h0 hlt hpos hdone hrest =>
    cases rest with
    | nil => exact step_next hlanes h0 hlt hpos hdone hpc hs
    | cons l rest =>
      exact step_call hlanes (hchunk.resolve_left (by omega)) h0 hlt hdone hrest hpc hs
  | returned hpc _ => simp [ChunkLoop.step, hpc] at hs
  | raised hpc => simp [ChunkLoop.step, hpc] at hs

theorem exists_step (hret : s.pc ≠ .returned) (hraise : s.pc ≠ .raised) (ok : Bool) :
    ∃ t, L.step s ok = some t := by
  cases hpc : s.pc with
  | head => exact ⟨_, by rw [step, hpc]⟩
  | call rest =>
    cases rest with
    | nil => exact ⟨_, by rw [step, hpc]⟩
    | cons l rest =>
      rw [step, hpc]
      dsimp only
      split
      · exact ⟨_, rfl⟩
      · split_ifs
        · exact ⟨_, rfl⟩
        · exact ⟨_, rfl⟩
  | returned => exact absurd hpc hret
  | raised => exact absurd hpc hraise

theorem endsTiled_of_ne_zero (h : L.nbytes = 0 ∨ L.chunkBytes ≠ 0) : L.EndsTiled where
  progress _ _ := exists_step
  bounded := ⟨L.measure ChunkState.start, fun _ _ =>
    length_le_of_decreases (I := L.Inv) L.measure (fun _ _ _ hI hs => hI.step h hs) .initial⟩
  tiles s hr hpc l hl := by
    have hI : L.Inv s := hr.invariant .initial fun _ _ _ _ hI _ hs => (hI.step h hs).1
    cases hI with
    | returned _ hsent =>
      obtain ⟨hoff, htiles⟩ := hsent l hl
      exact ⟨fun hne => hoff (by omega), htiles⟩
    | head hpc' => rw [hpc] at hpc'; cases hpc'
    | call _ _ hpc' => rw [hpc] at hpc'; cases hpc'
    | raised hpc' => rw [hpc] at hpc'; cases hpc'

/-! ### Chunks of no bytes -/

theorem size_of_zero (h0 : L.chunkBytes = 0) : L.size 0 = 0 := by
  rw [size, h0]
  omega

theorem args_eq_none : l.args 0 0 = none ↔ sizeT l.localOff = none ∨ sizeT l.remoteOff = none := by
  have hzero : sizeT 0 = some 0 := rfl
  rw [Lane.args, Int.add_zero, Int.add_zero, hzero]
  cases sizeT l.localOff with
  | none => simp
  | some localOff =>
    cases sizeT l.remoteOff with
    | none => simp
    | some remoteOff => simp

/-- The loop has not come past a call whose offset is refused. -/
inductive Stopped (L : ChunkLoop) (s : ChunkState) : Prop
  | head (hpc : s.pc = .head) (hmoved : s.moved = 0)
  | call (rest : List Lane) (hpc : s.pc = .call rest) (hmoved : s.moved = 0)
      (hrefused : ∃ l ∈ rest, l.args 0 0 = none)
  | raised (hpc : s.pc = .raised)

def stopMeasure (L : ChunkLoop) (s : ChunkState) : ℕ :=
  match s.pc with
  | .head => L.lanes.length + 2
  | .call rest => rest.length + 1
  | .returned => 0
  | .raised => 0

/-- Chunks of no bytes bring the loop to the call that is refused. -/
theorem Stopped.step (h : L.Stopped s) (hn : L.nbytes ≠ 0) (h0 : L.chunkBytes = 0)
    (href : L.OffsetRefused) (hs : L.step s ok = some s') :
    L.Stopped s' ∧ L.stopMeasure s' < L.stopMeasure s := by
  cases h with
  | head hpc hmoved =>
    simp only [ChunkLoop.step, hpc] at hs
    obtain rfl := Option.some.inj hs
    rw [if_pos (by omega)]
    obtain ⟨l, hl, hoff⟩ := href
    refine ⟨.call L.lanes rfl hmoved ⟨l, hl, args_eq_none.mpr hoff⟩, ?_⟩
    simp only [stopMeasure, hpc]
    omega
  | call rest hpc hmoved hrefused =>
    obtain ⟨l', hl', hnone⟩ := hrefused
    cases rest with
    | nil => cases hl'
    | cons l rest =>
      have hraised : L.Stopped { s with pc := .raised } ∧
          L.stopMeasure { s with pc := .raised } < L.stopMeasure s := by
        refine ⟨.raised rfl, ?_⟩
        simp only [stopMeasure, hpc]
        omega
      simp only [ChunkLoop.step, hpc, hmoved, size_of_zero h0] at hs
      cases hargs : l.args 0 0 with
      | none =>
        rw [hargs] at hs
        obtain rfl := Option.some.inj hs
        simpa only [hmoved] using hraised
      | some t =>
        rw [hargs] at hs
        dsimp only at hs
        -- this call was not refused, so the one that will be is still ahead
        have hmem : l' ∈ rest := (List.mem_cons.mp hl').resolve_left fun heq => by
          rw [heq, hargs] at hnone
          cases hnone
        split_ifs at hs with hok
        · obtain rfl := Option.some.inj hs
          refine ⟨.call rest rfl rfl ⟨l', hmem, hnone⟩, ?_⟩
          simp only [stopMeasure, hpc, List.length_cons]
          omega
        · obtain rfl := Option.some.inj hs
          simpa only [hmoved] using hraised
  | raised hpc => simp [ChunkLoop.step, hpc] at hs

theorem endsTiled_of_refused (hn : L.nbytes ≠ 0) (h0 : L.chunkBytes = 0)
    (href : L.OffsetRefused) : L.EndsTiled where
  progress _ _ := exists_step
  bounded := ⟨L.stopMeasure ChunkState.start, fun _ _ =>
    length_le_of_decreases (I := L.Stopped) L.stopMeasure
      (fun _ _ _ hI hs => hI.step hn h0 href hs) (.head rfl rfl)⟩
  tiles s hr hpc l hl := by
    have hI : L.Stopped s :=
      hr.invariant (.head rfl rfl) fun _ _ _ _ hI _ hs => (hI.step hn h0 href hs).1
    cases hI with
    | head hpc' => rw [hpc] at hpc'; cases hpc'
    | call _ hpc' => rw [hpc] at hpc'; cases hpc'
    | raised hpc' => rw [hpc] at hpc'; cases hpc'

/-- **A chunk of no bytes.** Where the session accepts all calls, the loop goes on. -/
theorem exists_long_run (hn : L.nbytes ≠ 0) (h0 : L.chunkBytes = 0) (href : ¬ L.OffsetRefused)
    (k : ℕ) : ∃ s, exec L.step ChunkState.start (List.replicate k true) = some s := by
  have hargs : ∀ l ∈ L.lanes, ∃ t, l.args 0 0 = some t := fun l hl => by
    refine Option.ne_none_iff_exists'.mp fun hnone => href ⟨l, hl, args_eq_none.mp hnone⟩
  suffices hrun : ∀ s : ChunkState, s.moved = 0 →
      (s.pc = .head ∨ ∃ rest, s.pc = .call rest ∧ rest ⊆ L.lanes) →
        ∃ t, exec L.step s (List.replicate k true) = some t from hrun _ rfl (.inl rfl)
  induction k with
  | zero => exact fun s _ _ => ⟨s, rfl⟩
  | succ k ih =>
    intro s hmoved hpc
    rw [List.replicate_succ, exec]
    obtain hpc | ⟨rest, hpc, hsub⟩ := hpc
    · rw [step, hpc, if_pos (by omega)]
      exact ih _ hmoved (.inr ⟨_, rfl, List.Subset.refl _⟩)
    · cases rest with
      | nil =>
        rw [step, hpc]
        refine ih _ ?_ (.inl rfl)
        dsimp only
        rw [hmoved, size_of_zero h0, Int.add_zero]
      | cons l rest =>
        obtain ⟨hl, hrest⟩ := List.cons_subset.mp hsub
        obtain ⟨t, ht⟩ := hargs l hl
        simp only [step, hpc, hmoved, size_of_zero h0, ht, if_true, Option.bind_some]
        exact ih _ rfl (.inr ⟨rest, rfl, hrest⟩)

/-- **When a chunk loop ends and tiles its range.** -/
theorem endsTiled_iff (L : ChunkLoop) :
    L.EndsTiled ↔ L.nbytes = 0 ∨ L.chunkBytes ≠ 0 ∨ L.OffsetRefused := by
  by_cases hn : L.nbytes = 0
  · exact iff_of_true (endsTiled_of_ne_zero (.inl hn)) (.inl hn)
  by_cases h0 : L.chunkBytes = 0
  · rw [or_iff_right hn, or_iff_right (not_not_intro h0)]
    constructor
    · intro h
      by_contra href
      obtain ⟨n, hbound⟩ := h.bounded
      obtain ⟨s, hs⟩ := exists_long_run hn h0 href (n + 1)
      have hle := hbound _ s hs
      rw [List.length_replicate] at hle
      omega
    · exact endsTiled_of_refused hn h0
  · exact iff_of_true (endsTiled_of_ne_zero (.inr h0)) (.inr (.inl h0))

end ChunkLoop

/-! ### The claim -/

/-- **When the chunk loops end and tile their ranges**: exactly when there is nothing to move, or
`chunk_bytes` is not `0`, or a call raises because of its offsets. The three loops are instances of
`endsTiled_iff`, with the offsets of their own calls. -/
theorem chunkLoops_iff (nbytes : ℕ) (chunkBytes : ℤ) :
    (∀ localOff remoteOff, (putChunked localOff remoteOff nbytes chunkBytes).EndsTiled ↔
      nbytes = 0 ∨ chunkBytes ≠ 0 ∨ sizeT localOff = none ∨ sizeT remoteOff = none) ∧
    (∀ localOff remoteOff, (getChunked localOff remoteOff nbytes chunkBytes).EndsTiled ↔
      nbytes = 0 ∨ chunkBytes ≠ 0 ∨ sizeT localOff = none ∨ sizeT remoteOff = none) ∧
    ∀ myRecvOff srcOffOnLeft sendOff dstOffOnRight,
      (ringTransfer myRecvOff srcOffOnLeft sendOff dstOffOnRight nbytes chunkBytes).EndsTiled ↔
        nbytes = 0 ∨ chunkBytes ≠ 0 ∨
          (sizeT myRecvOff = none ∨ sizeT srcOffOnLeft = none) ∨
            sizeT sendOff = none ∨ sizeT dstOffOnRight = none := by
  refine ⟨fun localOff remoteOff => ?_, fun localOff remoteOff => ?_, fun _ _ _ _ => ?_⟩
  · rw [ChunkLoop.endsTiled_iff]
    simp [ChunkLoop.OffsetRefused, putChunked]
  · rw [ChunkLoop.endsTiled_iff]
    simp [ChunkLoop.OffsetRefused, getChunked]
  · rw [ChunkLoop.endsTiled_iff]
    simp [ChunkLoop.OffsetRefused, ringTransfer]

/-- **A loop that does not end.** `alltoall` with `chunk_bytes = 0` on two ranks: while the session
accepts the puts of no bytes, the loop goes on. -/
theorem zero_chunk_never_ends :
    alltoallArgs 2 8 8 16 0 none 0 = .ok ⟨0, 8, 4, 0⟩ ∧
    (∀ k, ∃ s, exec (putChunked 4 8 4 0).step ChunkState.start (List.replicate k true) = some s) ∧
      ¬ (putChunked 4 8 4 0).EndsTiled := by
  have href : ¬ (putChunked 4 8 4 0).OffsetRefused := by
    simp [ChunkLoop.OffsetRefused, putChunked, sizeT]
  refine ⟨rfl, ChunkLoop.exists_long_run (by decide) rfl href, fun h => ?_⟩
  obtain hn | h0 | hoff := (ChunkLoop.endsTiled_iff _).mp h
  · exact absurd hn (by decide)
  · exact h0 rfl
  · exact href hoff

end HMC.Collective
