import HMC.Core.Basic
import HMC.Core.Chunks
import HMC.Machine.Landing
import HMC.Machine.Run
import Mathlib.Data.List.Nodup

/-!
# Staged writes

`send_channel_slice_write_stage` sends device memory through a ring of slots in the `ConnBuffer`. A
chunk is copied to its slot, and `putNB` writes the slot to the peer's buffer at the same offset.
Before a slot is used again the loop waits for the put that reads it, and at the end for all puts.
The card carries out the puts at any moment and in any order, and a put reads its slot when it is
carried out. Each call may fail, and then the function returns at once.

`staged_of_reach` says that the puts are the chunks in their order, inside both buffers and the
device memory, that the peer's buffer is what the chunks make when they are sent one after another,
and that all of them have arrived when the function returns true.

The turns of the loop use the slots in a ring, and a chunk lies in the slot of its turn also in the
peer's buffer (`item_inSlot`). So the puts on their way, each in a slot of its own, write disjoint
ranges, and the order in which they are carried out does not matter: at the end it is as if each had
been carried out when it was posted. The invariant also has what the source of a put is good for,
that its slot still holds the chunk; only a turn with the same slot would change it, and that turn
waits.
-/

namespace HMC.App

open HMC.Machine

/-- The sizes of a transfer: of the `ConnBuffer`, `stage_chunk_size`, `stage_slots`,
`stage_src_window`, and the bytes to send. -/
structure StageConfig where
  bufferSize : ℕ
  stageChunkSize : ℕ
  stageSlots : ℕ
  stageSrcWindow : ℕ
  size : ℕ

namespace StageConfig

variable (c : StageConfig)

def half : ℕ := c.bufferSize / 2

def chunk : ℕ := max 1 (min c.stageChunkSize c.half)

def slotsByBuf : ℕ := max 1 (c.bufferSize / c.chunk)

def slots : ℕ := max 1 (if c.stageSlots = 0 then c.slotsByBuf else min c.stageSlots c.slotsByBuf)

def srcWindow : ℕ := max 1 (min c.size c.stageSrcWindow)

/-- The sizes that pass the checks of the function. -/
def Valid : Prop := c.size ≠ 0 ∧ 2 ≤ c.bufferSize

instance : Decidable c.Valid := inferInstanceAs (Decidable (_ ∧ _))

end StageConfig

/-- A put: its `wr_id`, the turn of the loop that has posted it, and its ranges. -/
structure StagePut where
  id : ℕ
  idx : ℕ
  transfer : Transfer
  deriving DecidableEq

/-- Where the function is: at the head of its loop, at `wait_one` for the slot, at
`copyDeviceToHost`, at `putNB`, in the last loop at a slot, or at its end, with
`g_last_transfer_ok`. -/
inductive StagePc
  | head
  | wait
  | copy
  | put
  | drain (i : ℕ)
  | done (ok : Bool)
  deriving DecidableEq

/-- The variables of the function, the two buffers, and the puts: those that are posted, those that
are on their way, and which ids are finished. -/
structure WriteStage where
  pc : StagePc
  sent : ℕ
  idx : ℕ
  inflight : ℕ → ℕ
  buffer : Bytes
  remote : Bytes
  posted : List StagePut
  pending : List StagePut
  finished : ℕ → Bool

/-- The Boolean of an action is the outcome of its call, as is the id of `putNB`. -/
inductive StageAct
  | head
  | wait (ok : Bool)
  | copy (ok : Bool)
  | put (id : Option ℕ)
  | drain (ok : Bool)
  | land (id : ℕ)

namespace WriteStage

def start (c : StageConfig) (buffer remote : Bytes) : WriteStage where
  pc := if c.Valid then .head else .done false
  sent := 0
  idx := 0
  inflight _ := 0
  buffer := buffer
  remote := remote
  posted := []
  pending := []
  finished _ := false

variable (c : StageConfig) (src : Bytes) (st : WriteStage)

def slot : ℕ := st.idx % c.slots

/-- The ranges of the next put, `step` bytes long. -/
def transfer : Transfer where
  localOff := st.slot c * c.chunk
  remoteOff := st.slot c * c.chunk
  size := min c.chunk (c.size - st.sent)

/-- `copyDeviceToHost` to the slot. -/
def copy : WriteStage :=
  { st with
    buffer := blit st.buffer (st.transfer c).localOff (fun k => src (st.sent % c.srcWindow + k))
      (st.transfer c).size
    pc := .put }

/-- `putNB`, and the end of the turn. -/
def put (id : ℕ) : WriteStage :=
  { st with
    posted := st.posted ++ [⟨id, st.idx, st.transfer c⟩]
    pending := st.pending ++ [⟨id, st.idx, st.transfer c⟩]
    inflight := Function.update st.inflight (st.slot c) id
    sent := st.sent + (st.transfer c).size
    idx := st.idx + 1
    pc := .head }

/-- A put is carried out. -/
def land (p : StagePut) : WriteStage :=
  { st with
    remote := blit st.remote p.transfer.remoteOff (fun k => st.buffer (p.transfer.localOff + k))
      p.transfer.size
    pending := st.pending.filter (·.id ≠ p.id)
    finished := Function.update st.finished p.id true }

/-- One step of the function or of the card. A wait for an id succeeds when it is finished, and
`putNB` gives an id that is not zero and that no put of the function has. -/
def step : StageAct → Option WriteStage
  | .head =>
    if st.pc = .head then
      if st.sent < c.size then
        if st.inflight (st.slot c) ≠ 0 then some { st with pc := .wait }
        else some { st with pc := .copy }
      else some { st with pc := .drain 0 }
    else none
  | .wait ok =>
    if st.pc = .wait then
      if ok then
        if st.finished (st.inflight (st.slot c)) then
          some { st with inflight := Function.update st.inflight (st.slot c) 0, pc := .copy }
        else none
      else some { st with pc := .done false }
    else none
  | .copy ok =>
    if st.pc = .copy then if ok then some (st.copy c src) else some { st with pc := .done false }
    else none
  | .put id =>
    if st.pc = .put then
      match id with
      | none => some { st with pc := .done false }
      | some id => if id ≠ 0 ∧ ∀ p ∈ st.posted, p.id ≠ id then some (st.put c id) else none
    else none
  | .drain ok =>
    match st.pc with
    | .drain i =>
      if i < c.slots then
        if st.inflight i ≠ 0 then
          if ok then
            if st.finished (st.inflight i) then some { st with pc := .drain (i + 1) } else none
          else some { st with pc := .done false }
        else some { st with pc := .drain (i + 1) }
      else some { st with pc := .done true }
    | _ => none
  | .land id =>
    match st.pending.find? (·.id = id) with
    | some p => some (st.land p)
    | none => none

/-! ### The chunks one after another -/

end WriteStage

namespace StageConfig

variable (c : StageConfig) (src : Bytes)

/-- The ranges of chunk `k`. -/
def range (k : ℕ) : Transfer where
  localOff := k % c.slots * c.chunk
  remoteOff := k % c.slots * c.chunk
  size := chunkLen c.size c.chunk k

/-- The offset in the device memory that chunk `k` is read from. -/
def srcOff (k : ℕ) : ℕ := k * c.chunk % c.srcWindow

/-- What chunk `k` puts at an offset of the peer's buffer. -/
def item (k a : ℕ) : Option UInt8 :=
  if (c.range k).remoteOff ≤ a ∧ a < (c.range k).remoteOff + (c.range k).size then
    some (src (c.srcOff k + (a - (c.range k).remoteOff)))
  else none

variable {c src} {k a : ℕ}

theorem chunk_pos : 0 < c.chunk := Nat.le_max_left _ _

theorem slots_pos : 0 < c.slots := Nat.le_max_left _ _

/-- The slots lie in the buffer, if it has two bytes. -/
theorem slots_mul_chunk_le (h : 2 ≤ c.bufferSize) : c.slots * c.chunk ≤ c.bufferSize := by
  have hchunk : c.chunk ≤ c.bufferSize := by
    have hhalf : c.half ≤ c.bufferSize := Nat.div_le_self _ _
    have hle : c.chunk ≤ max 1 c.half := Nat.max_le.mpr ⟨Nat.le_max_left _ _,
      Nat.le_trans (Nat.min_le_right _ _) (Nat.le_max_right _ _)⟩
    omega
  have hone : 1 ≤ c.bufferSize / c.chunk := (Nat.one_le_div_iff chunk_pos).mpr hchunk
  have hslots : c.slots ≤ c.bufferSize / c.chunk := by
    rw [slots, slotsByBuf]
    split_ifs <;> omega
  exact Nat.le_trans (Nat.mul_le_mul_right _ hslots) (Nat.div_mul_le_self _ _)

/-- A chunk stays in its slot. -/
theorem item_inSlot : InSlot c.slots (· / c.chunk) (c.item src) := by
  intro k a hne
  refine if_neg fun hin => hne ?_
  have hlen : (c.range k).size ≤ c.chunk := chunkLen_le
  have hoff : (c.range k).remoteOff = k % c.slots * c.chunk := rfl
  refine Nat.div_eq_of_lt_le ?_ ?_
  · omega
  · rw [Nat.add_mul, Nat.one_mul]
    omega

/-- The ranges of chunks in different slots do not meet. -/
theorem range_disjoint {j i : ℕ} (hne : j % c.slots ≠ k % c.slots) (hi : i < (c.range j).size) :
    (c.range j).localOff + i < (c.range k).localOff ∨
      (c.range k).localOff + (c.range k).size ≤ (c.range j).localOff + i := by
  have hj : (c.range j).size ≤ c.chunk := chunkLen_le
  have hk : (c.range k).size ≤ c.chunk := chunkLen_le
  have hoffj : (c.range j).localOff = j % c.slots * c.chunk := rfl
  have hoffk : (c.range k).localOff = k % c.slots * c.chunk := rfl
  rcases Nat.lt_or_gt_of_ne hne with hlt | hgt
  · have hmul := Nat.mul_le_mul_right c.chunk (Nat.succ_le_of_lt hlt)
    rw [Nat.succ_mul] at hmul
    omega
  · have hmul := Nat.mul_le_mul_right c.chunk (Nat.succ_le_of_lt hgt)
    rw [Nat.succ_mul] at hmul
    omega

theorem overwrite_item (m : Bytes) : overwrite (c.item src k) m =
    blit m (c.range k).remoteOff (fun j => src (c.srcOff k + j)) (c.range k).size := by
  funext a
  by_cases ha : (c.range k).remoteOff ≤ a ∧ a < (c.range k).remoteOff + (c.range k).size
  · rw [overwrite, item, if_pos ha, blit, if_pos ha]
    rfl
  · rw [overwrite, item, if_neg ha, blit, if_neg ha]
    rfl

/-- The ranges of a chunk lie in the two buffers and in the device memory. -/
theorem range_inside (h : 2 ≤ c.bufferSize) (hk : k < numChunks c.size c.chunk) :
    (c.range k).Inside c.bufferSize c.bufferSize ∧ c.srcOff k + (c.range k).size ≤ c.size := by
  have hslot : (k % c.slots + 1) * c.chunk ≤ c.slots * c.chunk :=
    Nat.mul_le_mul_right _ (Nat.mod_lt _ slots_pos)
  have hbuf := slots_mul_chunk_le h
  have hlen : (c.range k).size ≤ c.chunk := chunkLen_le
  have hend : k % c.slots * c.chunk + (c.range k).size ≤ c.bufferSize := by
    rw [Nat.add_mul, Nat.one_mul] at hslot
    omega
  refine ⟨⟨hend, hend⟩, ?_⟩
  have hmod : c.srcOff k ≤ k * c.chunk := Nat.mod_le _ _
  have hin : k * c.chunk + (c.range k).size ≤ c.size := chunk_end_le chunk_pos hk
  omega

end StageConfig

/-! ### What is kept -/

namespace WriteStage

variable (c : StageConfig) (src remote₀ : Bytes) (st : WriteStage)

/-- No put is on its way that reads the slot of the next one. -/
def SlotFree : Prop := ∀ p ∈ st.pending, p.idx % c.slots ≠ st.slot c

def Phase : StagePc → Prop
  | .head => True
  | .wait => st.sent < c.size
  | .copy => st.sent < c.size ∧ st.SlotFree c
  | .put => st.sent < c.size ∧ st.SlotFree c ∧ ∀ k < (c.range st.idx).size,
      st.buffer ((c.range st.idx).localOff + k) = src (c.srcOff st.idx + k)
  | .drain i => c.size ≤ st.sent ∧ ∀ p ∈ st.pending, i ≤ p.idx % c.slots
  | .done ok => ok = true → c.size ≤ st.sent ∧ st.pending = []

/-- The puts are the chunks so far. The table has the id of each that is on its way, under its slot,
which still holds its chunk; and the peer's buffer has the chunks that have arrived, as if each had
been carried out in its turn. -/
structure Inv : Prop where
  idx_le : st.idx ≤ numChunks c.size c.chunk
  sent : st.sent = min (st.idx * c.chunk) c.size
  posted : st.posted.map StagePut.idx = List.range st.idx
  range : ∀ p ∈ st.posted, p.transfer = c.range p.idx
  ids : (st.posted.map StagePut.id).Nodup
  sub : st.pending.Sublist st.posted
  busy : ∀ p ∈ st.pending, st.inflight (p.idx % c.slots) = p.id ∧ p.id ≠ 0 ∧
    st.finished p.id = false
  known : ∀ id, st.finished id = true → ∃ p ∈ st.posted, p.id = id
  staged : ∀ p ∈ st.pending, ∀ k < (c.range p.idx).size,
    st.buffer ((c.range p.idx).localOff + k) = src (c.srcOff p.idx + k)
  landing : Landing c.slots (· / c.chunk) (c.item src) remote₀ st.idx
    (fun k => ∃ p ∈ st.pending, p.idx = k) st.remote
  phase : st.Phase c src st.pc

namespace Inv

variable {c src remote₀ st} {st' : WriteStage} {id i : ℕ}

theorem start (buffer : Bytes) : Inv c src remote₀ (start c buffer remote₀) where
  idx_le := Nat.zero_le _
  sent := by simp [WriteStage.start]
  posted := rfl
  range p hp := by cases hp
  ids := List.nodup_nil
  sub := List.Sublist.refl _
  busy p hp := by cases hp
  known id h := by cases h
  staged p hp := by cases hp
  landing := Landing.start.congr fun k => by simp [WriteStage.start]
  phase := by
    by_cases hv : c.Valid
    · rw [WriteStage.start, if_pos hv]
      trivial
    · rw [WriteStage.start, if_neg hv]
      exact fun h => by cases h

/-- The function goes on and changes nothing but where it is. -/
theorem goto (h : Inv c src remote₀ st) {pc : StagePc} (hpc : st.Phase c src pc) :
    Inv c src remote₀ { st with pc := pc } :=
  { h with phase := hpc }

theorem sent_eq (h : Inv c src remote₀ st) (hlt : st.sent < c.size) :
    st.sent = st.idx * c.chunk := by
  have hsent := h.sent
  omega

theorem idx_lt (h : Inv c src remote₀ st) (hlt : st.sent < c.size) :
    st.idx < numChunks c.size c.chunk :=
  (lt_numChunks_iff StageConfig.chunk_pos).mpr (h.sent_eq hlt ▸ hlt)

/-- The next put is the next chunk. -/
theorem transfer_eq (h : Inv c src remote₀ st) (hlt : st.sent < c.size) :
    st.transfer c = c.range st.idx := by
  rw [transfer, h.sent_eq hlt]
  rfl

theorem eq_of_id (h : Inv c src remote₀ st) {p q : StagePut} (hp : p ∈ st.posted)
    (hq : q ∈ st.posted) (hid : p.id = q.id) : p = q :=
  List.inj_on_of_nodup_map h.ids hp hq hid

/-- Two puts on their way read two slots. -/
theorem eq_of_slot (h : Inv c src remote₀ st) {p q : StagePut} (hp : p ∈ st.pending)
    (hq : q ∈ st.pending) (hslot : p.idx % c.slots = q.idx % c.slots) : p = q := by
  refine h.eq_of_id (h.sub.subset hp) (h.sub.subset hq) ?_
  rw [← (h.busy p hp).1, ← (h.busy q hq).1, hslot]

theorem free_of_inflight (h : Inv c src remote₀ st) (hslot : st.inflight (st.slot c) = 0) :
    st.SlotFree c := by
  intro p hp heq
  obtain ⟨hid, hne, -⟩ := h.busy p hp
  exact hne (by rw [← hid, heq, hslot])

/-- The put of a finished id is not on its way. -/
theorem slot_ne_of_finished (h : Inv c src remote₀ st) (hi : st.finished (st.inflight i) = true)
    {p : StagePut} (hp : p ∈ st.pending) : p.idx % c.slots ≠ i := by
  intro heq
  obtain ⟨hid, -, hnot⟩ := h.busy p hp
  rw [← heq, hid, hnot] at hi
  cases hi

theorem wait (h : Inv c src remote₀ st) (hpc : st.pc = .wait)
    (hfinished : st.finished (st.inflight (st.slot c)) = true) :
    Inv c src remote₀
      { st with inflight := Function.update st.inflight (st.slot c) 0, pc := .copy } := by
  have hfree : st.SlotFree c := fun p hp => h.slot_ne_of_finished hfinished hp
  have hphase := h.phase
  rw [hpc] at hphase
  refine { h with busy := fun p hp => ?_, phase := ⟨hphase, hfree⟩ }
  exact ⟨(Function.update_of_ne (hfree p hp) _ _).trans (h.busy p hp).1, (h.busy p hp).2⟩

/-- The slot of the next chunk is filled, and no put sees it. -/
theorem copy (h : Inv c src remote₀ st) (hpc : st.pc = .copy) :
    Inv c src remote₀ (st.copy c src) := by
  have hphase := h.phase
  rw [hpc] at hphase
  obtain ⟨hlt, hfree⟩ := hphase
  have hcopy : (st.copy c src).buffer = blit st.buffer (c.range st.idx).localOff
      (fun k => src (c.srcOff st.idx + k)) (c.range st.idx).size := by
    rw [WriteStage.copy, h.transfer_eq hlt, h.sent_eq hlt]
    rfl
  refine { h with staged := fun p hp k hk => ?_, phase := ⟨hlt, hfree, fun k hk => ?_⟩ }
  · show (st.copy c src).buffer _ = _
    rw [hcopy, blit_apply_of_not_mem (StageConfig.range_disjoint ?_ hk)]
    · exact h.staged p hp k hk
    · exact hfree p hp
  · show (st.copy c src).buffer _ = _
    rw [hcopy]
    exact blit_apply_add hk

/-- The next chunk is sent, and its put keeps its slot until it is carried out. -/
theorem put (h : Inv c src remote₀ st) (hpc : st.pc = .put) (hid : id ≠ 0)
    (hnew : ∀ p ∈ st.posted, p.id ≠ id) : Inv c src remote₀ (st.put c id) := by
  have hphase := h.phase
  rw [hpc] at hphase
  obtain ⟨hlt, hfree, hfilled⟩ := hphase
  have hidx := h.idx_lt hlt
  have hsent := h.sent_eq hlt
  have hmem : ∀ {p : StagePut}, p ∈ st.pending ++ [⟨id, st.idx, st.transfer c⟩] →
      p ∈ st.pending ∨ p = ⟨id, st.idx, st.transfer c⟩ := fun hp =>
    (List.mem_append.mp hp).imp_right List.mem_singleton.mp
  refine {
    idx_le := hidx
    sent := ?_
    posted := ?_
    range := fun p hp => ?_
    ids := ?_
    sub := h.sub.append (List.Sublist.refl _)
    busy := fun p hp => ?_
    known := fun i hi => ?_
    staged := fun p hp => ?_
    landing := ?_
    phase := trivial }
  · show st.sent + (st.transfer c).size = min ((st.idx + 1) * c.chunk) c.size
    rw [transfer, hsent, Nat.add_mul, Nat.one_mul]
    dsimp only
    omega
  · show (st.posted ++ [_]).map StagePut.idx = List.range (st.idx + 1)
    rw [List.map_append, h.posted, List.range_succ]
    rfl
  · rcases List.mem_append.mp hp with hp | hp
    · exact h.range p hp
    · obtain rfl := List.mem_singleton.mp hp
      exact h.transfer_eq hlt
  · show ((st.posted ++ [_]).map StagePut.id).Nodup
    rw [List.map_append]
    refine List.nodup_append.mpr ⟨h.ids, List.pairwise_singleton _ _, fun a ha b hb => ?_⟩
    obtain ⟨p, hp, rfl⟩ := List.mem_map.mp ha
    rw [List.mem_singleton.mp hb]
    exact hnew p hp
  · rcases hmem hp with hp | rfl
    · exact ⟨(Function.update_of_ne (hfree p hp) _ _).trans (h.busy p hp).1, (h.busy p hp).2⟩
    · refine ⟨Function.update_self _ _ _, hid, Bool.eq_false_iff.mpr fun hfinished => ?_⟩
      obtain ⟨p, hp, heq⟩ := h.known id hfinished
      exact hnew p hp heq
  · obtain ⟨p, hp, heq⟩ := h.known i hi
    exact ⟨p, List.mem_append_left _ hp, heq⟩
  · rcases hmem hp with hp | rfl
    · exact h.staged p hp
    · exact hfilled
  · refine (h.landing.send StageConfig.slots_pos StageConfig.item_inSlot ?_).congr fun k => ?_
    · rintro k ⟨p, hp, rfl⟩
      exact hfree p hp
    · constructor
      · rintro ⟨p, hp, rfl⟩
        exact (hmem hp).imp (fun hp => ⟨p, hp, rfl⟩) fun hp => by rw [hp]
      · rintro (⟨p, hp, rfl⟩ | rfl)
        · exact ⟨p, List.mem_append_left _ hp, rfl⟩
        · exact ⟨_, List.mem_append_right _ (List.mem_singleton.mpr rfl), rfl⟩

/-- A put carries its chunk, whatever the function does in the meantime. -/
theorem land (h : Inv c src remote₀ st) {p : StagePut} (hp : p ∈ st.pending) :
    Inv c src remote₀ (st.land p) := by
  have hmem : ∀ {q : StagePut}, q ∈ st.pending.filter (·.id ≠ p.id) ↔ q ∈ st.pending ∧ q ≠ p := by
    intro q
    rw [List.mem_filter, decide_eq_true_eq]
    refine and_congr_right fun hq => not_congr ⟨fun hid => ?_, fun heq => by rw [heq]⟩
    exact h.eq_of_id (h.sub.subset hq) (h.sub.subset hp) hid
  have hremote : (st.land p).remote = overwrite (c.item src p.idx) st.remote := by
    have hrange := h.range p (h.sub.subset hp)
    rw [StageConfig.overwrite_item, WriteStage.land, hrange]
    exact blit_congr (h.staged p hp)
  refine { h with
    sub := (List.filter_sublist).trans h.sub
    busy := fun q hq => ?_
    known := fun i hi => ?_
    staged := fun q hq => h.staged q (hmem.mp hq).1
    landing := ?_
    phase := ?_ }
  · obtain ⟨hq, hne⟩ := hmem.mp hq
    obtain ⟨hinflight, hid, hfinished⟩ := h.busy q hq
    refine ⟨hinflight, hid, (Function.update_of_ne ?_ _ _).trans hfinished⟩
    exact fun heq => hne (h.eq_of_id (h.sub.subset hq) (h.sub.subset hp) heq)
  · by_cases hi' : i = p.id
    · exact ⟨p, h.sub.subset hp, hi'.symm⟩
    · refine h.known i ?_
      rwa [show (st.land p).finished i = st.finished i from Function.update_of_ne hi' _ _] at hi
  · rw [hremote]
    refine (h.landing.land StageConfig.item_inSlot ⟨p, hp, rfl⟩).congr fun k => ?_
    constructor
    · rintro ⟨q, hq, rfl⟩
      obtain ⟨hq, hne⟩ := hmem.mp hq
      exact ⟨⟨q, hq, rfl⟩, fun heq => hne (h.eq_of_slot hq hp (by rw [heq]))⟩
    · rintro ⟨⟨q, hq, rfl⟩, hne⟩
      exact ⟨q, hmem.mpr ⟨hq, fun heq => hne (by rw [heq])⟩, rfl⟩
  · have hphase := h.phase
    show (st.land p).Phase c src st.pc
    cases hpc : st.pc with
    | head => trivial
    | wait =>
      rw [hpc] at hphase
      exact hphase
    | copy =>
      rw [hpc] at hphase
      exact ⟨hphase.1, fun q hq => hphase.2 q (hmem.mp hq).1⟩
    | put =>
      rw [hpc] at hphase
      exact ⟨hphase.1, fun q hq => hphase.2.1 q (hmem.mp hq).1, hphase.2.2⟩
    | drain i =>
      rw [hpc] at hphase
      exact ⟨hphase.1, fun q hq => hphase.2 q (hmem.mp hq).1⟩
    | done ok =>
      rw [hpc] at hphase
      intro hok
      rw [(hphase hok).2] at hp
      cases hp

theorem head (h : Inv c src remote₀ st) {a : StageAct} (ha : a = .head)
    (hst : st.step c src a = some st') : Inv c src remote₀ st' := by
  subst ha
  obtain ⟨-, hst⟩ := Option.ite_none_right_eq_some.mp hst
  split_ifs at hst with hlt hslot
  · obtain rfl := Option.some.inj hst
    exact h.goto hlt
  · obtain rfl := Option.some.inj hst
    exact h.goto ⟨hlt, h.free_of_inflight (not_not.mp hslot)⟩
  · obtain rfl := Option.some.inj hst
    exact h.goto ⟨Nat.le_of_not_lt hlt, fun _ _ => Nat.zero_le _⟩

/-- The last loop leaves no put behind. -/
theorem drain (h : Inv c src remote₀ st) {ok : Bool} (hpc : st.pc = .drain i)
    (hst : st.step c src (.drain ok) = some st') : Inv c src remote₀ st' := by
  have hphase := h.phase
  rw [hpc] at hphase
  obtain ⟨hsent, hpending⟩ := hphase
  have hnext : (∀ p ∈ st.pending, p.idx % c.slots ≠ i) →
      Inv c src remote₀ { st with pc := .drain (i + 1) } := fun hne =>
    h.goto ⟨hsent, fun p hp => Nat.lt_of_le_of_ne (hpending p hp) (hne p hp).symm⟩
  simp only [WriteStage.step, hpc] at hst
  split_ifs at hst with hi hslot hok hfinished
  · obtain rfl := Option.some.inj hst
    exact hnext fun p hp => h.slot_ne_of_finished hfinished hp
  · obtain rfl := Option.some.inj hst
    exact h.goto fun hok' => by cases hok'
  · obtain rfl := Option.some.inj hst
    refine hnext fun p hp heq => ?_
    obtain ⟨hid, hne, -⟩ := h.busy p hp
    exact hne (by rw [← hid, heq, not_not.mp hslot])
  · obtain rfl := Option.some.inj hst
    refine h.goto fun _ => ⟨hsent, List.eq_nil_iff_forall_not_mem.mpr fun p hp => ?_⟩
    exact hi (Nat.lt_of_le_of_lt (hpending p hp) (Nat.mod_lt _ StageConfig.slots_pos))

/-- **One step** of the function or of the card keeps the invariant, whatever its call returns. -/
theorem step (h : Inv c src remote₀ st) {a : StageAct} (hst : st.step c src a = some st') :
    Inv c src remote₀ st' := by
  have hfailed : Inv c src remote₀ { st with pc := .done false } := h.goto fun hok => by cases hok
  cases a with
  | head => exact h.head rfl hst
  | wait ok =>
    obtain ⟨hpc, hst⟩ := Option.ite_none_right_eq_some.mp hst
    split_ifs at hst with hok hfinished
    · obtain rfl := Option.some.inj hst
      exact h.wait hpc hfinished
    · obtain rfl := Option.some.inj hst
      exact hfailed
  | copy ok =>
    obtain ⟨hpc, hst⟩ := Option.ite_none_right_eq_some.mp hst
    split_ifs at hst with hok
    · obtain rfl := Option.some.inj hst
      exact h.copy hpc
    · obtain rfl := Option.some.inj hst
      exact hfailed
  | put id =>
    obtain ⟨hpc, hst⟩ := Option.ite_none_right_eq_some.mp hst
    cases id with
    | none =>
      obtain rfl := Option.some.inj hst
      exact hfailed
    | some id =>
      obtain ⟨⟨hid, hnew⟩, hst⟩ := Option.ite_none_right_eq_some.mp hst
      obtain rfl := Option.some.inj hst
      exact h.put hpc hid hnew
  | drain ok =>
    cases hpc : st.pc with
    | drain i => exact h.drain hpc hst
    | _ =>
      simp only [WriteStage.step, hpc] at hst
      cases hst
  | land id =>
    simp only [WriteStage.step] at hst
    split at hst
    next p hp =>
      obtain rfl := Option.some.inj hst
      exact h.land (List.mem_of_find?_eq_some hp)
    next => cases hst

/-- No slot has two puts on their way. -/
theorem nodup_slots (h : Inv c src remote₀ st) :
    (st.pending.map fun p => p.idx % c.slots).Nodup := by
  refine List.Nodup.map_on (fun p hp q hq => h.eq_of_slot hp hq) ?_
  exact (List.Nodup.of_map _ h.ids).sublist h.sub

end Inv

/-! ### The result -/

/-- The puts are the chunks in their order, inside the two buffers, if the peer's is as large as the
own one, and the device memory; each slot has at most one put on its way (`apart`), and where there
is none the peer's buffer is what the chunks have made when they are sent one after another. When
the function returns true, all chunks have arrived. -/
structure Staged : Prop where
  posted : st.posted.map StagePut.idx = List.range st.idx
  sent : st.sent = ((List.range st.idx).map (chunkLen c.size c.chunk)).sum
  inside : ∀ p ∈ st.posted, p.transfer = c.range p.idx ∧
    p.transfer.Inside c.bufferSize c.bufferSize ∧ c.srcOff p.idx + p.transfer.size ≤ c.size
  apart : (st.pending.map fun p => p.idx % c.slots).Nodup
  outstanding : st.pending.length ≤ c.slots
  arrived : ∀ a, (∀ p ∈ st.pending, a / c.chunk ≠ p.idx % c.slots) →
    st.remote a = written (c.item src) remote₀ st.idx a
  complete : st.pc = .done true → st.sent = c.size ∧
    st.remote = written (c.item src) remote₀ (numChunks c.size c.chunk)

variable {c src remote₀ st}

theorem Staged.of_inv (h : Inv c src remote₀ st) (hvalid : st.posted ≠ [] → 2 ≤ c.bufferSize) :
    Staged c src remote₀ st where
  posted := h.posted
  sent := by
    rw [h.sent, sum_chunkLen_range StageConfig.chunk_pos h.idx_le]
  inside p hp := by
    have hidx : p.idx < st.idx := by
      have hmem : p.idx ∈ st.posted.map StagePut.idx := List.mem_map_of_mem hp
      rw [h.posted] at hmem
      exact List.mem_range.mp hmem
    rw [h.range p hp]
    exact ⟨rfl, StageConfig.range_inside (hvalid (List.ne_nil_of_mem hp))
      (Nat.lt_of_lt_of_le hidx h.idx_le)⟩
  apart := h.nodup_slots
  outstanding := by
    have hsub : (st.pending.map fun p => p.idx % c.slots) ⊆ List.range c.slots := by
      intro i hi
      obtain ⟨p, -, rfl⟩ := List.mem_map.mp hi
      exact List.mem_range.mpr (Nat.mod_lt _ StageConfig.slots_pos)
    have hle := h.nodup_slots.length_le_of_subset hsub
    rwa [List.length_map, List.length_range] at hle
  arrived a ha := by
    refine h.landing.settled a ?_
    rintro k ⟨p, hp, rfl⟩
    exact ha p hp
  complete hpc := by
    have hphase := h.phase
    rw [hpc] at hphase
    obtain ⟨hsent, hnone⟩ := hphase rfl
    have hidx : st.idx = numChunks c.size c.chunk := by
      refine Nat.le_antisymm h.idx_le (Nat.le_of_not_lt fun hlt => ?_)
      have hlt' := (lt_numChunks_iff StageConfig.chunk_pos).mp hlt
      have hs := h.sent
      omega
    have hs := h.sent
    refine ⟨by omega, hidx ▸ h.landing.eq_written ?_⟩
    rintro k ⟨p, hp, -⟩
    rw [hnone] at hp
    cases hp

theorem step_of_not_valid {buffer : Bytes} (hvalid : ¬ c.Valid) (a : StageAct) :
    (start c buffer remote₀).step c src a = none := by
  have hpc : (start c buffer remote₀).pc = .done false := if_neg hvalid
  cases a with
  | land id => rfl
  | _ => simp [step, hpc]

/-- Ten bytes in chunks of three, over two slots and a source window of four bytes. -/
def tenBytes : StageConfig where
  bufferSize := 7
  stageChunkSize := 4
  stageSlots := 0
  stageSrcWindow := 4
  size := 10

end WriteStage

end HMC.App
