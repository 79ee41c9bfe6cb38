import HMC.Uhm.SenderQueues

/-!
# The send queues of `uhm_recv`

`uhm_recv` posts a write-back for each chunk that it has copied out, round robin over the queue
pairs. How many chunks there are depends on the header and on the output, which may be too small for
the message (`RecvCall.postable`). `RecvCall.keepsQueue_iff` is about the runs that take a given
header.

The loop is again a `PostingLoop`, of weight one, and the log is that of the posts and waits. The
receiver's own log of `HMC.Uhm.Untrusted` is carried along, since it is from there that a chunk
which is written back is known to be held by the output. A header that asks for more chunks than the
output holds ends the call with an error, after the write-backs of those that it does hold, so these
are the ones to be counted.
-/

namespace HMC.Uhm

open HMC.Machine

/-! ### Posts and waits -/

namespace RecvCall

variable (c : RecvCall)

theorem signalInterval_pos : 0 < c.signalInterval := Nat.le_max_left ..

theorem chunkSizeOf_pos (chunkBytes : ℕ) : 0 < c.chunkSizeOf chunkBytes := Nat.le_max_left ..

/-- The chunk loop behind a header: a write-back for each chunk. -/
def loop (length chunkBytes : ℕ) : PostingLoop where
  queues := c.queues
  weight := 1
  interval := c.signalInterval
  limit := c.maxPendingSignal
  items := numChunks length (c.chunkSizeOf chunkBytes)
  queues_pos := Nat.le_max_right ..
  weight_pos := Nat.one_pos
  interval_pos := c.signalInterval_pos
  limit_pos := Nat.le_max_left ..

/-- How many chunks of the message the output holds. -/
def postable (length chunkBytes : ℕ) : ℕ :=
  if length ≤ c.bufferSize then numChunks length (c.chunkSizeOf chunkBytes)
  else c.bufferSize / c.chunkSizeOf chunkBytes

/-- What a step of the thread does to the send queues: a post, or a wait that returns `SUCCESS`. -/
def queueEvent (ok : Bool) (e : Endpoint) (t : Receiver) : Option (QueueEvent RdmaWrite) :=
  match t.pc with
  | .postFlag =>
    if ok then
      some (.posted (.flag (t.currentChunk % 2)) (c.qpIdx t.currentChunk) e.nextWrId
        (c.signalFlag t))
    else none
  | .waitPending =>
    if t.pendingSignaled.length ≥ c.maxPendingSignal ∧ ok = true then
      some (.polled t.pendingSignaled)
    else none
  | .finalWait => if ok then some (.polled t.pendingSignaled) else none
  | _ => none

/-- The receiver's side, with a log of its posts and waits. -/
abbrev queued : Logged (Side Receiver) (QueueEvent RdmaWrite) → SideAct →
    Option (Logged (Side Receiver) (QueueEvent RdmaWrite)) :=
  logStep (Side.step c.step) (Side.emit c.queueEvent)

theorem flagPosted_eq (t : Receiver) (id : ℕ) : (c.flagPosted t id).pc = .waitPending ∧
    (c.flagPosted t id).currentChunk = t.currentChunk ∧
    (c.flagPosted t id).sinceLastSignal =
      (if c.signalFlag t = true then 0 else t.sinceLastSignal + 1) ∧
    (c.flagPosted t id).pendingSignaled =
      if c.signalFlag t = true then t.pendingSignaled ++ [id] else t.pendingSignaled := by
  unfold flagPosted
  split_ifs
  · exact ⟨rfl, rfl, rfl, rfl⟩
  · exact ⟨rfl, rfl, rfl, rfl⟩

variable {c} {length chunkBytes i : ℕ}

theorem lt_postable_iff : i < c.postable length chunkBytes ↔
    i < numChunks length (c.chunkSizeOf chunkBytes) ∧
      min ((i + 1) * c.chunkSizeOf chunkBytes) length ≤ c.bufferSize := by
  have hpos := c.chunkSizeOf_pos chunkBytes
  rw [postable]
  split_ifs with hfits
  · exact ⟨fun hi => ⟨hi, Nat.le_trans (Nat.min_le_right ..) hfits⟩, fun h => h.1⟩
  · have hlast := lt_numChunks_iff (n := length) (i := i) hpos
    have hsucc : (i + 1) * c.chunkSizeOf chunkBytes =
        i * c.chunkSizeOf chunkBytes + c.chunkSizeOf chunkBytes := Nat.succ_mul ..
    rw [Nat.lt_iff_add_one_le, Nat.le_div_iff_mul_le hpos, hlast]
    omega

theorem postable_le : c.postable length chunkBytes ≤
    numChunks length (c.chunkSizeOf chunkBytes) := by
  by_contra hlt
  exact Nat.lt_irrefl _ (lt_postable_iff.mp (Nat.not_le.mp hlt)).1

theorem signalFlag_iff {t : Receiver} (hi : t.currentChunk < t.numRecvChunks)
    (hs : t.sinceLastSignal = t.currentChunk % c.signalInterval) :
    c.signalFlag t = true ↔ signalAt c.signalInterval t.numRecvChunks t.currentChunk := by
  rw [← interval_test_iff c.signalInterval_pos, signalFlag, hs]
  simp only [Bool.or_eq_true, decide_eq_true_iff, ge_iff_le]
  omega

end RecvCall

/-- Where the thread stands at chunk `i` of `m`, when `n` chunks are posted, and it has waited
before chunk `b`. -/
def RecvPc.Posts (m round i n b : ℕ) : RecvPc → Prop
  | .spin | .copyOut | .markWritable | .postFlag => n = i ∧ i < m ∧ i < b + round
  | .waitPending => n = i + 1 ∧ b ≤ i
  | .finalWait => n = i ∧ i = m
  | .done .error => True
  | _ => False

/-- The loop variables at the entry of the loop. -/
def Receiver.Fresh (t : Receiver) : Prop :=
  t.currentChunk = 0 ∧ t.sinceLastSignal = 0 ∧ t.pendingSignaled = []

/-- The chunk loop of a call that started on the endpoint `e`. -/
abbrev RecvCall.LoopInv (c : RecvCall) (length chunkBytes : ℕ) (e : Endpoint) (base : ℕ → ℕ)
    (w : Logged (Side Receiver) (QueueEvent RdmaWrite)) (n b : ℕ) : Prop :=
  (c.loop length chunkBytes).Inv base base (fun _ => 0) e.wrIdAt w.log
    w.state.thread.sinceLastSignal w.state.thread.pendingSignaled n b 0

/-- Where a call stands that is not refused: it has not taken the header, or it has taken the
length, or all of the header, or it has come to its chunks. -/
inductive RecvCall.Place (c : RecvCall) (length chunkBytes : ℕ) (e : Endpoint) (base : ℕ → ℕ)
    (w : Logged (Side Receiver) (QueueEvent RdmaWrite)) : Prop
  | early (pc : w.state.thread.pc.untaken = true ∨ w.state.thread.pc = .done .error)
      (fresh : w.state.thread.Fresh) (nextWrId : w.state.ep.nextWrId = e.nextWrId)
      (log_eq : w.log = [])
  | taking (pc : w.state.thread.pc = .readChunkBytes) (fresh : w.state.thread.Fresh)
      (nextWrId : w.state.ep.nextWrId = e.nextWrId) (log_eq : w.log = [])
      (recvFlags : w.state.thread.recvFlags = length)
  | taken (pc : w.state.thread.pc = .storeState0 ∨ w.state.thread.pc = .storeState1)
      (fresh : w.state.thread.Fresh) (nextWrId : w.state.ep.nextWrId = e.nextWrId)
      (log_eq : w.log = []) (took : c.Took length chunkBytes w.state.thread)
  | chunks (n b : ℕ) (inv : c.LoopInv length chunkBytes e base w n b)
      (posts : w.state.thread.pc.Posts (numChunks length (c.chunkSizeOf chunkBytes))
        (c.loop length chunkBytes).round w.state.thread.currentChunk n b)
      (nextWrId : w.state.thread.pc ≠ .done .error → w.state.ep.nextWrId = e.wrIdAt n)
      (took : c.Took length chunkBytes w.state.thread) (held : n ≤ c.postable length chunkBytes)
  | finished (pc : w.state.thread.pc = .done .success)
      (last : w.state.thread.currentChunk = numChunks length (c.chunkSizeOf chunkBytes))
      (inv : ∃ since ids n b, (c.loop length chunkBytes).Inv base base (fun _ => 0) e.wrIdAt w.log
        since ids n b 0 ∧ n ≤ c.postable length chunkBytes)

namespace RecvCall.Place

variable {c : RecvCall} {length chunkBytes : ℕ} {e : Endpoint} {base : ℕ → ℕ}
  {w w' : Logged (Side Receiver) (QueueEvent RdmaWrite)}

/-- The card or the peer moves. -/
theorem moved {s : Side Receiver} {log : List (QueueEvent RdmaWrite)}
    (h : Place c length chunkBytes e base ⟨s, log⟩) {ep : Endpoint}
    (hep : ep.nextWrId = s.ep.nextWrId) :
    Place c length chunkBytes e base ⟨⟨ep, s.thread⟩, log⟩ := by
  cases h with
  | early hpc fresh hid hlog => exact .early hpc fresh (hep.trans hid) hlog
  | taking hpc fresh hid hlog hflags => exact .taking hpc fresh (hep.trans hid) hlog hflags
  | taken hpc fresh hid hlog htook => exact .taken hpc fresh (hep.trans hid) hlog htook
  | chunks n b inv posts hid htook held =>
    exact .chunks n b inv posts (fun hne => hep.trans (hid hne)) htook held
  | finished hpc last inv => exact .finished hpc last inv

theorem initial {output : Bytes} {recvFlags : ℕ}
    (hc : (c.enter output recvFlags).pc = .initState0) :
    Place c length chunkBytes e base ⟨⟨e, c.enter output recvFlags⟩, []⟩ :=
  .early (.inl (by rw [hc]; rfl)) ⟨rfl, rfl, rfl⟩ rfl rfl

/-- The head of the loop, behind a chunk and its wait. -/
theorem loopHead {ep : Endpoint} {t : Receiver} {log : List (QueueEvent RdmaWrite)} {n b : ℕ}
    (h : c.LoopInv length chunkBytes e base ⟨⟨ep, t⟩, log⟩ n b) (hn : n = t.currentChunk)
    (hroom : n < numChunks length (c.chunkSizeOf chunkBytes) →
      n < b + (c.loop length chunkBytes).round) (hid : ep.nextWrId = e.wrIdAt n)
    (htook : c.Took length chunkBytes t) (held : n ≤ c.postable length chunkBytes) :
    Place c length chunkBytes e base ⟨⟨ep, t.loopHead⟩, log⟩ := by
  have hle : n ≤ numChunks length (c.chunkSizeOf chunkBytes) := h.le_items
  have hnum := htook.2.2
  unfold Receiver.loopHead
  split_ifs with hlt hpending
  · exact .chunks n b h ⟨hn, hnum ▸ hlt, hn ▸ hroom (hn ▸ hnum ▸ hlt)⟩ (fun _ => hid) htook held
  · exact .chunks n b h ⟨hn, show t.currentChunk = _ by omega⟩ (fun _ => hid) htook held
  · exact .finished rfl (show t.currentChunk = _ by omega) ⟨_, _, n, b, h, held⟩

/-- The output holds the chunk that is written back. -/
theorem held_of_postFlag {s : Side Receiver} {log : List RecvEvent} (h : ReadInv c ⟨s, log⟩)
    (hpc : s.thread.pc = .postFlag) (htook : c.Took length chunkBytes s.thread) :
    s.thread.currentChunk < c.postable length chunkBytes := by
  obtain ⟨hflags, hsize, hnum⟩ := htook
  cases h.place with
  | failed ret hpc' => rw [hpc] at hpc'; cases hpc'
  | early _ _ _ hpc' => rw [hpc] at hpc'; cases hpc'
  | taken _ _ _ hpc' => rw [hpc] at hpc'; cases hpc'
  | sized n r k hsized hread =>
    rw [hpc] at hread
    obtain ⟨hi, rfl⟩ := hread
    obtain rfl : n = length := hsized.recvFlags.symm.trans hflags
    obtain rfl : r = c.chunkSizeOf chunkBytes := hsized.recvChunkSize.symm.trans hsize
    exact lt_postable_iff.mpr ⟨hnum ▸ hi, hsized.fits⟩

/-- The thread moves before it has taken the header. -/
theorem early_run {s : Side Receiver} (hpc : s.thread.pc.untaken = true)
    (fresh : s.thread.Fresh) (hid : s.ep.nextWrId = e.nextWrId) {ok : Bool}
    (htake : Takes length chunkBytes s (.run ok)) {p : Endpoint × Receiver}
    (hs : c.step ok s.ep s.thread = some p) :
    Place c length chunkBytes e base
      ⟨⟨p.1, p.2⟩, [] ++ (c.queueEvent ok s.ep s.thread).toList⟩ := by
  cases hpc' : s.thread.pc <;> rw [hpc'] at hpc <;> cases hpc <;>
    simp only [step, hpc'] at hs <;> obtain rfl := Option.some.inj hs <;>
    simp only [queueEvent, hpc']
  case readState =>
    refine .early (.inl ?_) ?_ hid rfl
    · dsimp only
      split_ifs
      · rfl
      · rw [hpc']
        rfl
    · dsimp only
      split_ifs <;> exact fresh
  case readLength => exact .taking rfl fresh hid rfl (htake.1 hpc')
  all_goals exact .early (.inl rfl) fresh hid rfl

/-- The thread takes the chunk size, or finds an empty message. -/
theorem taking_run {s : Side Receiver} (hpc : s.thread.pc = .readChunkBytes)
    (fresh : s.thread.Fresh) (hid : s.ep.nextWrId = e.nextWrId)
    (hflags : s.thread.recvFlags = length) (htake : s.ep.uhm.chunkBytes = chunkBytes) {ok : Bool}
    {p : Endpoint × Receiver} (hs : c.step ok s.ep s.thread = some p) :
    Place c length chunkBytes e base
      ⟨⟨p.1, p.2⟩, [] ++ (c.queueEvent ok s.ep s.thread).toList⟩ := by
  simp only [step, hpc] at hs
  obtain rfl := Option.some.inj hs
  subst hflags htake
  simp only [queueEvent, hpc, headerRead]
  split_ifs
  · exact .early (.inr rfl) fresh hid rfl
  · exact .taken (.inl rfl) fresh hid rfl ⟨rfl, rfl, rfl⟩

/-- The thread moves between the header and its chunks. -/
theorem taken_run {s : Side Receiver}
    (hpc : s.thread.pc = .storeState0 ∨ s.thread.pc = .storeState1) (fresh : s.thread.Fresh)
    (hid : s.ep.nextWrId = e.nextWrId) (htook : c.Took length chunkBytes s.thread) {ok : Bool}
    {p : Endpoint × Receiver} (hs : c.step ok s.ep s.thread = some p) :
    Place c length chunkBytes e base
      ⟨⟨p.1, p.2⟩, [] ++ (c.queueEvent ok s.ep s.thread).toList⟩ := by
  obtain hpc | hpc := hpc
  · simp only [step, hpc] at hs
    obtain rfl := Option.some.inj hs
    simp only [queueEvent, hpc]
    exact .taken (.inr rfl) fresh hid rfl htook
  · simp only [step, hpc] at hs
    obtain rfl := Option.some.inj hs
    simp only [queueEvent, hpc]
    obtain ⟨hcur, hsince, hids⟩ := fresh
    refine loopHead (n := 0) (b := 0) ?_ hcur.symm (fun _ => ?_) hid htook (Nat.zero_le _)
    · unfold LoopInv
      dsimp only
      rw [hsince, hids]
      exact .initial fun q => rfl
    · rw [Nat.zero_add]
      exact (c.loop length chunkBytes).round_pos

/-- The thread moves in its chunk loop. -/
theorem chunks_run {s : Side Receiver} {log : List (QueueEvent RdmaWrite)} {n b : ℕ}
    (inv : c.LoopInv length chunkBytes e base ⟨s, log⟩ n b)
    (posts : s.thread.pc.Posts (numChunks length (c.chunkSizeOf chunkBytes))
      (c.loop length chunkBytes).round s.thread.currentChunk n b)
    (hid : s.thread.pc ≠ .done .error → s.ep.nextWrId = e.wrIdAt n)
    (htook : c.Took length chunkBytes s.thread) (held : n ≤ c.postable length chunkBytes)
    {log' : List RecvEvent} (hread : ReadInv c ⟨s, log'⟩) {ok : Bool} {p : Endpoint × Receiver}
    (hs : c.step ok s.ep s.thread = some p) : Place c length chunkBytes e base
      ⟨⟨p.1, p.2⟩, log ++ (c.queueEvent ok s.ep s.thread).toList⟩ := by
  have hfail : ∀ ep, Place c length chunkBytes e base
      ⟨⟨ep, s.thread.goto (.done .error)⟩, log ++ []⟩ := fun ep => by
    rw [List.append_nil]
    exact .chunks n b inv trivial (fun hne => absurd rfl hne) htook held
  cases hpc : s.thread.pc <;> simp only [step, hpc] at hs <;> simp only [queueEvent, hpc] <;>
    simp only [hpc, RecvPc.Posts] at posts hid
  case spin =>
    obtain rfl := Option.some.inj hs
    rw [Option.toList_none, List.append_nil]
    refine .chunks n b ?_ ?_ (fun _ => hid (by simp)) ?_ held
    · dsimp only
      split_ifs <;> exact inv
    · dsimp only
      split_ifs
      · exact posts
      · rw [hpc]
        exact posts
    · dsimp only
      split_ifs <;> exact htook
  case copyOut =>
    obtain rfl := Option.some.inj hs
    obtain ⟨-, heq⟩ | ⟨-, -, -, heq⟩ := c.copyOut_outcomes s.ep s.thread ok
    · -- the output does not hold the chunk
      rw [heq]
      exact hfail _
    · rw [heq, Option.toList_none, List.append_nil]
      exact .chunks n b inv posts (fun _ => hid (by simp)) htook held
  case markWritable =>
    obtain rfl := Option.some.inj hs
    rw [Option.toList_none, List.append_nil]
    exact .chunks n b inv posts (fun _ => hid (by simp)) htook held
  case postFlag =>
    obtain ⟨rfl, hlt, hroom⟩ := posts
    have hid := hid (by simp)
    have hnum := htook.2.2
    -- the code counts from the last signal, the loop from its first item
    have hsig : c.signalFlag s.thread =
        (c.loop length chunkBytes).signaled s.thread.currentChunk := by
      rw [Bool.eq_iff_iff, c.signalFlag_iff (hnum ▸ hlt) (inv.since hlt), hnum]
      exact decide_eq_true_iff.symm
    split_ifs at hs ⊢
    · obtain rfl := Option.some.inj hs
      have hitem := inv.item hlt hroom rfl (.flag (s.thread.currentChunk % 2))
      obtain ⟨hpc', hcur, hsince, hids⟩ := c.flagPosted_eq s.thread s.ep.nextWrId
      refine .chunks (s.thread.currentChunk + 1) b ?_ ?_ (fun _ => ?_) ?_
        (held_of_postFlag hread hpc htook)
      · unfold LoopInv
        dsimp only
        rw [hsince, hids, hsig, hid, Option.toList_some]
        exact hitem
      · dsimp only
        rw [hpc', hcur]
        exact ⟨rfl, inv.le⟩
      · show wrap64 (s.ep.nextWrId + 1) = _
        rw [hid, ← Endpoint.wrIdAt_succ]
      · dsimp only [flagPosted]
        split_ifs <;> exact htook
    · obtain rfl := Option.some.inj hs
      exact hfail _
  case waitPending =>
    obtain ⟨rfl, hb⟩ := posts
    have hid := hid (by simp)
    split_ifs at hs with hfull hok hdone
    · obtain rfl := Option.some.inj hs
      rw [if_pos ⟨hfull, hok⟩, Option.toList_some]
      exact loopHead (inv.polled_of_full hfull) rfl
        (fun _ => Nat.lt_add_of_pos_right (c.loop length chunkBytes).round_pos) hid htook held
    · obtain rfl := Option.some.inj hs
      rw [if_neg fun h => hok h.2]
      exact hfail _
    · obtain rfl := Option.some.inj hs
      rw [if_neg fun h => hfull h.1, Option.toList_none, List.append_nil]
      exact loopHead inv rfl (inv.room_of_not_full hfull) hid htook held
  case finalWait =>
    obtain ⟨rfl, hlast⟩ := posts
    split_ifs at hs ⊢ with hok hdone
    · obtain rfl := Option.some.inj hs
      exact .finished rfl hlast ⟨_, _, _, _, inv.polled (.inl hlast), held⟩
    · obtain rfl := Option.some.inj hs
      exact hfail _
  case done => cases hs

/-- **One step**, of the thread, of the card or of the peer. -/
theorem step (h : Place c length chunkBytes e base w) {log : List RecvEvent}
    (hread : ReadInv c ⟨w.state, log⟩) {a : SideAct} (htake : Takes length chunkBytes w.state a)
    (hs : c.queued w a = some w') : Place c length chunkBytes e base w' := by
  obtain ⟨s', log'⟩ := w'
  obtain ⟨hs, rfl⟩ := logStep_eq_some.mp hs
  obtain ⟨s, log⟩ := w
  cases a with
  | run ok =>
    obtain ⟨p, hp, rfl⟩ := Option.map_eq_some_iff.mp hs
    cases h with
    | early hpc fresh hid hlog =>
      obtain rfl : log = [] := hlog
      obtain hpc | hpc := hpc
      · exact early_run hpc fresh hid htake hp
      · rw [c.step_done hpc] at hp
        cases hp
    | taking hpc fresh hid hlog hflags =>
      obtain rfl : log = [] := hlog
      exact taking_run hpc fresh hid hflags (htake.2 hpc) hp
    | taken hpc fresh hid hlog htook =>
      obtain rfl : log = [] := hlog
      exact taken_run hpc fresh hid htook hp
    | chunks n b inv posts hid htook held => exact chunks_run inv posts hid htook held hread hp
    | finished hpc =>
      rw [c.step_done hpc] at hp
      cases hp
  | nic q =>
    obtain ⟨p, hp, rfl⟩ := Option.map_eq_some_iff.mp hs
    exact (List.append_nil log).symm ▸ h.moved rfl
  | peer bytes uhm =>
    obtain rfl := Option.some.inj hs
    exact (List.append_nil log).symm ▸ h.moved rfl

end RecvCall.Place

namespace RecvCall

variable (c : RecvCall) (length chunkBytes : ℕ) (e : Endpoint) (output : Bytes) (recvFlags : ℕ)
  (base : ℕ → ℕ) (maxWr : ℕ)

/-- The claim for a `uhm_recv` that takes a header. -/
def KeepsQueue : Prop :=
  ∀ w, Reach c.queued (onState fun s a => Side.Words s a ∧ Takes length chunkBytes s a)
    ⟨⟨e, c.enter output recvFlags⟩, []⟩ w → ∀ q < c.queues, unretired q (base q) w.log ≤ maxWr

/-- There is room for the requests of earlier calls, and, unless the call is refused, for each round
of the chunks that the output holds. -/
def FitsQueue : Prop :=
  (∀ q < c.queues, base q ≤ maxWr) ∧
    (¬ c.Refused → (c.loop length chunkBytes).Fits base (c.postable length chunkBytes) maxWr)

instance : Decidable (c.FitsQueue length chunkBytes base maxWr) :=
  inferInstanceAs (Decidable ((∀ q < _, _ ≤ _) ∧ (¬ _ → PostingLoop.Fits ..)))

variable {c length chunkBytes e output recvFlags base maxWr}
  {w w' : Logged (Side Receiver) (QueueEvent RdmaWrite)}

/-- How many chunks are posted. -/
def postedOf (t : Receiver) : ℕ := t.currentChunk + if t.pc = .waitPending then 1 else 0

theorem postedOf_loopHead (t : Receiver) : postedOf t.loopHead = t.currentChunk := by
  unfold Receiver.loopHead
  split_ifs <;> rfl

/-- Only the post of a flag makes them more. -/
theorem postedOf_run {ok : Bool} {ep : Endpoint} {t : Receiver} {p : Endpoint × Receiver}
    (hs : c.step ok ep t = some p) : postedOf p.2 ≤ postedOf t ∨
      p.2.pc = .waitPending ∧ p.2.currentChunk = t.currentChunk ∧ postedOf t = t.currentChunk := by
  have hgoto : ∀ pc, pc ≠ .waitPending → postedOf (t.goto pc) ≤ postedOf t :=
    fun pc hwait => by simp [postedOf, Receiver.goto, hwait]
  cases hpc : t.pc <;> simp only [step, hpc] at hs
  case readState | spin =>
    obtain rfl := Option.some.inj hs
    refine .inl ?_
    dsimp only
    split_ifs
    · exact hgoto _ (by simp)
    · exact Nat.le_refl _
  case readLength =>
    obtain rfl := Option.some.inj hs
    exact .inl (by simp [postedOf])
  case readChunkBytes =>
    obtain rfl := Option.some.inj hs
    refine .inl ?_
    dsimp only [headerRead]
    split_ifs
    · exact hgoto _ (by simp)
    · simp [postedOf]
  case storeState1 =>
    obtain rfl := Option.some.inj hs
    exact .inl (by rw [postedOf_loopHead]; exact Nat.le_add_right ..)
  case copyOut =>
    obtain rfl := Option.some.inj hs
    obtain ⟨-, heq⟩ | ⟨-, -, -, heq⟩ := c.copyOut_outcomes ep t ok
    · rw [heq]
      exact .inl (hgoto _ (by simp))
    · rw [heq]
      exact .inl (by simp [postedOf])
  case postFlag =>
    split_ifs at hs
    · obtain rfl := Option.some.inj hs
      obtain ⟨hpc', hcur, -, -⟩ := c.flagPosted_eq t ep.nextWrId
      exact .inr ⟨hpc', hcur, by simp [postedOf, hpc]⟩
    · obtain rfl := Option.some.inj hs
      exact .inl (hgoto _ (by simp))
  case waitPending =>
    split_ifs at hs
    · obtain rfl := Option.some.inj hs
      exact .inl (by rw [Receiver.nextChunk, postedOf_loopHead]; simp [postedOf, hpc])
    · obtain rfl := Option.some.inj hs
      exact .inl (hgoto _ (by simp))
    · obtain rfl := Option.some.inj hs
      exact .inl (by rw [Receiver.nextChunk, postedOf_loopHead]; simp [postedOf, hpc])
  case finalWait =>
    split_ifs at hs
    · obtain rfl := Option.some.inj hs
      exact .inl (hgoto _ (by simp))
    · obtain rfl := Option.some.inj hs
      exact .inl (hgoto _ (by simp))
  case done => cases hs
  all_goals
    obtain rfl := Option.some.inj hs
    exact .inl (hgoto _ (by simp))

/-- The step that posts the flag of chunk `i`. -/
theorem postedOf_step {i : ℕ} {a : SideAct} (hs : c.queued w a = some w')
    (hle : ¬ i < postedOf w.state.thread) (hlt : i < postedOf w'.state.thread) :
    w'.state.thread.pc = .waitPending ∧ w'.state.thread.currentChunk = i := by
  obtain ⟨hs, -⟩ := logStep_eq_some.mp hs
  obtain heq | ⟨ok, -, hp⟩ := Side.step_thread hs
  · rw [heq] at hlt
    exact absurd hlt hle
  · obtain hposted | ⟨hpc, hcur, hposted⟩ := postedOf_run hp
    · exact absurd (Nat.lt_of_lt_of_le hlt hposted) hle
    · refine ⟨hpc, ?_⟩
      dsimp only at hpc hcur
      rw [postedOf, hpc, if_pos rfl] at hlt
      omega

/-- Where `uhm_recv` is in its loop, in every run that takes the given length and chunk size. -/
theorem place_of_reach (hc : (c.enter output recvFlags).pc = .initState0)
    (hr : Reach c.queued (onState fun s a => Side.Words s a ∧ Takes length chunkBytes s a)
      ⟨⟨e, c.enter output recvFlags⟩, []⟩ w) : Place c length chunkBytes e base w := by
  refine hr.invariant (Place.initial hc) fun w a w' hr h hok hs => ?_
  obtain ⟨log, hlog⟩ := hr.of_logged.exists_log (Side.emit c.observe) []
  exact h.step (ReadInv.reach (fun _ _ h => h.1) hlog) hok.2 hs

namespace Place

theorem last_of_success (h : Place c length chunkBytes e base w)
    (hpc : w.state.thread.pc = .done .success) :
    w.state.thread.currentChunk = numChunks length (c.chunkSizeOf chunkBytes) := by
  cases h with
  | early hpc' =>
    rw [hpc] at hpc'
    obtain hpc' | hpc' := hpc'
    · cases hpc'
    · cases hpc'
  | taking hpc' => rw [hpc] at hpc'; cases hpc'
  | taken hpc' => rw [hpc] at hpc'; simp at hpc'
  | chunks n b inv posts => rw [hpc] at posts; cases posts
  | finished _ hlast => exact hlast

/-- A flag was just posted. -/
theorem loopInv_of_waitPending (h : Place c length chunkBytes e base w)
    (hpc : w.state.thread.pc = .waitPending) : ∃ b ≤ w.state.thread.currentChunk,
      c.LoopInv length chunkBytes e base w (w.state.thread.currentChunk + 1) b := by
  cases h with
  | early hpc' =>
    rw [hpc] at hpc'
    obtain hpc' | hpc' := hpc'
    · cases hpc'
    · cases hpc'
  | taking hpc' => rw [hpc] at hpc'; cases hpc'
  | taken hpc' => rw [hpc] at hpc'; simp at hpc'
  | chunks n b inv posts =>
    rw [hpc] at posts
    obtain ⟨rfl, hb⟩ := posts
    exact ⟨b, hb, inv⟩
  | finished hpc' => rw [hpc] at hpc'; cases hpc'

/-- A call that fits its queues keeps them. -/
theorem unretired_le (h : Place c length chunkBytes e base w) {q : ℕ} (hq : q < c.queues)
    (hbase : base q ≤ maxWr)
    (hfits : (c.loop length chunkBytes).Fits base (c.postable length chunkBytes) maxWr) :
    unretired q (base q) w.log ≤ maxWr := by
  cases h with
  | early _ _ _ hlog => rw [hlog]; exact hbase
  | taking _ _ _ hlog => rw [hlog]; exact hbase
  | taken _ _ _ hlog => rw [hlog]; exact hbase
  | chunks n b inv _ _ _ held =>
    exact inv.unretired_le hq (Nat.zero_le _) hbase postable_le held
      (fun hk => absurd hk (Nat.lt_irrefl 0)) hfits
  | finished _ _ inv =>
    obtain ⟨since, ids, n, b, inv, held⟩ := inv
    exact inv.unretired_le hq (Nat.zero_le _) hbase postable_le held
      (fun hk => absurd hk (Nat.lt_irrefl 0)) hfits

end Place

/-- A call that is not refused has a run that posts all the chunks that the output holds. -/
theorem exists_posted (hc : (c.enter output recvFlags).pc = .initState0) (hpos : 0 < length)
    (hlength : length < 2 ^ 32) (hchunk : chunkBytes < 2 ^ 32) (e : Endpoint) :
    ∃ w, Reach c.queued (onState fun s a => Side.Words s a ∧ Takes length chunkBytes s a)
      ⟨⟨e, c.enter output recvFlags⟩, []⟩ w ∧
        c.postable length chunkBytes ≤ postedOf w.state.thread := by
  obtain ⟨s, hr, hruns, ret, hpc⟩ := exists_returned hc hpos hlength hchunk e
  obtain ⟨log, hlog⟩ := hr.exists_log (Side.emit c.queueEvent) []
  have hlog :
      Reach c.queued (onState fun s a => Side.Words s a ∧ Takes length chunkBytes s a) _ _ :=
    hlog.mono fun w a hok => ⟨hok.1, hok.2.1⟩
  refine ⟨_, hlog, Nat.le_trans ?_ (Nat.le_add_right ..)⟩
  by_cases hret : ret = .success
  · rw [hret] at hpc
    have hplace : Place c length chunkBytes e (fun _ => 0) _ := place_of_reach hc hlog
    exact Nat.le_trans postable_le (Nat.le_of_eq (hplace.last_of_success hpc).symm)
  · -- the call has failed at a chunk that the output does not hold
    unfold Runs at hruns
    simp only [hpc] at hruns
    obtain ⟨-, hlarge⟩ : s.thread.currentChunk < numChunks length (c.chunkSizeOf chunkBytes) ∧
        c.bufferSize < min ((s.thread.currentChunk + 1) * c.chunkSizeOf chunkBytes) length := by
      cases ret with
      | success => exact absurd rfl hret
      | _ => exact hruns
    exact Nat.not_lt.mp fun hlt => Nat.not_lt.mpr (lt_postable_iff.mp hlt).2 hlarge

/-- **When `uhm_recv` keeps its queues**: exactly when the message fits them. The converse uses a
run that posts all the chunks that the output holds (`exists_posted`). -/
theorem keepsQueue_iff (hlength : length < 2 ^ 32) (hchunk : chunkBytes < 2 ^ 32) :
    c.KeepsQueue length chunkBytes e output recvFlags base maxWr ↔
      c.FitsQueue length chunkBytes base maxWr := by
  constructor
  · intro h
    refine ⟨fun q hq => h _ .refl q hq, fun hrefused => ?_⟩
    have hc : (c.enter output recvFlags).pc = .initState0 := enter_pc_iff.mpr hrefused
    show (c.loop length chunkBytes).Fits (fun q => base q - 0) _ maxWr
    rw [PostingLoop.fits_iff]
    intro i hi q hq
    have hpos : 0 < length := Nat.lt_of_le_of_lt (Nat.zero_le _)
      ((lt_numChunks_iff (c.chunkSizeOf_pos chunkBytes)).mp (lt_postable_iff.mp hi).1)
    obtain ⟨w, hlog, hposted⟩ := exists_posted hc hpos hlength hchunk e
    have hnone : ¬ i < postedOf (c.enter output recvFlags) := by
      rw [postedOf, hc, if_neg (by simp)]
      exact Nat.not_lt_zero i
    obtain ⟨u, a, v, hu, hnot, hok, hstep, hv⟩ := hlog.exists_first
      (P := fun w => i < postedOf w.state.thread) hnone (Nat.lt_of_lt_of_le hi hposted)
    obtain ⟨hvpc, rfl⟩ := postedOf_step hstep hnot hv
    have hreach := hu.tail hok hstep
    have hplace : Place c length chunkBytes e base v := place_of_reach hc hreach
    obtain ⟨b, hb, inv⟩ := hplace.loopInv_of_waitPending hvpc
    rw [← inv.unretired_eq hb hq (Nat.zero_le _)]
    exact h v hreach q hq
  · rintro ⟨hbase, hfits⟩ w hr q hq
    by_cases hrefused : c.Refused
    · rw [(Side.of_returned (step_of_refused hrefused) hr).2]
      exact hbase q hq
    · exact (place_of_reach (enter_pc_iff.mpr hrefused) hr).unretired_le hq (hbase q hq)
        (hfits hrefused)

end RecvCall

end HMC.Uhm
