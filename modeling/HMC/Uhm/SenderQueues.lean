import HMC.Machine.PostingLoop
import HMC.Uhm.Signals
import HMC.Uhm.Willing

/-!
# The send queues of `uhm_send`

`uhm_send` posts the header on queue pair `0`, waits for it, and posts a data and a flag write for
each chunk, round robin over the queue pairs. Its chunk loop is a `PostingLoop`, so what it occupies
is known item by item (`SendCall.Place`). `SendCall.keepsQueue_iff` says for which calls that is
never more than the queues hold.

The events that count are the posts and the waits that return; what the peer does and when the card
executes makes no difference, because a place of a queue is freed by polling a completion and not by
the execution. The header is the first request of queue pair `0`, and polling it frees all that was
there before, which is why the loop starts with other numbers on that queue pair (`startOf`,
`doneOf`). If the call does not fit, one of its runs posts the chunk that is one too many: the run
that succeeds comes by there.
-/

namespace HMC.Uhm

open HMC.Machine

/-- The id that is taken as the `j`-th one, counted from zero. -/
def Endpoint.wrIdAt (e : Endpoint) (j : ℕ) : ℕ := (fun id => wrap64 (id + 1))^[j] e.nextWrId

theorem Endpoint.wrIdAt_succ (e : Endpoint) (j : ℕ) :
    e.wrIdAt (j + 1) = wrap64 (e.wrIdAt j + 1) := Function.iterate_succ_apply' _ j _

/-! ### Posts and waits -/

namespace SendCall

variable (c : SendCall)

theorem flagPosted_eq (t : Sender) (id : ℕ) : (c.flagPosted t id).pc = .prefillNext ∧
    (c.flagPosted t id).currentChunk = t.currentChunk ∧
    (c.flagPosted t id).sinceLastSignal =
      (if c.signalFlag t = true then 0 else t.sinceLastSignal + 1) ∧
    (c.flagPosted t id).pendingSignaled =
      if c.signalFlag t = true then t.pendingSignaled ++ [id] else t.pendingSignaled := by
  unfold flagPosted
  split_ifs
  · exact ⟨rfl, rfl, rfl, rfl⟩
  · exact ⟨rfl, rfl, rfl, rfl⟩

/-- The chunk loop: a data write and a flag write for each chunk. -/
def loop : PostingLoop where
  queues := c.queues
  weight := 2
  interval := c.signalInterval
  limit := c.maxPendingSignal
  items := c.numSendChunks
  queues_pos := c.queues_pos
  weight_pos := Nat.two_pos
  interval_pos := c.signalInterval_pos
  limit_pos := Nat.le_max_left ..

/-- What a step of the thread does to the send queues: a post, or a wait that returns `SUCCESS`. -/
def queueEvent (ok : Bool) (e : Endpoint) (t : Sender) : Option (QueueEvent RdmaWrite) :=
  match t.pc with
  | .postState => if ok then some (.posted .bufferState 0 e.nextWrId true) else none
  | .waitState => if ok then some (.polled [t.stateWrId]) else none
  | .postData =>
    if ok then
      some (.posted (c.dataWrite t.currentChunk) (c.qpIdx t.currentChunk) e.nextWrId false)
    else none
  | .postFlag =>
    if ok then
      some (.posted (.flag (t.currentChunk % 2)) (c.qpIdx t.currentChunk) e.nextWrId
        (c.signalFlag t))
    else none
  | .waitPending =>
    if t.pendingSignaled.length ≥ c.maxPendingSignal ∧ ok = true then
      some (.polled t.pendingSignaled)
    else none
  | .finalWait => if ok then some (.polled t.pendingSignaled) else none
  | _ => none

/-- The sender's side, with a log of its posts and waits. -/
abbrev queued : Logged (Side Sender) (QueueEvent RdmaWrite) → SideAct →
    Option (Logged (Side Sender) (QueueEvent RdmaWrite)) :=
  logStep (Side.step c.step) (Side.emit c.queueEvent)

end SendCall

/-- The locations of `uhm_send` before the header is posted. -/
def SendPc.unposted : SendPc → Bool
  | .initState0 | .initState1 | .initLength | .initChunkBytes | .postState => true
  | _ => false

/-- Where the thread stands at chunk `i` of `m`, when `n` chunks are posted and `k` requests of the
next one, and it has waited before chunk `b`. -/
def SendPc.Posts (m round i n b k : ℕ) : SendPc → Prop
  | .spin | .postData => (n = i ∧ k = 0) ∧ i < m ∧ i < b + round
  | .markReadable | .postFlag => n = i ∧ k = 1
  | .prefillNext | .waitPending => (n = i + 1 ∧ k = 0) ∧ b ≤ i
  | .finalWait => (n = i ∧ k = 0) ∧ i = m
  | .done .error => True
  | _ => False

/-- The requests of queue `q` when the chunk loop begins, of which `base q` were there before: the
header is posted on queue pair `0`, and its completion polled. -/
def SendCall.startOf (base : ℕ → ℕ) (q : ℕ) : ℕ := if q = 0 then base 0 + 1 else base q

/-- How many of them are retired. -/
def SendCall.doneOf (base : ℕ → ℕ) (q : ℕ) : ℕ := if q = 0 then base 0 + 1 else 0

/-- The chunk loop of a call that started on the endpoint `e`. -/
abbrev SendCall.LoopInv (c : SendCall) (e : Endpoint) (base : ℕ → ℕ)
    (w : Logged (Side Sender) (QueueEvent RdmaWrite)) (n b k : ℕ) : Prop :=
  c.loop.Inv base (SendCall.startOf base) (SendCall.doneOf base) (fun i => e.wrIdAt (2 * i + 2))
    w.log w.state.thread.sinceLastSignal w.state.thread.pendingSignaled n b k

/-- The loop variables at the entry of the loop. -/
def Sender.Fresh (t : Sender) : Prop :=
  t.currentChunk = 0 ∧ t.sinceLastSignal = 0 ∧ t.pendingSignaled = []

/-- Where a call stands that is not refused: it has posted nothing, or the header, or it has come to
its chunks. -/
inductive SendCall.Place (c : SendCall) (e : Endpoint) (base : ℕ → ℕ)
    (w : Logged (Side Sender) (QueueEvent RdmaWrite)) : Prop
  | early (pc : w.state.thread.pc.unposted = true ∨ w.state.thread.pc = .done .error)
      (fresh : w.state.thread.Fresh)
      (nextWrId : w.state.thread.pc ≠ .done .error → w.state.ep.nextWrId = e.nextWrId)
      (log_eq : w.log = [])
  | header (pc : w.state.thread.pc = .prefillFirst ∨ w.state.thread.pc = .waitState ∨
        w.state.thread.pc = .done .error)
      (fresh : w.state.thread.Fresh) (stateWrId : w.state.thread.stateWrId = e.nextWrId)
      (nextWrId : w.state.ep.nextWrId = e.wrIdAt 1)
      (log_eq : w.log = [.posted .bufferState 0 e.nextWrId true])
  | chunks (n b k : ℕ) (inv : c.LoopInv e base w n b k)
      (posts : w.state.thread.pc.Posts c.numSendChunks c.loop.round w.state.thread.currentChunk n b
        k)
      (nextWrId : w.state.thread.pc ≠ .done .error → w.state.ep.nextWrId = e.wrIdAt (2 * n + 1 + k))
  | finished (pc : w.state.thread.pc = .done .success)
      (last : w.state.thread.currentChunk = c.numSendChunks)
      (inv : ∃ since ids n b, c.loop.Inv base (startOf base) (doneOf base)
        (fun i => e.wrIdAt (2 * i + 2)) w.log since ids n b 0)

namespace SendCall.Place

variable {c : SendCall} {e : Endpoint} {base : ℕ → ℕ}
  {w w' : Logged (Side Sender) (QueueEvent RdmaWrite)}

/-- The card or the peer moves. -/
theorem moved {s : Side Sender} {log : List (QueueEvent RdmaWrite)} (h : Place c e base ⟨s, log⟩)
    {ep : Endpoint} (hep : ep.nextWrId = s.ep.nextWrId) : Place c e base ⟨⟨ep, s.thread⟩, log⟩ := by
  cases h with
  | early hpc fresh hid hlog => exact .early hpc fresh (fun hne => hep.trans (hid hne)) hlog
  | header hpc fresh hwr hid hlog => exact .header hpc fresh hwr (hep.trans hid) hlog
  | chunks n b k inv posts hid => exact .chunks n b k inv posts fun hne => hep.trans (hid hne)
  | finished hpc last inv => exact .finished hpc last inv

theorem initial (hc : c.enter.pc = .initState0) : Place c e base ⟨⟨e, c.enter⟩, []⟩ :=
  .early (.inl (by rw [hc]; rfl)) ⟨rfl, rfl, rfl⟩ (fun _ => rfl) rfl

/-- The head of the loop, behind a chunk and its wait. -/
theorem loopHead {ep : Endpoint} {t : Sender} {log : List (QueueEvent RdmaWrite)} {n b : ℕ}
    (h : c.LoopInv e base ⟨⟨ep, t⟩, log⟩ n b 0) (hn : n = t.currentChunk)
    (hroom : n < c.numSendChunks → n < b + c.loop.round)
    (hid : ep.nextWrId = e.wrIdAt (2 * n + 1)) : Place c e base ⟨⟨ep, c.loopHead t⟩, log⟩ := by
  have hle : n ≤ c.numSendChunks := h.le_items
  unfold SendCall.loopHead
  split_ifs with hlt hpending
  · exact .chunks n b 0 h ⟨⟨hn, rfl⟩, hlt, hn ▸ hroom (hn ▸ hlt)⟩ fun _ => hid
  · exact .chunks n b 0 h ⟨⟨hn, rfl⟩, show t.currentChunk = _ by omega⟩ fun _ => hid
  · exact .finished rfl (show t.currentChunk = _ by omega) ⟨_, _, n, b, h⟩

/-- The header was posted and its completion polled. -/
theorem headerPolled (id : ℕ) : c.loop.Inv base (startOf base) (doneOf base)
    (fun i => e.wrIdAt (2 * i + 2)) [.posted RdmaWrite.bufferState 0 id true, .polled [id]] 0 [] 0 0
      0 := by
  refine .initial fun q => ?_
  by_cases hq : q = 0
  · simp [QueueBook.of, QueueBook.opened, QueueBook.note, startOf, doneOf, hq]
  · simp [QueueBook.of, QueueBook.opened, QueueBook.note, startOf, doneOf, hq, Ne.symm hq]

/-- The thread moves before it has posted anything. -/
theorem early_run {s : Side Sender} (hpc : s.thread.pc.unposted = true) (fresh : s.thread.Fresh)
    (hid : s.ep.nextWrId = e.nextWrId) {ok : Bool} {p : Endpoint × Sender}
    (hs : c.step ok s.ep s.thread = some p) :
    Place c e base ⟨⟨p.1, p.2⟩, [] ++ (c.queueEvent ok s.ep s.thread).toList⟩ := by
  cases hpc' : s.thread.pc <;> rw [hpc'] at hpc <;> cases hpc <;>
    simp only [step, hpc'] at hs <;> simp only [queueEvent, hpc']
  case postState =>
    split_ifs at hs ⊢ with hok
    · obtain rfl := Option.some.inj hs
      refine .header (.inl rfl) fresh hid ?_ (by simp [hid])
      rw [Endpoint.wrIdAt_succ]
      exact congrArg (fun id => wrap64 (id + 1)) hid
    · obtain rfl := Option.some.inj hs
      exact .early (.inr rfl) fresh (fun hne => absurd rfl hne) rfl
  all_goals
    obtain rfl := Option.some.inj hs
    exact .early (.inl rfl) fresh (fun _ => hid) rfl

/-- The thread moves behind the header. -/
theorem header_run {s : Side Sender} (hpc : s.thread.pc = .prefillFirst ∨
    s.thread.pc = .waitState ∨ s.thread.pc = .done .error) (fresh : s.thread.Fresh)
    (hwr : s.thread.stateWrId = e.nextWrId) (hid : s.ep.nextWrId = e.wrIdAt 1) {ok : Bool}
    {p : Endpoint × Sender} (hs : c.step ok s.ep s.thread = some p) :
    Place c e base ⟨⟨p.1, p.2⟩, [.posted .bufferState 0 e.nextWrId true] ++
      (c.queueEvent ok s.ep s.thread).toList⟩ := by
  obtain hpc | hpc | hpc := hpc
  · simp only [SendCall.step, hpc] at hs
    obtain rfl := Option.some.inj hs
    simp only [queueEvent, hpc]
    exact .header (.inr (.inl rfl)) fresh hwr hid rfl
  · simp only [SendCall.step, hpc] at hs
    simp only [queueEvent, hpc, hwr]
    split_ifs at hs ⊢
    · obtain rfl := Option.some.inj hs
      obtain ⟨hcur, hsince, hids⟩ := fresh
      refine loopHead (n := 0) (b := 0) ?_ hcur.symm (fun _ => ?_) hid
      · unfold LoopInv
        dsimp only
        rw [hsince, hids]
        exact headerPolled e.nextWrId
      · rw [Nat.zero_add]
        exact c.loop.round_pos
    · obtain rfl := Option.some.inj hs
      exact .header (.inr (.inr rfl)) fresh hwr hid rfl
  · rw [c.step_done hpc] at hs
    cases hs

/-- The thread moves in its chunk loop. -/
theorem chunks_run {s : Side Sender} {log : List (QueueEvent RdmaWrite)} {n b k : ℕ}
    (inv : c.LoopInv e base ⟨s, log⟩ n b k)
    (posts : s.thread.pc.Posts c.numSendChunks c.loop.round s.thread.currentChunk n b k)
    (hid : s.thread.pc ≠ .done .error → s.ep.nextWrId = e.wrIdAt (2 * n + 1 + k)) {ok : Bool}
    {p : Endpoint × Sender} (hs : c.step ok s.ep s.thread = some p) :
    Place c e base ⟨⟨p.1, p.2⟩, log ++ (c.queueEvent ok s.ep s.thread).toList⟩ := by
  have hfail : ∀ ep, Place c e base ⟨⟨ep, s.thread.goto (.done .error)⟩, log ++ []⟩ := fun ep => by
    rw [List.append_nil]
    exact .chunks n b k inv trivial fun hne => absurd rfl hne
  -- most steps post nothing; a failed post or wait leaves the log as it is
  cases hpc : s.thread.pc <;> simp only [step, hpc] at hs <;> simp only [queueEvent, hpc] <;>
    simp only [hpc, SendPc.Posts] at posts hid
  case spin =>
    obtain rfl := Option.some.inj hs
    rw [Option.toList_none, List.append_nil]
    refine .chunks n b k ?_ ?_ fun _ => hid (by simp)
    · dsimp only
      split_ifs <;> exact inv
    · dsimp only
      split_ifs
      · exact posts
      · rw [hpc]
        exact posts
  case postData =>
    obtain ⟨⟨rfl, rfl⟩, hlt, hroom⟩ := posts
    split_ifs at hs ⊢
    · obtain rfl := Option.some.inj hs
      refine .chunks s.thread.currentChunk b 1 (inv.request hlt hroom Nat.one_lt_two _ _) ⟨rfl, rfl⟩
        fun _ => ?_
      rw [Nat.add_zero] at hid
      rw [Endpoint.wrIdAt_succ, ← hid (by simp)]
      rfl
    · obtain rfl := Option.some.inj hs
      exact hfail _
  case markReadable =>
    obtain rfl := Option.some.inj hs
    rw [Option.toList_none, List.append_nil]
    exact .chunks n b k inv posts fun _ => hid (by simp)
  case postFlag =>
    obtain ⟨rfl, rfl⟩ := posts
    obtain ⟨hlt, hroom⟩ := inv.inside Nat.one_pos
    have hid := hid (by simp)
    -- the code counts from the last signal, the loop from its first item
    have hsig : c.signalFlag s.thread = c.loop.signaled s.thread.currentChunk := by
      rw [Bool.eq_iff_iff, c.signalFlag_iff hlt (inv.since hlt)]
      exact decide_eq_true_iff.symm
    split_ifs at hs ⊢
    · obtain rfl := Option.some.inj hs
      have hitem := inv.item hlt hroom rfl (.flag (s.thread.currentChunk % 2))
      obtain ⟨hpc', hcur, hsince, hids⟩ := c.flagPosted_eq s.thread s.ep.nextWrId
      refine .chunks (s.thread.currentChunk + 1) b 0 ?_ ?_ fun _ => ?_
      · unfold LoopInv
        dsimp only
        rw [hsince, hids, hsig, hid, Option.toList_some]
        exact hitem
      · dsimp only
        rw [hpc', hcur]
        exact ⟨⟨rfl, rfl⟩, inv.le⟩
      · show wrap64 (s.ep.nextWrId + 1) = _
        rw [hid, ← Endpoint.wrIdAt_succ]
        rfl
    · obtain rfl := Option.some.inj hs
      exact hfail _
  case prefillNext =>
    obtain rfl := Option.some.inj hs
    rw [Option.toList_none, List.append_nil]
    refine .chunks n b k inv posts fun _ => ?_
    rw [← hid (by simp)]
    dsimp only
    split_ifs <;> rfl
  case waitPending =>
    obtain ⟨⟨rfl, rfl⟩, hb⟩ := posts
    have hid := hid (by simp)
    split_ifs at hs with hfull hok hdone
    · obtain rfl := Option.some.inj hs
      rw [if_pos ⟨hfull, hok⟩, Option.toList_some]
      have hroom : s.thread.currentChunk + 1 < s.thread.currentChunk + 1 + c.loop.round :=
        Nat.lt_add_of_pos_right c.loop.round_pos
      exact loopHead (inv.polled_of_full hfull) rfl (fun _ => hroom) hid
    · obtain rfl := Option.some.inj hs
      rw [if_neg fun h => hok h.2]
      exact hfail _
    · obtain rfl := Option.some.inj hs
      rw [if_neg fun h => hfull h.1, Option.toList_none, List.append_nil]
      exact loopHead inv rfl (inv.room_of_not_full hfull) hid
  case finalWait =>
    obtain ⟨⟨rfl, rfl⟩, hlast⟩ := posts
    have hid := hid (by simp)
    split_ifs at hs ⊢ with hok hdone
    · obtain rfl := Option.some.inj hs
      exact .finished rfl hlast ⟨_, _, _, _, inv.polled (.inl hlast)⟩
    · obtain rfl := Option.some.inj hs
      exact hfail _
  case done => cases hs

/-- **One step**, of the thread, of the card or of the peer. -/
theorem step (h : Place c e base w) {a : SideAct} (hs : c.queued w a = some w') :
    Place c e base w' := by
  obtain ⟨s', log'⟩ := w'
  obtain ⟨hs, rfl⟩ := logStep_eq_some.mp hs
  obtain ⟨s, log⟩ := w
  cases a with
  | run ok =>
    obtain ⟨p, hp, rfl⟩ := Option.map_eq_some_iff.mp hs
    cases h with
    | early hpc fresh hid hlog =>
      obtain rfl : log = [] := hlog
      obtain hpc | hpc := hpc
      · exact early_run hpc fresh (hid fun hdone => by rw [hdone] at hpc; cases hpc) hp
      · rw [c.step_done hpc] at hp
        cases hp
    | header hpc fresh hwr hid hlog =>
      obtain rfl : log = _ := hlog
      exact header_run hpc fresh hwr hid hp
    | chunks n b k inv posts hid => exact chunks_run inv posts hid hp
    | finished hpc =>
      rw [c.step_done hpc] at hp
      cases hp
  | nic q =>
    obtain ⟨p, hp, rfl⟩ := Option.map_eq_some_iff.mp hs
    exact (List.append_nil log).symm ▸ h.moved rfl
  | peer bytes uhm =>
    obtain rfl := Option.some.inj hs
    exact (List.append_nil log).symm ▸ h.moved rfl

end SendCall.Place

namespace SendCall

variable (c : SendCall) (e : Endpoint) (base : ℕ → ℕ) (maxWr : ℕ)

/-- The claim for `uhm_send`: no queue pair ever holds more than `max_wr` requests, the `base q` of
earlier calls included. -/
def KeepsQueue : Prop :=
  ∀ w, Reach c.queued (onState Free) ⟨⟨e, c.enter⟩, []⟩ w →
    ∀ q < c.queues, unretired q (base q) w.log ≤ maxWr

/-- There is room for the requests of earlier calls, and, unless the call is refused, for the header
and for each round of chunks; the header frees its queue pair. -/
def FitsQueue : Prop :=
  (∀ q < c.queues, base q ≤ maxWr) ∧ (¬ c.Refused → base 0 + 1 ≤ maxWr ∧
    c.loop.Fits (fun q => if q = 0 then 0 else base q) c.numSendChunks maxWr)

instance : Decidable (c.FitsQueue base maxWr) :=
  inferInstanceAs (Decidable ((∀ q < _, _ ≤ _) ∧ (¬ _ → _ ≤ _ ∧ PostingLoop.Fits ..)))

variable {c e base maxWr} {w w' : Logged (Side Sender) (QueueEvent RdmaWrite)}

theorem doneOf_le (q : ℕ) : doneOf base q ≤ startOf base q := by
  unfold doneOf startOf
  split_ifs
  · exact Nat.le_refl _
  · exact Nat.zero_le _

theorem startOf_sub_doneOf (base : ℕ → ℕ) :
    (fun q => startOf base q - doneOf base q) = fun q => if q = 0 then 0 else base q := by
  funext q
  unfold doneOf startOf
  split_ifs
  · exact Nat.sub_self _
  · exact Nat.sub_zero _

/-- What is occupied when the header is posted. -/
theorem unretired_header (id q : ℕ) :
    unretired q (base q) [QueueEvent.posted RdmaWrite.bufferState 0 id true] =
      if q = 0 then base 0 + 1 else base q := by
  by_cases hq : q = 0
  · simp [unretired, QueueBook.of, QueueBook.opened, QueueBook.note, hq]
  · simp [unretired, QueueBook.of, QueueBook.opened, QueueBook.note, hq, Ne.symm hq]

/-- A call that is not refused posts the header. -/
theorem exists_header (hc : c.enter.pc = .initState0) (e : Endpoint) :
    ∃ w, Reach c.queued (onState Free) ⟨⟨e, c.enter⟩, []⟩ w ∧
      w.log = [.posted .bufferState 0 e.nextWrId true] := by
  obtain ⟨w, hw, hlog⟩ : ∃ w,
      exec c.queued ⟨⟨e, c.enter⟩, []⟩ (List.replicate 5 (.run true)) = some w ∧
        w.log = [.posted .bufferState 0 e.nextWrId true] := by
    simp [exec, List.replicate, logStep, Side.step, Side.emit, queueEvent, step, hc, Sender.goto]
    rfl
  exact ⟨w, (Reach.of_exec hw).mono fun _ _ _ => trivial, hlog⟩

/-- How many chunks are posted. -/
def postedOf (t : Sender) : ℕ :=
  t.currentChunk + if t.pc = .prefillNext ∨ t.pc = .waitPending then 1 else 0

theorem postedOf_loopHead (t : Sender) : postedOf (c.loopHead t) = t.currentChunk := by
  unfold loopHead
  split_ifs <;> rfl

/-- Only the post of a flag makes them more. -/
theorem postedOf_run {ok : Bool} {ep : Endpoint} {t : Sender} {p : Endpoint × Sender}
    (hs : c.step ok ep t = some p) : postedOf p.2 ≤ postedOf t ∨
      p.2.pc = .prefillNext ∧ p.2.currentChunk = t.currentChunk ∧ postedOf t = t.currentChunk := by
  have hgoto : ∀ pc, pc ≠ .prefillNext → pc ≠ .waitPending → postedOf (t.goto pc) ≤ postedOf t :=
    fun pc hprefill hwait => by simp [postedOf, Sender.goto, hprefill, hwait]
  cases hpc : t.pc <;> simp only [step, hpc] at hs
  case waitState =>
    split_ifs at hs
    · obtain rfl := Option.some.inj hs
      exact .inl (by rw [postedOf_loopHead]; exact Nat.le_add_right ..)
    · obtain rfl := Option.some.inj hs
      exact .inl (hgoto _ (by simp) (by simp))
  case spin =>
    obtain rfl := Option.some.inj hs
    refine .inl ?_
    dsimp only
    split_ifs
    · exact hgoto _ (by simp) (by simp)
    · exact Nat.le_refl _
  case postFlag =>
    split_ifs at hs
    · obtain rfl := Option.some.inj hs
      obtain ⟨hpc', hcur, -, -⟩ := c.flagPosted_eq t ep.nextWrId
      exact .inr ⟨hpc', hcur, by simp [postedOf, hpc]⟩
    · obtain rfl := Option.some.inj hs
      exact .inl (hgoto _ (by simp) (by simp))
  case prefillNext =>
    obtain rfl := Option.some.inj hs
    exact .inl (by simp [postedOf, Sender.goto, hpc])
  case waitPending =>
    split_ifs at hs
    · obtain rfl := Option.some.inj hs
      exact .inl (by rw [postedOf_loopHead]; simp [postedOf, hpc])
    · obtain rfl := Option.some.inj hs
      exact .inl (hgoto _ (by simp) (by simp))
    · obtain rfl := Option.some.inj hs
      exact .inl (by rw [postedOf_loopHead]; simp [postedOf, hpc])
  case finalWait =>
    split_ifs at hs
    · obtain rfl := Option.some.inj hs
      exact .inl (hgoto _ (by simp) (by simp))
    · obtain rfl := Option.some.inj hs
      exact .inl (hgoto _ (by simp) (by simp))
  case done => cases hs
  all_goals
    try split_ifs at hs
    all_goals
      obtain rfl := Option.some.inj hs
      exact .inl (hgoto _ (by simp) (by simp))

/-- The step that posts the flag of chunk `i`. -/
theorem postedOf_step {i : ℕ} {a : SideAct} (hs : c.queued w a = some w')
    (hle : ¬ i < postedOf w.state.thread) (hlt : i < postedOf w'.state.thread) :
    w'.state.thread.pc = .prefillNext ∧ w'.state.thread.currentChunk = i := by
  obtain ⟨hs, -⟩ := logStep_eq_some.mp hs
  obtain heq | ⟨ok, -, hp⟩ := Side.step_thread hs
  · rw [heq] at hlt
    exact absurd hlt hle
  · obtain hposted | ⟨hpc, hcur, hposted⟩ := postedOf_run hp
    · exact absurd (Nat.lt_of_lt_of_le hlt hposted) hle
    · refine ⟨hpc, ?_⟩
      dsimp only at hpc hcur
      rw [postedOf, hpc] at hlt
      simp only [true_or, if_true] at hlt
      omega

/-- Where `uhm_send` is in its loop, in every run. -/
theorem place_of_reach {ok : Side Sender → SideAct → Prop} (hc : c.enter.pc = .initState0)
    (hr : Reach c.queued (onState ok) ⟨⟨e, c.enter⟩, []⟩ w) : Place c e base w :=
  hr.invariant (Place.initial hc) fun _ _ _ _ h _ hs => h.step hs

namespace Place

theorem last_of_success (h : Place c e base w) (hpc : w.state.thread.pc = .done .success) :
    w.state.thread.currentChunk = c.numSendChunks := by
  cases h with
  | early hpc' =>
    rw [hpc] at hpc'
    obtain hpc' | hpc' := hpc'
    · cases hpc'
    · cases hpc'
  | header hpc' => rw [hpc] at hpc'; simp at hpc'
  | chunks n b k inv posts => rw [hpc] at posts; cases posts
  | finished _ hlast => exact hlast

/-- A flag was just posted. -/
theorem loopInv_of_prefillNext (h : Place c e base w) (hpc : w.state.thread.pc = .prefillNext) :
    ∃ b ≤ w.state.thread.currentChunk,
      c.LoopInv e base w (w.state.thread.currentChunk + 1) b 0 := by
  cases h with
  | early hpc' =>
    rw [hpc] at hpc'
    obtain hpc' | hpc' := hpc'
    · cases hpc'
    · cases hpc'
  | header hpc' => rw [hpc] at hpc'; simp at hpc'
  | chunks n b k inv posts =>
    rw [hpc] at posts
    obtain ⟨⟨rfl, rfl⟩, hb⟩ := posts
    exact ⟨b, hb, inv⟩
  | finished hpc' => rw [hpc] at hpc'; cases hpc'

/-- A call that fits its queues keeps them. -/
theorem unretired_le (h : Place c e base w) {q : ℕ} (hq : q < c.queues) (hbase : base q ≤ maxWr)
    (hheader : base 0 + 1 ≤ maxWr)
    (hfits : c.loop.Fits (fun q => if q = 0 then 0 else base q) c.numSendChunks maxWr) :
    unretired q (base q) w.log ≤ maxWr := by
  have hleft : startOf base q - doneOf base q ≤ maxWr := by
    rw [congrFun (startOf_sub_doneOf base) q]
    split_ifs
    · exact Nat.zero_le _
    · exact hbase
  rw [← startOf_sub_doneOf] at hfits
  cases h with
  | early _ _ _ hlog =>
    rw [hlog]
    exact hbase
  | header _ _ _ _ hlog =>
    rw [hlog, unretired_header]
    split_ifs
    · exact hheader
    · exact hbase
  | chunks n b k inv =>
    exact inv.unretired_le hq (doneOf_le q) hleft (Nat.le_refl _) inv.le_items
      (fun hk => (inv.inside hk).1) hfits
  | finished _ _ inv =>
    obtain ⟨since, ids, n, b, inv⟩ := inv
    exact inv.unretired_le hq (doneOf_le q) hleft (Nat.le_refl _) inv.le_items
      (fun hk => (inv.inside hk).1) hfits

end Place

/-- **When `uhm_send` keeps its queues**: exactly when the call fits them. If it fits, `Place`
bounds what is occupied in every state. If it keeps them, a run that succeeds has a state right
behind each of its posts, where the queue is as full as `FitsQueue` says. -/
theorem keepsQueue_iff : c.KeepsQueue e base maxWr ↔ c.FitsQueue base maxWr := by
  constructor
  · intro h
    refine ⟨fun q hq => h _ .refl q hq, fun hrefused => ?_⟩
    have hc := enter_pc_iff.mpr hrefused
    constructor
    · obtain ⟨w, hr, hlog⟩ := exists_header hc e
      have hheader := h w hr 0 c.queues_pos
      rwa [hlog, unretired_header, if_pos rfl] at hheader
    · rw [PostingLoop.fits_iff]
      intro i hi q hq
      -- a run that succeeds posts chunk `i` in one of its steps
      obtain ⟨s, hs, hpc⟩ := exists_success hc e
      obtain ⟨log, hlog⟩ := hs.exists_log (Side.emit c.queueEvent) []
      have hlog : Reach c.queued (onState Free) _ _ := hlog.mono fun _ _ _ => trivial
      have hposted : i < postedOf s.thread := by
        have hplace : Place c e base _ := place_of_reach hc hlog
        have hlast := hplace.last_of_success hpc
        exact Nat.lt_of_lt_of_le hi (Nat.le_trans hlast.ge (Nat.le_add_right ..))
      have hnone : ¬ i < postedOf c.enter := by
        rw [postedOf, hc, if_neg (by simp)]
        exact Nat.not_lt_zero i
      obtain ⟨u, a, v, hu, hnot, -, hstep, hv⟩ :=
        hlog.exists_first (P := fun w => i < postedOf w.state.thread) hnone hposted
      obtain ⟨hvpc, rfl⟩ := postedOf_step hstep hnot hv
      have hreach := hu.tail trivial hstep
      have hplace : Place c e base v := place_of_reach hc hreach
      obtain ⟨b, hb, inv⟩ := hplace.loopInv_of_prefillNext hvpc
      rw [← startOf_sub_doneOf, ← inv.unretired_eq hb hq (doneOf_le q)]
      exact h v hreach q hq
  · rintro ⟨hbase, hfits⟩ w hr q hq
    by_cases hrefused : c.Refused
    · rw [(Side.of_returned (step_of_refused hrefused) hr).2]
      exact hbase q hq
    · obtain ⟨hheader, hfits⟩ := hfits hrefused
      have hplace : Place c e base w := place_of_reach (enter_pc_iff.mpr hrefused) hr
      exact hplace.unretired_le hq (hbase q hq) hheader hfits

end SendCall

end HMC.Uhm
