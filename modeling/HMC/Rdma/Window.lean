import HMC.Machine.Retirement
import HMC.Rdma.Issued

/-!
# The window of a pipeline

A pipeline call waits when it has posted `max_inflight` chunks since its last wait, but only for
the signaled ones, and a signal comes every `signal_interval` chunks counted from the start of the
call. Unless the interval divides the window, the chunks behind the last signal are still
outstanding when the next window begins (`window_overrun`).

`WindowInv` says what a call has posted and polled, for any number of queue pairs;
`keepsWindow_iff` says, for one queue pair, when no more than a window is outstanding.

What is outstanding is not what the code counts in `inflight_posts`. It is counted here from the log
of posts and polls, by the rule that a completion retires all requests up to its own on its queue
pair (`HMC.Machine.unretired`). After the wait behind chunk `b` the first `b - b % interval` chunks
are retired, so the others add to the next window; and because the interval is counted from the
start of the call and the window from the last wait, the remainder is the same at the start of each
later window only if the interval divides the window.
-/

namespace HMC.Machine.QueueEvent

/-- The request of a post. -/
def request {τ : Type*} : QueueEvent τ → Option τ
  | posted r _ _ _ => some r
  | polled _ => none

/-- The id of a post, and whether it is signaled. -/
def signal {τ : Type*} : QueueEvent τ → Option (ℕ × Bool)
  | posted _ _ id signaled => some (id, signaled)
  | polled _ => none

/-- The ids of a poll. -/
def ids {τ : Type*} : QueueEvent τ → Option (List ℕ)
  | posted .. => none
  | polled ids => some ids

variable {τ : Type*} (log : List (QueueEvent τ))

theorem length_filterMap_request :
    (log.filterMap request).length = (log.filterMap signal).length := by
  induction log with
  | nil => rfl
  | cons e log ih => cases e <;> simp [List.filterMap_cons, request, signal, ih]

theorem length_eq : log.length = (log.filterMap signal).length + (log.filterMap ids).length := by
  induction log with
  | nil => rfl
  | cons e log ih =>
    cases e with
    | posted => simp [List.filterMap_cons, signal, ids, ih, Nat.add_right_comm]
    | polled => simp [List.filterMap_cons, signal, ids, ih, Nat.add_assoc]

end HMC.Machine.QueueEvent

namespace HMC.Rdma

open HMC.Machine

namespace PipelineCall

variable (c : PipelineCall)

/-- What a step of the call does to the send queues: a post, or a wait that returns `SUCCESS`. -/
def events (w : Pipeline) : PipelineAct → Option (QueueEvent Transfer)
  | .run ok =>
    match w.pc with
    | .post =>
      (c.config.issued (wrap64 (c.localOff + w.offset)) (wrap64 (c.remoteOff + w.offset))
        (c.currentChunkSize w) ok).map fun t =>
          .posted t (c.config.nextQp w.ep.toCounters) (c.config.nextId w.ep.toCounters)
            (c.signaled w)
    | .wait => if w.pendingWrs ≠ [] ∧ ok = true then some (.polled w.pendingWrs) else none
    | .done _ => none
  | .nic _ => none

/-- The call with a log of its posts and waits. -/
abbrev logged : Logged Pipeline (QueueEvent Transfer) → PipelineAct →
    Option (Logged Pipeline (QueueEvent Transfer)) := logStep c.step c.events

theorem issues_eq (w : Pipeline) (a : PipelineAct) :
    c.issues w a = (c.events w a).bind QueueEvent.request := by
  cases a with
  | run ok =>
    cases hpc : w.pc with
    | post =>
      simp only [issues, events, hpc]
      cases c.config.issued _ _ _ ok with
      | none => rfl
      | some t => rfl
    | wait =>
      simp only [issues, events, hpc]
      split_ifs
      · rfl
      · rfl
    | done ret => simp only [issues, events, hpc, Option.bind_none]
  | nic q => rfl

/-- Chunk `i` is signaled. -/
def signals (i : ℕ) : Bool := decide (signalAt c.signalInterval c.chunks i)

/-- The chunks, as they are posted: one request each, on their queue pairs. -/
def posting (e : Endpoint) : Posting where
  queue := c.queueOf e
  weight := 1
  signaled := c.signals
  weight_pos := Nat.one_pos

/-- The signaled chunks from `b` on, below `k`. -/
def signaledIn (b k : ℕ) : List ℕ := chunksIn (fun i => c.signals i = true) b k

variable {c} {e : Endpoint} {b k : ℕ}

theorem signaledIn_succ (hb : b ≤ k) :
    c.signaledIn b (k + 1) = c.signaledIn b k ++ if c.signals k = true then [k] else [] :=
  chunksIn_succ hb

theorem signaledIn_self : c.signaledIn k k = [] := chunksIn_self

theorem signaledIn_append (hb : b ≤ k) : c.signaledIn 0 b ++ c.signaledIn b k = c.signaledIn 0 k :=
  chunksIn_append hb

/-- The signaled chunks get ids that the call takes for ids: with `0` it goes on as if the chunk was
not signaled. -/
def NamesSignals (c : PipelineCall) (e : Endpoint) : Prop :=
  ∀ i < c.chunks, c.signals i = true → c.idOf e i ≠ 0

instance (c : PipelineCall) (e : Endpoint) : Decidable (c.NamesSignals e) :=
  inferInstanceAs (Decidable (∀ i < c.chunks, c.signals i = true → c.idOf e i ≠ 0))

theorem signalInterval_le_window : c.signalInterval ≤ c.window := Nat.min_le_right _ _

/-- A full window, or a last one, has a signaled chunk. -/
theorem exists_signal (hb : b < k) (hk : k = b + c.window ∨ k = c.chunks) :
    ∃ i, b ≤ i ∧ i < k ∧ c.signals i = true := by
  simp only [signals, decide_eq_true_iff]
  obtain hk | hk := hk
  · -- the first multiple of the interval behind `b`
    have hd := c.signalInterval_pos
    have hle := signalInterval_le_window (c := c)
    have hlt := Nat.mod_lt b hd
    have hdiv := Nat.div_add_mod b c.signalInterval
    refine ⟨c.signalInterval * (b / c.signalInterval + 1) - 1, ?_, ?_, .inr ?_⟩
    · rw [Nat.mul_add]
      omega
    · rw [Nat.mul_add]
      omega
    · rw [Nat.sub_add_cancel]
      · exact Nat.dvd_mul_right _ _
      · rw [Nat.mul_add]
        omega
  · exact ⟨k - 1, by omega, by omega, .inl (by omega)⟩

theorem signaledIn_ne_nil (hb : b < k) (hk : k = b + c.window ∨ k = c.chunks) :
    c.signaledIn b k ≠ [] := by
  obtain ⟨i, hbi, hik, hsig⟩ := exists_signal hb hk
  exact List.ne_nil_of_mem (mem_chunksIn.mpr ⟨⟨hbi, hik⟩, hsig⟩)

end PipelineCall

/-! ### The invariant -/

/-- A call that started on the endpoint `e` has posted `k` chunks, and polled the completions of the
signaled ones of the first `b`. -/
structure WindowInv (c : PipelineCall) (e : Endpoint) (w : Logged Pipeline (QueueEvent Transfer))
    (k b : ℕ) : Prop where
  posts : w.log.filterMap QueueEvent.signal =
    (List.range k).map fun i => (c.idOf e i, c.signals i)
  waits : (w.log.filterMap QueueEvent.ids).length ≤ b
  counters : w.state.pc ≠ .done .error → w.state.ep.toCounters = c.countersAt e k
  inflight : w.state.inflightPosts + b = k
  boundary : b = c.chunks ∨ c.window ∣ b
  window : k ≤ b + c.window
  post : w.state.pc = .post → k < b + c.window
  wait : w.state.pc = .wait → b < k ∧ (k = b + c.window ∨ k = c.chunks)
  done : w.state.pc = .done .success → b = c.chunks
  since : k < c.chunks → w.state.sinceLastSignal = k % c.signalInterval
  pending : w.state.pendingWrs = (c.signaledIn b k).map (c.idOf e)
  polled : (w.log.filterMap QueueEvent.ids).flatten = (c.signaledIn 0 b).map (c.idOf e)
  book : ∀ q, QueueBook.of q 0 w.log = (c.posting e).book q 0 0 (c.idOf e) k b

namespace WindowInv

variable {c : PipelineCall} {e : Endpoint} {w w' : Logged Pipeline (QueueEvent Transfer)} {k b : ℕ}

theorem initial (c : PipelineCall) (e : Endpoint) : WindowInv c e ⟨c.enter e, []⟩ 0 0 := by
  have hbase : ∀ pc, pc ≠ .wait → (pc = .done .success → c.chunks = 0) →
      WindowInv c e ⟨⟨e, pc, 0, [], 0, 0⟩, []⟩ 0 0 := fun pc hwait hdone =>
    { posts := rfl
      waits := Nat.le_refl 0
      counters := fun _ => rfl
      inflight := rfl
      boundary := .inr (Nat.dvd_zero _)
      window := Nat.zero_le _
      post := fun _ => by
        have := c.window_pos
        omega
      wait := fun hpc => absurd hpc hwait
      done := fun hpc => (hdone hpc).symm
      since := fun _ => (Nat.zero_mod _).symm
      pending := rfl
      polled := rfl
      book := fun _ => rfl }
  unfold PipelineCall.enter
  split_ifs
  · refine hbase _ ?_ ?_
    · dsimp only
      split_ifs <;> simp
    · dsimp only
      intro hpc
      split_ifs at hpc with hsize
      rw [PipelineCall.chunks]
      have := lt_numChunks_iff (n := c.size) (i := 0) c.chunkBytes_pos
      omega
  · exact hbase _ (by simp) (by simp)

/-- The call stops with an error. -/
theorem toError (h : WindowInv c e w k b) (counters : Counters) :
    WindowInv c e ⟨{ w.state with
      ep := { w.state.ep with toCounters := counters }, pc := .done .error }, w.log⟩ k b :=
  { h with
    counters := fun hne => absurd rfl hne
    post := fun hpc => by cases hpc
    wait := fun hpc => by cases hpc
    done := fun hpc => by cases hpc }

theorem length_posts (h : WindowInv c e w k b) :
    (w.log.filterMap QueueEvent.request).length = k := by
  rw [QueueEvent.length_filterMap_request, h.posts, List.length_map, List.length_range]

theorem le (h : WindowInv c e w k b) : b ≤ k := by
  have := h.inflight
  omega

theorem pending_ne_nil (h : WindowInv c e w k b) (hpc : w.state.pc = .wait) :
    w.state.pendingWrs ≠ [] := by
  rw [h.pending, ne_eq, List.map_eq_nil_iff]
  exact PipelineCall.signaledIn_ne_nil (h.wait hpc).1 (h.wait hpc).2

/-- The signals are spaced as the interval says. -/
theorem signaled_eq (h : WindowInv c e w k b) (hat : c.AtChunk w.state k) :
    c.signaled w.state = c.signals k := by
  rw [Bool.eq_iff_iff, PipelineCall.signals, decide_eq_true_iff,
    ← interval_test_iff c.signalInterval_pos, ← hat.isLast_iff, PipelineCall.signaled,
    h.since hat.lt_chunks]
  simp only [Bool.or_eq_true, decide_eq_true_iff, or_assoc, ge_iff_le]

/-- A chunk was posted; what is left is to say where the call goes on. -/
theorem recorded (h : WindowInv c e w k b) (pc : PipelinePc) (hid : c.NamesSignals e)
    (hat : c.AtChunk w.state k) (hpc : w.state.pc = .post) {t : Transfer} {wrId : ℕ} {ep : Endpoint}
    (hep : ep.toCounters = c.config.take w.state.ep.toCounters)
    (hwrId : wrId = if c.signaled w.state then c.config.nextId w.state.ep.toCounters else 0)
    (hpost : pc = .post → k + 1 < b + c.window)
    (hwait : pc = .wait → k + 1 = b + c.window ∨ k + 1 = c.chunks)
    (hdone : pc ≠ .done .success) :
    WindowInv c e ⟨{ c.record w.state wrId ep with pc := pc }, w.log ++
      [.posted t (c.config.nextQp w.state.ep.toCounters) (c.config.nextId w.state.ep.toCounters)
        (c.signaled w.state)]⟩ (k + 1) b := by
  have hctr := h.counters (by simp [hpc])
  have hnext : c.config.nextId w.state.ep.toCounters = c.idOf e k := by rw [hctr]; rfl
  have hqp : c.config.nextQp w.state.ep.toCounters = (c.posting e).queue k := by rw [hctr]; rfl
  have hsig := h.signaled_eq hat
  -- the code also leaves out an id of 0
  have hcond : (c.signaled w.state = true ∧ wrId ≠ 0) ↔ c.signals k = true := by
    rw [hwrId, hsig, hnext]
    constructor
    · exact fun hs => hs.1
    · intro hs
      rw [if_pos hs]
      exact ⟨hs, hid k hat.lt_chunks hs⟩
  have hle := h.le
  exact
    { posts := by
        rw [List.filterMap_append, h.posts, List.range_succ, List.map_append, hnext, hsig]
        rfl
      waits := by
        rw [List.filterMap_append, List.length_append]
        exact h.waits
      counters := fun _ => by
        rw [c.countersAt_succ, ← hctr]
        exact hep
      inflight := by
        have := h.inflight
        simp only [PipelineCall.record]
        omega
      boundary := h.boundary
      window := by
        have := h.post hpc
        omega
      post := hpost
      wait := fun hw => ⟨by omega, hwait hw⟩
      done := fun hd => absurd hd hdone
      since := fun hlt => by
        simp only [PipelineCall.record, hcond]
        split_ifs with hs
        · have hd : c.signalInterval ∣ k + 1 := (of_decide_eq_true hs).resolve_left (by omega)
          rw [Nat.mod_eq_zero_of_dvd hd]
        · have hnd : ¬ c.signalInterval ∣ k + 1 := fun hd => hs (decide_eq_true (.inr hd))
          rw [h.since hat.lt_chunks, succ_mod_of_not_dvd hnd]
      pending := by
        simp only [PipelineCall.record, hcond, PipelineCall.signaledIn_succ hle, h.pending]
        split_ifs with hs
        · rw [List.map_append, hwrId, hsig, if_pos hs, hnext, List.map_singleton]
        · rw [List.append_nil]
      polled := by
        rw [List.filterMap_append, ← h.polled]
        simp [QueueEvent.ids]
      book := fun q => by
        have hbook : QueueBook.of q 0 w.log =
            (c.posting e).partBook q 0 0 (c.idOf e) k b ((c.posting e).weight - 1) := by
          rw [h.book, ← Posting.partBook_zero]
          rfl
        have hsnoc := QueueBook.of_append q 0 w.log (some (.posted t
          (c.config.nextQp w.state.ep.toCounters) (c.config.nextId w.state.ep.toCounters)
          (c.signaled w.state)))
        rw [Option.toList_some, Option.elim_some, hbook, hqp, hnext, hsig] at hsnoc
        rw [hqp, hnext, hsig, hsnoc]
        exact Posting.note_last t hle }

/-- A chunk was posted. -/
theorem chunkPosted (hid : c.NamesSignals e) (h : WindowInv c e w k b)
    (hat : c.AtChunk w.state k) (hpc : w.state.pc = .post) {t : Transfer} {wrId : ℕ} {ep : Endpoint}
    (hep : ep.toCounters = c.config.take w.state.ep.toCounters)
    (hwrId : wrId = if c.signaled w.state then c.config.nextId w.state.ep.toCounters else 0) :
    WindowInv c e ⟨c.chunkPosted w.state wrId ep, w.log ++
      [.posted t (c.config.nextQp w.state.ep.toCounters) (c.config.nextId w.state.ep.toCounters)
        (c.signaled w.state)]⟩ (k + 1) b := by
  have hinflight : (c.record w.state wrId ep).inflightPosts + b = k + 1 := by
    have := h.inflight
    simp only [PipelineCall.record]
    omega
  have hwindow := h.post hpc
  unfold PipelineCall.chunkPosted
  split_ifs with hw
  · refine h.recorded .wait hid hat hpc hep hwrId (by simp) (fun _ => ?_) (by simp)
    rw [hat.isLast_iff] at hw
    omega
  · rw [not_or] at hw
    have hlast : k + 1 ≠ c.chunks := fun hk => hw.2 (hat.isLast_iff.mpr hk)
    have hsize : (c.record w.state wrId ep).offset < c.size := by
      have hlt : k + 1 < c.chunks := by
        have := hat.lt_chunks
        omega
      have := (lt_numChunks_iff c.chunkBytes_pos).mp hlt
      simp only [PipelineCall.record]
      rw [hat.offset_succ]
      omega
    rw [PipelineCall.loopHead, if_pos hsize]
    exact h.recorded .post hid hat hpc hep hwrId (fun _ => by omega) (by simp) (by simp)

/-- A wait at a window boundary: all the signaled chunks of the window are named. -/
theorem waited (h : WindowInv c e w k b) (hpc : w.state.pc = .wait)
    (hoff : w.state.offset = min (k * c.chunkBytes) c.size) (hk : k ≤ c.chunks) (ep : Endpoint)
    (hep : ep.toCounters = w.state.ep.toCounters) :
    WindowInv c e ⟨c.loopHead { w.state with ep := ep, pendingWrs := [], inflightPosts := 0 },
      w.log ++ [.polled w.state.pendingWrs]⟩ k k := by
  have hle := h.le
  obtain ⟨hlt, hfull⟩ := h.wait hpc
  have hsize : w.state.offset < c.size ↔ k < c.chunks := by
    rw [hoff, PipelineCall.chunks, lt_numChunks_iff c.chunkBytes_pos]
    omega
  have hwindow := c.window_pos
  refine
    { posts := by
        rw [List.filterMap_append, h.posts]
        exact List.append_nil _
      waits := by
        have := h.waits
        rw [List.filterMap_append, List.length_append]
        exact Nat.le_trans (Nat.succ_le_succ this) hlt
      counters := fun _ => hep.trans (h.counters (by simp [hpc]))
      inflight := Nat.zero_add k
      boundary := ?_
      window := Nat.le_add_right k _
      post := fun _ => by omega
      wait := fun hw => ?_
      done := fun hd => ?_
      since := h.since
      pending := by rw [PipelineCall.signaledIn_self]; rfl
      polled := ?_
      book := fun q => ?_ }
  · obtain hfull | hfull := hfull
    · obtain hb | hb := h.boundary
      · omega
      · rw [hfull]
        exact .inr (Nat.dvd_add hb (Nat.dvd_refl _))
    · exact .inl hfull
  · dsimp only [PipelineCall.loopHead] at hw
    split_ifs at hw
  · dsimp only [PipelineCall.loopHead] at hd
    split_ifs at hd with hs
    have := mt hsize.mpr hs
    omega
  · rw [List.filterMap_append, List.flatten_append, h.polled, ← PipelineCall.signaledIn_append hle,
      List.map_append, h.pending]
    simp [QueueEvent.ids]
  · have hsnoc := QueueBook.of_append q 0 w.log (some (.polled w.state.pendingWrs))
    rw [Option.toList_some, Option.elim_some] at hsnoc
    rw [hsnoc, h.book]
    refine Posting.note_polled hle fun i hi => ?_
    rw [h.pending]
    obtain ⟨hin, -, hsig⟩ := mem_chunksIn.mp hi
    exact List.mem_map_of_mem (mem_chunksIn.mpr ⟨hin, hsig⟩)

/-- **One step** of a pipeline call keeps the window. -/
theorem step (hid : c.NamesSignals e) (h : WindowInv c e w k b)
    (hI : IssueInv c ⟨w.state, w.log.filterMap QueueEvent.request⟩ k) {a : PipelineAct}
    (hs : c.logged w a = some w') :
    WindowInv c e w' k b ∨ (∃ ok, a = .run ok ∧ w.state.pc = .post) ∧ WindowInv c e w' (k + 1) b ∨
      w.state.pc = .wait ∧ WindowInv c e w' k k := by
  obtain ⟨s', log'⟩ := w'
  obtain ⟨hs, rfl⟩ := logStep_eq_some.mp hs
  obtain ok | q := a
  · cases hpc : w.state.pc with
    | post =>
      have hat : c.AtChunk w.state k := hI.atChunk hpc
      simp only [PipelineCall.step, hpc] at hs
      simp only [PipelineCall.events, hpc]
      obtain ⟨hnone, counters, heq⟩ | ⟨hsome, heq⟩ := c.config.dataNBInternal_issued c.opcode
        w.state.ep (wrap64 (c.localOff + w.state.offset)) (wrap64 (c.remoteOff + w.state.offset))
        (c.currentChunkSize w.state) (c.signaled w.state) ok
      · rw [heq] at hs
        rw [hnone, Option.map_none, Option.toList_none, List.append_nil]
        obtain rfl := Option.some.inj hs
        exact .inl (h.toError counters)
      · rw [heq] at hs
        rw [hsome, Option.map_some, Option.toList_some]
        obtain rfl := Option.some.inj hs
        exact .inr (.inl ⟨⟨ok, rfl, trivial⟩, h.chunkPosted hid hat hpc rfl rfl⟩)
    | wait =>
      have hne := h.pending_ne_nil hpc
      simp only [PipelineCall.step, hpc, if_neg hne] at hs
      simp only [PipelineCall.events, hpc, and_iff_right hne]
      split_ifs at hs ⊢ with hok
      · obtain ⟨ep, hr, rfl⟩ := Option.map_eq_some_iff.mp hs
        obtain ⟨-, rfl⟩ := Endpoint.reap_eq hr
        exact .inr (.inr ⟨trivial, h.waited hpc hI.offset hI.le_chunks _ rfl⟩)
      · obtain rfl := Option.some.inj hs
        rw [Option.toList_none, List.append_nil]
        exact .inl (h.toError w.state.ep.toCounters)
    | done ret =>
      simp only [PipelineCall.step, hpc] at hs
      cases hs
  · obtain ⟨ep, he, rfl⟩ := Option.map_eq_some_iff.mp hs
    obtain ⟨t, r, nic, hp, rfl⟩ := Endpoint.execute_eq he
    rw [PipelineCall.events, Option.toList_none, List.append_nil]
    exact .inl { h with }

/-- Leaving the waits out of a logged run. -/
theorem issued {ok : Pipeline → PipelineAct → Prop}
    (hr : Reach c.logged (onState ok) ⟨c.enter e, []⟩ w) :
    Reach (logStep c.step c.issues) (onState ok) ⟨c.enter e, []⟩
      ⟨w.state, w.log.filterMap QueueEvent.request⟩ :=
  hr.filterMap_log QueueEvent.request c.issues_eq

theorem issueInv (h : WindowInv c e w k b) {ok : Pipeline → PipelineAct → Prop}
    (hr : Reach c.logged (onState ok) ⟨c.enter e, []⟩ w) :
    IssueInv c ⟨w.state, w.log.filterMap QueueEvent.request⟩ k := by
  obtain ⟨k', hI⟩ := IssueInv.reach (issued hr)
  have hlen := congrArg List.length hI.log
  dsimp only at hlen
  rw [h.length_posts, List.length_map, List.length_range] at hlen
  rwa [hlen]

/-- The window is accounted for in every run, whatever the calls return. -/
theorem reach (hid : c.NamesSignals e) {ok : Pipeline → PipelineAct → Prop}
    (hr : Reach c.logged (onState ok) ⟨c.enter e, []⟩ w) : ∃ k b, WindowInv c e w k b := by
  refine hr.invariant (I := fun w => ∃ k b, WindowInv c e w k b) ⟨0, 0, initial c e⟩ ?_
  rintro s a t hr ⟨k, b, h⟩ _ hs
  obtain h | ⟨-, h⟩ | ⟨-, h⟩ := h.step hid (h.issueInv hr) hs
  · exact ⟨k, b, h⟩
  · exact ⟨k + 1, b, h⟩
  · exact ⟨k, k, h⟩

end WindowInv

namespace PipelineCall

/-- A willing run goes on until chunk `i` is posted, or the call returns `SUCCESS`. -/
theorem progress_logged {c : PipelineCall} {e : Endpoint} {i : ℕ}
    {w : Logged Pipeline (QueueEvent Transfer)}
    (hreq : c.config.inRange c.localOff c.remoteOff c.size = true)
    (hin : ∀ j ≤ i, j < c.chunks → c.chunkInRange j = true)
    (hr : Reach c.logged (onState Willing) ⟨c.enter e, []⟩ w)
    (hlog : (w.log.filterMap QueueEvent.request).length ≤ i) (hdone : w.state.pc ≠ .done .success) :
    ∃ a w', onState Willing w a ∧ c.logged w a = some w' ∧
      SpareInv.todo c w'.state < SpareInv.todo c w.state := by
  obtain ⟨a, w', ha, hs, hlt⟩ := progress hreq hin (WindowInv.issued hr) hlog hdone
  exact ⟨a, ⟨w'.state, _⟩, ha, logStep_eq_some.mpr ⟨(logStep_eq_some.mp hs).1, rfl⟩, hlt⟩

/-! ### What is outstanding -/

variable (c : PipelineCall) (e : Endpoint)

/-- The claim: at every point of every run, no more chunks than `max_inflight` and `max_wr` are
outstanding on queue pair `0`. -/
def KeepsWindow : Prop :=
  ∀ w, Reach c.logged (onState Free) ⟨c.enter e, []⟩ w →
    unretired 0 0 w.log ≤ c.window ∧ unretired 0 0 w.log ≤ c.config.maxWr

/-- How many chunks there are up to the first one that its range check refuses. -/
def postable : ℕ := ((List.range c.chunks).takeWhile fun i => c.chunkInRange i).length

/-- The request is refused, or the interval divides the window or the call ends before the
remainder matters, and a window, or the whole call, fits the send queue. -/
def FitsWindow : Prop :=
  c.config.inRange c.localOff c.remoteOff c.size = true →
    (c.signalInterval ∣ c.window ∨ c.postable + c.window % c.signalInterval ≤ 2 * c.window) ∧
      min c.postable c.window ≤ c.config.maxWr

instance : Decidable c.FitsWindow := inferInstanceAs (Decidable (_ → _ ∧ _))

variable {c e} {i b k : ℕ}

theorem lt_length_takeWhile {α : Type*} {p : α → Bool} {l : List α} :
    i < (l.takeWhile p).length ↔ i < l.length ∧ ∀ a ∈ l.take (i + 1), p a = true := by
  induction l generalizing i with
  | nil => simp
  | cons a l ih =>
    rw [List.take_succ_cons, List.forall_mem_cons, List.length_cons]
    by_cases ha : p a = true
    · rw [List.takeWhile_cons_of_pos ha, List.length_cons, and_iff_right ha]
      cases i with
      | zero => simp
      | succ i => rw [Nat.succ_lt_succ_iff, Nat.succ_lt_succ_iff, ih]
    · rw [List.takeWhile_cons_of_neg ha, List.length_nil]
      simp [ha]

theorem lt_postable_iff : i < c.postable ↔ i < c.chunks ∧ ∀ j ≤ i, c.chunkInRange j = true := by
  rw [postable, lt_length_takeWhile, List.length_range, List.take_range]
  refine and_congr_right fun hi => ?_
  rw [Nat.min_eq_left hi]
  simp only [List.mem_range, Nat.lt_succ_iff]

/-- The chunks outstanding on the one queue pair, between two windows. -/
theorem unretiredAt_eq (hq : c.config.numQps ≤ 1) (hb : b < c.chunks) :
    (c.posting e).unretiredAt 0 0 0 k b = k - (b - b % c.signalInterval) := by
  have hone : ∀ i, (c.posting e).queue i = 0 := fun i => by
    have := c.queueOf_lt e i
    simp only [posting]
    omega
  have hret := Posting.retired_of_regular hone (b := b) c.signalInterval_pos fun i hi => by
    show c.signals i = true ↔ _
    rw [signals, decide_eq_true_iff, signalAt]
    exact or_iff_right (by omega)
  rw [Posting.unretiredAt, Posting.count_of_one hone, hret]
  simp [posting]

/-- At the last signaled chunk everything is retired. -/
theorem unretiredAt_chunks (hq : c.config.numQps ≤ 1) (hk : k ≤ c.chunks) :
    (c.posting e).unretiredAt 0 0 0 k c.chunks = 0 := by
  have hone : ∀ i, (c.posting e).queue i = 0 := fun i => by
    have := c.queueOf_lt e i
    simp only [posting]
    omega
  rw [Posting.unretiredAt, Posting.count_of_one hone]
  cases hn : c.chunks with
  | zero => simp [show k = 0 by omega]
  | succ n =>
    have hsig : (c.posting e).signaled n = true := by
      show c.signals n = true
      rw [signals, decide_eq_true_iff]
      exact .inl hn.symm
    rw [Posting.retired_succ, if_pos ⟨hone n, hsig⟩, Posting.after, Posting.count_of_one hone]
    simp only [posting]
    omega

/-- What is outstanding at the end of chunk `i` is an upper bound for its window. -/
theorem keepsWindow_iff_outstanding (hq : c.config.numQps ≤ 1) (hid : c.NamesSignals e) :
    c.KeepsWindow e ↔ (c.config.inRange c.localOff c.remoteOff c.size = true →
      ∀ i < c.postable, i + 1 - (c.window * (i / c.window) -
        c.window * (i / c.window) % c.signalInterval) ≤ min c.window c.config.maxWr) := by
  constructor
  · intro hkeep hreq i hi
    obtain ⟨hi, hin⟩ := lt_postable_iff.mp hi
    -- a run whose posts and waits succeed comes to chunk `i`
    obtain ⟨w, hr, hlen⟩ : ∃ w, Reach c.logged (onState Willing) ⟨c.enter e, []⟩ w ∧
        i < (w.log.filterMap QueueEvent.request).length := by
      refine exists_reach_final (fun w => SpareInv.todo c w.state) fun w hr hlen => ?_
      rw [Nat.not_lt] at hlen
      refine progress_logged hreq (fun j hj _ => hin j hj) hr hlen fun hdone => ?_
      obtain ⟨k, b, h⟩ := WindowInv.reach hid hr
      rw [h.length_posts, (h.issueInv hr).done hdone] at hlen
      omega
    -- and posts it in one of its steps
    have hfree : Reach c.logged (onState Free) ⟨c.enter e, []⟩ w := hr.mono fun _ _ _ => trivial
    obtain ⟨u, a, v, hu, hnot, -, hs, hv⟩ := hfree.exists_first
      (P := fun w => i < (w.log.filterMap QueueEvent.request).length) (by simp) hlen
    obtain ⟨k, b, h⟩ := WindowInv.reach hid hu
    have hk := h.length_posts
    obtain h' | ⟨⟨-, -, hpc⟩, h'⟩ | ⟨-, h'⟩ := h.step hid (h.issueInv hu) hs
    · have := h'.length_posts
      omega
    · have hk' := h'.length_posts
      obtain rfl : k = i := by omega
      have hle := h.le
      have hlt := h.post hpc
      obtain ⟨m, rfl⟩ := h.boundary.resolve_left (by omega)
      have hm : k / c.window = m := by
        refine Nat.div_eq_of_lt_le ?_ ?_
        · rw [Nat.mul_comm]
          exact hle
        · rw [Nat.succ_mul, Nat.mul_comm]
          exact hlt
      have hout := hkeep v (hu.tail trivial hs)
      rw [Posting.unretired_eq (h'.book 0), unretiredAt_eq hq (by omega)] at hout
      rw [hm]
      exact Nat.le_min.mpr hout
    · have := h'.length_posts
      omega
  · intro hout w hr
    obtain ⟨k, b, h⟩ := WindowInv.reach hid hr
    have hI := h.issueInv hr
    have hle := h.le
    have hchunks := hI.le_chunks
    rw [← Nat.le_min, Posting.unretired_eq (h.book 0)]
    obtain rfl | hb := h.boundary
    · rw [unretiredAt_chunks hq hchunks]
      exact Nat.zero_le _
    obtain rfl | hlt := Nat.eq_or_lt_of_le (Nat.le_trans hle hchunks)
    · rw [unretiredAt_chunks hq hchunks]
      exact Nat.zero_le _
    rw [unretiredAt_eq hq hlt]
    cases k with
    | zero => simp
    | succ i =>
      have hi : i < c.postable :=
        lt_postable_iff.mpr ⟨hchunks, fun j hj => hI.inRange j (Nat.lt_succ_of_le hj)⟩
      refine Nat.le_trans ?_ (hout (hI.request (.inr (Nat.succ_pos i))) i hi)
      -- the window of chunk `i` begins at `b` or, right after a wait, before it
      obtain ⟨m, rfl⟩ := hb
      have hm : c.window * (i / c.window) ≤ c.window * m := by
        refine Nat.mul_le_mul_left _ (Nat.lt_succ_iff.mp (Nat.div_lt_of_lt_mul ?_))
        have := h.window
        rw [Nat.mul_succ]
        omega
      rw [← Nat.mul_div_self_eq_mod_sub_self, ← Nat.mul_div_self_eq_mod_sub_self]
      exact Nat.sub_le_sub_left (Nat.mul_le_mul_left _ (Nat.div_le_div_right hm)) _

/-- **When the pipeline keeps its window.** With one queue pair, no more chunks than `max_inflight`
and `max_wr` are ever outstanding, exactly when the request is refused, or the signal interval
divides the window or the call ends in time, and the send queue holds a window.

`keepsWindow_iff_outstanding` reduces the claim to one inequality for each chunk; the rest is
arithmetic. If the interval does not divide the window, the chunk that goes over the second window
is the one at twice the window less the remainder, unless the call ends before it. -/
theorem keepsWindow_iff (hq : c.config.numQps ≤ 1) (hid : c.NamesSignals e) :
    c.KeepsWindow e ↔ c.FitsWindow := by
  rw [keepsWindow_iff_outstanding hq hid, FitsWindow]
  refine forall_congr' fun _ => ?_
  have hpos := c.window_pos
  have hlt := Nat.mod_lt c.window c.signalInterval_pos
  have hd := signalInterval_le_window (c := c)
  constructor
  · intro hout
    constructor
    · by_contra hnot
      push Not at hnot
      obtain ⟨hdvd, hlong⟩ := hnot
      have hmod : 0 < c.window % c.signalInterval := Nat.emod_pos_of_not_dvd hdvd
      -- the chunk that goes over the second window
      have := hout (2 * c.window - c.window % c.signalInterval) (by omega)
      have hdiv : (2 * c.window - c.window % c.signalInterval) / c.window = 1 :=
        Nat.div_eq_of_lt_le (by omega) (by omega)
      rw [hdiv, Nat.mul_one] at this
      omega
    · obtain hzero | hpost := Nat.eq_zero_or_pos (min c.postable c.window)
      · rw [hzero]
        exact Nat.zero_le _
      · have := hout (min c.postable c.window - 1) (by omega)
        rw [Nat.div_eq_of_lt (by omega), Nat.mul_zero, Nat.zero_mod] at this
        omega
  · rintro ⟨hphase, hroom⟩ i hi
    have hmod := Nat.div_add_mod i c.window
    have hrest := Nat.mod_lt i hpos
    obtain hdvd | hend := hphase
    · rw [Nat.mod_eq_zero_of_dvd (hdvd.mul_right _)]
      omega
    · generalize i / c.window = m at hmod ⊢
      rcases m with _ | _ | m
      · rw [Nat.mul_zero, Nat.zero_mod] at *
        omega
      · rw [Nat.zero_add, Nat.mul_one] at *
        omega
      · -- the call ends before the third window
        rw [Nat.mul_succ, Nat.mul_succ] at hmod
        omega

/-- Eight chunks with a window of four and a signal every `interval` chunks. -/
def eightChunks (interval : ℕ) : PipelineCall :=
  writeDataPipeline ⟨8, 8, 1, 16⟩ 0 0 8 1 4 none none (some interval)

/-- An endpoint that was just connected. -/
abbrev newEndpoint : Endpoint := ⟨⟨1, 0⟩, .empty, []⟩

/-- An interval that divides the window keeps it. -/
theorem keepsWindow_iff_eightChunks :
    (eightChunks 2).KeepsWindow newEndpoint ↔ (eightChunks 2).FitsWindow :=
  keepsWindow_iff (by decide) (by decide +kernel)

example : (eightChunks 2).FitsWindow := by decide +kernel

/-- **The window is overrun.** With a signal every three chunks, the wait of the first window says
nothing about chunk `3`, and at the end of the second window five chunks are outstanding. -/
theorem window_overrun : ∃ w,
    Reach (eightChunks 3).logged (onState Free) ⟨(eightChunks 3).enter newEndpoint, []⟩ w ∧
      unretired 0 0 w.log = 5 ∧ (eightChunks 3).window = 4 ∧
        ¬ (eightChunks 3).KeepsWindow newEndpoint := by
  obtain ⟨w, hr, hout, hwindow⟩ : ∃ w,
      Reach (eightChunks 3).logged Free ⟨(eightChunks 3).enter newEndpoint, []⟩ w ∧
        unretired 0 0 w.log = 5 ∧ (eightChunks 3).window = 4 :=
    exists_reach_of_exec (schedule [(4, .run true), (3, .nic 0), (5, .run true)])
      (by decide +kernel)
  have hr : Reach (eightChunks 3).logged (onState Free) ⟨(eightChunks 3).enter newEndpoint, []⟩ w :=
    hr.mono fun _ _ _ => trivial
  refine ⟨w, hr, hout, hwindow, fun h => ?_⟩
  have := (h w hr).1
  omega

/-- The default window of a small send queue is larger than the queue. -/
example : ¬ (writeDataPipeline ⟨64, 64, 1, 16⟩ 0 0 32 1 0 none none none).FitsWindow := by
  decide +kernel

end PipelineCall

end HMC.Rdma
