import HMC.Machine.Log
import HMC.Rdma.Pipeline

/-!
# What a pipeline call issues

A pipeline checks the range of the request and then, chunk by chunk, the range of the chunk;
the sums are `size_t` sums in both places. `issues_iff` says what gets to the card: over all
runs of a call, exactly the chunks up to the first one that its check refuses.

Nothing is assumed about the ids of the endpoint, which may repeat. That a wait can return
rests on `Signals`: the endpoint keeps, for each pending id, the completion or the request.

A chunk may be refused although the request was accepted: the sum of the request is computed once
and may wrap to something small, and so may the sum of a chunk, each on its own. The loop then ends
with an error, but the chunks before it are with the card. So `issues_iff` has two parts: what is
issued is a chunk behind which no check failed (`IssueInv`), and a run in which posts and waits
succeed goes on to every such chunk (`progress`).
-/

namespace HMC.Rdma

open HMC.Machine

/-- A completion of `id` is there, or will be once the card has executed its first `n` queues. -/
def Endpoint.Signals (e : Endpoint) (n id : ℕ) : Prop :=
  id ∈ e.completed ∨ ∃ t r q, e.nic.Queued t r q ∧ r.wrId = id ∧ r.signaled = true ∧ q < n

/-- The card turns requests into completions. -/
theorem Endpoint.Signals.execute {e e' : Endpoint} {n id q : ℕ} (h : e.Signals n id)
    (he : e.execute q = some e') : e'.Signals n id := by
  obtain ⟨t, r, nic, hp, rfl⟩ := Endpoint.execute_eq he
  obtain hm | ⟨t', r', q', hq, hid, hsig, hlt⟩ := h
  · left
    dsimp only
    split_ifs
    · exact List.mem_append_left _ hm
    · exact hm
  · obtain hq | rfl := hq.of_pop hp
    · exact .inr ⟨t', r', q', hq, hid, hsig, hlt⟩
    · left
      rw [if_pos hsig, hid]
      exact List.mem_append_right _ (List.mem_singleton.mpr rfl)

namespace PipelineCall

variable (c : PipelineCall)

/-- Chunk `i` of the request. -/
def chunk (i : ℕ) : Transfer where
  localOff := wrap64 (c.localOff + i * c.chunkBytes)
  remoteOff := wrap64 (c.remoteOff + i * c.chunkBytes)
  size := chunkLen c.size c.chunkBytes i

/-- What a step of the call hands to the card. -/
def issues (w : Pipeline) : PipelineAct → Option Transfer
  | .run ok =>
    match w.pc with
    | .post => c.config.issued (wrap64 (c.localOff + w.offset)) (wrap64 (c.remoteOff + w.offset))
        (c.currentChunkSize w) ok
    | _ => none
  | .nic _ => none

variable {c} {w : Pipeline} {k : ℕ}

theorem chunkInRange_iff :
    c.chunkInRange k = true ↔ (c.chunk k).Checked c.config.bufferSize c.config.remoteLength :=
  c.config.inRange_iff

theorem AtChunk.chunk_eq (h : c.AtChunk w k) :
    c.chunk k = ⟨wrap64 (c.localOff + w.offset), wrap64 (c.remoteOff + w.offset),
      c.currentChunkSize w⟩ := by
  rw [chunk, h.offset_eq, h.currentChunkSize_eq]

end PipelineCall

/-- A call has issued its first `k` chunks. -/
structure IssueInv (c : PipelineCall) (w : Logged Pipeline Transfer) (k : ℕ) : Prop where
  le_chunks : k ≤ c.chunks
  offset : w.state.offset = min (k * c.chunkBytes) c.size
  post : w.state.pc = .post → k < c.chunks
  done : w.state.pc = .done .success → k = c.chunks
  request : w.state.pc ≠ .done .error ∨ 0 < k →
    c.config.inRange c.localOff c.remoteOff c.size = true
  inRange : ∀ i < k, c.chunkInRange i = true
  log : w.log = (List.range k).map c.chunk
  signals : ∀ id ∈ w.state.pendingWrs, w.state.ep.Signals (max c.config.numQps 1) id

namespace IssueInv

variable {c : PipelineCall} {e : Endpoint} {w w' : Logged Pipeline Transfer} {k : ℕ}

theorem atChunk (h : IssueInv c w k) (hpc : w.state.pc = .post) : c.AtChunk w.state k :=
  ⟨h.post hpc, h.offset⟩

/-- The head of the loop only decides where the call goes on. -/
theorem loopHead {s : Pipeline} {log : List Transfer} (h : IssueInv c ⟨s, log⟩ k)
    (hpc : s.pc ≠ .done .error) : IssueInv c ⟨c.loopHead s, log⟩ k := by
  have hlt : s.offset < c.size ↔ k < c.chunks := by
    have hoff := h.offset
    dsimp only at hoff
    rw [hoff, PipelineCall.chunks, lt_numChunks_iff c.chunkBytes_pos]
    omega
  have hle := h.le_chunks
  refine
    { h with
      post := fun hp => ?_
      done := fun hd => ?_
      request := fun _ => h.request (.inl hpc) }
  · dsimp only [PipelineCall.loopHead] at hp
    split_ifs at hp with hs
    exact hlt.mp hs
  · dsimp only [PipelineCall.loopHead] at hd
    split_ifs at hd with hs
    have := mt hlt.mpr hs
    omega

theorem initial (c : PipelineCall) (e : Endpoint) : IssueInv c ⟨c.enter e, []⟩ 0 := by
  have hbase : ∀ pc, pc ≠ .post → pc ≠ .done .success →
      (pc ≠ .done .error → c.config.inRange c.localOff c.remoteOff c.size = true) →
      IssueInv c ⟨⟨e, pc, 0, [], 0, 0⟩, []⟩ 0 := fun pc hp hd hin =>
    { le_chunks := Nat.zero_le _
      offset := by simp
      post := fun hpc => absurd hpc hp
      done := fun hpc => absurd hpc hd
      request := fun hne => hin (hne.resolve_right (Nat.lt_irrefl 0))
      inRange := fun i hi => absurd hi (Nat.not_lt_zero i)
      log := rfl
      signals := by simp }
  unfold PipelineCall.enter
  split_ifs with hin
  · exact (hbase .wait (by simp) (by simp) fun _ => hin).loopHead (by simp)
  · exact hbase _ (by simp) (by simp) fun hne => absurd rfl hne

/-- A chunk was posted. -/
theorem chunkPosted (h : IssueInv c w k) (hpc : w.state.pc = .post) (hin : c.chunkInRange k = true)
    (counters : Counters) {q : ℕ} (hq : q < max c.config.numQps 1) {r : OneSided}
    (hsig : r.signaled = c.signaled w.state) {wrId : ℕ}
    (hid : wrId = if c.signaled w.state then r.wrId else 0) :
    IssueInv c
      ⟨c.chunkPosted w.state wrId
        { w.state.ep with toCounters := counters, nic := w.state.ep.nic.post q r },
        w.log ++ [c.chunk k]⟩ (k + 1) := by
  have hk := h.post hpc
  have hnew : IssueInv c
      ⟨c.record w.state wrId
        { w.state.ep with toCounters := counters, nic := w.state.ep.nic.post q r },
        w.log ++ [c.chunk k]⟩ (k + 1) :=
    { le_chunks := hk
      offset := (h.atChunk hpc).offset_succ
      post := by simp [PipelineCall.record]
      done := by simp [PipelineCall.record]
      request := fun _ => h.request (.inl (by simp [hpc]))
      inRange := fun i hi => by
        obtain hi | rfl := Nat.lt_succ_iff_lt_or_eq.mp hi
        · exact h.inRange i hi
        · exact hin
      log := by rw [h.log, List.range_succ, List.map_append, List.map_singleton]
      signals := fun id hm => by
        -- an old pending id, or that of the new request
        have hold : id ∈ w.state.pendingWrs → Endpoint.Signals
            { w.state.ep with toCounters := counters, nic := w.state.ep.nic.post q r }
            (max c.config.numQps 1) id := by
          intro hm
          refine (h.signals id hm).imp_right ?_
          rintro ⟨t, r', q', hq', hrest⟩
          exact ⟨t, r', q', SendQueues.queued_post.mpr (.inl hq'), hrest⟩
        simp only [PipelineCall.record] at hm
        split_ifs at hm with hc
        · obtain hm | hm := List.mem_append.mp hm
          · exact hold hm
          · rw [List.mem_singleton.mp hm, hid, if_pos hc.1]
            exact .inr ⟨_, r, q, SendQueues.queued_post.mpr (.inr ⟨rfl, rfl, rfl⟩), rfl,
              hsig.trans hc.1, hq⟩
        · exact hold hm }
  unfold PipelineCall.chunkPosted
  split_ifs
  · exact hnew
  · exact hnew.loopHead (by simp [PipelineCall.record])

/-- A call that fails has issued what it has issued. -/
theorem toError (h : IssueInv c w k) (counters : Counters) :
    IssueInv c ⟨{ w.state with
      ep := { w.state.ep with toCounters := counters }, pc := .done .error }, w.log⟩ k :=
  { h with
    post := by simp
    done := by simp
    request := fun hk => by
      obtain hk := hk.resolve_left fun hne => hne rfl
      exact h.request (.inr hk) }

/-- **One step** issues the next chunk or nothing. -/
theorem step (h : IssueInv c w k) {a : PipelineAct}
    (hs : logStep c.step c.issues w a = some w') : ∃ k', IssueInv c w' k' := by
  obtain ⟨s', log'⟩ := w'
  obtain ⟨hs, rfl⟩ := logStep_eq_some.mp hs
  obtain ok | q := a
  · cases hpc : w.state.pc with
    | post =>
      have hat := h.atChunk hpc
      simp only [PipelineCall.step, hpc] at hs
      simp only [PipelineCall.issues, hpc]
      obtain ⟨hnone, counters, heq⟩ | ⟨hsome, heq⟩ := c.config.dataNBInternal_issued c.opcode
        w.state.ep (wrap64 (c.localOff + w.state.offset)) (wrap64 (c.remoteOff + w.state.offset))
        (c.currentChunkSize w.state) (c.signaled w.state) ok
      · rw [heq] at hs
        rw [hnone, Option.toList_none, List.append_nil]
        cases hs
        exact ⟨k, h.toError counters⟩
      · rw [heq] at hs
        rw [hsome, Option.toList_some, ← hat.chunk_eq]
        cases hs
        rw [← hat.chunk_eq, c.config.issued_eq_some] at hsome
        exact ⟨k + 1, h.chunkPosted hpc (PipelineCall.chunkInRange_iff.mpr hsome.2.1) _
          (c.config.nextQp_lt _) rfl rfl⟩
    | wait =>
      simp only [PipelineCall.step, hpc] at hs
      simp only [PipelineCall.issues, hpc, Option.toList_none, List.append_nil]
      have hreq := h.request (.inl (by simp [hpc]))
      split_ifs at hs with hnil hok
      · cases hs
        exact ⟨k, loopHead
          { h with post := by simp, done := by simp, request := fun _ => hreq } (by simp)⟩
      · obtain ⟨ep, hr, rfl⟩ := Option.map_eq_some_iff.mp hs
        exact ⟨k, loopHead
          { h with post := by simp, done := by simp, request := fun _ => hreq, signals := by simp }
          (by simp)⟩
      · cases hs
        exact ⟨k, h.toError _⟩
    | done ret =>
      simp only [PipelineCall.step, hpc] at hs
      cases hs
  · obtain ⟨ep, he, rfl⟩ := Option.map_eq_some_iff.mp hs
    refine ⟨k, { h with signals := fun id hm => (h.signals id hm).execute he, log := ?_ }⟩
    rw [PipelineCall.issues, Option.toList_none, List.append_nil]
    exact h.log

/-- In every run, what is issued are chunks behind which no check has failed. -/
theorem reach {ok : Pipeline → PipelineAct → Prop}
    (hr : Reach (logStep c.step c.issues) (onState ok) ⟨c.enter e, []⟩ w) :
    ∃ k, IssueInv c w k := by
  refine hr.invariant (I := fun w => ∃ k, IssueInv c w k) ⟨0, initial c e⟩ ?_
  rintro _ _ _ _ ⟨k, h⟩ _ hs
  exact h.step hs

end IssueInv

/-! ### Every chunk in range is reached -/

namespace PipelineCall

variable {c : PipelineCall} {e : Endpoint}

/-- Posts and waits succeed. -/
def Willing : Pipeline → PipelineAct → Prop := fun _ a => a ≠ .run false

instance (w : Pipeline) (a : PipelineAct) : Decidable (Willing w a) :=
  inferInstanceAs (Decidable (a ≠ .run false))

/-- In a willing run, a call fails at a chunk that is out of range only. -/
theorem not_failed {i : ℕ} (hreq : c.config.inRange c.localOff c.remoteOff c.size = true)
    (hin : ∀ j ≤ i, j < c.chunks → c.chunkInRange j = true) {w : Logged Pipeline Transfer}
    (hr : Reach (logStep c.step c.issues) (onState Willing) ⟨c.enter e, []⟩ w)
    (hlog : w.log.length ≤ i) : ∀ ret, w.state.pc = .done ret → ret = .success := by
  induction hr with
  | refl =>
    rw [enter, if_pos hreq]
    exact SpareInv.loopHead_not_failed
  | @tail w w' a hr hok hs ih =>
    obtain ⟨s', log'⟩ := w'
    obtain ⟨k, h⟩ := IssueInv.reach hr
    obtain ⟨hs, rfl⟩ := logStep_eq_some.mp hs
    rw [List.length_append] at hlog
    have hk : k ≤ i := by
      rw [h.log, List.length_map, List.length_range] at hlog
      omega
    obtain ok | q := a
    · obtain rfl : ok = true := by simpa [onState, Willing] using hok
      cases hpc : w.state.pc with
      | post =>
        obtain ⟨wrId, ep, heq, -⟩ := (h.atChunk hpc).post_succeeds hpc (hin k hk (h.post hpc))
        rw [heq] at hs
        cases hs
        exact SpareInv.chunkPosted_not_failed
      | wait =>
        simp only [step, hpc] at hs
        split_ifs at hs with hnil
        · cases hs
          exact SpareInv.loopHead_not_failed
        · obtain ⟨ep, -, rfl⟩ := Option.map_eq_some_iff.mp hs
          exact SpareInv.loopHead_not_failed
      | done ret =>
        simp only [step, hpc] at hs
        cases hs
    · obtain ⟨ep, -, rfl⟩ := Option.map_eq_some_iff.mp hs
      exact ih (by omega)

/-- A willing run goes on until chunk `i` is issued, or the call returns `SUCCESS`. -/
theorem progress {i : ℕ} (hreq : c.config.inRange c.localOff c.remoteOff c.size = true)
    (hin : ∀ j ≤ i, j < c.chunks → c.chunkInRange j = true) {w : Logged Pipeline Transfer}
    (hr : Reach (logStep c.step c.issues) (onState Willing) ⟨c.enter e, []⟩ w)
    (hlog : w.log.length ≤ i) (hdone : w.state.pc ≠ .done .success) :
    ∃ a w', onState Willing w a ∧ logStep c.step c.issues w a = some w' ∧
      SpareInv.todo c w'.state < SpareInv.todo c w.state := by
  obtain ⟨k, h⟩ := IssueInv.reach hr
  have hk : k = w.log.length := by rw [h.log, List.length_map, List.length_range]
  have hmove : ∀ a s', a ≠ .run false → c.step w.state a = some s' →
      SpareInv.todo c s' < SpareInv.todo c w.state → ∃ a w', onState Willing w a ∧
        logStep c.step c.issues w a = some w' ∧
        SpareInv.todo c w'.state < SpareInv.todo c w.state := fun a s' ha hs hlt =>
    ⟨a, ⟨s', _⟩, ha, logStep_eq_some.mpr ⟨hs, rfl⟩, hlt⟩
  cases hpc : w.state.pc with
  | post =>
    obtain ⟨s', hs, hlt⟩ := SpareInv.todo_post (h.atChunk hpc) hpc
      (hin k (by omega) (h.post hpc))
    exact hmove (.run true) s' (by simp) hs hlt
  | wait =>
    by_cases hall : ∀ id ∈ w.state.pendingWrs, id ∈ w.state.ep.completed
    · obtain ⟨s', hs, hlt⟩ := SpareInv.todo_wait (c := c) hpc hall
      exact hmove (.run true) s' (by simp) hs hlt
    · push Not at hall
      obtain ⟨id, hid, hnot⟩ := hall
      obtain ⟨t, r, q, hq, -, -, hqlt⟩ := (h.signals id hid).resolve_left hnot
      obtain ⟨p, nic, hp⟩ := hq.exists_pop
      obtain ⟨s', hs, hlt⟩ := SpareInv.todo_nic (c := c) hqlt hp
      exact hmove (.nic q) s' (by simp) hs hlt
  | done ret =>
    obtain rfl := not_failed hreq hin hr hlog ret hpc
    exact absurd hpc hdone

/-- **What a pipeline issues**: over all runs of a call whose request passes its check, exactly
the chunks up to the first one that is refused. -/
theorem issues_iff {t : Transfer} :
    (∃ w, Reach (logStep c.step c.issues) (onState Free) ⟨c.enter e, []⟩ w ∧ t ∈ w.log) ↔
      c.config.inRange c.localOff c.remoteOff c.size = true ∧
      ∃ i < c.chunks, (∀ j ≤ i, c.chunkInRange j = true) ∧ c.chunk i = t := by
  constructor
  · rintro ⟨w, hr, ht⟩
    obtain ⟨k, h⟩ := IssueInv.reach hr
    rw [h.log, List.mem_map] at ht
    obtain ⟨i, hi, rfl⟩ := ht
    rw [List.mem_range] at hi
    exact ⟨h.request (.inr (by omega)), i, Nat.lt_of_lt_of_le hi h.le_chunks,
      fun j hj => h.inRange j (by omega), rfl⟩
  · rintro ⟨hreq, i, hi, hin, rfl⟩
    obtain ⟨w, hr, hlen⟩ : ∃ w, Reach (logStep c.step c.issues) (onState Willing)
        ⟨c.enter e, []⟩ w ∧ i < w.log.length := by
      refine exists_reach_final (fun w => SpareInv.todo c w.state) fun w hr hlen => ?_
      rw [Nat.not_lt] at hlen
      refine progress hreq (fun j hj _ => hin j hj) hr hlen fun hdone => ?_
      obtain ⟨k, h⟩ := IssueInv.reach hr
      rw [h.log, List.length_map, List.length_range, h.done hdone] at hlen
      omega
    obtain ⟨k, h⟩ := IssueInv.reach hr
    refine ⟨w, hr.free.mono fun _ _ _ => trivial, ?_⟩
    rw [h.log, List.length_map, List.length_range] at hlen
    rw [h.log]
    exact List.mem_map_of_mem (List.mem_range.mpr hlen)

end PipelineCall

end HMC.Rdma
