import HMC.Core.Tiles
import HMC.Rdma.Window

/-!
# A pipeline posts its request

When all posts and waits succeed, a pipeline call whose ranges lie in the buffers ends with
`SUCCESS`, and its posts tile the two ranges. `Carries` says all of it, for any number of queue
pairs; `carries_of_namesSignals` proves it for calls whose signaled chunks get ids other than `0`.
An id `0`, which comes around after `2 ^ 56` posts, is not waited for (`unnamed_not_waited`).

Most of it is read off invariants of other modules: what was posted off `IssueInv`, which ids were
waited for and at which boundaries off `WindowInv`. The chunks of a request in range are in range
themselves, since no sum wraps (`accepted_of_inside`), so a call whose posts and waits succeed fails
at no chunk. Each step of the thread adds to a log whose length is bounded, and as long as the call
has not returned it has a step, so it ends, and it ends with `SUCCESS`.
-/

namespace HMC

namespace Rdma

open HMC.Machine

namespace PipelineCall

variable {c : PipelineCall} {e : Endpoint} {w : Logged Pipeline (QueueEvent Transfer)}

/-- The posts of a log that are signaled. -/
def signaledIds (log : List (QueueEvent Transfer)) : List ℕ :=
  ((log.filterMap QueueEvent.signal).filter Prod.snd).map Prod.fst

/-- The claim about a point of a run in which all posts and waits succeed: the call has not failed,
each of its steps is in the log, which is bounded, and it can go on to `SUCCESS`; a window of posts
has a signaled one and a wait has ids; and when it has returned, its posts tile the request, the
last one is signaled, and it has waited for the signaled ones in turn. -/
structure Carries (c : PipelineCall) (w : Logged Pipeline (QueueEvent Transfer)) : Prop where
  not_failed : ∀ ret, w.state.pc = .done ret → ret = .success
  counted : ∀ w', c.logged w (.run true) = some w' → w'.log.length = w.log.length + 1
  bounded : w.log.length ≤ 2 * c.chunks
  returns : ∃ w', Reach c.logged (onState Willing) w w' ∧ w'.state.pc = .done .success
  spaced : ∀ before posts after, (w.log.filterMap QueueEvent.signal).map Prod.snd =
    before ++ posts ++ after → posts.length = c.window → true ∈ posts
  boundary : w.state.pc = .wait → w.state.pendingWrs ≠ []
  lengths : ∀ t ∈ w.log.filterMap QueueEvent.request, wrap32 t.size = t.size
  tiles : w.state.pc = .done .success → Tiles c.chunkBytes c.localOff c.remoteOff c.size
    (w.log.filterMap QueueEvent.request)
  last : w.state.pc = .done .success →
    ((w.log.filterMap QueueEvent.signal).map Prod.snd).getLast? = some true
  waited : w.state.pc = .done .success →
    (w.log.filterMap QueueEvent.ids).flatten = signaledIds w.log

/-- The chunks of a request in range are in range. -/
theorem accepted_of_inside
    (hin : Transfer.Inside ⟨c.localOff, c.remoteOff, c.size⟩ c.config.bufferSize
      c.config.remoteLength)
    (hexact : Transfer.Exact ⟨c.localOff, c.remoteOff, c.size⟩) : c.Accepted := by
  obtain ⟨hl, hr⟩ := hin
  obtain ⟨hl', hr'⟩ := hexact
  dsimp only at hl hr hl' hr'
  refine ⟨?_, fun i hi => ?_⟩
  · rw [EndpointConfig.inRange_iff]
    refine ⟨?_, ?_⟩
    · rwa [wrap64_of_lt hl']
    · rwa [wrap64_of_lt hr']
  · have := chunk_end_le c.chunkBytes_pos hi
    rw [chunkInRange, EndpointConfig.inRange_iff]
    dsimp only [Transfer.Checked]
    rw [wrap64_of_lt (x := c.localOff + _) (by omega),
      wrap64_of_lt (x := c.remoteOff + _) (by omega), wrap64_of_lt (by omega),
      wrap64_of_lt (by omega)]
    omega

theorem chunk_eq (hexact : Transfer.Exact ⟨c.localOff, c.remoteOff, c.size⟩) {i : ℕ}
    (hi : i < c.chunks) : c.chunk i =
      ⟨c.localOff + i * c.chunkBytes, c.remoteOff + i * c.chunkBytes,
        chunkLen c.size c.chunkBytes i⟩ := by
  obtain ⟨hl, hr⟩ := hexact
  have hlt := (lt_numChunks_iff c.chunkBytes_pos).mp hi
  dsimp only at hl hr
  rw [chunk, wrap64_of_lt (by omega), wrap64_of_lt (by omega)]

/-- In any window of posts one is signaled. -/
theorem mem_of_spaced {k : ℕ} {before posts after : List Bool}
    (h : (List.range k).map c.signals = before ++ posts ++ after) (hlen : posts.length = c.window) :
    true ∈ posts := by
  have hk := congrArg List.length h
  simp only [List.length_map, List.length_range, List.length_append] at hk
  have hpos := c.window_pos
  obtain ⟨i, hbi, hik, hsig⟩ := exists_signal (c := c) (b := before.length)
    (k := before.length + c.window) (by omega) (.inl rfl)
  have hget : (before ++ posts ++ after)[i]? = some true := by
    rw [← h, List.getElem?_map, List.getElem?_range (by omega), Option.map_some, hsig]
  rw [List.append_assoc, List.getElem?_append_right hbi,
    List.getElem?_append_left (by omega)] at hget
  exact List.mem_of_getElem? hget

/-- In a willing run, a step of the thread posts a chunk or returns from a wait. -/
theorem length_of_step {k b : ℕ} (h : WindowInv c e w k b)
    (hI : IssueInv c ⟨w.state, w.log.filterMap QueueEvent.request⟩ k)
    (hin : ∀ i < c.chunks, c.chunkInRange i = true)
    {w' : Logged Pipeline (QueueEvent Transfer)} (hs : c.logged w (.run true) = some w') :
    w'.log.length = w.log.length + 1 := by
  obtain ⟨hs, hlog⟩ := logStep_eq_some.mp hs
  rw [hlog, List.length_append]
  cases hpc : w.state.pc with
  | post =>
    have hchecked := hin k (hI.post hpc)
    rw [(hI.atChunk hpc).chunkInRange_eq] at hchecked
    simp [events, hpc, EndpointConfig.issued, hchecked]
  | wait =>
    have hne := h.pending_ne_nil hpc
    simp [events, hpc, hne]
  | done ret =>
    simp only [step, hpc] at hs
    cases hs

/-- **The pipeline carries its request.** In every run in which posts and waits succeed, on an
endpoint with any number of queue pairs: it does not fail, it comes to an end, and then its posts
tile the request, with the last one signaled and every signaled one waited for. The condition on the
ids holds as long as the counter has not come to `2 ^ 56` (`namesSignals_of_lt`). -/
theorem carries_of_namesSignals (hsize : 0 < c.size)
    (hin : Transfer.Inside ⟨c.localOff, c.remoteOff, c.size⟩ c.config.bufferSize
      c.config.remoteLength)
    (hexact : Transfer.Exact ⟨c.localOff, c.remoteOff, c.size⟩)
    (hlength : c.config.remoteLength < 2 ^ 32) (hid : c.NamesSignals e) :
    ∀ w, Reach c.logged (onState Willing) ⟨c.enter e, []⟩ w → c.Carries w := by
  intro w hr
  obtain ⟨hreq, hchunks⟩ := accepted_of_inside hin hexact
  obtain ⟨k, b, h⟩ := WindowInv.reach hid hr
  have hI := h.issueInv hr
  have hle := hI.le_chunks
  have hkb := h.le
  have hend : w.state.pc = .done .success → k = c.chunks ∧ b = c.chunks := fun hpc =>
    ⟨hI.done hpc, h.done hpc⟩
  have hposted : ∀ {w}, Reach c.logged (onState Willing) ⟨c.enter e, []⟩ w →
      (w.log.filterMap QueueEvent.request).length ≤ c.chunks := fun hr => by
    obtain ⟨k, b, h⟩ := WindowInv.reach hid hr
    rw [h.length_posts]
    exact (h.issueInv hr).le_chunks
  have hlog : w.log.filterMap QueueEvent.request = (List.range k).map c.chunk := hI.log
  have hflags : (w.log.filterMap QueueEvent.signal).map Prod.snd =
      (List.range k).map c.signals := by
    rw [h.posts, List.map_map]
    rfl
  constructor
  case not_failed =>
    exact PipelineCall.not_failed hreq (fun j _ => hchunks j) (WindowInv.issued hr) (hposted hr)
  case counted => exact fun w' hs => length_of_step h hI hchunks hs
  case bounded =>
    have := h.waits
    rw [QueueEvent.length_eq, h.posts, List.length_map, List.length_range]
    omega
  case returns =>
    refine exists_reach_final (fun w => SpareInv.todo c w.state) fun w' hr' hdone => ?_
    have hr' := hr.trans hr'
    exact progress_logged hreq (fun j _ => hchunks j) hr' (hposted hr') hdone
  case spaced => exact fun before posts after hsplit => mem_of_spaced (hflags ▸ hsplit)
  case boundary => exact h.pending_ne_nil
  case lengths =>
    intro t ht
    rw [hlog] at ht
    obtain ⟨i, -, rfl⟩ := List.mem_map.mp ht
    have hsize : chunkLen c.size c.chunkBytes i ≤ c.size := by
      rw [chunkLen]
      omega
    have := hin.2
    dsimp only at this
    exact wrap32_of_lt (x := chunkLen c.size c.chunkBytes i) (by omega)
  case tiles =>
    intro hpc
    obtain ⟨rfl, rfl⟩ := hend hpc
    have htiles := tiles_chunks (n := c.size) (l := c.localOff) (r := c.remoteOff) c.chunkBytes_pos
      (Nat.le_refl c.chunks)
    have hall : min (c.chunks * c.chunkBytes) c.size = c.size := by
      have := lt_numChunks_iff (n := c.size) (i := c.chunks) c.chunkBytes_pos
      rw [PipelineCall.chunks] at *
      omega
    rw [hall] at htiles
    rw [hlog]
    convert htiles using 1
    exact List.map_congr_left fun i hi => chunk_eq hexact (List.mem_range.mp hi)
  case last =>
    intro hpc
    obtain ⟨rfl, rfl⟩ := hend hpc
    have hpos : 0 < c.chunks := numChunks_pos c.chunkBytes_pos hsize
    obtain ⟨n, hn⟩ := Nat.exists_eq_succ_of_ne_zero hpos.ne'
    have hsig : c.signals n = true := decide_eq_true (.inl hn.symm)
    rw [hflags, hn, List.range_succ, List.map_append, List.map_singleton, List.getLast?_append,
      hsig]
    rfl
  case waited =>
    intro hpc
    obtain ⟨rfl, rfl⟩ := hend hpc
    rw [h.polled, signaledIds, h.posts, List.filter_map, List.map_map, signaledIn, chunksIn]
    congr 1
    exact List.filter_congr fun i _ => by simp

/-- Ids are not `0` as long as the counter has not wrapped around. -/
theorem namesSignals_of_lt (hpos : 0 < e.nextWrId) (hlt : e.nextWrId + c.chunks ≤ 2 ^ 56) :
    c.NamesSignals e := by
  intro i hi _
  have hcounter : ∀ i < c.chunks, (c.countersAt e i).nextWrId = e.nextWrId + i := by
    intro i hi
    induction i with
    | zero => rfl
    | succ i ih =>
      rw [c.countersAt_succ, EndpointConfig.take, ih (by omega)]
      exact wrap64_of_lt (by omega)
  have hle : wrap64 ((e.nextWrId + i) * 2 ^ 8) ≤ c.idOf e i := by
    rw [idOf, EndpointConfig.nextId, encodeId, hcounter i hi]
    exact Nat.left_le_or
  rw [wrap64_of_lt (by omega)] at hle
  omega

theorem carries_of_namesSignals_eightChunks : ∃ w, Reach (eightChunks 3).logged (onState Willing)
    ⟨(eightChunks 3).enter newEndpoint, []⟩ w ∧ w.state.pc = .done .success ∧
      (eightChunks 3).Carries w := by
  obtain ⟨w, hr, hpc⟩ : ∃ w, Reach (eightChunks 3).logged (onState Willing)
      ⟨(eightChunks 3).enter newEndpoint, []⟩ w ∧ w.state.pc = .done .success :=
    exists_reach_of_execOk
      (schedule [(4, .run true), (3, .nic 0), (5, .run true), (5, .nic 0), (1, .run true)])
      (by decide +kernel)
  have hcarries := carries_of_namesSignals (c := eightChunks 3) (e := newEndpoint) (by decide)
    (by decide) (by decide) (by decide) (namesSignals_of_lt (by decide) (by decide)) w hr
  exact ⟨w, hr, hpc, hcarries⟩

/-- One chunk, posted by an endpoint that has taken `2 ^ 56` ids. -/
def oneChunk : PipelineCall := writeDataPipeline ⟨1, 1, 1, 16⟩ 0 0 1 1 1 none none none

/-- **A signaled chunk is not waited for.** The id of the chunk is `0`, and the call returns
`SUCCESS` without a wait. -/
theorem unnamed_not_waited :
    Transfer.Inside ⟨oneChunk.localOff, oneChunk.remoteOff, oneChunk.size⟩
        oneChunk.config.bufferSize oneChunk.config.remoteLength ∧
      ∃ w, Reach oneChunk.logged (onState Willing)
        ⟨oneChunk.enter ⟨⟨2 ^ 56, 0⟩, .empty, []⟩, []⟩ w ∧
          w.state.pc = .done .success ∧ signaledIds w.log = [0] ∧
            w.log.filterMap QueueEvent.ids = [] ∧ ¬ oneChunk.Carries w := by
  refine ⟨by decide, ?_⟩
  obtain ⟨w, hr, hpc, hids, hwaits⟩ : ∃ w, Reach oneChunk.logged (onState Willing)
      ⟨oneChunk.enter ⟨⟨2 ^ 56, 0⟩, .empty, []⟩, []⟩ w ∧ (w.state.pc = .done .success ∧
        signaledIds w.log = [0] ∧ w.log.filterMap QueueEvent.ids = []) :=
    exists_reach_of_execOk [.run true, .run true] (by decide +kernel)
  refine ⟨w, hr, hpc, hids, hwaits, fun h => ?_⟩
  have hwaited := h.waited hpc
  rw [hids, hwaits] at hwaited
  cases hwaited

end PipelineCall

end Rdma

end HMC
