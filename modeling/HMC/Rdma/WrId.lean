import HMC.Rdma.Pipeline
import HMC.Uhm.Model

/-!
# The ids of one endpoint

All work requests of an endpoint get their ids from `next_wr_id_`. A one-sided operation
shifts the counter and puts its queue pair into the low eight bits; a write of a UHM transfer
uses the counter as it is. Both kinds of id meet in one completion queue.

`IdLog` is the history of an endpoint's posts. Every post of the modelled calls is one of its
steps (`dataNBInternal_posts`, `SendCall.step_posts`, `RecvCall.step_posts`), so a sequence
of calls is a run of it. Two posts of one kind never share an id, but the transfer write number
`256 * n + q` has the id of the one-sided operation number `n` on queue pair `q`
(`Post.id_eq_iff`, `transfer_takes_id`).

Both kinds draw on one counter, so the numbers of two posts differ and the only collision is that of
an earlier operation with a later write: the id of an operation lies far above its own number. The
condition `IdLog.Clear` excludes just this step, beside what the encoding needs, a counter below
`2 ^ 56` and at most 256 queue pairs. `LogInv.transfer_repeats` is the converse for single
steps: a transfer write that is not clear repeats an id that is in use.
-/

namespace HMC.Rdma

open HMC.Machine

/-- Who makes the id: `writeDataNBInternal` and `readDataNBInternal`, or a UHM transfer. -/
inductive PostKind
  | oneSided
  | uhm
  deriving DecidableEq

/-- A posted work request: the value it took from `next_wr_id_`, and its queue pair. -/
structure Post where
  kind : PostKind
  counter : ℕ
  qp : ℕ
  deriving DecidableEq

/-- `wr_id`. -/
def Post.id (p : Post) : ℕ :=
  match p.kind with
  | .oneSided => encodeId p.counter p.qp
  | .uhm => p.counter

/-- The counters of an endpoint and the work requests it has posted. -/
structure IdLog where
  counters : Counters
  posted : List Post

/-- An id is taken for a post, which `ibv_post_send` accepts or not. A transfer chooses its
queue pair by the chunk. -/
structure PostAct where
  kind : PostKind
  transferQp : ℕ
  accepted : Bool
  deriving DecidableEq

/-- The counters after an id was taken. -/
def EndpointConfig.takeFor (g : EndpointConfig) (k : Counters) : PostKind → Counters
  | .oneSided => g.take k
  | .uhm => { k with nextWrId := wrap64 (k.nextWrId + 1) }

/-- The post an endpoint makes next. -/
def EndpointConfig.nextPost (g : EndpointConfig) (k : Counters) (a : PostAct) : Post where
  kind := a.kind
  counter := k.nextWrId
  qp := match a.kind with
    | .oneSided => g.nextQp k
    | .uhm => a.transferQp

namespace IdLog

/-- One post. -/
def step (g : EndpointConfig) (s : IdLog) (a : PostAct) : Option IdLog :=
  some
    { counters := g.takeFor s.counters a.kind
      posted := if a.accepted then s.posted ++ [g.nextPost s.counters a] else s.posted }

/-- The step condition: fewer than `2 ^ 56` ids were taken, a queue pair fits into the low
bits, and a transfer write does not follow the one-sided operation whose id is its number. -/
def Clear (g : EndpointConfig) (s : IdLog) (a : PostAct) : Prop :=
  s.counters.nextWrId < 2 ^ 56 ∧ g.numQps ≤ 2 ^ 8 ∧
    (a.kind = .uhm → ∀ p ∈ s.posted, p.kind = .oneSided →
      ¬ (p.counter = s.counters.nextWrId / 2 ^ 8 ∧ p.qp = s.counters.nextWrId % 2 ^ 8))

instance (g : EndpointConfig) (s : IdLog) (a : PostAct) : Decidable (Clear g s a) :=
  inferInstanceAs (Decidable (_ ∧ _ ∧ (_ → _)))

end IdLog

/-! ### The calls post through the log -/

/-- A step of a call changes the queues at most by one post under `id`. -/
def PostsAtMost {ω : Type*} (wrId : ω → ℕ) (nic nic' : SendQueues ω) (id : ℕ) : Prop :=
  nic' = nic ∨ ∃ q r, nic' = nic.post q r ∧ wrId r = id

/-- A non-blocking one-sided operation takes no id, or one and posts at most under it. -/
theorem dataNBInternal_posts (g : EndpointConfig) (opcode : Opcode) (e : Endpoint)
    (localOff remoteOff size : ℕ) (signaled posted : Bool) {e' : Endpoint}
    (he : (g.dataNBInternal opcode e localOff remoteOff size signaled posted).2.2 = e') :
    (e'.toCounters = e.toCounters ∧ e'.nic = e.nic) ∨
      e'.toCounters = g.takeFor e.toCounters .oneSided ∧
        PostsAtMost OneSided.wrId e.nic e'.nic
          (g.nextPost e.toCounters ⟨.oneSided, 0, true⟩).id := by
  rcases g.dataNBInternal_cases opcode e localOff remoteOff size signaled posted with
    ⟨k, rfl | rfl, heq⟩ | ⟨-, -, heq⟩ <;> rw [heq] at he <;> subst he
  · exact .inl ⟨rfl, rfl⟩
  · exact .inr ⟨rfl, .inl rfl⟩
  · exact .inr ⟨rfl, .inr ⟨_, _, rfl, rfl⟩⟩

/-- So does a step of a pipeline call. -/
theorem PipelineCall.step_posts (c : PipelineCall) {w w' : Pipeline} {ok : Bool}
    (hs : c.step w (.run ok) = some w') :
    (w'.ep.toCounters = w.ep.toCounters ∧ w'.ep.nic = w.ep.nic) ∨
      w'.ep.toCounters = c.config.takeFor w.ep.toCounters .oneSided ∧
        PostsAtMost OneSided.wrId w.ep.nic w'.ep.nic
          (c.config.nextPost w.ep.toCounters ⟨.oneSided, 0, true⟩).id := by
  cases hpc : w.pc with
  | post =>
    simp only [PipelineCall.step, hpc] at hs
    have key := dataNBInternal_posts c.config c.opcode w.ep (wrap64 (c.localOff + w.offset))
      (wrap64 (c.remoteOff + w.offset)) (c.currentChunkSize w) (c.signaled w) ok rfl
    have hep : w'.ep = (c.config.dataNBInternal c.opcode w.ep (wrap64 (c.localOff + w.offset))
        (wrap64 (c.remoteOff + w.offset)) (c.currentChunkSize w) (c.signaled w) ok).2.2 := by
      split at hs
      · rename_i heq
        cases hs
        rw [heq]
        exact SpareInv.chunkPosted_ep _ _
      · rename_i heq
        cases hs
        rw [heq]
    rw [hep]
    exact key
  | wait =>
    simp only [PipelineCall.step, hpc] at hs
    left
    split_ifs at hs
    · cases hs
      exact ⟨rfl, rfl⟩
    · obtain ⟨ep, hr, rfl⟩ := Option.map_eq_some_iff.mp hs
      obtain ⟨-, rfl⟩ := Endpoint.reap_eq hr
      exact ⟨rfl, rfl⟩
    · cases hs
      exact ⟨rfl, rfl⟩
  | done ret =>
    simp only [PipelineCall.step, hpc] at hs
    cases hs

end HMC.Rdma

namespace HMC.Uhm

open HMC.Machine HMC.Rdma

/-- A step of a thread in a transfer takes no id, or one and posts at most under it. -/
def PostsRaw (e e' : Endpoint) : Prop :=
  (e'.nextWrId = e.nextWrId ∧ e'.nic = e.nic) ∨
    e'.nextWrId = wrap64 (e.nextWrId + 1) ∧ PostsAtMost WorkRequest.wrId e.nic e'.nic e.nextWrId

theorem postsRaw_of_eq {e e' : Endpoint} (h : e'.nextWrId = e.nextWrId) (hn : e'.nic = e.nic) :
    PostsRaw e e' := .inl ⟨h, hn⟩

theorem postsRaw_takeWrId (e : Endpoint) : PostsRaw e e.takeWrId := .inr ⟨rfl, .inl rfl⟩

theorem postsRaw_postWrite (e : Endpoint) (q : ℕ) (write : RdmaWrite) (signaled : Bool) :
    PostsRaw e (e.postWrite q write signaled) := .inr ⟨rfl, .inr ⟨_, _, rfl, rfl⟩⟩

/-- What a step of `uhm_send` does to the ids of its endpoint. -/
theorem SendCall.step_posts (c : SendCall) {ok : Bool} {e e' : Endpoint} {t t' : Sender}
    (hs : c.step ok e t = some (e', t')) : PostsRaw e e' := by
  cases hpc : t.pc <;> simp only [SendCall.step, hpc] at hs
  case postState | postData | postFlag =>
    split_ifs at hs <;> cases hs
    · exact postsRaw_postWrite _ _ _ _
    · exact postsRaw_takeWrId _
  case prefillNext =>
    cases hs
    split_ifs
    · exact postsRaw_of_eq rfl rfl
    · exact postsRaw_of_eq rfl rfl
  case waitState | waitPending | finalWait =>
    split_ifs at hs <;> cases hs <;> exact postsRaw_of_eq rfl rfl
  case done => cases hs
  all_goals
    cases hs
    exact postsRaw_of_eq rfl rfl

/-- What a step of `uhm_recv` does to the ids of its endpoint. -/
theorem RecvCall.step_posts (c : RecvCall) {ok : Bool} {e e' : Endpoint} {t t' : Receiver}
    (hs : c.step ok e t = some (e', t')) : PostsRaw e e' := by
  cases hpc : t.pc <;> simp only [RecvCall.step, hpc] at hs
  case postFlag =>
    split_ifs at hs <;> cases hs
    · exact postsRaw_postWrite _ _ _ _
    · exact postsRaw_takeWrId _
  case waitPending | finalWait =>
    split_ifs at hs <;> cases hs <;> exact postsRaw_of_eq rfl rfl
  case done => cases hs
  all_goals
    cases hs
    exact postsRaw_of_eq rfl rfl

end HMC.Uhm

namespace HMC.Rdma

open HMC.Machine

/-! ### Distinct ids -/

/-- A one-sided operation and a transfer write share an id exactly when the number of the
write is made of the number of the operation and its queue pair. -/
theorem Post.id_eq_iff {p : Post} (hk : p.kind = .oneSided) (hc : p.counter < 2 ^ 56)
    (hq : p.qp < 2 ^ 8) {n : ℕ} :
    p.id = n ↔ p.counter = n / 2 ^ 8 ∧ p.qp = n % 2 ^ 8 := by
  have hid : p.id = 2 ^ 8 * p.counter + p.qp := by
    simp only [Post.id, hk, encodeId_eq hc hq]
  omega

/-- What is known of the ids in use. -/
structure LogInv (s : IdLog) : Prop where
  below : ∀ p ∈ s.posted, p.counter < s.counters.nextWrId ∧ p.counter < 2 ^ 56 ∧
    (p.kind = .oneSided → p.qp < 2 ^ 8)
  distinct : (s.posted.map Post.id).Nodup

namespace LogInv

variable {g : EndpointConfig} {s s' : IdLog} {a : PostAct}

theorem initial (h : s.posted = []) : LogInv s := by
  constructor
  · intro p hp
    rw [h] at hp
    cases hp
  · rw [h]
    exact List.nodup_nil

theorem nextQp_lt (hg : g.numQps ≤ 2 ^ 8) (k : Counters) : g.nextQp k < 2 ^ 8 := by
  have := g.nextQp_lt k
  omega

theorem takeFor_nextWrId (hc : IdLog.Clear g s a) :
    (g.takeFor s.counters a.kind).nextWrId = s.counters.nextWrId + 1 := by
  have hlt := hc.1
  cases a.kind
  · exact wrap64_of_lt (by omega)
  · exact wrap64_of_lt (by omega)

/-- A clear post gets an id of its own. -/
theorem new_ne (h : LogInv s) (hc : IdLog.Clear g s a) {p : Post} (hp : p ∈ s.posted) :
    p.id ≠ (g.nextPost s.counters a).id := by
  obtain ⟨hlt, hqps, hclear⟩ := hc
  obtain ⟨hb, hpc, hpq⟩ := h.below p hp
  have hq := nextQp_lt hqps s.counters
  intro heq
  cases hk : p.kind with
  | oneSided =>
    cases ha : a.kind with
    | oneSided =>
      -- two operations: the numbers differ
      have hid : (g.nextPost s.counters a).id =
          2 ^ 8 * s.counters.nextWrId + g.nextQp s.counters := by
        simp only [Post.id, EndpointConfig.nextPost, ha, encodeId_eq hlt hq]
      rw [hid, Post.id_eq_iff hk hpc (hpq hk)] at heq
      omega
    | uhm =>
      have hid : (g.nextPost s.counters a).id = s.counters.nextWrId := by
        simp only [Post.id, EndpointConfig.nextPost, ha]
      rw [hid, Post.id_eq_iff hk hpc (hpq hk)] at heq
      exact hclear ha p hp hk heq
  | uhm =>
    -- an earlier transfer write has a number below the counter, and no id is below its number
    have hid : p.id = p.counter := by simp only [Post.id, hk]
    rw [hid] at heq
    cases ha : a.kind with
    | oneSided =>
      simp only [Post.id, EndpointConfig.nextPost, ha, encodeId_eq hlt hq] at heq
      omega
    | uhm =>
      simp only [Post.id, EndpointConfig.nextPost, ha] at heq
      omega

/-- **One post** that is clear keeps the numbers in the log below the counter. -/
theorem step (h : LogInv s) (hc : IdLog.Clear g s a) (hs : IdLog.step g s a = some s') :
    LogInv s' := by
  have hnext := takeFor_nextWrId hc
  have hold : ∀ p ∈ s.posted, p.counter < (g.takeFor s.counters a.kind).nextWrId ∧
      p.counter < 2 ^ 56 ∧ (p.kind = .oneSided → p.qp < 2 ^ 8) := fun p hp => by
    obtain ⟨hb, hrest⟩ := h.below p hp
    exact ⟨by omega, hrest⟩
  cases hs
  constructor
  · intro p hp
    dsimp only at hp
    split_ifs at hp
    · obtain hp | hp := List.mem_append.mp hp
      · exact hold p hp
      · obtain rfl := List.mem_singleton.mp hp
        refine ⟨?_, hc.1, fun hk => ?_⟩
        · dsimp only [EndpointConfig.nextPost]
          omega
        · have hk' : a.kind = .oneSided := hk
          simp only [EndpointConfig.nextPost, hk']
          exact nextQp_lt hc.2.1 _
    · exact hold p hp
  · dsimp only
    split_ifs
    · rw [List.map_append, List.nodup_append]
      refine ⟨h.distinct, by simp, ?_⟩
      rintro _ hx _ hy rfl
      obtain ⟨p, hp, hpid⟩ := List.mem_map.mp hx
      rw [List.map_singleton, List.mem_singleton] at hy
      exact h.new_ne hc hp (hpid.trans hy)
    · exact h.distinct

end LogInv

/-- A transfer write that is not clear repeats an id. -/
theorem transfer_repeats {g : EndpointConfig} {s : IdLog} {a : PostAct} (h : LogInv s)
    (ha : a.kind = .uhm) {p : Post} (hp : p ∈ s.posted) (hk : p.kind = .oneSided)
    (hc : p.counter = s.counters.nextWrId / 2 ^ 8) (hq : p.qp = s.counters.nextWrId % 2 ^ 8) :
    (g.nextPost s.counters a).id = p.id := by
  obtain ⟨-, hpc, hpq⟩ := h.below p hp
  rw [(Post.id_eq_iff hk hpc (hpq hk)).mpr ⟨hc, hq⟩]
  simp only [Post.id, EndpointConfig.nextPost, ha]

/-! ### The claim -/

/-- **Ids are unique** in every run of clear posts, of any number and in any mixture of the two
kinds. The invariant is that all numbers in the log are below the counter: a new operation has an id
above all numbers of transfer writes so far and differs from other operations by its number, and a
new write differs from the operations by the condition. -/
theorem ids_distinct_of_clear (g : EndpointConfig) {s₀ s : IdLog} (h₀ : s₀.posted = [])
    (hr : Reach (IdLog.step g) (IdLog.Clear g) s₀ s) : (s.posted.map Post.id).Nodup := by
  refine (hr.invariant (I := LogInv) (.initial h₀) ?_).distinct
  intro _ _ _ _ h hc hs
  exact h.step hc hs

/-- The log of a new endpoint. -/
def IdLog.new : IdLog := ⟨⟨1, 0⟩, []⟩

/-- An endpoint with one queue pair. -/
def oneQp : EndpointConfig := ⟨2, 2, 1, 128⟩

/-- A one-sided operation, and a transfer write on queue pair `0`. -/
def operation : PostAct := ⟨.oneSided, 0, true⟩

def transferWrite : PostAct := ⟨.uhm, 0, true⟩

theorem ids_distinct_of_clear_mixed :
    ∃ s, Reach (IdLog.step oneQp) (IdLog.Clear oneQp) IdLog.new s ∧
      s.posted.map Post.id = [256, 2, 3, 1024] ∧ (s.posted.map Post.id).Nodup := by
  obtain ⟨s, hr, hids⟩ : ∃ s, Reach (IdLog.step oneQp) (IdLog.Clear oneQp) IdLog.new s ∧
      s.posted.map Post.id = [256, 2, 3, 1024] :=
    exists_reach_of_execOk [operation, transferWrite, transferWrite, operation]
      (by decide +kernel)
  exact ⟨s, hr, hids, ids_distinct_of_clear oneQp rfl hr⟩

/-- **A transfer write takes the id of an operation.** The first operation has the id 256, and
so has the 256th post, a transfer write. -/
theorem transfer_takes_id :
    ∃ s, Reach (IdLog.step oneQp) Free IdLog.new s ∧ s.posted.length < 2 ^ 56 ∧
      ¬ (s.posted.map Post.id).Nodup := by
  obtain ⟨s, hr, hlen, heq⟩ : ∃ s, Reach (IdLog.step oneQp) Free IdLog.new s ∧
      (s.posted.length = 256 ∧ (s.posted.map Post.id)[0]? = (s.posted.map Post.id)[255]?) :=
    exists_reach_of_exec (schedule [(1, operation), (255, transferWrite)]) (by decide +kernel)
  refine ⟨s, hr, by omega, fun hd => ?_⟩
  have hlen' : (s.posted.map Post.id).length = 256 := by rw [List.length_map, hlen]
  exact absurd ((List.getElem?_inj (by omega) hd).mp heq) (by decide)

end HMC.Rdma
