import Mathlib.Data.Finset.Basic
import Mathlib.Data.List.Nodup
import HMC.Core.Basic
import HMC.Machine.Run

/-!
# Waiting for completions

The completion side of one `RDMAEndpoint`: a completion queue, the set `completed_wr_ids_` of
completions that some wait took for another, the lock `cq_poll_mu_`, and any number of threads
in `waitWrId` and `waitWrIdMulti`. The card completes posted requests at any moment, and a
poll hands out as many entries as it likes.

`outstanding` and `unreported` are not in the code: they record the signaled requests that
have not completed, and those that have but were not reported to a wait on their id yet. A
wait reports its ids when it returns `SUCCESS`.

Both routines take a batch out of the completion queue and put the entries of others into
`completed_wr_ids_`. `waitWrIdMulti` goes through its whole batch; `waitWrId` returns as soon
as it meets its target and forgets the entries behind it. `WaitInv` says where a completion is
in the runs in which this does not happen: in the completion queue, in `completed_wr_ids_`, or in
the hands of one thread, as an unseen entry of its batch or as an id that its `waitWrIdMulti` has
found. A step takes it from one of these places to another, or reports it (`WaitInv.move`).

What each step of the two routines does is one lemma per stage (`stepSingle`, `stepMulti`), and all
of them are instances of `WaitInv.move`. `WaitConfig.returns_of_step` is the other tool of this
module: a wait that at each of its own steps either returns or comes nearer to its end returns after
finitely many of them, whatever batches its polls hand out.
-/

namespace HMC.Rdma

open HMC.Machine

/-- `ibv_wc`: the id of a completed request, and whether its status is `IBV_WC_SUCCESS`. -/
structure Wc where
  wrId : ℕ
  ok : Bool
  deriving DecidableEq

/-- How far a wait has come: before its first look into `completed_wr_ids_`, before taking
`cq_poll_mu_`, before its second look, before a poll, or inside a batch. -/
inductive WaitStage
  | first
  | lock
  | second
  | poll
  | batch (rest : List Wc) (madeProgress : Bool)
  deriving DecidableEq

/-- A thread between calls with the result of its last one, in `waitWrId`, or in
`waitWrIdMulti`. -/
inductive WaitPc
  | idle (last : Option Status)
  | single (target : ℕ) (stage : WaitStage)
  | multi (targets : List ℕ) (pending : Finset ℕ) (stage : WaitStage)
  deriving DecidableEq

/-- The completion side of an endpoint. -/
structure WaitState where
  outstanding : List ℕ
  unreported : List ℕ
  cq : List Wc
  completedWrIds : Finset ℕ
  pollOwner : Option ℕ
  thread : ℕ → WaitPc

/-- What happens next: a signaled request is posted or completes, a thread starts a wait, or
a thread makes its next step. In a poll, `some n` is the most entries it hands out and `none`
a failure; `late` says that the timeout has passed. -/
inductive WaitAct
  | post (id : ℕ)
  | complete (id : ℕ) (ok : Bool)
  | waitWrId (t id : ℕ)
  | waitWrIdMulti (t : ℕ) (ids : List ℕ)
  | run (t : ℕ) (polled : Option ℕ) (late : Bool)
  deriving DecidableEq

namespace WaitState

variable (s : WaitState) (t : ℕ)

def goto (pc : WaitPc) : WaitState := { s with thread := Function.update s.thread t pc }

/-- Thread `t` returns `ret` and unlocks `cq_poll_mu_` if it holds it; a `SUCCESS` reports
`ids`. -/
def finish (ret : Status) (ids : List ℕ) : WaitState :=
  { s with
    pollOwner := if s.pollOwner = some t then none else s.pollOwner
    unreported := if ret = .success then s.unreported.filter fun id => id ∉ ids else s.unreported
    thread := Function.update s.thread t (.idle (some ret)) }

/-- `completed_wr_ids_.insert`. -/
def stash (id : ℕ) : WaitState := { s with completedWrIds := insert id s.completedWrIds }

/-- `completed_wr_ids_.erase` for every id of a set. -/
def unstash (ids : Finset ℕ) : WaitState :=
  { s with completedWrIds := s.completedWrIds \ ids }

/-- `ibv_poll_cq`, handing out at most `n` entries. -/
def polled (capacity n : ℕ) : List Wc × WaitState :=
  (s.cq.take (min n capacity), { s with cq := s.cq.drop (min n capacity) })

/-- The next step of `waitWrId`. -/
def stepSingle (capacity : ℕ) (poll : Option ℕ) (target : ℕ) : WaitStage → Option WaitState
  | .first =>
    if target ∈ s.completedWrIds then some ((s.unstash {target}).finish t .success [target])
    else some (s.goto t (.single target .lock))
  | .lock =>
    if s.pollOwner = none then
      some ({ s with pollOwner := some t }.goto t (.single target .second))
    else none
  | .second =>
    if target ∈ s.completedWrIds then some ((s.unstash {target}).finish t .success [target])
    else some (s.goto t (.single target .poll))
  | .poll =>
    match poll with
    | none => some (s.finish t .error [])
    | some n =>
      match s.polled capacity n with
      | ([], _) => some s
      | (batch, s') => some (s'.goto t (.single target (.batch batch false)))
  | .batch [] _ => some (s.goto t (.single target .poll))
  | .batch (wc :: rest) progress =>
    if wc.ok = false then some (s.finish t .error [])
    else if wc.wrId = target then some (s.finish t .success [target])
    else some ((s.stash wc.wrId).goto t (.single target (.batch rest progress)))

/-- The next step of `waitWrIdMulti`. -/
def stepMulti (capacity : ℕ) (poll : Option ℕ) (late : Bool) (targets : List ℕ)
    (pending : Finset ℕ) : WaitStage → Option WaitState
  | .first =>
    let left := pending \ s.completedWrIds
    if left = ∅ then some ((s.unstash pending).finish t .success targets)
    else some ((s.unstash pending).goto t (.multi targets left .lock))
  | .lock =>
    if s.pollOwner = none then
      some ({ s with pollOwner := some t }.goto t (.multi targets pending .second))
    else none
  | .second =>
    let left := pending \ s.completedWrIds
    if left = ∅ then some ((s.unstash pending).finish t .success targets)
    else some ((s.unstash pending).goto t (.multi targets left .poll))
  | .poll =>
    match poll with
    | none => some (s.finish t .error [])
    | some n =>
      match s.polled capacity n with
      | ([], _) => if late then some (s.finish t .timeout []) else some s
      | (batch, s') => some (s'.goto t (.multi targets pending (.batch batch false)))
  | .batch [] progress =>
    if progress then
      if pending = ∅ then some (s.finish t .success targets)
      else some (s.goto t (.multi targets pending .poll))
    else if late then some (s.finish t .timeout [])
    else some (s.goto t (.multi targets pending .poll))
  | .batch (wc :: rest) progress =>
    if wc.ok = false then some (s.finish t .error [])
    else if wc.wrId ∈ pending then
      some (s.goto t (.multi targets (pending.erase wc.wrId) (.batch rest true)))
    else some ((s.stash wc.wrId).goto t (.multi targets pending (.batch rest progress)))

end WaitState

/-- The endpoint as the waits see it: whether `cq` is null, and `cq_capacity`, which the
constructor keeps positive. -/
structure WaitConfig where
  nullCq : Bool
  cqCapacity : ℕ
  capacity_pos : 0 < cqCapacity

namespace WaitConfig

variable (c : WaitConfig)

/-- One step of the completion side. -/
def step (s : WaitState) : WaitAct → Option WaitState
  | .post id => some { s with outstanding := id :: s.outstanding }
  | .complete id ok =>
    if id ∈ s.outstanding then
      some { s with
        outstanding := s.outstanding.erase id
        unreported := id :: s.unreported
        cq := s.cq ++ [⟨id, ok⟩] }
    else none
  | .waitWrId t id =>
    match s.thread t with
    | .idle _ =>
      if c.nullCq then some (s.finish t .error []) else some (s.goto t (.single id .first))
    | _ => none
  | .waitWrIdMulti t ids =>
    match s.thread t with
    | .idle _ =>
      if c.nullCq then some (s.finish t .error [])
      else if ids = [] then some (s.finish t .success [])
      else some (s.goto t (.multi ids ids.toFinset .first))
    | _ => none
  | .run t polled late =>
    match s.thread t with
    | .idle _ => none
    | .single target stage => s.stepSingle t c.cqCapacity polled target stage
    | .multi targets pending stage => s.stepMulti t c.cqCapacity polled late targets pending stage

end WaitConfig

/-- Nothing was posted yet and no wait has been called. -/
def WaitState.start : WaitState where
  outstanding := []
  unreported := []
  cq := []
  completedWrIds := ∅
  pollOwner := none
  thread := fun _ => .idle none

/-! ### The condition -/

def WaitPc.isIdle : WaitPc → Bool
  | .idle _ => true
  | _ => false

/-- No thread is inside a wait. -/
def WaitState.Idle (s : WaitState) : Prop := ∀ t, (s.thread t).isIdle = true

theorem WaitState.Idle.thread {s : WaitState} (h : s.Idle) (t : ℕ) :
    ∃ last, s.thread t = .idle last := by
  have ht := h t
  cases hpc : s.thread t with
  | idle last => exact ⟨last, rfl⟩
  | single => rw [hpc] at ht; cases ht
  | multi => rw [hpc] at ht; cases ht

/-- All completions have status success. -/
def WaitAct.Successful : WaitAct → Prop
  | .complete _ ok => ok = true
  | _ => True

instance : ∀ a : WaitAct, Decidable a.Successful
  | .complete _ ok => inferInstanceAs (Decidable (ok = true))
  | .post _ | .waitWrId _ _ | .waitWrIdMulti _ _ | .run _ _ _ => inferInstanceAs (Decidable True)

/-- `waitWrId` meets its target at the end of a batch, and `waitWrIdMulti` neither fails a
poll nor times out after it has taken one of its ids. -/
def WaitPc.Tidy (polled : Option ℕ) (late : Bool) : WaitPc → Prop
  | .single target (.batch (wc :: rest) _) => wc.wrId = target → rest = []
  | .multi targets pending _ => polled = none ∨ late = true → ∀ id ∈ targets, id ∈ pending
  | _ => True

instance (polled : Option ℕ) (late : Bool) : ∀ pc : WaitPc, Decidable (pc.Tidy polled late)
  | .single target (.batch (wc :: rest) _) =>
    inferInstanceAs (Decidable (wc.wrId = target → rest = []))
  | .multi targets pending _ =>
    inferInstanceAs (Decidable (polled = none ∨ late = true → ∀ id ∈ targets, id ∈ pending))
  | .idle _ | .single _ .first | .single _ .lock | .single _ .second | .single _ .poll
  | .single _ (.batch [] _) => inferInstanceAs (Decidable True)

/-- The step neither reuses the id of a request that is not reported yet nor is untidy. -/
def WaitState.Tidy (s : WaitState) : WaitAct → Prop
  | .post id => id ∉ s.outstanding ∧ id ∉ s.unreported
  | .run t polled late => (s.thread t).Tidy polled late
  | _ => True

instance (s : WaitState) : ∀ a, Decidable (s.Tidy a)
  | .post id => inferInstanceAs (Decidable (id ∉ s.outstanding ∧ id ∉ s.unreported))
  | .run t polled late => inferInstanceAs (Decidable ((s.thread t).Tidy polled late))
  | .complete _ _ | .waitWrId _ _ | .waitWrIdMulti _ _ => inferInstanceAs (Decidable True)

/-! ### The invariant -/

/-- The entries of its batch that a wait has not looked at. -/
def WaitStage.rest : WaitStage → List Wc
  | .batch rest _ => rest
  | _ => []

/-- The stages that hold `cq_poll_mu_`. -/
def WaitStage.locked : WaitStage → Bool
  | .first | .lock => false
  | _ => true

namespace WaitPc

/-- The ids of the call. -/
def targets : WaitPc → List ℕ
  | .idle _ => []
  | .single target _ => [target]
  | .multi targets _ _ => targets

def rest : WaitPc → List Wc
  | .idle _ => []
  | .single _ stage | .multi _ _ stage => stage.rest

def locked : WaitPc → Bool
  | .idle _ => false
  | .single _ stage | .multi _ _ stage => stage.locked

/-- Only the holder of `cq_poll_mu_` has a batch. -/
theorem locked_of_mem_rest {pc : WaitPc} {wc : Wc} (h : wc ∈ pc.rest) : pc.locked = true := by
  cases pc with
  | idle => cases h
  | single target stage | multi targets pending stage =>
    cases stage <;> first | rfl | cases h

/-- `waitWrIdMulti` has found `id`, one of its targets, and not returned yet. -/
def Taken (id : ℕ) : WaitPc → Prop
  | .multi targets pending _ => id ∈ targets ∧ id ∉ pending
  | _ => False

/-- The completion of `id` is in the hands of this thread. -/
def Holds (id : ℕ) (pc : WaitPc) : Prop := id ∈ pc.rest.map Wc.wrId ∨ pc.Taken id

theorem holds_single {id target : ℕ} {stage : WaitStage} :
    (single target stage).Holds id ↔ id ∈ stage.rest.map Wc.wrId := by
  simp [Holds, Taken, rest]

theorem holds_multi {id : ℕ} {targets : List ℕ} {pending : Finset ℕ} {stage : WaitStage} :
    (multi targets pending stage).Holds id ↔
      id ∈ stage.rest.map Wc.wrId ∨ id ∈ targets ∧ id ∉ pending := Iff.rfl

/-- `waitWrIdMulti` waits for its targets only. -/
def Sound : WaitPc → Prop
  | .multi targets pending _ => ∀ id ∈ pending, id ∈ targets
  | _ => True

end WaitPc

/-- Every completed and unreported request is in the completion queue, in
`completed_wr_ids_` or in the hands of a thread, and it is the only one with its id. -/
structure WaitInv (s : WaitState) : Prop where
  nodup : (s.outstanding ++ s.unreported).Nodup
  placed : ∀ id ∈ s.unreported, id ∈ s.cq.map Wc.wrId ∨ id ∈ s.completedWrIds ∨
    ∃ t, (s.thread t).Holds id
  ok : ∀ wc ∈ s.cq, wc.ok = true
  ok_rest : ∀ t, ∀ wc ∈ (s.thread t).rest, wc.ok = true
  owner : ∀ t, s.pollOwner = some t → (s.thread t).locked = true
  sound : ∀ t, (s.thread t).Sound

namespace WaitInv

variable {c : WaitConfig} {s s' : WaitState} {t : ℕ}

/-- A step of thread `t` keeps the invariant when everything that was in the completion queue,
in `completed_wr_ids_` or in the hands of `t` has a place afterwards. -/
theorem move (h : WaitInv s) (pc : WaitPc) (hthread : s'.thread = Function.update s.thread t pc)
    (hout : s'.outstanding = s.outstanding) (hsub : s'.unreported.Sublist s.unreported)
    (hplaced : ∀ id ∈ s'.unreported,
      id ∈ s.cq.map Wc.wrId ∨ id ∈ s.completedWrIds ∨ (s.thread t).Holds id →
        id ∈ s'.cq.map Wc.wrId ∨ id ∈ s'.completedWrIds ∨ pc.Holds id)
    (hcq : ∀ wc ∈ s'.cq, wc.ok = true) (hrest : ∀ wc ∈ pc.rest, wc.ok = true)
    (howner : ∀ u, s'.pollOwner = some u →
      u = t ∧ pc.locked = true ∨ u ≠ t ∧ s.pollOwner = some u)
    (hsound : pc.Sound) : WaitInv s' := by
  have hself : s'.thread t = pc := by rw [hthread, Function.update_self]
  have hother : ∀ u, u ≠ t → s'.thread u = s.thread u := fun u hu => by
    rw [hthread, Function.update_of_ne hu]
  refine ⟨?_, fun id hid => ?_, hcq, fun u => ?_, fun u hu => ?_, fun u => ?_⟩
  · rw [hout]
    exact h.nodup.sublist (hsub.append_left _)
  · have hmine : id ∈ s.cq.map Wc.wrId ∨ id ∈ s.completedWrIds ∨ (s.thread t).Holds id →
        id ∈ s'.cq.map Wc.wrId ∨ id ∈ s'.completedWrIds ∨ ∃ u, (s'.thread u).Holds id :=
      fun hp => (hplaced id hid hp).imp_right fun hp => hp.imp_right fun hp => ⟨t, by rwa [hself]⟩
    obtain hp | hp | ⟨u, hp⟩ := h.placed id (hsub.subset hid)
    · exact hmine (.inl hp)
    · exact hmine (.inr (.inl hp))
    · by_cases hu : u = t
      · subst hu
        exact hmine (.inr (.inr hp))
      · exact .inr (.inr ⟨u, by rwa [hother u hu]⟩)
  · by_cases hu : u = t
    · rwa [hu, hself]
    · rw [hother u hu]
      exact h.ok_rest u
  · obtain ⟨rfl, hl⟩ | ⟨hne, ho⟩ := howner u hu
    · rwa [hself]
    · rw [hother u hne]
      exact h.owner u ho
  · by_cases hu : u = t
    · rwa [hu, hself]
    · rw [hother u hu]
      exact h.sound u

/-- A step inside a wait; `s₁` is `s` with the completion queue and the set it leaves. -/
theorem goto (h : WaitInv s) {s₁ : WaitState} (pc : WaitPc) (hthread : s₁.thread = s.thread)
    (hout : s₁.outstanding = s.outstanding) (hun : s₁.unreported = s.unreported)
    (howner : s₁.pollOwner = s.pollOwner)
    (hplaced : ∀ i, i ∈ s.cq.map Wc.wrId ∨ i ∈ s.completedWrIds ∨ (s.thread t).Holds i →
      i ∈ s₁.cq.map Wc.wrId ∨ i ∈ s₁.completedWrIds ∨ pc.Holds i)
    (hcq : ∀ wc ∈ s₁.cq, wc.ok = true) (hrest : ∀ wc ∈ pc.rest, wc.ok = true)
    (hlock : (s.thread t).locked = true → pc.locked = true) (hsound : pc.Sound) :
    WaitInv (s₁.goto t pc) := by
  refine h.move (t := t) pc ?_ hout ?_ (fun i _ => hplaced i) hcq hrest (fun u hu => ?_) hsound
  · rw [WaitState.goto, hthread]
  · rw [WaitState.goto, hun]
  · have ho : s.pollOwner = some u := howner ▸ hu
    by_cases hut : u = t
    · exact .inl ⟨hut, hlock (hut ▸ h.owner u ho)⟩
    · exact .inr ⟨hut, ho⟩

/-- A wait returns; what it held is reported, or was put back before. -/
theorem finish (h : WaitInv s) {s₁ : WaitState} (ret : Status) (ids : List ℕ)
    (hthread : s₁.thread = s.thread) (hout : s₁.outstanding = s.outstanding)
    (hun : s₁.unreported = s.unreported) (howner : s₁.pollOwner = s.pollOwner)
    (hplaced : ∀ i, (ret = .success → i ∉ ids) →
      i ∈ s.cq.map Wc.wrId ∨ i ∈ s.completedWrIds ∨ (s.thread t).Holds i →
        i ∈ s₁.cq.map Wc.wrId ∨ i ∈ s₁.completedWrIds)
    (hcq : ∀ wc ∈ s₁.cq, wc.ok = true) : WaitInv (s₁.finish t ret ids) := by
  have hfilter : (s₁.finish t ret ids).unreported.Sublist s.unreported := by
    rw [← hun]
    simp only [WaitState.finish]
    split_ifs
    · exact List.filter_sublist
    · exact List.Sublist.refl _
  refine h.move (t := t) (.idle (some ret)) ?_ hout hfilter (fun i hi hp => ?_) hcq
    (fun wc hwc => by cases hwc) (fun u hu => ?_) trivial
  · rw [WaitState.finish, hthread]
  · have hne : ret = .success → i ∉ ids := fun hret => by
      simp only [WaitState.finish, if_pos hret, List.mem_filter, decide_eq_true_eq] at hi
      exact hi.2
    exact (hplaced i hne hp).imp_right .inl
  · simp only [WaitState.finish, howner] at hu
    split_ifs at hu with hown
    exact .inr ⟨fun hut => hown (hut ▸ hu), hu⟩

/-- What a poll does not hand out stays in the completion queue. -/
theorem mem_polled {capacity n i : ℕ} (h : i ∈ s.cq.map Wc.wrId) :
    i ∈ (s.polled capacity n).2.cq.map Wc.wrId ∨
      i ∈ (s.polled capacity n).1.map Wc.wrId := by
  rw [← List.take_append_drop (min n capacity) s.cq, List.map_append, List.mem_append] at h
  exact h.symm

/-- `waitWrId` finds its target in `completed_wr_ids_`. -/
theorem single_found (h : WaitInv s) {target : ℕ} {stage : WaitStage}
    (hpc : s.thread t = .single target stage) (hnil : stage.rest = []) :
    WaitInv ((s.unstash {target}).finish t .success [target]) := by
  refine h.finish .success [target] rfl rfl rfl rfl (fun i hne hp => ?_) h.ok
  rw [hpc, WaitPc.holds_single, hnil] at hp
  obtain hp | hp | hp := hp
  · exact .inl hp
  · exact .inr (Finset.mem_sdiff.mpr ⟨hp, by simpa using hne rfl⟩)
  · cases hp

/-- `waitWrId` goes on with nothing in its hands. -/
theorem single_keep (h : WaitInv s) {target : ℕ} {stage stage' : WaitStage}
    (hpc : s.thread t = .single target stage) (hnil : stage.rest = []) (hnil' : stage'.rest = [])
    (hlock : stage.locked = true → stage'.locked = true) :
    WaitInv (s.goto t (.single target stage')) := by
  refine h.goto (.single target stage') rfl rfl rfl rfl (fun i hp => ?_) h.ok ?_
    (by rw [hpc]; exact hlock) trivial
  · rw [hpc, WaitPc.holds_single, hnil] at hp
    obtain hp | hp | hp := hp
    · exact .inl hp
    · exact .inr (.inl hp)
    · cases hp
  · rw [WaitPc.rest, hnil']
    simp

/-- One step of `waitWrId`. -/
theorem stepSingle (h : WaitInv s) {capacity : ℕ} {poll : Option ℕ} {late : Bool} {target : ℕ}
    {stage : WaitStage} (hpc : s.thread t = .single target stage)
    (htidy : (s.thread t).Tidy poll late)
    (hs : s.stepSingle t capacity poll target stage = some s') : WaitInv s' := by
  have hrest : ∀ wc ∈ stage.rest, wc.ok = true := by
    have hr := h.ok_rest t
    rwa [hpc] at hr
  cases stage with
  | first =>
    simp only [WaitState.stepSingle] at hs
    split_ifs at hs <;> cases hs
    · exact h.single_found hpc rfl
    · exact h.single_keep hpc rfl rfl id
  | lock =>
    simp only [WaitState.stepSingle] at hs
    split_ifs at hs
    cases hs
    refine h.move (t := t) (.single target .second) rfl rfl (List.Sublist.refl _)
      (fun i _ hp => ?_) h.ok (fun wc hwc => by cases hwc) (fun u hu => ?_) trivial
    · rw [hpc, WaitPc.holds_single] at hp
      obtain hp | hp | hp := hp
      · exact .inl hp
      · exact .inr (.inl hp)
      · cases hp
    · exact .inl ⟨(Option.some.inj hu).symm, rfl⟩
  | second =>
    simp only [WaitState.stepSingle] at hs
    split_ifs at hs <;> cases hs
    · exact h.single_found hpc rfl
    · exact h.single_keep hpc rfl rfl id
  | poll =>
    simp only [WaitState.stepSingle] at hs
    cases poll with
    | none =>
      cases hs
      refine h.finish .error [] rfl rfl rfl rfl (fun i _ hp => ?_) h.ok
      rw [hpc, WaitPc.holds_single] at hp
      obtain hp | hp | hp := hp
      · exact .inl hp
      · exact .inr hp
      · cases hp
    | some n =>
      simp only at hs
      split at hs
      · cases hs
        exact h
      · rename_i batch s₁ _ hpoll
        cases hs
        have hs₁ : s₁ = (s.polled capacity n).2 := by rw [hpoll]
        have hb : batch = (s.polled capacity n).1 := by rw [hpoll]
        subst hs₁ hb
        refine h.goto (.single target (.batch _ false)) rfl rfl rfl rfl (fun i hp => ?_)
          (fun wc hwc => h.ok wc (List.mem_of_mem_drop hwc))
          (fun wc hwc => h.ok wc (List.mem_of_mem_take hwc)) (fun _ => rfl) trivial
        rw [hpc, WaitPc.holds_single] at hp
        obtain hp | hp | hp := hp
        · exact (mem_polled hp).imp_right fun hb => .inr (WaitPc.holds_single.mpr hb)
        · exact .inr (.inl hp)
        · cases hp
  | batch rest progress =>
    cases rest with
    | nil =>
      cases hs
      exact h.single_keep hpc rfl rfl id
    | cons wc rest =>
      simp only [WaitState.stepSingle] at hs
      split_ifs at hs with hbad htarget <;> cases hs
      · rw [hrest wc (List.mem_cons_self ..)] at hbad
        cases hbad
      · -- the target, at the end of its batch
        rw [hpc] at htidy
        obtain rfl : rest = [] := htidy htarget
        refine h.finish .success [target] rfl rfl rfl rfl (fun i hne hp => ?_) h.ok
        rw [hpc, WaitPc.holds_single] at hp
        obtain hp | hp | hp := hp
        · exact .inl hp
        · exact .inr hp
        · have hi : i = target := by simpa [WaitStage.rest, htarget] using hp
          exact absurd (List.mem_singleton.mpr hi) (hne rfl)
      · -- the completion of another request
        refine h.goto (.single target (.batch rest progress)) rfl rfl rfl rfl (fun i hp => ?_)
          h.ok (fun wc' hwc => hrest wc' (List.mem_cons_of_mem _ hwc)) (fun _ => rfl) trivial
        rw [hpc, WaitPc.holds_single, WaitStage.rest, List.map_cons, List.mem_cons] at hp
        obtain hp | hp | hp | hp := hp
        · exact .inl hp
        · exact .inr (.inl (Finset.mem_insert_of_mem hp))
        · exact .inr (.inl (hp ▸ Finset.mem_insert_self ..))
        · exact .inr (.inr (WaitPc.holds_single.mpr hp))

/-- `waitWrIdMulti` returns `SUCCESS` and reports its targets. -/
theorem multi_success (h : WaitInv s) {targets : List ℕ} {pending : Finset ℕ}
    {stage : WaitStage} (hpc : s.thread t = .multi targets pending stage) (hnil : stage.rest = []) :
    WaitInv ((s.unstash pending).finish t .success targets) := by
  have hsound := h.sound t
  rw [hpc] at hsound
  refine h.finish .success targets rfl rfl rfl rfl (fun i hne hp => ?_) h.ok
  have hi := hne rfl
  rw [hpc, WaitPc.holds_multi, hnil] at hp
  obtain hp | hp | hp | hp := hp
  · exact .inl hp
  · exact .inr (Finset.mem_sdiff.mpr ⟨hp, fun hpend => hi (hsound i hpend)⟩)
  · cases hp
  · exact absurd hp.1 hi

/-- `waitWrIdMulti` takes what it finds in `completed_wr_ids_` and goes on. -/
theorem multi_search (h : WaitInv s) {targets : List ℕ} {pending : Finset ℕ}
    {stage stage' : WaitStage} (hpc : s.thread t = .multi targets pending stage)
    (hnil : stage.rest = []) (hnil' : stage'.rest = [])
    (hlock : stage.locked = true → stage'.locked = true) :
    WaitInv ((s.unstash pending).goto t (.multi targets (pending \ s.completedWrIds) stage')) := by
  have hsound := h.sound t
  rw [hpc] at hsound
  refine h.goto (.multi targets (pending \ s.completedWrIds) stage') rfl rfl rfl rfl
    (fun i hp => ?_) h.ok ?_ (by rw [hpc]; exact hlock)
    fun i hi => hsound i (Finset.mem_sdiff.mp hi).1
  · rw [hpc, WaitPc.holds_multi, hnil] at hp
    rw [WaitPc.holds_multi, Finset.mem_sdiff]
    obtain hp | hp | hp | hp := hp
    · exact .inl hp
    · by_cases hpend : i ∈ pending
      · exact .inr (.inr (.inr ⟨hsound i hpend, fun hx => hx.2 hp⟩))
      · exact .inr (.inl (Finset.mem_sdiff.mpr ⟨hp, hpend⟩))
    · cases hp
    · exact .inr (.inr (.inr ⟨hp.1, fun hx => hp.2 hx.1⟩))
  · rw [WaitPc.rest, hnil']
    simp

/-- `waitWrIdMulti` goes on with its pending ids unchanged and no batch. -/
theorem multi_keep (h : WaitInv s) {targets : List ℕ} {pending : Finset ℕ}
    {stage stage' : WaitStage} (hpc : s.thread t = .multi targets pending stage)
    (hnil : stage.rest = []) (hnil' : stage'.rest = [])
    (hlock : stage.locked = true → stage'.locked = true) :
    WaitInv (s.goto t (.multi targets pending stage')) := by
  have hsound := h.sound t
  rw [hpc] at hsound
  refine h.goto (.multi targets pending stage') rfl rfl rfl rfl (fun i hp => ?_) h.ok ?_
    (by rw [hpc]; exact hlock) hsound
  · rw [hpc, WaitPc.holds_multi, hnil] at hp
    rw [WaitPc.holds_multi]
    obtain hp | hp | hp | hp := hp
    · exact .inl hp
    · exact .inr (.inl hp)
    · cases hp
    · exact .inr (.inr (.inr hp))
  · rw [WaitPc.rest, hnil']
    simp

/-- `waitWrIdMulti` polls a batch. -/
theorem multi_polled (h : WaitInv s) {targets : List ℕ} {pending : Finset ℕ}
    (hpc : s.thread t = .multi targets pending .poll) (capacity n : ℕ) :
    WaitInv ((s.polled capacity n).2.goto t
      (.multi targets pending (.batch (s.polled capacity n).1 false))) := by
  have hsound := h.sound t
  rw [hpc] at hsound
  refine h.goto (.multi targets pending (.batch _ false)) rfl rfl rfl rfl (fun i hp => ?_)
    (fun wc hwc => h.ok wc (List.mem_of_mem_drop hwc))
    (fun wc hwc => h.ok wc (List.mem_of_mem_take hwc)) (fun _ => rfl) hsound
  rw [hpc, WaitPc.holds_multi] at hp
  rw [WaitPc.holds_multi]
  obtain hp | hp | hp | hp := hp
  · exact (mem_polled hp).imp_right fun hb => .inr (.inl hb)
  · exact .inr (.inl hp)
  · cases hp
  · exact .inr (.inr (.inr hp))

/-- `waitWrIdMulti` finds one of the ids that it waits for. -/
theorem multi_hit (h : WaitInv s) {targets : List ℕ} {pending : Finset ℕ} {wc : Wc}
    {rest : List Wc} {progress : Bool}
    (hpc : s.thread t = .multi targets pending (.batch (wc :: rest) progress))
    (hpend : wc.wrId ∈ pending) :
    WaitInv (s.goto t (.multi targets (pending.erase wc.wrId) (.batch rest true))) := by
  have hsound := h.sound t
  have hrest := h.ok_rest t
  rw [hpc] at hsound hrest
  refine h.goto (.multi targets (pending.erase wc.wrId) (.batch rest true)) rfl rfl rfl rfl
    (fun i hp => ?_) h.ok (fun wc' hwc => hrest wc' (List.mem_cons_of_mem _ hwc)) (fun _ => rfl)
    fun i hi => hsound i (Finset.mem_of_mem_erase hi)
  rw [hpc, WaitPc.holds_multi, WaitStage.rest, List.map_cons, List.mem_cons] at hp
  rw [WaitPc.holds_multi]
  obtain hp | hp | (rfl | hp) | hp := hp
  · exact .inl hp
  · exact .inr (.inl hp)
  · exact .inr (.inr (.inr ⟨hsound _ hpend, Finset.notMem_erase _ _⟩))
  · exact .inr (.inr (.inl hp))
  · exact .inr (.inr (.inr ⟨hp.1, fun hx => hp.2 (Finset.mem_of_mem_erase hx)⟩))

/-- `waitWrIdMulti` puts the completion of another request into `completed_wr_ids_`. -/
theorem multi_other (h : WaitInv s) {targets : List ℕ} {pending : Finset ℕ} {wc : Wc}
    {rest : List Wc} {progress : Bool}
    (hpc : s.thread t = .multi targets pending (.batch (wc :: rest) progress)) :
    WaitInv ((s.stash wc.wrId).goto t (.multi targets pending (.batch rest progress))) := by
  have hsound := h.sound t
  have hrest := h.ok_rest t
  rw [hpc] at hsound hrest
  refine h.goto (.multi targets pending (.batch rest progress)) rfl rfl rfl rfl
    (fun i hp => ?_) h.ok (fun wc' hwc => hrest wc' (List.mem_cons_of_mem _ hwc)) (fun _ => rfl)
    hsound
  rw [hpc, WaitPc.holds_multi, WaitStage.rest, List.map_cons, List.mem_cons] at hp
  rw [WaitPc.holds_multi]
  obtain hp | hp | (rfl | hp) | hp := hp
  · exact .inl hp
  · exact .inr (.inl (Finset.mem_insert_of_mem hp))
  · exact .inr (.inl (Finset.mem_insert_self ..))
  · exact .inr (.inr (.inl hp))
  · exact .inr (.inr (.inr hp))

/-- `waitWrIdMulti` gives up before it has found one of its ids. -/
theorem multi_failed (h : WaitInv s) {targets : List ℕ} {pending : Finset ℕ}
    {stage : WaitStage} (hpc : s.thread t = .multi targets pending stage) (hnil : stage.rest = [])
    (hnone : ∀ i ∈ targets, i ∈ pending) (ret : Status) :
    WaitInv (s.finish t ret []) := by
  refine h.finish ret [] rfl rfl rfl rfl (fun i _ hp => ?_) h.ok
  rw [hpc, WaitPc.holds_multi, hnil] at hp
  obtain hp | hp | hp | hp := hp
  · exact .inl hp
  · exact .inr hp
  · cases hp
  · exact absurd (hnone i hp.1) hp.2

/-- One step of `waitWrIdMulti`. -/
theorem stepMulti (h : WaitInv s) {capacity : ℕ} {poll : Option ℕ} {late : Bool}
    {targets : List ℕ} {pending : Finset ℕ} {stage : WaitStage}
    (hpc : s.thread t = .multi targets pending stage) (htidy : (s.thread t).Tidy poll late)
    (hs : s.stepMulti t capacity poll late targets pending stage = some s') : WaitInv s' := by
  have hrest : ∀ wc ∈ stage.rest, wc.ok = true := by
    have hr := h.ok_rest t
    rwa [hpc] at hr
  have hsound : ∀ i ∈ pending, i ∈ targets := by
    have hsd := h.sound t
    rwa [hpc] at hsd
  -- a call that gives up has found nothing that it would lose
  have hnone : poll = none ∨ late = true → ∀ i ∈ targets, i ∈ pending := by
    rw [hpc] at htidy
    cases stage with
    | batch rest progress => cases rest <;> exact htidy
    | _ => exact htidy
  cases stage with
  | first =>
    simp only [WaitState.stepMulti] at hs
    split_ifs at hs <;> cases hs
    · exact h.multi_success hpc rfl
    · exact h.multi_search hpc rfl rfl id
  | lock =>
    simp only [WaitState.stepMulti] at hs
    split_ifs at hs
    cases hs
    refine h.move (t := t) (.multi targets pending .second) rfl rfl (List.Sublist.refl _)
      (fun i _ hp => ?_) h.ok (fun wc hwc => by cases hwc) (fun u hu => ?_) hsound
    · rw [hpc, WaitPc.holds_multi] at hp
      rw [WaitPc.holds_multi]
      exact hp
    · exact .inl ⟨(Option.some.inj hu).symm, rfl⟩
  | second =>
    simp only [WaitState.stepMulti] at hs
    split_ifs at hs <;> cases hs
    · exact h.multi_success hpc rfl
    · exact h.multi_search hpc rfl rfl id
  | poll =>
    simp only [WaitState.stepMulti] at hs
    cases poll with
    | none =>
      cases hs
      exact h.multi_failed hpc rfl (hnone (.inl rfl)) .error
    | some n =>
      simp only at hs
      split at hs
      · split_ifs at hs with hlate <;> cases hs
        · exact h.multi_failed hpc rfl (hnone (.inr hlate)) .timeout
        · exact h
      · rename_i batch s₁ _ hpoll
        cases hs
        obtain ⟨rfl, rfl⟩ := Prod.mk.inj hpoll
        exact h.multi_polled hpc capacity n
  | batch rest progress =>
    cases rest with
    | nil =>
      simp only [WaitState.stepMulti] at hs
      split_ifs at hs with hprog hempty hlate <;> cases hs
      · have hdone : WaitInv ((s.unstash pending).finish t .success targets) :=
          h.multi_success hpc rfl
        rwa [hempty, WaitState.unstash, Finset.sdiff_empty] at hdone
      · exact h.multi_keep hpc rfl rfl id
      · exact h.multi_failed hpc rfl (hnone (.inr hlate)) .timeout
      · exact h.multi_keep hpc rfl rfl id
    | cons wc rest =>
      simp only [WaitState.stepMulti] at hs
      split_ifs at hs with hbad hpend <;> cases hs
      · rw [hrest wc (List.mem_cons_self ..)] at hbad
        cases hbad
      · exact h.multi_hit hpc hpend
      · exact h.multi_other hpc

theorem start : WaitInv .start where
  nodup := List.nodup_nil
  placed i hi := by cases hi
  ok wc hwc := by cases hwc
  ok_rest t wc hwc := by cases hwc
  owner t ht := by cases ht
  sound t := trivial

theorem post (h : WaitInv s) {i : ℕ} (hi : i ∉ s.outstanding ∧ i ∉ s.unreported) :
    WaitInv { s with outstanding := i :: s.outstanding } :=
  { h with
    nodup := by
      rw [List.cons_append, List.nodup_cons, List.mem_append, not_or]
      exact ⟨hi, h.nodup⟩ }

theorem complete (h : WaitInv s) {i : ℕ} (hi : i ∈ s.outstanding) :
    WaitInv { s with
      outstanding := s.outstanding.erase i
      unreported := i :: s.unreported
      cq := s.cq ++ [⟨i, true⟩] } := by
  have hperm : (s.outstanding ++ s.unreported).Perm
      (s.outstanding.erase i ++ i :: s.unreported) :=
    ((List.perm_cons_erase hi).append_right _).trans List.perm_middle.symm
  refine
    { h with
      nodup := hperm.nodup_iff.mp h.nodup
      placed := fun j hj => ?_
      ok := fun wc hwc => ?_ }
  · simp only [List.map_append, List.mem_append]
    obtain rfl | hj := List.mem_cons.mp hj
    · exact .inl (.inr (List.mem_singleton.mpr rfl))
    · exact (h.placed j hj).imp_left .inl
  · obtain hwc | hwc := List.mem_append.mp hwc
    · exact h.ok wc hwc
    · rw [List.mem_singleton.mp hwc]

/-- A call starts, or returns at once, with nothing in its hands. -/
theorem call (h : WaitInv s) {last : Option Status} (ht : s.thread t = .idle last) {pc : WaitPc}
    (hrest : pc.rest = []) (hsound : pc.Sound) : WaitInv (s.goto t pc) := by
  refine h.goto pc rfl rfl rfl rfl (fun i hp => ?_) h.ok (by rw [hrest]; simp)
    (by rw [ht]; exact fun hl => by cases hl) hsound
  obtain hp | hp | hp := hp
  · exact .inl hp
  · exact .inr (.inl hp)
  · rw [ht, WaitPc.Holds] at hp
    rcases hp with hp | hp <;> cases hp

theorem refused (h : WaitInv s) {last : Option Status} (ht : s.thread t = .idle last)
    (ret : Status) : WaitInv (s.finish t ret []) := by
  refine h.finish ret [] rfl rfl rfl rfl (fun i _ hp => ?_) h.ok
  obtain hp | hp | hp := hp
  · exact .inl hp
  · exact .inr hp
  · rw [ht, WaitPc.Holds] at hp
    rcases hp with hp | hp <;> cases hp

/-- **One step** of a tidy run keeps the invariant, in all threads at once. -/
theorem step (h : WaitInv s) {a : WaitAct} (hok : a.Successful) (htidy : s.Tidy a)
    (hs : c.step s a = some s') : WaitInv s' := by
  cases a with
  | post i =>
    cases hs
    exact h.post htidy
  | complete i ok =>
    simp only [WaitConfig.step] at hs
    split_ifs at hs with hi
    cases hs
    obtain rfl : ok = true := hok
    exact h.complete hi
  | waitWrId t i =>
    simp only [WaitConfig.step] at hs
    split at hs
    · rename_i last ht
      split_ifs at hs <;> cases hs
      · exact h.refused ht _
      · exact h.call ht rfl trivial
    · cases hs
  | waitWrIdMulti t ids =>
    simp only [WaitConfig.step] at hs
    split at hs
    · rename_i last ht
      split_ifs at hs <;> cases hs
      · exact h.refused ht _
      · exact h.refused ht _
      · exact h.call ht rfl fun i hi => List.mem_toFinset.mp hi
    · cases hs
  | run t polled late =>
    simp only [WaitConfig.step] at hs
    split at hs
    · cases hs
    · rename_i target stage ht
      exact h.stepSingle ht htidy hs
    · rename_i targets pending stage ht
      exact h.stepMulti ht htidy hs

theorem reach (hr : Reach c.step (fun s a => a.Successful ∧ s.Tidy a) .start s) : WaitInv s :=
  hr.invariant start fun _ _ _ _ h hok hs => h.step hok.1 hok.2 hs

end WaitInv

/-! ### A wait that comes nearer -/

/-- A bound on the steps that a wait at `stage` still makes when it finds what it waits for. -/
def WaitStage.bound (s : WaitState) : WaitStage → ℕ
  | .first => 3 * s.cq.length + 5
  | .lock => 3 * s.cq.length + 4
  | .second => 3 * s.cq.length + 3
  | .poll => 3 * s.cq.length + 1
  | .batch rest _ => 3 * s.cq.length + rest.length + 2

/-- **A wait that comes nearer returns.** If a step of thread `t` on its own either returns `ret` or
keeps `P` and lowers the bound, the wait returns `ret`, whatever its polls hand out. -/
theorem WaitConfig.returns_of_step (c : WaitConfig) {P : WaitState → WaitStage → Prop} {t : ℕ}
    {ret : Status}
    (hstep : ∀ s stage n, P s stage → 0 < n → ∃ s', c.step s (.run t (some n) false) = some s' ∧
      (s'.thread t = .idle (some ret) ∨ ∃ stage', P s' stage' ∧ stage'.bound s' < stage.bound s))
    {s : WaitState} {stage : WaitStage} (h : P s stage) {ns : List ℕ} (hns : ∀ n ∈ ns, 0 < n)
    (hlen : stage.bound s ≤ ns.length) :
    ∃ pre, pre <+: ns ∧ ∃ s',
      exec c.step s (pre.map fun n => .run t (some n) false) = some s' ∧
        s'.thread t = .idle (some ret) := by
  induction ns generalizing s stage with
  | nil => cases stage <;> simp [WaitStage.bound] at hlen
  | cons n ns ih =>
    obtain ⟨s₁, hst, hret | ⟨stage', h', hlt⟩⟩ := hstep s stage n h (hns n (List.mem_cons_self ..))
    · exact ⟨[n], ⟨ns, rfl⟩, s₁, by simp [exec, hst], hret⟩
    · rw [List.length_cons] at hlen
      obtain ⟨pre, hpre, s', hexec, hret⟩ :=
        ih h' (fun m hm => hns m (List.mem_cons_of_mem _ hm)) (by omega)
      exact ⟨n :: pre, List.cons_prefix_cons.mpr ⟨rfl, hpre⟩, s', by simp [exec, hst, hexec], hret⟩

/-- An endpoint with the default capacity. -/
def WaitConfig.default : WaitConfig := ⟨false, 256, by decide⟩

end HMC.Rdma
