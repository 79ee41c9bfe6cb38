import HMC.Machine.Log
import HMC.Rdma.Completion

/-!
# Whose error it is

Both waits return `ERROR` at the first failed entry of a batch, whichever request it belongs to,
and forget it with the rest of the batch. So `waitWrId` blames its own request for the failure of
another one, and a later wait on that one polls for a completion that is gone
(`blamed_for_another`).

`attributed_of_own` is about the runs in which a wait polls no failed completion but those of the
requests it is called for. In these an `ERROR` is the fault of a request that was waited for, and
a failure that was not reported is found by the next `waitWrId`.

The log records the posts, the completions and the returns of `ERROR` because of a status. Here it
matters what becomes of a *failed* completion, so a step of a wait is described by what it does to
those (`WaitMove`): it takes them from the queue or from its batch, puts only successful ones into
`completed_wr_ids_`, and forgets a failed one only from a batch that fails or that has the target in
it. Hence a failed completion that was not reported is in the queue or in the batch of a wait
that is called for it (`OutcomeInv`), and a new `waitWrId` meets it there.
-/

namespace HMC.Rdma

open HMC.Machine

/-- A signaled request was posted or has completed, or a wait on `ids` has returned `ERROR` because
of the status of a completion. -/
inductive WaitEvent
  | posted (id : ℕ)
  | completed (id : ℕ) (ok : Bool)
  | failed (ids : List ℕ)
  deriving DecidableEq

namespace WaitPc

/-- Whether the next step is a poll. -/
def polls : WaitPc → Bool
  | .single _ .poll | .multi _ _ .poll => true
  | _ => false

/-- What the next step reports, when the entry it looks at is a failed one. -/
def blame (pc : WaitPc) : Option WaitEvent :=
  match pc.rest with
  | wc :: _ => if wc.ok = false then some (.failed pc.targets) else none
  | [] => none

theorem blame_eq_some {pc : WaitPc} {e : WaitEvent} (h : pc.blame = some e) :
    e = .failed pc.targets ∧ ∃ wc ∈ pc.rest, wc.ok = false := by
  unfold blame at h
  split at h
  · rename_i wc rest hrest
    split_ifs at h with hok
    exact ⟨(Option.some.inj h).symm, wc, by rw [hrest]; exact List.mem_cons_self, hok⟩
  · cases h

end WaitPc

def WaitState.emit (s : WaitState) : WaitAct → Option WaitEvent
  | .post id => some (.posted id)
  | .complete id ok => some (.completed id ok)
  | .run t _ _ => (s.thread t).blame
  | .waitWrId _ _ | .waitWrIdMulti _ _ => none

/-- The completion side with a log of what happens to the requests. -/
abbrev WaitConfig.logged (c : WaitConfig) :
    Logged WaitState WaitEvent → WaitAct → Option (Logged WaitState WaitEvent) :=
  logStep c.step WaitState.emit

/-- The claim: a wait returns `ERROR` for a completion status only after a request it was called for
has completed with an error; and where such an error has not been reported by a wait on that id, a
`waitWrId` on it returns `ERROR`, whatever positive batch sizes `ns` its polls hand out. -/
structure WaitConfig.Attributed (c : WaitConfig) (w : Logged WaitState WaitEvent) : Prop where
  own : ∀ before after ids, w.log = before ++ .failed ids :: after →
    ∃ id ∈ ids, .completed id false ∈ before
  returns : w.state.pollOwner = none → ∀ id, .completed id false ∈ w.log →
    (∀ ids, .failed ids ∈ w.log → id ∉ ids) →
      ∀ t ns, (w.state.thread t).isIdle = true → (∀ n ∈ ns, 0 < n) →
        3 * w.state.cq.length + 5 ≤ ns.length →
          ∃ pre, pre <+: ns ∧ ∃ s',
            exec c.step w.state (.waitWrId t id :: pre.map fun n => .run t (some n) false) =
              some s' ∧ s'.thread t = .idle (some .error)

/-- No id is posted twice, and a poll hands out failed completions only of the ids that its wait
is called for. -/
def WaitConfig.Own (c : WaitConfig) (w : Logged WaitState WaitEvent) : WaitAct → Prop
  | .post id => .posted id ∉ w.log
  | .run t (some n) _ => (w.state.thread t).polls = true →
    ∀ wc ∈ (w.state.polled c.cqCapacity n).1,
      wc.ok = false → wc.wrId ∈ (w.state.thread t).targets
  | _ => True

instance (c : WaitConfig) (w : Logged WaitState WaitEvent) : ∀ a, Decidable (c.Own w a)
  | .post id => inferInstanceAs (Decidable (.posted id ∉ w.log))
  | .run t (some n) _ => inferInstanceAs (Decidable ((w.state.thread t).polls = true →
      ∀ wc ∈ (w.state.polled c.cqCapacity n).1,
        wc.ok = false → wc.wrId ∈ (w.state.thread t).targets))
  | .run _ none _ | .complete _ _ | .waitWrId _ _ | .waitWrIdMulti _ _ => .isTrue trivial

/-! ### One step of a wait -/

/-- A step of thread `t` that leaves it at `pc`. Completions come from the queue or the batch of
`t`, only successful ones are put into `completed_wr_ids_`, and a failed one is forgotten only from
a batch that fails or that has the target of `waitWrId` in it. -/
structure WaitMove (c : WaitConfig) (s : WaitState) (t : ℕ) (polled : Option ℕ) (pc : WaitPc)
    (s' : WaitState) : Prop where
  thread : s'.thread = Function.update s.thread t pc
  outstanding : s'.outstanding = s.outstanding
  locked : pc.locked = true → s'.pollOwner = some t
  owner : ∀ u, u ≠ t → s.pollOwner = some u → s'.pollOwner = some u
  cq : ∀ wc ∈ s'.cq, wc ∈ s.cq
  rest : ∀ wc ∈ pc.rest, pc.targets = (s.thread t).targets ∧
    (wc ∈ (s.thread t).rest ∨ (s.thread t).polls = true ∧
      ∃ n ∈ polled, wc ∈ (s.polled c.cqCapacity n).1)
  stash : ∀ id ∈ s'.completedWrIds, id ∈ s.completedWrIds ∨ ⟨id, true⟩ ∈ (s.thread t).rest
  kept : ∀ wc, wc.ok = false → wc ∈ s.cq ∨ wc ∈ (s.thread t).rest →
    wc ∈ s'.cq ∨ wc ∈ pc.rest ∨ wc ∈ (s.thread t).rest ∧
      ((s.thread t).blame.isSome ∨
        ∃ target, (s.thread t).targets = [target] ∧ ⟨target, true⟩ ∈ (s.thread t).rest)

namespace WaitMove

variable {c : WaitConfig} {s s' s₁ : WaitState} {t : ℕ} {polled : Option ℕ} {pc : WaitPc}

/-- The thread goes on without touching the queue, its batch or the lock. -/
theorem goto (hthread : s₁.thread = s.thread) (hout : s₁.outstanding = s.outstanding)
    (howner : s₁.pollOwner = s.pollOwner) (hcq : s₁.cq = s.cq)
    (hlock : pc.locked = true → s.pollOwner = some t)
    (htargets : ∀ wc ∈ pc.rest, wc ∈ (s.thread t).rest ∧ pc.targets = (s.thread t).targets)
    (hdropped : ∀ wc ∈ (s.thread t).rest, wc ∉ pc.rest → wc.ok = true)
    (hstash : ∀ id ∈ s₁.completedWrIds, id ∈ s.completedWrIds ∨ ⟨id, true⟩ ∈ (s.thread t).rest) :
    WaitMove c s t polled pc (s₁.goto t pc) where
  thread := by rw [WaitState.goto, hthread]
  outstanding := hout
  locked hl := howner.trans (hlock hl)
  owner u _ hu := howner.trans hu
  cq wc hwc := hcq ▸ hwc
  rest wc hwc := ⟨(htargets wc hwc).2, .inl (htargets wc hwc).1⟩
  stash := hstash
  kept wc hbad hwc := by
    obtain hwc | hwc := hwc
    · exact .inl (hcq.symm ▸ hwc)
    · by_cases hin : wc ∈ pc.rest
      · exact .inr (.inl hin)
      · rw [hdropped wc hwc hin] at hbad
        cases hbad

/-- The thread returns. -/
theorem finish {ret : Status} {ids : List ℕ} (hthread : s₁.thread = s.thread)
    (hout : s₁.outstanding = s.outstanding) (howner : s₁.pollOwner = s.pollOwner)
    (hcq : s₁.cq = s.cq) (hstash : s₁.completedWrIds ⊆ s.completedWrIds)
    (hlost : ∀ wc ∈ (s.thread t).rest, (s.thread t).blame.isSome ∨
      ∃ target, (s.thread t).targets = [target] ∧ ⟨target, true⟩ ∈ (s.thread t).rest) :
    WaitMove c s t polled (.idle (some ret)) (s₁.finish t ret ids) where
  thread := by rw [WaitState.finish, hthread]
  outstanding := hout
  locked hl := by cases hl
  owner u hne hu := by
    have hother : s₁.pollOwner ≠ some t := fun ht =>
      hne (Option.some.inj ((howner.trans hu).symm.trans ht))
    rw [WaitState.finish]
    exact (if_neg hother).trans (howner.trans hu)
  cq wc hwc := hcq ▸ hwc
  rest wc hwc := by cases hwc
  stash id hid := .inl (hstash hid)
  kept wc _ hwc := by
    obtain hwc | hwc := hwc
    · exact .inl (hcq.symm ▸ hwc)
    · exact .inr (.inr ⟨hwc, hlost wc hwc⟩)

/-- The thread returns with nothing in its hands. -/
theorem done {ret : Status} {ids : List ℕ} (hthread : s₁.thread = s.thread)
    (hout : s₁.outstanding = s.outstanding) (howner : s₁.pollOwner = s.pollOwner)
    (hcq : s₁.cq = s.cq) (hstash : s₁.completedWrIds ⊆ s.completedWrIds)
    (hnil : (s.thread t).rest = []) :
    WaitMove c s t polled (.idle (some ret)) (s₁.finish t ret ids) :=
  finish hthread hout howner hcq hstash fun wc hwc => by
    rw [hnil] at hwc
    cases hwc

/-- The thread goes on with nothing in its hands. -/
theorem advance (hthread : s₁.thread = s.thread) (hout : s₁.outstanding = s.outstanding)
    (howner : s₁.pollOwner = s.pollOwner) (hcq : s₁.cq = s.cq)
    (hstash : s₁.completedWrIds ⊆ s.completedWrIds)
    (hlock : pc.locked = true → s.pollOwner = some t) (hnil : (s.thread t).rest = [])
    (hrest : pc.rest = []) : WaitMove c s t polled pc (s₁.goto t pc) := by
  refine goto hthread hout howner hcq hlock (fun wc hwc => ?_) (fun wc hwc => ?_)
    fun id hid => .inl (hstash hid)
  · rw [hrest] at hwc
    cases hwc
  · rw [hnil] at hwc
    cases hwc

/-- The thread looks at one entry of its batch and goes on. -/
theorem look {wc : Wc} {rest : List Wc} (hout : s₁.outstanding = s.outstanding)
    (hthread : s₁.thread = s.thread) (howner : s₁.pollOwner = s.pollOwner) (hcq : s₁.cq = s.cq)
    (hstash : s₁.completedWrIds ⊆ insert wc.wrId s.completedWrIds)
    (hlock : s.pollOwner = some t) (htargets : pc.targets = (s.thread t).targets)
    (hcons : (s.thread t).rest = wc :: rest) (hrest : pc.rest = rest) (hok : wc.ok = true) :
    WaitMove c s t polled pc (s₁.goto t pc) := by
  refine goto hthread hout howner hcq (fun _ => hlock) (fun wc' hwc => ⟨?_, htargets⟩)
    (fun wc' hwc hgone => ?_) fun id hid => ?_
  · rw [hcons]
    exact List.mem_cons_of_mem _ (hrest ▸ hwc)
  · rw [hcons] at hwc
    obtain rfl | hwc := List.mem_cons.mp hwc
    · exact hok
    · exact absurd (hrest ▸ hwc) hgone
  · obtain rfl | hid := Finset.mem_insert.mp (hstash hid)
    · refine .inr ?_
      rw [hcons, ← hok]
      exact List.mem_cons_self
    · exact .inl hid

/-- The thread finds an empty queue. -/
theorem stay (hlock : (s.thread t).locked = true → s.pollOwner = some t) :
    WaitMove c s t polled (s.thread t) s where
  thread := (Function.update_eq_self t s.thread).symm
  outstanding := rfl
  locked := hlock
  owner _ _ hu := hu
  cq _ hwc := hwc
  rest _ hwc := ⟨rfl, .inl hwc⟩
  stash _ hid := .inl hid
  kept _ _ hwc := hwc.imp_right .inl

/-- The thread takes the lock. -/
theorem lock (hfree : s.pollOwner = none) (hnil : (s.thread t).rest = []) (hrest : pc.rest = []) :
    WaitMove c s t polled pc ({ s with pollOwner := some t }.goto t pc) where
  thread := rfl
  outstanding := rfl
  locked _ := rfl
  owner u _ hu := by
    rw [hfree] at hu
    cases hu
  cq wc hwc := hwc
  rest wc hwc := by
    rw [hrest] at hwc
    cases hwc
  stash id hid := .inl hid
  kept wc _ hwc := by
    obtain hwc | hwc := hwc
    · exact .inl hwc
    · rw [hnil] at hwc
      cases hwc

/-- The thread polls. -/
theorem poll {n : ℕ} (hlock : s.pollOwner = some t) (hpolls : (s.thread t).polls = true)
    (htargets : pc.targets = (s.thread t).targets) (hnil : (s.thread t).rest = [])
    (hrest : pc.rest = (s.polled c.cqCapacity n).1) :
    WaitMove c s t (some n) pc ((s.polled c.cqCapacity n).2.goto t pc) where
  thread := rfl
  outstanding := rfl
  locked _ := hlock
  owner u _ hu := hu
  cq wc hwc := List.mem_of_mem_drop hwc
  rest wc hwc := ⟨htargets, .inr ⟨hpolls, n, rfl, hrest ▸ hwc⟩⟩
  stash id hid := .inl hid
  kept wc _ hwc := by
    obtain hwc | hwc := hwc
    · rw [← List.take_append_drop (min n c.cqCapacity) s.cq, List.mem_append] at hwc
      obtain hwc | hwc := hwc
      · exact .inr (.inl (hrest ▸ hwc))
      · exact .inl hwc
    · rw [hnil] at hwc
      cases hwc

end WaitMove

namespace WaitConfig

variable {c : WaitConfig} {s s' : WaitState} {t : ℕ} {polled : Option ℕ} {late : Bool}

theorem move_single {target : ℕ} {stage : WaitStage} (hpc : s.thread t = .single target stage)
    (hlock : (s.thread t).locked = true → s.pollOwner = some t)
    (hs : s.stepSingle t c.cqCapacity polled target stage = some s') :
    ∃ pc, WaitMove c s t polled pc s' := by
  have htargets : (s.thread t).targets = [target] := by rw [hpc, WaitPc.targets]
  have hrest : (s.thread t).rest = stage.rest := by rw [hpc, WaitPc.rest]
  have hheld : stage.locked = true → s.pollOwner = some t := by rwa [hpc] at hlock
  have hfound : (s.unstash {target}).completedWrIds ⊆ s.completedWrIds := Finset.sdiff_subset
  cases stage with
  | first =>
    simp only [WaitState.stepSingle] at hs
    split_ifs at hs with hmem
    · obtain rfl := Option.some.inj hs
      exact ⟨_, .done rfl rfl rfl rfl hfound hrest⟩
    · obtain rfl := Option.some.inj hs
      exact ⟨_, .advance rfl rfl rfl rfl subset_rfl (fun hl => by cases hl) hrest rfl⟩
  | lock =>
    simp only [WaitState.stepSingle] at hs
    split_ifs at hs with hfree
    obtain rfl := Option.some.inj hs
    exact ⟨_, .lock hfree hrest rfl⟩
  | second =>
    simp only [WaitState.stepSingle] at hs
    split_ifs at hs with hmem
    · obtain rfl := Option.some.inj hs
      exact ⟨_, .done rfl rfl rfl rfl hfound hrest⟩
    · obtain rfl := Option.some.inj hs
      exact ⟨_, .advance rfl rfl rfl rfl subset_rfl (fun _ => hheld rfl) hrest rfl⟩
  | poll =>
    cases polled with
    | none =>
      obtain rfl := Option.some.inj hs
      exact ⟨_, .done rfl rfl rfl rfl subset_rfl hrest⟩
    | some n =>
      simp only [WaitState.stepSingle] at hs
      split at hs
      · obtain rfl := Option.some.inj hs
        exact ⟨_, .stay hlock⟩
      · rename_i batch s₁ _ hpoll
        obtain ⟨rfl, rfl⟩ := Prod.mk.inj hpoll
        obtain rfl := Option.some.inj hs
        exact ⟨_, .poll (hheld rfl) (by rw [hpc, WaitPc.polls]) htargets.symm hrest rfl⟩
  | batch rest progress =>
    cases rest with
    | nil =>
      obtain rfl := Option.some.inj hs
      exact ⟨_, .advance rfl rfl rfl rfl subset_rfl (fun _ => hheld rfl) hrest rfl⟩
    | cons wc rest =>
      simp only [WaitState.stepSingle] at hs
      split_ifs at hs with hbad htarget
      · obtain rfl := Option.some.inj hs
        refine ⟨_, .finish rfl rfl rfl rfl subset_rfl fun _ _ => .inl ?_⟩
        simp [WaitPc.blame, hrest, WaitStage.rest, hbad]
      · -- the target; what is behind it is forgotten
        obtain rfl := Option.some.inj hs
        refine ⟨_, .finish rfl rfl rfl rfl subset_rfl fun _ _ => .inr ⟨target, htargets, ?_⟩⟩
        rw [hrest, ← htarget, ← Bool.eq_true_of_not_eq_false hbad]
        exact List.mem_cons_self
      · obtain rfl := Option.some.inj hs
        exact ⟨_, .look rfl rfl rfl rfl subset_rfl (hheld rfl) htargets.symm hrest rfl
          (Bool.eq_true_of_not_eq_false hbad)⟩

theorem move_multi {targets : List ℕ} {pending : Finset ℕ} {stage : WaitStage}
    (hpc : s.thread t = .multi targets pending stage)
    (hlock : (s.thread t).locked = true → s.pollOwner = some t)
    (hs : s.stepMulti t c.cqCapacity polled late targets pending stage = some s') :
    ∃ pc, WaitMove c s t polled pc s' := by
  have htargets : (s.thread t).targets = targets := by rw [hpc, WaitPc.targets]
  have hrest : (s.thread t).rest = stage.rest := by rw [hpc, WaitPc.rest]
  have hheld : stage.locked = true → s.pollOwner = some t := by rwa [hpc] at hlock
  have hfound : (s.unstash pending).completedWrIds ⊆ s.completedWrIds := Finset.sdiff_subset
  cases stage with
  | first =>
    simp only [WaitState.stepMulti] at hs
    split_ifs at hs with hleft
    · obtain rfl := Option.some.inj hs
      exact ⟨_, .done rfl rfl rfl rfl hfound hrest⟩
    · obtain rfl := Option.some.inj hs
      exact ⟨_, .advance rfl rfl rfl rfl hfound (fun hl => by cases hl) hrest rfl⟩
  | lock =>
    simp only [WaitState.stepMulti] at hs
    split_ifs at hs with hfree
    obtain rfl := Option.some.inj hs
    exact ⟨_, .lock hfree hrest rfl⟩
  | second =>
    simp only [WaitState.stepMulti] at hs
    split_ifs at hs with hleft
    · obtain rfl := Option.some.inj hs
      exact ⟨_, .done rfl rfl rfl rfl hfound hrest⟩
    · obtain rfl := Option.some.inj hs
      exact ⟨_, .advance rfl rfl rfl rfl hfound (fun _ => hheld rfl) hrest rfl⟩
  | poll =>
    cases polled with
    | none =>
      obtain rfl := Option.some.inj hs
      exact ⟨_, .done rfl rfl rfl rfl subset_rfl hrest⟩
    | some n =>
      simp only [WaitState.stepMulti] at hs
      split at hs
      · split_ifs at hs
        · obtain rfl := Option.some.inj hs
          exact ⟨_, .done rfl rfl rfl rfl subset_rfl hrest⟩
        · obtain rfl := Option.some.inj hs
          exact ⟨_, .stay hlock⟩
      · rename_i batch s₁ _ hpoll
        obtain ⟨rfl, rfl⟩ := Prod.mk.inj hpoll
        obtain rfl := Option.some.inj hs
        exact ⟨_, .poll (hheld rfl) (by rw [hpc, WaitPc.polls]) htargets.symm hrest rfl⟩
  | batch rest progress =>
    cases rest with
    | nil =>
      -- the next poll, with or without a pause before it
      have hgo : WaitMove c s t polled (.multi targets pending .poll)
          (s.goto t (.multi targets pending .poll)) :=
        .advance rfl rfl rfl rfl subset_rfl (fun _ => hheld rfl) hrest rfl
      simp only [WaitState.stepMulti] at hs
      split_ifs at hs
      · obtain rfl := Option.some.inj hs
        exact ⟨_, .done rfl rfl rfl rfl subset_rfl hrest⟩
      · obtain rfl := Option.some.inj hs
        exact ⟨_, hgo⟩
      · obtain rfl := Option.some.inj hs
        exact ⟨_, .done rfl rfl rfl rfl subset_rfl hrest⟩
      · obtain rfl := Option.some.inj hs
        exact ⟨_, hgo⟩
    | cons wc rest =>
      simp only [WaitState.stepMulti] at hs
      split_ifs at hs with hbad hpend
      · obtain rfl := Option.some.inj hs
        refine ⟨_, .finish rfl rfl rfl rfl subset_rfl fun _ _ => .inl ?_⟩
        simp [WaitPc.blame, hrest, WaitStage.rest, hbad]
      · obtain rfl := Option.some.inj hs
        exact ⟨_, .look rfl rfl rfl rfl (Finset.subset_insert ..) (hheld rfl) htargets.symm hrest
          rfl (Bool.eq_true_of_not_eq_false hbad)⟩
      · obtain rfl := Option.some.inj hs
        exact ⟨_, .look rfl rfl rfl rfl subset_rfl (hheld rfl) htargets.symm hrest rfl
          (Bool.eq_true_of_not_eq_false hbad)⟩

end WaitConfig

/-! ### The invariant -/

/-- A request completes once. Its failed completion lies in the queue or in the batch of a wait
that is called for it, or was reported by such a wait. -/
structure OutcomeInv (w : Logged WaitState WaitEvent) : Prop where
  nodup : w.state.outstanding.Nodup
  outstanding : ∀ id ∈ w.state.outstanding,
    .posted id ∈ w.log ∧ ∀ ok, .completed id ok ∉ w.log
  posted : ∀ id ok, .completed id ok ∈ w.log → .posted id ∈ w.log
  unique : ∀ id, .completed id true ∈ w.log → .completed id false ∉ w.log
  locked : ∀ t, (w.state.thread t).locked = true → w.state.pollOwner = some t
  cq : ∀ wc ∈ w.state.cq, .completed wc.wrId wc.ok ∈ w.log
  rest : ∀ t, ∀ wc ∈ (w.state.thread t).rest, .completed wc.wrId wc.ok ∈ w.log ∧
    (wc.ok = false → wc.wrId ∈ (w.state.thread t).targets)
  stash : ∀ id ∈ w.state.completedWrIds, .completed id true ∈ w.log
  placed : ∀ id, .completed id false ∈ w.log → ⟨id, false⟩ ∈ w.state.cq ∨
    (∃ t, ⟨id, false⟩ ∈ (w.state.thread t).rest) ∨ ∃ ids, .failed ids ∈ w.log ∧ id ∈ ids
  own : ∀ before after ids, w.log = before ++ .failed ids :: after →
    ∃ id ∈ ids, .completed id false ∈ before

namespace OutcomeInv

variable {c : WaitConfig} {w w' : Logged WaitState WaitEvent} {t : ℕ} {polled : Option ℕ}

theorem start : OutcomeInv ⟨.start, []⟩ where
  nodup := List.nodup_nil
  outstanding _ hid := by cases hid
  posted _ _ h := by cases h
  unique _ h := by cases h
  locked _ hl := by cases hl
  cq _ hwc := by cases hwc
  rest _ _ hwc := by cases hwc
  stash _ hid := by cases hid
  placed _ h := by cases h
  own before _ _ h := by
    cases before with
    | nil => cases h
    | cons => cases h

/-- A new event that is no report keeps `own`. -/
theorem own_snoc (h : OutcomeInv w) {e : WaitEvent} (he : ∀ ids, e ≠ .failed ids)
    {before after : List WaitEvent} {ids : List ℕ}
    (heq : w.log ++ [e] = before ++ .failed ids :: after) :
    ∃ id ∈ ids, .completed id false ∈ before := by
  obtain ⟨mid, -, hlog⟩ | ⟨-, hlast, -⟩ := snoc_eq_append_cons heq
  · exact h.own before mid ids hlog
  · exact absurd hlast (he ids)

theorem post (h : OutcomeInv w) {id : ℕ} (hnew : .posted id ∉ w.log) :
    OutcomeInv ⟨{ w.state with outstanding := id :: w.state.outstanding },
      w.log ++ [.posted id]⟩ := by
  have hold : ∀ {e}, e ∈ w.log → e ∈ w.log ++ [.posted id] := List.mem_append_left _
  have hcomp : ∀ {i ok}, .completed i ok ∈ w.log ++ [.posted id] ↔ .completed i ok ∈ w.log := by
    simp
  refine
    { nodup := List.nodup_cons.mpr ⟨fun hid => hnew (h.outstanding id hid).1, h.nodup⟩
      outstanding := fun i hi => ?_
      posted := fun i ok hi => hold (h.posted i ok (hcomp.mp hi))
      unique := fun i hi hf => h.unique i (hcomp.mp hi) (hcomp.mp hf)
      locked := h.locked
      cq := fun wc hwc => hold (h.cq wc hwc)
      rest := fun t wc hwc => (h.rest t wc hwc).imp_left hold
      stash := fun i hi => hold (h.stash i hi)
      placed := fun i hi => ?_
      own := fun _ _ _ heq => h.own_snoc (fun _ he => by cases he) heq }
  · obtain rfl | hi := List.mem_cons.mp hi
    · exact ⟨by simp, fun ok hc => hnew (h.posted i ok (hcomp.mp hc))⟩
    · obtain ⟨hp, hc⟩ := h.outstanding i hi
      exact ⟨hold hp, fun ok hi => hc ok (hcomp.mp hi)⟩
  · refine (h.placed i (hcomp.mp hi)).imp_right fun hp => hp.imp_right fun ⟨ids, hf, hids⟩ => ?_
    exact ⟨ids, hold hf, hids⟩

theorem complete (h : OutcomeInv w) {id : ℕ} {ok : Bool} (hid : id ∈ w.state.outstanding) :
    OutcomeInv ⟨{ w.state with
      outstanding := w.state.outstanding.erase id
      unreported := id :: w.state.unreported
      cq := w.state.cq ++ [⟨id, ok⟩] }, w.log ++ [.completed id ok]⟩ := by
  have hold : ∀ {e}, e ∈ w.log → e ∈ w.log ++ [.completed id ok] := List.mem_append_left _
  have hcomp : ∀ {i ok'}, .completed i ok' ∈ w.log ++ [.completed id ok] ↔
      .completed i ok' ∈ w.log ∨ i = id ∧ ok' = ok := by simp
  obtain ⟨hposted, hfresh⟩ := h.outstanding id hid
  refine
    { nodup := h.nodup.erase id
      outstanding := fun i hi => ?_
      posted := fun i ok' hi => ?_
      unique := fun i hi hf => ?_
      locked := h.locked
      cq := fun wc hwc => ?_
      rest := fun t wc hwc => (h.rest t wc hwc).imp_left hold
      stash := fun i hi => hold (h.stash i hi)
      placed := fun i hi => ?_
      own := fun _ _ _ heq => h.own_snoc (fun _ he => by cases he) heq }
  · obtain ⟨hne, hi⟩ := h.nodup.mem_erase_iff.mp hi
    obtain ⟨hp, hc⟩ := h.outstanding i hi
    exact ⟨hold hp, fun ok' hc' => (hcomp.mp hc').elim (hc ok') fun he => hne he.1⟩
  · obtain hi | ⟨rfl, -⟩ := hcomp.mp hi
    · exact hold (h.posted i ok' hi)
    · exact hold hposted
  · obtain hgood | ⟨rfl, rfl⟩ := hcomp.mp hi
    · obtain hf | ⟨rfl, -⟩ := hcomp.mp hf
      · exact h.unique i hgood hf
      · exact hfresh true hgood
    · obtain hf | ⟨-, hf⟩ := hcomp.mp hf
      · exact hfresh false hf
      · cases hf
  · obtain hwc | hwc := List.mem_append.mp hwc
    · exact hold (h.cq wc hwc)
    · obtain rfl := List.mem_singleton.mp hwc
      exact List.mem_append_right _ (List.mem_singleton.mpr rfl)
  · obtain hi | ⟨rfl, rfl⟩ := hcomp.mp hi
    · obtain hp | hp | ⟨ids, hf, hids⟩ := h.placed i hi
      · exact .inl (List.mem_append_left _ hp)
      · exact .inr (.inl hp)
      · exact .inr (.inr ⟨ids, hold hf, hids⟩)
    · exact .inl (List.mem_append_right _ (List.mem_singleton.mpr rfl))

/-- A thread moves on, and a poll hands out failed completions only of its ids. -/
theorem move (h : OutcomeInv w) {pc : WaitPc} {s' : WaitState}
    (hm : WaitMove c w.state t polled pc s')
    (hown : (w.state.thread t).polls = true → ∀ n ∈ polled,
      ∀ wc ∈ (w.state.polled c.cqCapacity n).1,
        wc.ok = false → wc.wrId ∈ (w.state.thread t).targets) :
    OutcomeInv ⟨s', w.log ++ (w.state.thread t).blame.toList⟩ := by
  have hold : ∀ {e}, e ∈ w.log → e ∈ w.log ++ (w.state.thread t).blame.toList :=
    List.mem_append_left _
  have hnew : ∀ {e}, e ∈ w.log ++ (w.state.thread t).blame.toList →
      e ∈ w.log ∨ e = .failed (w.state.thread t).targets := fun {e} he =>
    (List.mem_append.mp he).imp_right fun he => (WaitPc.blame_eq_some (by simpa using he)).1
  have hcomp : ∀ {i ok}, .completed i ok ∈ w.log ++ (w.state.thread t).blame.toList →
      .completed i ok ∈ w.log := fun hi => (hnew hi).resolve_right (by simp)
  have hself : s'.thread t = pc := by rw [hm.thread, Function.update_self]
  have hother : ∀ u, u ≠ t → s'.thread u = w.state.thread u := fun u hu => by
    rw [hm.thread, Function.update_of_ne hu]
  refine
    { nodup := by rw [hm.outstanding]; exact h.nodup
      outstanding := fun i hi => ?_
      posted := fun i ok hi => hold (h.posted i ok (hcomp hi))
      unique := fun i hi hf => h.unique i (hcomp hi) (hcomp hf)
      locked := fun u hl => ?_
      cq := fun wc hwc => hold (h.cq wc (hm.cq wc hwc))
      rest := fun u wc hwc => ?_
      stash := fun i hi => ?_
      placed := fun i hi => ?_
      own := fun before after ids heq => ?_ }
  · obtain ⟨hp, hc⟩ := h.outstanding i (by rw [← hm.outstanding]; exact hi)
    exact ⟨hold hp, fun ok hi => hc ok (hcomp hi)⟩
  · by_cases hu : u = t
    · subst hu
      exact hm.locked (by rwa [hself] at hl)
    · exact hm.owner u hu (h.locked u (by rwa [hother u hu] at hl))
  · by_cases hu : u = t
    · subst hu
      dsimp only at hwc ⊢
      rw [hself] at hwc ⊢
      obtain ⟨htargets, hwc | ⟨hpolls, n, hn, hwc⟩⟩ := hm.rest wc hwc
      · rw [htargets]
        exact (h.rest u wc hwc).imp_left hold
      · rw [htargets]
        exact ⟨hold (h.cq wc (List.mem_of_mem_take hwc)), hown hpolls n hn wc hwc⟩
    · dsimp only at hwc ⊢
      rw [hother u hu] at hwc ⊢
      exact (h.rest u wc hwc).imp_left hold
  · obtain hi | hi := hm.stash i hi
    · exact hold (h.stash i hi)
    · exact hold (h.rest t _ hi).1
  · -- a failure in the queue or in the hands of the thread
    have hmine : ⟨i, false⟩ ∈ w.state.cq ∨ ⟨i, false⟩ ∈ (w.state.thread t).rest →
        ⟨i, false⟩ ∈ s'.cq ∨ (∃ u, ⟨i, false⟩ ∈ (s'.thread u).rest) ∨
          ∃ ids, .failed ids ∈ w.log ++ (w.state.thread t).blame.toList ∧ i ∈ ids := fun hp => by
      obtain hp | hp | ⟨hp, hblame | ⟨target, htargets, hfound⟩⟩ := hm.kept ⟨i, false⟩ rfl hp
      · exact .inl hp
      · exact .inr (.inl ⟨t, by rwa [hself]⟩)
      · -- reported
        obtain ⟨e, he⟩ := Option.isSome_iff_exists.mp hblame
        refine .inr (.inr ⟨(w.state.thread t).targets, ?_, (h.rest t _ hp).2 rfl⟩)
        rw [he, ← (WaitPc.blame_eq_some he).1]
        simp
      · -- behind the target lies no failure of the target
        have hi : i = target := by simpa [htargets] using (h.rest t _ hp).2 rfl
        subst hi
        exact absurd (h.rest t _ hp).1 (h.unique i (h.rest t _ hfound).1)
    obtain hp | ⟨u, hp⟩ | ⟨ids, hf, hids⟩ := h.placed i (hcomp hi)
    · exact hmine (.inl hp)
    · by_cases hu : u = t
      · subst hu
        exact hmine (.inr hp)
      · exact .inr (.inl ⟨u, by rwa [hother u hu]⟩)
    · exact .inr (.inr ⟨ids, hold hf, hids⟩)
  · cases hb : (w.state.thread t).blame with
    | none =>
      rw [hb] at heq
      exact h.own before after ids (by simpa using heq)
    | some e =>
      rw [hb] at heq
      obtain ⟨mid, -, hlog⟩ | ⟨-, hlast, rfl⟩ := snoc_eq_append_cons heq
      · exact h.own before mid ids hlog
      · obtain ⟨he, wc, hwc, hbad⟩ := WaitPc.blame_eq_some hb
        obtain rfl : ids = (w.state.thread t).targets :=
          WaitEvent.failed.inj (hlast.symm.trans he)
        obtain ⟨hc, htarget⟩ := h.rest t wc hwc
        exact ⟨wc.wrId, htarget hbad, hbad ▸ hc⟩

/-- **One step** keeps the outcomes with the waits that they belong to. -/
theorem step (h : OutcomeInv w) {a : WaitAct} (hok : c.Own w a) (hst : c.logged w a = some w') :
    OutcomeInv w' := by
  obtain ⟨s', log'⟩ := w'
  obtain ⟨hs, rfl⟩ := logStep_eq_some.mp hst
  -- a call keeps the invariant, whether it starts or returns at once
  have hcall : ∀ {t pc}, WaitMove c w.state t none pc s' → (∃ last, w.state.thread t = .idle last) →
      OutcomeInv ⟨s', w.log ++ (none : Option WaitEvent).toList⟩ := fun hm ⟨last, ht⟩ => by
    have hmoved := h.move hm (fun _ n hn => by cases hn)
    rwa [ht] at hmoved
  cases a with
  | post id =>
    obtain rfl := Option.some.inj hs
    exact h.post hok
  | complete id ok =>
    simp only [WaitConfig.step] at hs
    split_ifs at hs with hid
    obtain rfl := Option.some.inj hs
    exact h.complete hid
  | waitWrId t id =>
    simp only [WaitConfig.step] at hs
    split at hs
    · rename_i last ht
      have hnil : (w.state.thread t).rest = [] := by rw [ht, WaitPc.rest]
      split_ifs at hs
      · obtain rfl := Option.some.inj hs
        exact hcall (.done rfl rfl rfl rfl subset_rfl hnil) ⟨last, ht⟩
      · obtain rfl := Option.some.inj hs
        exact hcall (.advance rfl rfl rfl rfl subset_rfl (fun hl => by cases hl) hnil rfl)
          ⟨last, ht⟩
    · cases hs
  | waitWrIdMulti t ids =>
    simp only [WaitConfig.step] at hs
    split at hs
    · rename_i last ht
      have hnil : (w.state.thread t).rest = [] := by rw [ht, WaitPc.rest]
      split_ifs at hs
      · obtain rfl := Option.some.inj hs
        exact hcall (.done rfl rfl rfl rfl subset_rfl hnil) ⟨last, ht⟩
      · obtain rfl := Option.some.inj hs
        exact hcall (.done rfl rfl rfl rfl subset_rfl hnil) ⟨last, ht⟩
      · obtain rfl := Option.some.inj hs
        exact hcall (.advance rfl rfl rfl rfl subset_rfl (fun hl => by cases hl) hnil rfl)
          ⟨last, ht⟩
    · cases hs
  | run t polled late =>
    have hmove : ∃ pc, WaitMove c w.state t polled pc s' := by
      simp only [WaitConfig.step] at hs
      split at hs
      · cases hs
      · rename_i target stage ht
        exact WaitConfig.move_single ht (h.locked t) hs
      · rename_i targets pending stage ht
        exact WaitConfig.move_multi ht (h.locked t) hs
    obtain ⟨pc, hm⟩ := hmove
    refine h.move hm fun hpolls n hn => ?_
    obtain rfl := hn
    exact hok hpolls

theorem reach (hr : Reach c.logged c.Own ⟨.start, []⟩ w) : OutcomeInv w :=
  hr.invariant start fun _ _ _ _ h hok hst => h.step hok hst

end OutcomeInv

/-! ### A wait on a failed request -/

/-- `waitWrId` on `target` is under way, and will find its failed completion. -/
structure WaitState.Erring (s : WaitState) (t target : ℕ) (stage : WaitStage) : Prop where
  thread : s.thread t = .single target stage
  lock : stage.locked = true ∨ s.pollOwner = none
  soon : ⟨target, false⟩ ∈ stage.rest ∨ ⟨target, false⟩ ∈ s.cq
  stash : target ∉ s.completedWrIds
  once : ⟨target, true⟩ ∉ s.cq ∧ ⟨target, true⟩ ∉ stage.rest

namespace WaitState.Erring

variable {c : WaitConfig} {s : WaitState} {t target n : ℕ} {stage : WaitStage}

/-- One step on its own: the wait returns `ERROR`, or is nearer to it. -/
theorem step (c : WaitConfig) (h : s.Erring t target stage) (hn : 0 < n) :
    ∃ s', c.step s (.run t (some n) false) = some s' ∧
      (s'.thread t = .idle (some .error) ∨
        ∃ stage', s'.Erring t target stage' ∧ stage'.bound s' < stage.bound s) := by
  have ht := h.thread
  simp only [WaitConfig.step, ht]
  have hgo : ∀ {stage' : WaitStage}, (stage'.locked = true ∨ s.pollOwner = none) →
      stage.rest = [] → stage'.rest = [] →
        (s.goto t (.single target stage')).Erring t target stage' :=
    fun hlock hnil hnil' =>
      ⟨Function.update_self .., hlock, .inr (h.soon.resolve_left (by simp [hnil])), h.stash,
        h.once.1, by simp [hnil']⟩
  cases stage with
  | first =>
    simp only [WaitState.stepSingle, if_neg h.stash]
    exact ⟨_, rfl, .inr ⟨.lock, hgo (.inr (h.lock.resolve_left (by decide))) rfl rfl,
      Nat.lt_succ_self _⟩⟩
  | lock =>
    have hfree := h.lock.resolve_left (by decide)
    simp only [WaitState.stepSingle, if_pos hfree]
    exact ⟨_, rfl, .inr ⟨.second, ⟨Function.update_self .., .inl rfl, h.soon, h.stash, h.once⟩,
      Nat.lt_succ_self _⟩⟩
  | second =>
    simp only [WaitState.stepSingle, if_neg h.stash]
    refine ⟨_, rfl, .inr ⟨.poll, hgo (.inl rfl) rfl rfl, ?_⟩⟩
    simp only [WaitStage.bound, WaitState.goto]
    omega
  | poll =>
    have hsoon : ⟨target, false⟩ ∈ s.cq := h.soon.resolve_left List.not_mem_nil
    have hpos : 0 < s.cq.length := List.length_pos_of_mem hsoon
    have hcap := c.capacity_pos
    simp only [WaitState.stepSingle]
    split
    · rename_i s₁ hpoll
      have hnil := congrArg (fun p => p.1.length) hpoll
      simp only [WaitState.polled, List.length_take, List.length_nil] at hnil
      omega
    · rename_i batch s₁ _ hpoll
      obtain ⟨rfl, rfl⟩ := Prod.mk.inj hpoll
      refine ⟨_, rfl, .inr ⟨.batch _ false, ⟨Function.update_self .., .inl rfl, ?_, h.stash,
        fun hin => h.once.1 (List.mem_of_mem_drop hin),
        fun hin => h.once.1 (List.mem_of_mem_take hin)⟩, ?_⟩⟩
      · rw [← List.take_append_drop (min n c.cqCapacity) s.cq] at hsoon
        exact List.mem_append.mp hsoon
      · simp only [WaitStage.bound, WaitState.goto, List.length_take, List.length_drop]
        omega
  | batch rest progress =>
    cases rest with
    | nil => exact ⟨_, rfl, .inr ⟨.poll, hgo (.inl rfl) rfl rfl, Nat.lt_succ_self _⟩⟩
    | cons wc rest =>
      simp only [WaitState.stepSingle]
      split_ifs with hbad htarget
      · exact ⟨_, rfl, .inl (Function.update_self ..)⟩
      · -- the target has failed
        refine absurd ?_ h.once.2
        rw [← htarget, ← Bool.eq_true_of_not_eq_false hbad]
        exact List.mem_cons_self
      · refine ⟨_, rfl, .inr ⟨.batch rest progress, ⟨Function.update_self .., .inl rfl, ?_, ?_,
          h.once.1, fun hin => h.once.2 (List.mem_cons_of_mem _ hin)⟩, ?_⟩⟩
        · refine h.soon.imp_left fun hp => (List.mem_cons.mp hp).resolve_left fun he => hbad ?_
          rw [← he]
        · exact fun hin => (Finset.mem_insert.mp hin).elim (fun he => htarget he.symm) h.stash
        · simp only [WaitStage.bound, WaitState.goto, WaitState.stash, List.length_cons]
          omega

end WaitState.Erring

/-! ### The claim -/

theorem OutcomeInv.attributed {c : WaitConfig} {w : Logged WaitState WaitEvent}
    (h : OutcomeInv w) : c.Attributed w := by
  refine ⟨h.own, fun hfree id hbad hun t ns hidle hns hlen => ?_⟩
  have hlocked : ∀ u, (w.state.thread u).locked = false := fun u => by
    by_contra hl
    have howner := h.locked u (Bool.eq_true_of_not_eq_false hl)
    rw [hfree] at howner
    cases howner
  have hqueued : ⟨id, false⟩ ∈ w.state.cq := by
    obtain hp | ⟨u, hp⟩ | ⟨ids, hf, hids⟩ := h.placed id hbad
    · exact hp
    · have hl := WaitPc.locked_of_mem_rest hp
      rw [hlocked u] at hl
      cases hl
    · exact absurd hids (hun ids hf)
  have hgood : .completed id true ∉ w.log := fun hgood => h.unique id hgood hbad
  cases ht : w.state.thread t with
  | single => rw [ht] at hidle; cases hidle
  | multi => rw [ht] at hidle; cases hidle
  | idle last =>
    by_cases hcq : c.nullCq = true
    · refine ⟨[], List.nil_prefix, w.state.finish t .error [], ?_, Function.update_self ..⟩
      simp [exec, WaitConfig.step, ht, hcq]
    · have herr : (w.state.goto t (.single id .first)).Erring t id .first :=
        ⟨Function.update_self .., .inr hfree, .inr hqueued, fun hin => hgood (h.stash id hin),
          fun hin => hgood (h.cq _ hin), List.not_mem_nil⟩
      obtain ⟨pre, hpre, s', hexec, hret⟩ :=
        c.returns_of_step (P := fun s stage => s.Erring t id stage)
          (fun _ _ _ he hn => he.step c hn) herr hns hlen
      refine ⟨pre, hpre, s', ?_, hret⟩
      simp [exec, WaitConfig.step, ht, hcq, hexec]

/-- **An error is reported to the wait on its request** in a run whose polls hand out failed
completions only to such waits. Both halves are read off `OutcomeInv`: a wait that blames a
completion has it in its batch, so it was called for it; and a failed completion that nobody has
blamed is still where the next `waitWrId` looks (`WaitState.Erring`). -/
theorem attributed_of_own {c : WaitConfig} {w : Logged WaitState WaitEvent}
    (hr : Reach c.logged c.Own ⟨.start, []⟩ w) : c.Attributed w :=
  (OutcomeInv.reach hr).attributed

/-- Request `2` fails, and request `1`, which is behind it in the queue, is waited for after it. -/
def failedRun : List WaitAct :=
  [.post 1, .post 2, .post 3, .complete 2 false, .complete 1 true, .complete 3 false,
    .waitWrId 0 2, .run 0 (some 1) false, .run 0 (some 1) false, .run 0 (some 1) false,
    .run 0 (some 1) false, .run 0 (some 1) false]

theorem attributed_of_own_failedRun : ∃ w,
    Reach WaitConfig.default.logged WaitConfig.default.Own ⟨.start, []⟩ w ∧
      w.state.pollOwner = none ∧ .failed [2] ∈ w.log ∧ .completed 3 false ∈ w.log ∧
        WaitConfig.default.Attributed w := by
  obtain ⟨w, hr, hfree, h₂, h₃⟩ : ∃ w,
      Reach WaitConfig.default.logged WaitConfig.default.Own ⟨.start, []⟩ w ∧
        (w.state.pollOwner = none ∧ .failed [2] ∈ w.log ∧ .completed 3 false ∈ w.log) :=
    exists_reach_of_execOk failedRun (by decide +kernel)
  exact ⟨w, hr, hfree, h₂, h₃, attributed_of_own hr⟩

/-- The same two requests, but request `1` is waited for first. -/
def blamedRun : List WaitAct :=
  [.post 1, .post 2, .complete 2 false, .complete 1 true, .waitWrId 0 1] ++
    List.replicate 5 (.run 0 (some 1) false)

/-- **The wrong request is blamed.** The wait on request `1`, which succeeds, returns `ERROR`
because request `2` has failed, and the completion of `2` is gone. -/
theorem blamed_for_another : ∃ w, Reach WaitConfig.default.logged Free ⟨.start, []⟩ w ∧
    w.log = [.posted 1, .posted 2, .completed 2 false, .completed 1 true, .failed [1]] ∧
      2 ∉ w.state.cq.map Wc.wrId ∧ 2 ∉ w.state.completedWrIds ∧
        ¬ WaitConfig.default.Attributed w := by
  obtain ⟨w, hr, hlog, hcq, hstash⟩ : ∃ w,
      Reach WaitConfig.default.logged Free ⟨.start, []⟩ w ∧
        (w.log = [.posted 1, .posted 2, .completed 2 false, .completed 1 true, .failed [1]] ∧
          2 ∉ w.state.cq.map Wc.wrId ∧ 2 ∉ w.state.completedWrIds) :=
    exists_reach_of_exec blamedRun (by decide +kernel)
  refine ⟨w, hr, hlog, hcq, hstash, fun h => ?_⟩
  obtain ⟨id, hid, hbad⟩ :=
    h.own [.posted 1, .posted 2, .completed 2 false, .completed 1 true] [] [1] hlog
  obtain rfl := List.mem_singleton.mp hid
  revert hbad
  decide

end HMC.Rdma
