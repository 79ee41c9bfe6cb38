import HMC.Rdma.Completion
import Mathlib.Data.Finset.Option

/-!
# The steps of the waits

What one step of `waitWrId` or `waitWrIdMulti` does, said once for both routines. A step of a thread
inside a wait returns, goes on at another place, or polls an empty queue (`RunOutcome`); a call
returns at once or begins with the first look (`WaitConfig.CallOutcome`). In each case the shared
part of the state changes little (`Touched`): only the holder of `cq_poll_mu_` puts ids into
`completed_wr_ids_`.

`Guarded` holds in every run, with no condition. Whoever is past the lock holds it, and from its
second look on it has its completions to itself: what it still waits for is not in
`completed_wr_ids_`, and nobody else can put it there.

The two routines differ in what they do with a batch, and in little else, so a result about both is
proved from the outcomes and looks at no stage of either. What such a result needs to know of a
wait is read off its place: what it still waits for (`WaitPc.missing`), whether it has had its first
look (`WaitPc.looked`), and a bound on the steps that are left to it (`WaitPc.left`), which every
step that does not poll in vain makes smaller.
-/

namespace HMC.Rdma

open HMC.Machine

/-! ### What a thread waits for -/

/-- The stages after the second look. -/
def WaitStage.searched : WaitStage → Bool
  | .poll | .batch _ _ => true
  | _ => false

namespace WaitPc

/-- The ids that it has not found yet. -/
def missing : WaitPc → Finset ℕ
  | idle _ => ∅
  | single target _ => {target}
  | multi _ pending _ => pending

/-- The wait is past its first look into `completed_wr_ids_`. -/
def looked : WaitPc → Bool
  | idle _ | single _ .first | multi _ _ .first => false
  | _ => true

/-- The wait is about to take `cq_poll_mu_`. -/
def atLock : WaitPc → Bool
  | single _ .lock | multi _ _ .lock => true
  | _ => false

def searched : WaitPc → Bool
  | idle _ => false
  | single _ stage | multi _ _ stage => stage.searched

/-- There is something that the wait has not found yet. In a batch it may have found the last id. -/
def seeks : WaitPc → Bool
  | idle _ | multi _ _ (.batch _ true) => false
  | _ => true

theorem locked_of_searched {pc : WaitPc} (h : pc.searched = true) : pc.locked = true := by
  cases pc with
  | idle => cases h
  | single target stage | multi targets pending stage =>
    cases stage <;> first | rfl | cases h

theorem busy_of_locked {pc : WaitPc} (h : pc.locked = true) : pc.isIdle = false := by
  cases pc with
  | idle => cases h
  | _ => rfl

theorem not_atLock_of_locked {pc : WaitPc} (h : pc.locked = true) : pc.atLock = false := by
  cases pc with
  | idle => cases h
  | single target stage | multi targets pending stage =>
    cases stage <;> first | rfl | cases h

/-- A bound on the steps that are left to the wait. -/
def left (s : WaitState) : WaitPc → ℕ
  | idle _ => 0
  | single _ stage | multi _ _ stage => stage.bound s

end WaitPc

/-- The thread that makes the step. -/
def WaitAct.thread : WaitAct → Option ℕ
  | .waitWrId t _ | .waitWrIdMulti t _ | .run t _ _ => some t
  | .post _ | .complete _ _ => none

/-- The thread and the ids of a call. -/
def WaitAct.call : WaitAct → Option (ℕ × List ℕ)
  | .waitWrId t id => some (t, [id])
  | .waitWrIdMulti t ids => some (t, ids)
  | _ => none

def WaitAct.isCall (a : WaitAct) : Bool := a.call.isSome

/-- A step inside a wait. -/
def WaitAct.isRun : WaitAct → Bool
  | .run _ _ _ => true
  | _ => false

namespace WaitState

variable (s : WaitState) (t : ℕ)

/-- All the requests that thread `t` still waits for have completed, and no wait has reported
them. -/
def Ready : Prop := ∀ id ∈ (s.thread t).missing, id ∈ s.unreported

/-- No request is waited for by two threads. -/
def Apart : Prop :=
  ∀ u v, u ≠ v → ∀ id ∈ (s.thread u).targets, id ∉ (s.thread v).targets

end WaitState

/-! ### The lock and the set -/

/-- Whoever is past `cq_poll_mu_` holds it; what it waits for is not in `completed_wr_ids_` once it
has looked there. -/
structure Guarded (s : WaitState) : Prop where
  held : ∀ t, (s.thread t).locked = true → s.pollOwner = some t
  unstashed : ∀ t, (s.thread t).searched = true → ∀ id ∈ (s.thread t).missing, id ∉ s.completedWrIds
  seeks : ∀ t, (s.thread t).seeks = true → (s.thread t).missing.Nonempty

/-- A step of thread `u` may take what it likes out of the completion queue and out of
`completed_wr_ids_`. It puts something there, or takes the lock, only as its holder. -/
structure Touched (s s₁ : WaitState) (u : ℕ) : Prop where
  thread : s₁.thread = s.thread
  unreported : s₁.unreported = s.unreported
  cq_le : s₁.cq.length ≤ s.cq.length
  stash : ∀ id ∈ s₁.completedWrIds, id ∈ s.completedWrIds ∨ (s.thread u).locked = true
  owner : s₁.pollOwner = s.pollOwner ∨ s.pollOwner = none ∧ s₁.pollOwner = some u

/-- The wait of thread `u` goes on at `pc`. -/
structure Onward (s s₁ : WaitState) (u : ℕ) (pc : WaitPc) : Prop extends Touched s s₁ u where
  busy : pc.isIdle = false
  looked : pc.looked = true
  targets : pc.targets = (s.thread u).targets
  missing : pc.missing ⊆ (s.thread u).missing
  unstashed : pc.searched = true → ∀ id ∈ pc.missing, id ∉ s₁.completedWrIds
  seeks : pc.seeks = true → pc.missing.Nonempty
  held : pc.locked = true → s₁.pollOwner = some u
  first : (s.thread u).looked = false → ¬ (s.thread u).missing ⊆ s.completedWrIds
  taken : s₁.pollOwner ≠ s.pollOwner → (s.thread u).atLock = true
  less : pc.left s₁ < (s.thread u).left s

/-- What a step of thread `u` comes to: its wait returns, with something other than `SUCCESS` only
for a reason, it goes on, or it polls an empty queue. -/
inductive RunOutcome (s : WaitState) (u : ℕ) (polled : Option ℕ) (late : Bool) : WaitState → Prop
  | returned {s₁ : WaitState} {ret : Status} {ids : List ℕ} (touched : Touched s s₁ u)
      (ids_eq : ret = .success → ids = (s.thread u).targets)
      (fails : ret ≠ .success → polled = none ∨ late = true ∨
        ∃ wc ∈ (s.thread u).rest, wc.ok = false)
      (owner : s₁.pollOwner = s.pollOwner) : RunOutcome s u polled late (s₁.finish u ret ids)
  | onward {s₁ : WaitState} {pc : WaitPc} (next : Onward s s₁ u pc) :
      RunOutcome s u polled late (s₁.goto u pc)
  | spins (searched : (s.thread u).searched = true) (rest : (s.thread u).rest = [])
      (seeks : (s.thread u).seeks = true) (empty : (∀ n, polled = some n → 0 < n) → s.cq = []) :
      RunOutcome s u polled late s

namespace Touched

variable {s s₁ : WaitState} {u : ℕ}

theorem refl (s : WaitState) (u : ℕ) : Touched s s u :=
  ⟨rfl, rfl, Nat.le_refl _, fun _ h => .inl h, .inl rfl⟩

theorem unstash (s : WaitState) (u : ℕ) (ids : Finset ℕ) : Touched s (s.unstash ids) u :=
  ⟨rfl, rfl, Nat.le_refl _, fun _ h => .inl (Finset.mem_sdiff.mp h).1, .inl rfl⟩

theorem stashed (hl : (s.thread u).locked = true) (id : ℕ) : Touched s (s.stash id) u :=
  ⟨rfl, rfl, Nat.le_refl _, fun _ _ => .inr hl, .inl rfl⟩

theorem polled (s : WaitState) (u capacity n : ℕ) : Touched s (s.polled capacity n).2 u :=
  ⟨rfl, rfl, by simp [WaitState.polled], fun _ h => .inl h, .inl rfl⟩

theorem locked (h : s.pollOwner = none) : Touched s { s with pollOwner := some u } u :=
  ⟨rfl, rfl, Nat.le_refl _, fun _ h => .inl h, .inr ⟨h, rfl⟩⟩

end Touched

/-- A poll that hands out nothing has found nothing. -/
theorem eq_nil_of_polled {s : WaitState} {capacity n : ℕ} (hn : 0 < n) (hcap : 0 < capacity)
    (h : (s.polled capacity n).1 = []) : s.cq = [] := by
  have hlen := congrArg List.length h
  simp only [WaitState.polled, List.length_take, List.length_nil] at hlen
  exact List.eq_nil_of_length_eq_zero (by omega)

/-- A batch is nearer to the end than the poll that has handed it out. -/
theorem bound_polled {s : WaitState} {capacity n : ℕ} (h : (s.polled capacity n).1 ≠ []) :
    (WaitStage.batch (s.polled capacity n).1 false).bound (s.polled capacity n).2 <
      WaitStage.poll.bound s := by
  have hpos := List.length_pos_of_ne_nil h
  simp only [WaitStage.bound, WaitState.polled, List.length_take, List.length_drop] at hpos ⊢
  omega

namespace Guarded

variable {s s' s₁ : WaitState} {u : ℕ} {polled : Option ℕ} {late : Bool} {capacity : ℕ}

/-- `waitWrId` goes on at another stage. -/
theorem single_onward {target : ℕ} {stage stage' : WaitStage}
    (hpc : s.thread u = .single target stage) (touched : Touched s s₁ u) (hnew : stage' ≠ .first)
    (hfirst : stage = .first → target ∉ s.completedWrIds)
    (hun : stage'.searched = true → target ∉ s₁.completedWrIds)
    (hheld : stage'.locked = true → s₁.pollOwner = some u)
    (htaken : s₁.pollOwner ≠ s.pollOwner → stage = .lock)
    (hless : stage'.bound s₁ < stage.bound s) :
    RunOutcome s u polled late (s₁.goto u (.single target stage')) := by
  refine .onward
    { touched with
      busy := rfl
      looked := by cases stage' <;> first | rfl | exact absurd rfl hnew
      targets := by rw [hpc]; rfl
      missing := by rw [hpc]; exact Finset.Subset.refl _
      unstashed := fun hp id hid => Finset.mem_singleton.mp hid ▸ hun hp
      seeks := fun _ => Finset.singleton_nonempty _
      held := hheld
      first := fun hl => ?_
      taken := fun hne => by rw [hpc, htaken hne]; rfl
      less := by rw [hpc]; exact hless }
  rw [hpc] at hl ⊢
  cases stage with
  | first => simpa [WaitPc.missing] using hfirst rfl
  | _ => cases hl

/-- One step of `waitWrId`. -/
theorem stepSingle (h : Guarded s) {target : ℕ} {stage : WaitStage}
    (hpc : s.thread u = .single target stage) (hcap : 0 < capacity)
    (hs : s.stepSingle u capacity polled target stage = some s') :
    RunOutcome s u polled late s' := by
  have hheld : stage.locked = true → s.pollOwner = some u := by
    have := h.held u
    rwa [hpc] at this
  have hun : stage.searched = true → target ∉ s.completedWrIds := by
    have := h.unstashed u
    rw [hpc] at this
    exact fun hp => this hp target (Finset.mem_singleton_self _)
  have hfound : RunOutcome s u polled late ((s.unstash {target}).finish u .success [target]) :=
    .returned (.unstash s u {target}) (fun _ => by rw [hpc]; rfl) (fun hne => absurd rfl hne) rfl
  have hkept : s.pollOwner ≠ s.pollOwner → stage = .lock := fun hne => absurd rfl hne
  cases stage with
  | first =>
    simp only [WaitState.stepSingle] at hs
    split_ifs at hs with hmem <;> cases hs
    · exact hfound
    · exact single_onward hpc (.refl s u) (by simp) (fun _ => hmem) (fun hp => by cases hp)
        (fun hl => by cases hl) hkept (Nat.lt_succ_self _)
  | lock =>
    simp only [WaitState.stepSingle] at hs
    split_ifs at hs with hfree
    cases hs
    exact single_onward hpc (.locked hfree) (by simp) (fun hf => by cases hf)
      (fun hp => by cases hp) (fun _ => rfl) (fun _ => rfl) (Nat.lt_succ_self _)
  | second =>
    simp only [WaitState.stepSingle] at hs
    split_ifs at hs with hmem <;> cases hs
    · exact hfound
    · refine single_onward hpc (.refl s u) (by simp) (fun hf => by cases hf) (fun _ => hmem)
        (fun _ => hheld rfl) hkept ?_
      simp only [WaitStage.bound]
      omega
  | poll =>
    simp only [WaitState.stepSingle] at hs
    cases polled with
    | none =>
      cases hs
      exact .returned (.refl s u) (fun hret => by cases hret) (fun _ => .inl rfl) rfl
    | some n =>
      simp only at hs
      split at hs
      · rename_i s₁ hpoll
        cases hs
        refine .spins (by rw [hpc]; rfl) (by rw [hpc]; rfl) (by rw [hpc]; rfl) fun hpos => ?_
        exact eq_nil_of_polled (hpos n rfl) hcap (congrArg Prod.fst hpoll)
      · rename_i batch s₁ hne hpoll
        cases hs
        obtain ⟨rfl, rfl⟩ := Prod.mk.inj hpoll
        exact single_onward hpc (.polled s u capacity n) (by simp) (fun hf => by cases hf)
          (fun _ => hun rfl) (fun _ => hheld rfl) hkept (bound_polled hne)
  | batch rest progress =>
    cases rest with
    | nil =>
      cases hs
      refine single_onward hpc (.refl s u) (by simp) (fun hf => by cases hf) (fun _ => hun rfl)
        (fun _ => hheld rfl) hkept ?_
      simp only [WaitStage.bound]
      omega
    | cons wc rest =>
      simp only [WaitState.stepSingle] at hs
      split_ifs at hs with hbad htarget <;> cases hs
      · refine .returned (.refl s u) (fun hret => by cases hret)
          (fun _ => .inr (.inr ⟨wc, ?_, hbad⟩)) rfl
        rw [hpc]
        exact List.mem_cons_self
      · exact .returned (.refl s u) (fun _ => by rw [hpc]; rfl) (fun hne => absurd rfl hne) rfl
      · -- the completion of another request goes to `completed_wr_ids_`
        refine single_onward hpc (.stashed (by rw [hpc]; rfl) wc.wrId) (by simp)
          (fun hf => by cases hf) (fun _ => ?_) (fun _ => hheld rfl) hkept
          (Nat.lt_succ_self _)
        simpa [WaitState.stash, Ne.symm htarget] using hun rfl

/-- `waitWrIdMulti` goes on at another stage. -/
theorem multi_onward {targets : List ℕ} {pending pending' : Finset ℕ} {stage stage' : WaitStage}
    (hpc : s.thread u = .multi targets pending stage) (touched : Touched s s₁ u)
    (hnew : stage' ≠ .first) (hsub : pending' ⊆ pending)
    (hfirst : stage = .first → ¬ pending ⊆ s.completedWrIds)
    (hun : stage'.searched = true → ∀ id ∈ pending', id ∉ s₁.completedWrIds)
    (hseeks : (WaitPc.multi targets pending' stage').seeks = true → pending'.Nonempty)
    (hheld : stage'.locked = true → s₁.pollOwner = some u)
    (htaken : s₁.pollOwner ≠ s.pollOwner → stage = .lock)
    (hless : stage'.bound s₁ < stage.bound s) :
    RunOutcome s u polled late (s₁.goto u (.multi targets pending' stage')) := by
  refine .onward
    { touched with
      busy := rfl
      looked := by cases stage' <;> first | rfl | exact absurd rfl hnew
      targets := by rw [hpc]; rfl
      missing := by rw [hpc]; exact hsub
      unstashed := hun
      seeks := hseeks
      held := hheld
      first := fun hl => ?_
      taken := fun hne => by rw [hpc, htaken hne]; rfl
      less := by rw [hpc]; exact hless }
  rw [hpc] at hl ⊢
  cases stage with
  | first => exact hfirst rfl
  | _ => cases hl

/-- One step of `waitWrIdMulti`. -/
theorem stepMulti (h : Guarded s) {targets : List ℕ} {pending : Finset ℕ} {stage : WaitStage}
    (hpc : s.thread u = .multi targets pending stage) (hcap : 0 < capacity)
    (hs : s.stepMulti u capacity polled late targets pending stage = some s') :
    RunOutcome s u polled late s' := by
  have hheld : stage.locked = true → s.pollOwner = some u := by
    have := h.held u
    rwa [hpc] at this
  have hun : stage.searched = true → ∀ id ∈ pending, id ∉ s.completedWrIds := by
    have := h.unstashed u
    rwa [hpc] at this
  have hseeks : (WaitPc.multi targets pending stage).seeks = true → pending.Nonempty := by
    have := h.seeks u
    rwa [hpc] at this
  have hfound : ∀ ids, RunOutcome s u polled late ((s.unstash ids).finish u .success targets) :=
    fun ids => .returned (.unstash s u ids) (fun _ => by rw [hpc]; rfl)
      (fun hne => absurd rfl hne) rfl
  have hkept : s.pollOwner ≠ s.pollOwner → stage = .lock := fun hne => absurd rfl hne
  -- what it looks for and does not find
  have hleft : ¬ pending \ s.completedWrIds = ∅ → ¬ pending ⊆ s.completedWrIds :=
    fun hne hsub => hne (Finset.sdiff_eq_empty_iff_subset.mpr hsub)
  cases stage with
  | first =>
    simp only [WaitState.stepMulti] at hs
    split_ifs at hs with hall <;> cases hs
    · exact hfound pending
    · exact multi_onward hpc (.unstash s u pending) (by simp) Finset.sdiff_subset
        (fun _ => hleft hall) (fun hp => by cases hp)
        (fun _ => Finset.nonempty_iff_ne_empty.mpr hall) (fun hl => by cases hl) hkept
        (Nat.lt_succ_self _)
  | lock =>
    simp only [WaitState.stepMulti] at hs
    split_ifs at hs with hfree
    cases hs
    exact multi_onward hpc (.locked hfree) (by simp) (Finset.Subset.refl _)
      (fun hf => by cases hf) (fun hp => by cases hp) (fun _ => hseeks rfl) (fun _ => rfl)
      (fun _ => rfl) (Nat.lt_succ_self _)
  | second =>
    simp only [WaitState.stepMulti] at hs
    split_ifs at hs with hall <;> cases hs
    · exact hfound pending
    · refine multi_onward hpc (.unstash s u pending) (by simp) Finset.sdiff_subset
        (fun hf => by cases hf) (fun _ id hid => ?_)
        (fun _ => Finset.nonempty_iff_ne_empty.mpr hall) (fun _ => hheld rfl) hkept ?_
      · exact fun hmem => (Finset.mem_sdiff.mp hmem).2 (Finset.mem_sdiff.mp hid).1
      · simp only [WaitStage.bound, WaitState.unstash]
        omega
  | poll =>
    simp only [WaitState.stepMulti] at hs
    cases polled with
    | none =>
      cases hs
      exact .returned (.refl s u) (fun hret => by cases hret) (fun _ => .inl rfl) rfl
    | some n =>
      simp only at hs
      split at hs
      · rename_i s₁ hpoll
        split_ifs at hs with hlate <;> cases hs
        · exact .returned (.refl s u) (fun hret => by cases hret) (fun _ => .inr (.inl hlate)) rfl
        · refine .spins (by rw [hpc]; rfl) (by rw [hpc]; rfl) (by rw [hpc]; rfl) fun hpos => ?_
          exact eq_nil_of_polled (hpos n rfl) hcap (congrArg Prod.fst hpoll)
      · rename_i batch s₁ hne hpoll
        cases hs
        obtain ⟨rfl, rfl⟩ := Prod.mk.inj hpoll
        exact multi_onward hpc (.polled s u capacity n) (by simp) (Finset.Subset.refl _)
          (fun hf => by cases hf) (fun _ => hun rfl) (fun _ => hseeks rfl) (fun _ => hheld rfl)
          hkept (bound_polled hne)
  | batch rest progress =>
    cases rest with
    | nil =>
      have hpoll : pending.Nonempty →
          RunOutcome s u polled late (s.goto u (.multi targets pending .poll)) := fun hne => by
        refine multi_onward hpc (.refl s u) (by simp) (Finset.Subset.refl _)
          (fun hf => by cases hf) (fun _ => hun rfl) (fun _ => hne) (fun _ => hheld rfl) hkept ?_
        simp only [WaitStage.bound]
        omega
      simp only [WaitState.stepMulti] at hs
      split_ifs at hs with hprog hempty hlate <;> cases hs
      · exact .returned (.refl s u) (fun _ => by rw [hpc]; rfl) (fun hne => absurd rfl hne) rfl
      · exact hpoll (Finset.nonempty_iff_ne_empty.mpr hempty)
      · exact .returned (.refl s u) (fun hret => by cases hret) (fun _ => .inr (.inl hlate)) rfl
      · rw [Bool.not_eq_true] at hprog
        exact hpoll (hseeks (by rw [hprog]; rfl))
    | cons wc rest =>
      simp only [WaitState.stepMulti] at hs
      split_ifs at hs with hbad hpend <;> cases hs
      · refine .returned (.refl s u) (fun hret => by cases hret)
          (fun _ => .inr (.inr ⟨wc, ?_, hbad⟩)) rfl
        rw [hpc]
        exact List.mem_cons_self
      · -- one of the ids that it waits for
        exact multi_onward hpc (.refl s u) (by simp) (Finset.erase_subset _ _)
          (fun hf => by cases hf) (fun _ id hid => hun rfl id (Finset.mem_of_mem_erase hid))
          (fun hs => by cases hs) (fun _ => hheld rfl) hkept (Nat.lt_succ_self _)
      · -- the completion of another request goes to `completed_wr_ids_`
        refine multi_onward hpc (.stashed (by rw [hpc]; rfl) wc.wrId) (by simp)
          (Finset.Subset.refl _) (fun hf => by cases hf) (fun _ id hid => ?_) (fun hsk => ?_)
          (fun _ => hheld rfl) hkept (Nat.lt_succ_self _)
        · have hne : id ≠ wc.wrId := fun he => hpend (he ▸ hid)
          simpa [WaitState.stash, hne] using hun rfl id hid
        · cases progress with
          | false => exact hseeks rfl
          | true => cases hsk

/-- A step of thread `u`, which goes to `p` and leaves the lock to the others. -/
theorem update (h : Guarded s) (touched : Touched s s₁ u) {p : WaitPc}
    (hthread : s'.thread = Function.update s.thread u p)
    (hstash : s'.completedWrIds = s₁.completedWrIds)
    (howner : ∀ w, w ≠ u → s.pollOwner = some w → s'.pollOwner = some w)
    (hheld : p.locked = true → s'.pollOwner = some u)
    (hun : p.searched = true → ∀ id ∈ p.missing, id ∉ s₁.completedWrIds)
    (hseeks : p.seeks = true → p.missing.Nonempty) : Guarded s' := by
  have hself : s'.thread u = p := by rw [hthread, Function.update_self]
  have hother : ∀ w, w ≠ u → s'.thread w = s.thread w := fun w hw => by
    rw [hthread, Function.update_of_ne hw]
  refine ⟨fun w hl => ?_, fun w hp => ?_, fun w hsk => ?_⟩
  · by_cases hw : w = u
    · subst hw
      exact hheld (hself ▸ hl)
    · rw [hother w hw] at hl
      exact howner w hw (h.held w hl)
  · rw [hstash]
    by_cases hw : w = u
    · subst hw
      rw [hself] at hp ⊢
      exact hun hp
    · rw [hother w hw] at hp ⊢
      intro id hid hmem
      -- only the holder of the lock stashes, and that is `w`
      obtain hmem | hl := touched.stash id hmem
      · exact h.unstashed w hp id hid hmem
      · have hown := h.held w (WaitPc.locked_of_searched hp)
        exact hw (Option.some.inj (hown.symm.trans (h.held u hl)))
  · by_cases hw : w = u
    · subst hw
      rw [hself] at hsk ⊢
      exact hseeks hsk
    · rw [hother w hw] at hsk ⊢
      exact h.seeks w hsk

theorem finish (h : Guarded s) (touched : Touched s s₁ u) (howner : s₁.pollOwner = s.pollOwner)
    (ret : Status) (ids : List ℕ) : Guarded (s₁.finish u ret ids) := by
  refine h.update (p := .idle (some ret)) touched ?_ rfl (fun w hw ho => ?_)
    (fun hl => by cases hl) (fun hp => by cases hp) (fun hsk => by cases hsk)
  · rw [WaitState.finish, touched.thread]
  · simp only [WaitState.finish, howner, ho, Option.some.injEq]
    exact if_neg hw

theorem start : Guarded .start where
  held t h := by cases h
  unstashed t h := by cases h
  seeks t h := by cases h

end Guarded

/-! ### The steps of a run -/

namespace WaitConfig

variable {c : WaitConfig} {s s' : WaitState} {u : ℕ} {ids : List ℕ}

theorem busy_of_run {polled : Option ℕ} {late : Bool}
    (hs : c.step s (.run u polled late) = some s') : (s.thread u).isIdle = false := by
  cases hpc : s.thread u with
  | idle last =>
    simp only [step, hpc] at hs
    cases hs
  | _ => rfl

theorem run_outcome (h : Guarded s) {polled : Option ℕ} {late : Bool}
    (hs : c.step s (.run u polled late) = some s') : RunOutcome s u polled late s' := by
  simp only [step] at hs
  split at hs
  · cases hs
  · rename_i target stage hpc
    exact h.stepSingle hpc c.capacity_pos hs
  · rename_i targets pending stage hpc
    exact h.stepMulti hpc c.capacity_pos hs

/-- What a call of thread `u` for `ids` comes to: it returns at once, or it has not looked yet. -/
inductive CallOutcome (s : WaitState) (u : ℕ) (ids : List ℕ) : WaitState → Prop
  | refused {ret : Status} : CallOutcome s u ids (s.finish u ret [])
  | started {pc : WaitPc} (busy : pc.isIdle = false) (looked : pc.looked = false)
      (locked : pc.locked = false) (targets : pc.targets = ids)
      (missing : pc.missing = ids.toFinset) (nonempty : ids ≠ [])
      (left : pc.left s = 3 * s.cq.length + 5) :
      CallOutcome s u ids (s.goto u pc)

theorem call_outcome {a : WaitAct} (ha : a.call = some (u, ids)) (hs : c.step s a = some s') :
    (∃ last, s.thread u = .idle last) ∧ CallOutcome s u ids s' := by
  cases a with
  | waitWrId t id =>
    obtain ⟨rfl, rfl⟩ := Prod.mk.inj (Option.some.inj ha)
    simp only [step] at hs
    split at hs
    · rename_i last hpc
      split_ifs at hs <;> cases hs
      · exact ⟨⟨last, hpc⟩, .refused⟩
      · exact ⟨⟨last, hpc⟩, .started rfl rfl rfl rfl rfl (by simp) rfl⟩
    · cases hs
  | waitWrIdMulti t targets =>
    obtain ⟨rfl, rfl⟩ := Prod.mk.inj (Option.some.inj ha)
    simp only [step] at hs
    split at hs
    · rename_i last hpc
      split_ifs at hs with _ hnil <;> cases hs
      · exact ⟨⟨last, hpc⟩, .refused⟩
      · exact ⟨⟨last, hpc⟩, .refused⟩
      · exact ⟨⟨last, hpc⟩, .started rfl rfl rfl rfl rfl hnil rfl⟩
    · cases hs
  | _ => cases ha

end WaitConfig

namespace Guarded

variable {c : WaitConfig} {s s' : WaitState}

/-- The lock and the set are kept by every step. -/
theorem step (h : Guarded s) {a : WaitAct} (hs : c.step s a = some s') : Guarded s' := by
  cases hcall : a.call with
  | some p =>
    obtain ⟨u, ids⟩ := p
    obtain ⟨-, hout⟩ := c.call_outcome hcall hs
    cases hout with
    | refused => exact h.finish (.refl s _) rfl _ _
    | @started pc busy looked locked targets missing nonempty left =>
      refine h.update (p := pc) (.refl s u) rfl rfl (fun _ _ ho => ho)
        (fun hl => by rw [locked] at hl; cases hl) (fun hp => ?_) fun _ => ?_
      · rw [WaitPc.locked_of_searched hp] at locked
        cases locked
      · rw [missing]
        exact (List.toFinset_nonempty_iff _).mpr nonempty
  | none =>
    cases a with
    | post id =>
      cases hs
      exact { h with }
    | complete id ok =>
      simp only [WaitConfig.step] at hs
      split_ifs at hs
      cases hs
      exact { h with }
    | run u polled late =>
      cases c.run_outcome h hs with
      | returned touched ids_eq fails owner => exact h.finish touched owner _ _
      | @onward s₁ pc next =>
        refine h.update (p := pc) next.toTouched ?_ rfl (fun w hw ho => ?_) next.held
          next.unstashed next.seeks
        · rw [WaitState.goto, next.thread]
        · obtain hkeep | ⟨hfree, -⟩ := next.owner
          · exact hkeep.trans ho
          · rw [hfree] at ho
            cases ho
      | spins => exact h
    | waitWrId | waitWrIdMulti => cases hcall

theorem reach {ok : WaitState → WaitAct → Prop} (hr : Reach c.step ok .start s) : Guarded s :=
  hr.invariant start fun _ _ _ _ h _ hs => h.step hs

end Guarded

namespace WaitConfig

variable {c : WaitConfig} {s s' : WaitState} {u w : ℕ}

/-- A wait can go on, unless it is before a lock that is taken. -/
theorem enabled (hbusy : (s.thread u).isIdle = false)
    (hlock : (s.thread u).atLock = true → s.pollOwner = none) (polled : Option ℕ) (late : Bool) :
    (c.step s (.run u polled late)).isSome = true := by
  cases hpc : s.thread u with
  | idle last =>
    rw [hpc] at hbusy
    cases hbusy
  | single target stage =>
    simp only [step, hpc]
    cases stage with
    | first | second =>
      simp only [WaitState.stepSingle]
      split_ifs <;> rfl
    | lock =>
      simp only [WaitState.stepSingle]
      rw [if_pos (hlock (by rw [hpc]; rfl))]
      rfl
    | poll =>
      simp only [WaitState.stepSingle]
      cases polled with
      | none => rfl
      | some n =>
        dsimp only
        split <;> rfl
    | batch rest progress =>
      cases rest with
      | nil => rfl
      | cons wc rest =>
        simp only [WaitState.stepSingle]
        split_ifs <;> rfl
  | multi targets pending stage =>
    simp only [step, hpc]
    cases stage with
    | first | second =>
      simp only [WaitState.stepMulti]
      split_ifs <;> rfl
    | lock =>
      simp only [WaitState.stepMulti]
      rw [if_pos (hlock (by rw [hpc]; rfl))]
      rfl
    | poll =>
      simp only [WaitState.stepMulti]
      cases polled with
      | none => rfl
      | some n =>
        dsimp only
        split
        · split_ifs <;> rfl
        · rfl
    | batch rest progress =>
      cases rest with
      | nil =>
        simp only [WaitState.stepMulti]
        split_ifs <;> rfl
      | cons wc rest =>
        simp only [WaitState.stepMulti]
        split_ifs <;> rfl

/-- A step leaves the other threads where they are. -/
theorem thread_of_ne (h : Guarded s) {a : WaitAct} (hs : c.step s a = some s')
    (hw : a.thread ≠ some w) : s'.thread w = s.thread w := by
  cases a with
  | post id =>
    cases hs
    rfl
  | complete id ok =>
    simp only [step] at hs
    split_ifs at hs
    cases hs
    rfl
  | waitWrId u id =>
    have hne : w ≠ u := fun he => hw (by rw [he]; rfl)
    cases (c.call_outcome (a := .waitWrId u id) rfl hs).2 <;> exact Function.update_of_ne hne _ _
  | waitWrIdMulti u ids =>
    have hne : w ≠ u := fun he => hw (by rw [he]; rfl)
    cases (c.call_outcome (a := .waitWrIdMulti u ids) rfl hs).2 <;>
      exact Function.update_of_ne hne _ _
  | run u polled late =>
    have hne : w ≠ u := fun he => hw (by rw [he]; rfl)
    cases c.run_outcome h hs with
    | returned touched => simp only [WaitState.finish, Function.update_of_ne hne, touched.thread]
    | onward next => simp only [WaitState.goto, Function.update_of_ne hne, next.thread]
    | spins => rfl

/-- At any time all threads but finitely many are between calls. -/
theorem exists_busy {ok : WaitState → WaitAct → Prop} (hr : Reach c.step ok .start s) :
    ∃ A : Finset ℕ, ∀ w, w ∉ A → (s.thread w).isIdle = true := by
  induction hr with
  | refl => exact ⟨∅, fun _ _ => rfl⟩
  | @tail s s' a hr _ hs ih =>
    obtain ⟨A, hA⟩ := ih
    refine ⟨A ∪ a.thread.toFinset, fun w hw => ?_⟩
    rw [Finset.mem_union, not_or, Option.mem_toFinset] at hw
    rw [thread_of_ne (Guarded.reach hr) hs hw.2]
    exact hA w hw.1

end WaitConfig

end HMC.Rdma
