import HMC.Rdma.WaitSteps
import Mathlib.Algebra.Order.BigOperators.Group.Finset

/-!
# Waits on completed requests

No completion is lost, so a wait on a request that has completed returns `SUCCESS` without a further
completion. `nothing_lost_of_tidy` says so of any number of threads in `waitWrId` and
`waitWrIdMulti`, under conditions on the steps (`WaitState.Tidy` on the run, and
`WaitState.Serving` while the wait is under way). Each of the conditions is needed:

* `batch_tail_lost`: `waitWrId` returns at its target and forgets the completions behind it;
* `blocked_behind_wait`: a wait for a completed request is stuck behind one that holds
  `cq_poll_mu_` until its own request completes;
* `timeout_before_completion`: `waitWrIdMulti` is late after a batch of others, with its completion
  next in the queue.

A step of a wait returns, goes on, or polls an empty queue (`RunOutcome`), and all that follows is
read off these three cases. A wait that is past its second look and has not found everything yet
finds its completions neither in `completed_wr_ids_`, which only it may add to now, nor in the
hands of others, so they are in the queue and its polls do not come back empty
(`Service.not_empty`). Hence every step of a wait uses up some of the steps that are left to all
waits together (`Service.run_left`), and what is left is finite.
-/

namespace HMC.Rdma

open HMC.Machine

/-! ### A wait that is served -/

namespace WaitState

variable (s : WaitState) (t : ℕ)

/-- The lock is with nobody whose requests have not all completed. -/
def Unblocked : Prop := ∀ w, s.pollOwner = some w → s.Ready w

/-- What is assumed of the steps while thread `t` waits: nothing completes any more; `t` makes no
other call, its polls do not fail and it is not late; nobody else waits for its requests; a poll
hands out an entry if there is one; and `cq_poll_mu_` is not with a wait for a request that has not
completed when `t` comes to it, nor does such a wait take it before `t`. -/
def Serving : WaitAct → Prop
  | .post _ => True
  | .complete _ _ => False
  | .waitWrId u id => u ≠ t ∧ ∀ w, id ∉ (s.thread w).targets
  | .waitWrIdMulti u ids => u ≠ t ∧ ∀ w, ∀ id ∈ ids, id ∉ (s.thread w).targets
  | .run u polled late =>
    (∀ n, polled = some n → 0 < n) ∧ (u = t → polled ≠ none ∧ late = false) ∧
      if u = t then
        (s.thread t).looked = true ∨ (s.thread t).missing ⊆ s.completedWrIds ∨ s.Unblocked
      else (s.thread t).looked = true → (s.thread u).atLock = true → s.Ready u

end WaitState

/-- The wait of thread `t` is under way, and will be served. -/
structure Service (s : WaitState) (t : ℕ) : Prop where
  inv : WaitInv s
  guarded : Guarded s
  apart : s.Apart
  busy : (s.thread t).isIdle = false
  ready : s.Ready t
  unblocked : (s.thread t).looked = true → s.Unblocked

namespace WaitInv

variable {s s' : WaitState} {u w : ℕ}

theorem targets_of_missing (h : WaitInv s) {id : ℕ} (hid : id ∈ (s.thread w).missing) :
    id ∈ (s.thread w).targets := by
  have hsound := h.sound w
  cases hpc : s.thread w with
  | idle last =>
    rw [hpc] at hid
    cases hid
  | single target stage =>
    rw [hpc] at hid
    exact List.mem_singleton.mpr (Finset.mem_singleton.mp hid)
  | multi targets pending stage =>
    rw [hpc] at hid hsound
    exact hsound id hid

/-- A step of another thread reports nothing that thread `w` waits for. -/
theorem ready_of_ne (h : WaitInv s) (hapart : s.Apart) (hw : w ≠ u) (hready : s.Ready w)
    (hthread : s'.thread w = s.thread w)
    (hun : ∀ id ∈ s.unreported, id ∉ (s.thread u).targets → id ∈ s'.unreported) : s'.Ready w := by
  intro id hid
  rw [hthread] at hid
  exact hun id (hready id hid) (hapart w u hw id (h.targets_of_missing hid))

end WaitInv

namespace Service

variable {c : WaitConfig} {s s' s₁ : WaitState} {t u : ℕ}

/-- A step of thread `u`, which goes to `p`. -/
theorem update (h : Service s t) (hinv : WaitInv s') (hguarded : Guarded s') {p : WaitPc}
    (hthread : s'.thread = Function.update s.thread u p)
    (htargets : ∀ id ∈ p.targets, id ∈ (s.thread u).targets ∨ ∀ w, id ∉ (s.thread w).targets)
    (hun : ∀ id ∈ s.unreported, id ∉ (s.thread u).targets → id ∈ s'.unreported)
    (hbusy : u = t → p.isIdle = false) (hready : u = t → s'.Ready t)
    (hunblocked : (s'.thread t).looked = true → s'.Unblocked) : Service s' t := by
  have hself : s'.thread u = p := by rw [hthread, Function.update_self]
  have hother : ∀ w, w ≠ u → s'.thread w = s.thread w := fun w hw => by
    rw [hthread, Function.update_of_ne hw]
  have hnew : ∀ w, w ≠ u → ∀ id ∈ p.targets, id ∉ (s.thread w).targets := fun w hw id hid =>
    (htargets id hid).elim (fun hmem => h.apart u w hw.symm id hmem) fun hno => hno w
  refine ⟨hinv, hguarded, fun v w hvw id hid => ?_, ?_, ?_, hunblocked⟩
  · by_cases hv : v = u
    · subst hv
      rw [hself] at hid
      rw [hother w hvw.symm]
      exact hnew w hvw.symm id hid
    · rw [hother v hv] at hid
      by_cases hw : w = u
      · subst hw
        rw [hself]
        exact fun hmem => hnew v hv id hmem hid
      · rw [hother w hw]
        exact h.apart v w hvw id hid
  · by_cases ht : u = t
    · subst ht
      rw [hself]
      exact hbusy rfl
    · rw [hother t (Ne.symm ht)]
      exact h.busy
  · by_cases ht : u = t
    · exact hready ht
    · exact h.inv.ready_of_ne h.apart (Ne.symm ht) h.ready (hother t (Ne.symm ht)) hun

/-- Another thread calls a wait. -/
theorem call (h : Service s t) (hinv : WaitInv s') {a : WaitAct} {ids : List ℕ}
    (ha : a.call = some (u, ids)) (hu : u ≠ t) (hids : ∀ w, ∀ id ∈ ids, id ∉ (s.thread w).targets)
    (hs : c.step s a = some s') : Service s' t := by
  have hguarded := h.guarded.step hs
  obtain ⟨⟨last, hidle⟩, hout⟩ := c.call_outcome ha hs
  -- the lock is not with `u`, and what the others wait for is as before
  have hfree : ∀ w, s.pollOwner = some w → w ≠ u := by
    rintro w ho rfl
    have hl := h.inv.owner w ho
    rw [hidle] at hl
    cases hl
  cases hout with
  | @refused ret =>
    have hun : (s.finish u ret []).unreported = s.unreported := by simp [WaitState.finish]
    refine h.update (p := .idle (some ret)) hinv hguarded rfl (fun id hid => by cases hid)
      (fun id hid _ => by rwa [hun]) (fun ht => absurd ht hu) (fun ht => absurd ht hu)
      fun hl w ho id hid => ?_
    simp only [WaitState.finish, Function.update_of_ne hu.symm] at hl ho hid
    split_ifs at ho with hown
    rw [Function.update_of_ne (hfree w ho)] at hid
    rw [hun]
    exact h.unblocked hl w ho id hid
  | @started pc busy looked locked targets missing nonempty left =>
    refine h.update (p := pc) hinv hguarded rfl (fun id hid => .inr fun w => ?_)
      (fun id hid _ => hid) (fun ht => absurd ht hu) (fun ht => absurd ht hu)
      fun hl w ho id hid => ?_
    · rw [targets] at hid
      exact hids w id hid
    · simp only [WaitState.goto, Function.update_of_ne hu.symm] at hl
      have ho' : s.pollOwner = some w := ho
      simp only [WaitState.goto, Function.update_of_ne (hfree w ho')] at hid
      exact h.unblocked hl w ho' id hid

/-- The wait of `t` returns nothing but `SUCCESS`. -/
theorem eq_success (h : Service s t) {polled : Option ℕ} {late : Bool} {ret : Status}
    (hpoll : polled ≠ none) (hlate : late = false)
    (fails : ret ≠ .success → polled = none ∨ late = true ∨
      ∃ wc ∈ (s.thread t).rest, wc.ok = false) : ret = .success := by
  by_contra hne
  obtain hp | hl | ⟨wc, hwc, hbad⟩ := fails hne
  · exact hpoll hp
  · rw [hlate] at hl
    cases hl
  · rw [h.inv.ok_rest t wc hwc] at hbad
    cases hbad

/-- A thread makes a step. -/
theorem run (h : Service s t) (hinv : WaitInv s') {polled : Option ℕ} {late : Bool}
    (hok : s.Serving t (.run u polled late)) (hs : c.step s (.run u polled late) = some s') :
    s'.thread t = .idle (some .success) ∨ Service s' t := by
  have hguarded := h.guarded.step hs
  obtain ⟨-, hown, hclear⟩ := hok
  cases c.run_outcome h.guarded hs with
  | @returned s₁ ret ids touched ids_eq fails owner =>
    by_cases ht : u = t
    · subst ht
      obtain rfl := h.eq_success (hown rfl).1 (hown rfl).2 fails
      exact .inl (Function.update_self ..)
    · right
      have hthread : (s₁.finish u ret ids).thread =
          Function.update s.thread u (.idle (some ret)) := by
        rw [WaitState.finish, touched.thread]
      have hun : ∀ id ∈ s.unreported, id ∉ (s.thread u).targets →
          id ∈ (s₁.finish u ret ids).unreported := fun id hid hno => by
        simp only [WaitState.finish, touched.unreported]
        split_ifs with hret
        · rw [ids_eq hret]
          simpa [hid] using hno
        · exact hid
      refine h.update hinv hguarded hthread (fun id hid => by cases hid) hun
        (fun h => absurd h ht) (fun h => absurd h ht) fun hl w ho => ?_
      rw [hthread, Function.update_of_ne (Ne.symm ht)] at hl
      simp only [WaitState.finish, owner] at ho
      split_ifs at ho with hfree
      have hw : w ≠ u := fun he => hfree (he ▸ ho)
      exact h.inv.ready_of_ne h.apart hw (h.unblocked hl w ho)
        (by rw [hthread, Function.update_of_ne hw]) hun
  | @onward s₁ pc next =>
    right
    have hthread : (s₁.goto u pc).thread = Function.update s.thread u pc := by
      rw [WaitState.goto, next.thread]
    have hun : (s₁.goto u pc).unreported = s.unreported := next.unreported
    -- whoever was ready is so
    have hready : ∀ w, s.Ready w → (s₁.goto u pc).Ready w := fun w hw id hid => by
      rw [hun]
      by_cases hwu : w = u
      · subst hwu
        rw [hthread, Function.update_self] at hid
        exact hw id (next.missing hid)
      · rw [hthread, Function.update_of_ne hwu] at hid
        exact hw id hid
    refine h.update hinv hguarded hthread (fun id hid => .inl (next.targets ▸ hid))
      (fun id hid _ => by rwa [hun]) (fun _ => next.busy) (fun _ => hready t h.ready)
      fun hl w ho => ?_
    by_cases ht : u = t
    · subst ht
      rw [if_pos rfl] at hclear
      obtain howner | ⟨-, howner⟩ := next.owner
      · have ho' : s.pollOwner = some w := howner ▸ ho
        obtain hlook | hfound | hfree := hclear
        · exact hready w (h.unblocked hlook w ho')
        · by_cases hlook : (s.thread u).looked = true
          · exact hready w (h.unblocked hlook w ho')
          · exact absurd hfound (next.first (Bool.not_eq_true _ ▸ hlook))
        · exact hready w (hfree w ho')
      · obtain rfl := Option.some.inj (howner.symm.trans ho)
        exact hready u h.ready
    · rw [if_neg ht] at hclear
      rw [hthread, Function.update_of_ne (Ne.symm ht)] at hl
      obtain howner | ⟨hnone, howner⟩ := next.owner
      · exact hready w (h.unblocked hl w (howner ▸ ho))
      · obtain rfl := Option.some.inj (howner.symm.trans ho)
        refine hready u (hclear hl (next.taken ?_))
        rw [hnone, howner]
        simp
  | spins => exact .inr h

/-- **One step** while `t` waits: it returns `SUCCESS`, or waits on as before. -/
theorem step (h : Service s t) {a : WaitAct} (htidy : s.Tidy a) (hok : s.Serving t a)
    (hs : c.step s a = some s') : s'.thread t = .idle (some .success) ∨ Service s' t := by
  have hsucc : a.Successful := by
    cases a with
    | complete => exact hok.elim
    | _ => trivial
  have hinv := h.inv.step hsucc htidy hs
  cases a with
  | post id =>
    cases hs
    exact .inr { h with inv := hinv, guarded := { h.guarded with } }
  | complete => exact hok.elim
  | waitWrId u id =>
    exact .inr (h.call hinv rfl hok.1 (fun w i hi => List.mem_singleton.mp hi ▸ hok.2 w) hs)
  | waitWrIdMulti u ids => exact .inr (h.call hinv rfl hok.1 hok.2 hs)
  | run u polled late => exact h.run hinv hok hs

end Service

/-! ### A wait is not stuck -/

namespace Service

variable {c : WaitConfig} {s s' : WaitState} {t u : ℕ}

/-- The thread itself can go on, or the one that it waits for. -/
theorem enabled (h : Service s t) : ∃ u, (u = t ∨ s.pollOwner = some u) ∧
    ∀ polled late, (c.step s (.run u polled late)).isSome = true := by
  cases ho : s.pollOwner with
  | none => exact ⟨t, .inl rfl, c.enabled h.busy fun _ => ho⟩
  | some w =>
    have hl := h.inv.owner w ho
    refine ⟨w, .inr rfl, c.enabled (WaitPc.busy_of_locked hl) fun hlock => ?_⟩
    rw [WaitPc.not_atLock_of_locked hl] at hlock
    cases hlock

/-- A wait for completed requests finds something in the completion queue when it polls. -/
theorem not_empty (h : Service s t) (hl : (s.thread t).looked = true)
    (hpolls : (s.thread u).searched = true) (hrest : (s.thread u).rest = [])
    (hseeks : (s.thread u).seeks = true) : s.cq ≠ [] := by
  intro hnil
  have hown := h.guarded.held u (WaitPc.locked_of_searched hpolls)
  obtain ⟨id, hid⟩ := h.guarded.seeks u hseeks
  obtain hp | hp | ⟨w, hp | hp⟩ := h.inv.placed id (h.unblocked hl u hown id hid)
  · rw [hnil] at hp
    cases hp
  · exact h.guarded.unstashed u hpolls id hid hp
  · -- in a batch: of the holder of the lock, which is `u`
    obtain ⟨wc, hwc, -⟩ := List.mem_map.mp hp
    have hlocked := WaitPc.locked_of_mem_rest hwc
    obtain rfl := Option.some.inj ((h.guarded.held w hlocked).symm.trans hown)
    rw [hrest] at hwc
    cases hwc
  · -- found by another wait for it
    cases hpc : s.thread w with
    | multi targets pending stage =>
      rw [hpc] at hp
      by_cases hw : w = u
      · subst hw
        rw [hpc] at hid
        exact hp.2 hid
      · refine h.apart u w (Ne.symm hw) id (h.inv.targets_of_missing hid) ?_
        rw [hpc]
        exact hp.1
    | _ =>
      rw [hpc] at hp
      exact hp

end Service

/-! ### A wait is not delayed for ever -/

namespace WaitPc

theorem left_mono {s s' : WaitState} (h : s'.cq.length ≤ s.cq.length) (pc : WaitPc) :
    pc.left s' ≤ pc.left s := by
  cases pc with
  | idle => exact Nat.le_refl _
  | single target stage | multi targets pending stage =>
    cases stage <;> simp only [left, WaitStage.bound] <;> omega

theorem left_pos {s : WaitState} {pc : WaitPc} (h : pc.isIdle = false) : 0 < pc.left s := by
  cases pc with
  | idle => cases h
  | single target stage | multi targets pending stage =>
    cases stage <;> simp only [left, WaitStage.bound] <;> omega

end WaitPc

/-- The steps that are left to the threads of `A`. -/
def WaitState.left (s : WaitState) (A : Finset ℕ) : ℕ := ∑ u ∈ A, (s.thread u).left s

theorem WaitState.left_lt {s s' : WaitState} {A : Finset ℕ} {u : ℕ} {p : WaitPc} (hu : u ∈ A)
    (hthread : s'.thread = Function.update s.thread u p) (hcq : s'.cq.length ≤ s.cq.length)
    (hlt : p.left s' < (s.thread u).left s) : s'.left A < s.left A := by
  refine Finset.sum_lt_sum (fun w _ => ?_) ⟨u, hu, ?_⟩
  · by_cases hw : w = u
    · subst hw
      rw [hthread, Function.update_self]
      exact Nat.le_of_lt hlt
    · rw [hthread, Function.update_of_ne hw]
      exact WaitPc.left_mono hcq _
  · rwa [hthread, Function.update_self]

/-- A call adds no more than the steps of one wait. -/
theorem WaitState.left_insert_le {s s' : WaitState} {A : Finset ℕ} {u n : ℕ} {p : WaitPc}
    (hthread : s'.thread = Function.update s.thread u p) (hcq : s'.cq = s.cq)
    (hle : p.left s' ≤ n) : s'.left (insert u A) ≤ s.left A + n := by
  rw [left, ← Finset.add_sum_erase _ _ (Finset.mem_insert_self u A),
    Finset.erase_insert_eq_erase, hthread, Function.update_self, Nat.add_comm]
  refine Nat.add_le_add ?_ hle
  refine Nat.le_trans (Finset.sum_le_sum fun w hw => ?_)
    (Finset.sum_le_sum_of_subset (Finset.erase_subset u A))
  rw [Function.update_of_ne (Finset.ne_of_mem_erase hw)]
  exact WaitPc.left_mono (by rw [hcq]) _

namespace Service

variable {c : WaitConfig} {s s' : WaitState} {t u L : ℕ} {A : Finset ℕ}

/-- Every step of a wait brings the end nearer. -/
theorem run_left (h : Service s t) (hl : (s.thread t).looked = true) {polled : Option ℕ}
    {late : Bool} (hpos : ∀ n, polled = some n → 0 < n)
    (hA : ∀ w, w ∉ A → (s.thread w).isIdle = true)
    (hs : c.step s (.run u polled late) = some s') :
    s'.cq.length ≤ s.cq.length ∧ s'.left A < s.left A := by
  have hbusy := c.busy_of_run hs
  have hu : u ∈ A := by
    by_contra hno
    rw [hA u hno] at hbusy
    cases hbusy
  cases c.run_outcome h.guarded hs with
  | @returned s₁ ret ids touched ids_eq fails owner =>
    refine ⟨touched.cq_le, WaitState.left_lt (p := .idle (some ret)) hu ?_ touched.cq_le
      (WaitPc.left_pos hbusy)⟩
    rw [WaitState.finish, touched.thread]
  | @onward s₁ pc next =>
    refine ⟨next.cq_le, WaitState.left_lt (p := pc) hu ?_ next.cq_le next.less⟩
    rw [WaitState.goto, next.thread]
  | spins searched rest seeks empty =>
    exact absurd (empty hpos) (h.not_empty hl searched rest seeks)

/-- A call leaves the completion queue alone, and brings the steps of one wait. -/
theorem call_left {a : WaitAct} {ids : List ℕ} (ha : a.call = some (u, ids))
    (hs : c.step s a = some s') (hL : s.cq.length ≤ L) :
    s'.cq = s.cq ∧ s'.left (insert u A) ≤ s.left A + (3 * L + 5) := by
  cases (c.call_outcome ha hs).2 with
  | @refused ret =>
    exact ⟨rfl, WaitState.left_insert_le (p := .idle (some ret)) rfl rfl (Nat.zero_le _)⟩
  | @started pc busy looked locked targets missing nonempty left =>
    refine ⟨rfl, WaitState.left_insert_le (p := pc) rfl rfl ?_⟩
    have hle : pc.left (s.goto u pc) ≤ pc.left s := WaitPc.left_mono (Nat.le_refl _) _
    omega

/-- The wait stays past its first look. -/
theorem looked_step (h : Service s t) (h' : Service s' t) {a : WaitAct}
    (hl : (s.thread t).looked = true) (hok : s.Serving t a) (hs : c.step s a = some s') :
    (s'.thread t).looked = true := by
  by_cases ha : a.thread = some t
  · cases a with
    | run u polled late =>
      obtain rfl := Option.some.inj ha
      cases c.run_outcome h.guarded hs with
      | returned =>
        have hb := h'.busy
        simp only [WaitState.finish, Function.update_self] at hb
        cases hb
      | onward next =>
        simp only [WaitState.goto, Function.update_self]
        exact next.looked
      | spins => exact hl
    | waitWrId u id | waitWrIdMulti u ids => exact absurd (Option.some.inj ha) hok.1
    | _ => cases ha
  · rwa [c.thread_of_ne h.guarded hs ha]

/-- A wait that has returned makes no step. -/
theorem returned_of_trace (hg : Guarded s) {last : Option Status} (ht : s.thread t = .idle last)
    {as : List WaitAct}
    (htr : Trace c.step (fun s a => s.Tidy a ∧ s.Serving t a) s as s') :
    s'.thread t = .idle last := by
  induction htr with
  | nil => exact ht
  | @cons s s₁ s' a as hok hs _ ih =>
    refine ih (hg.step hs) ?_
    rw [c.thread_of_ne hg hs fun ha => ?_, ht]
    cases a with
    | run u polled late =>
      obtain rfl := Option.some.inj ha
      have hb := c.busy_of_run hs
      rw [ht] at hb
      cases hb
    | waitWrId u id | waitWrIdMulti u ids => exact hok.2.1 (Option.some.inj ha)
    | _ => cases ha

/-- **A run** while `t` waits: it returns `SUCCESS`, or waits on as before. -/
theorem trace (h : Service s t) {as : List WaitAct}
    (htr : Trace c.step (fun s a => s.Tidy a ∧ s.Serving t a) s as s') :
    s'.thread t = .idle (some .success) ∨ Service s' t := by
  induction htr with
  | nil => exact .inr h
  | cons hok hs htr ih =>
    obtain hret | h' := h.step hok.1 hok.2 hs
    · exact .inl (returned_of_trace (h.guarded.step hs) hret htr)
    · exact ih h'

/-- As long as `t` waits, the steps of all waits come out of what is left to them and of what the
calls have brought. -/
theorem run_le (h : Service s t) (hl : (s.thread t).looked = true)
    (hA : ∀ w, w ∉ A → (s.thread w).isIdle = true) (hL : s.cq.length ≤ L) {as : List WaitAct}
    (htr : Trace c.step (fun s a => s.Tidy a ∧ s.Serving t a) s as s') :
    s'.thread t = .idle (some .success) ∨
      as.countP WaitAct.isRun ≤ s.left A + (3 * L + 5) * as.countP WaitAct.isCall := by
  induction htr generalizing A with
  | nil => exact .inr (Nat.zero_le _)
  | @cons s s₁ s' a as hok hs htr ih =>
    obtain hret | h' := h.step hok.1 hok.2 hs
    · exact .inl (returned_of_trace (h.guarded.step hs) hret htr)
    have hl' := h.looked_step h' hl hok.2 hs
    have hother : ∀ w, a.thread ≠ some w → w ∉ A → (s₁.thread w).isIdle = true := fun w hw hno => by
      rw [c.thread_of_ne h.guarded hs hw]
      exact hA w hno
    have hcall : ∀ u ids, a.call = some (u, ids) → a.isRun = false → a.thread = some u →
        s'.thread t = .idle (some .success) ∨ (a :: as).countP WaitAct.isRun ≤
          s.left A + (3 * L + 5) * (a :: as).countP WaitAct.isCall := by
      intro u ids ha hrun hthread
      obtain ⟨hcq, hle⟩ := call_left (A := A) ha hs hL
      refine (ih h' hl' (A := insert u A) (fun w hw => ?_) (by rwa [hcq])).imp_right fun hrest => ?_
      · rw [Finset.mem_insert, not_or] at hw
        exact hother w (fun he => hw.1 (Option.some.inj (he.symm.trans hthread))) hw.2
      · have hisCall : a.isCall = true := by rw [WaitAct.isCall, ha]; rfl
        rw [List.countP_cons_of_neg (by simp [hrun]), List.countP_cons_of_pos hisCall, Nat.mul_succ]
        omega
    cases a with
    | post id =>
      cases hs
      exact ih h' hl' hA hL
    | complete => exact hok.2.elim
    | waitWrId u id => exact hcall u [id] rfl rfl rfl
    | waitWrIdMulti u ids => exact hcall u ids rfl rfl rfl
    | run u polled late =>
      obtain ⟨hcq, hlt⟩ := h.run_left hl hok.2.1 hA hs
      refine (ih h' hl' (A := A) (fun w hw => ?_) (by omega)).imp_right fun hrest => ?_
      · refine hother w (fun he => ?_) hw
        obtain rfl := Option.some.inj he
        have hb := c.busy_of_run hs
        rw [hA u hw] at hb
        cases hb
      · have hno : ¬ WaitAct.isCall (.run u polled late) = true := by
          simp [WaitAct.isCall, WaitAct.call]
        rw [List.countP_cons_of_pos rfl, List.countP_cons_of_neg hno]
        omega

end Service

/-! ### The claim -/

/-- The wait of thread `t` returns `SUCCESS`. Whatever the others do, it returns nothing else, and
until then it can go on, or the one that holds the lock can (`safe`). Once it has had its first
look, it has returned when more than a fixed number of steps were made inside waits, and so many
more for every call that has come since (`prompt`). -/
structure WaitConfig.Served (c : WaitConfig) (s : WaitState) (t : ℕ) : Prop where
  safe : ∀ as s', Trace c.step (fun s a => s.Tidy a ∧ s.Serving t a) s as s' →
    s'.thread t = .idle (some .success) ∨ (s'.thread t).isIdle = false ∧
      ∃ u, (u = t ∨ s'.pollOwner = some u) ∧
        ∀ polled late, (c.step s' (.run u polled late)).isSome = true
  prompt : ∀ as s₁, Trace c.step (fun s a => s.Tidy a ∧ s.Serving t a) s as s₁ →
    (s₁.thread t).looked = true → ∃ steps perCall, ∀ bs s',
      Trace c.step (fun s a => s.Tidy a ∧ s.Serving t a) s₁ bs s' →
        steps + perCall * bs.countP WaitAct.isCall < bs.countP WaitAct.isRun →
          s'.thread t = .idle (some .success)

/-- Between calls, every completed request that was not reported is in the completion queue or in
`completed_wr_ids_` (`kept`). A wait that is called for such requests, and for which nobody else
waits, returns `SUCCESS` without a further completion (`called`), and so does a wait whose requests
complete while it is under way (`underWay`). -/
structure WaitConfig.NothingLost (c : WaitConfig) (s : WaitState) : Prop where
  kept : s.Idle → ∀ id ∈ s.unreported, id ∈ s.cq.map Wc.wrId ∨ id ∈ s.completedWrIds
  called : ∀ a t ids, a.call = some (t, ids) → (s.thread t).isIdle = true → s.Apart →
    (∀ id ∈ ids, id ∈ s.unreported ∧ ∀ w, id ∉ (s.thread w).targets) →
      ∃ s', c.step s a = some s' ∧ (s'.thread t = .idle (some .success) ∨ c.Served s' t)
  underWay : ∀ t, (s.thread t).isIdle = false → s.Apart → s.Ready t →
    ((s.thread t).looked = true → s.Unblocked) → c.Served s t

namespace Service

variable {c : WaitConfig} {s : WaitState} {t : ℕ}

/-- What the invariant is for. -/
theorem served {ok : WaitState → WaitAct → Prop} (h : Service s t)
    (hr : Reach c.step ok .start s) : c.Served s t where
  safe as s' htr := (h.trace htr).imp_right fun h' => ⟨h'.busy, h'.enabled⟩
  prompt as s₁ htr hl := by
    obtain hret | h₁ := h.trace htr
    · rw [hret] at hl
      cases hl
    obtain ⟨A, hA⟩ := c.exists_busy (hr.free.trans htr.reach.free)
    refine ⟨s₁.left A, 3 * s₁.cq.length + 5, fun bs s' htr' hlt => ?_⟩
    exact (h₁.run_le hl hA (Nat.le_refl _) htr').resolve_right (Nat.not_le.mpr hlt)

/-- A call for completed requests that nobody else waits for. -/
theorem of_call (hinv : WaitInv s) (hguarded : Guarded s) (hcq : c.nullCq = false) {a : WaitAct}
    {ids : List ℕ} (ha : a.call = some (t, ids)) (hidle : (s.thread t).isIdle = true)
    (hapart : s.Apart)
    (hids : ∀ id ∈ ids, id ∈ s.unreported ∧ ∀ w, id ∉ (s.thread w).targets) :
    ∃ s', c.step s a = some s' ∧ (s'.thread t = .idle (some .success) ∨ Service s' t) := by
  obtain ⟨last, ht⟩ : ∃ last, s.thread t = .idle last := by
    cases hpc : s.thread t with
    | idle last => exact ⟨last, rfl⟩
    | _ =>
      rw [hpc] at hidle
      cases hidle
  have hstart : ∀ pc : WaitPc, pc.isIdle = false → pc.looked = false → pc.targets = ids →
      (∀ id ∈ pc.missing, id ∈ ids) → c.step s a = some (s.goto t pc) →
        Service (s.goto t pc) t := fun pc hbusy hlook htargets hmissing hs => by
    have hself : (s.goto t pc).thread t = pc := Function.update_self ..
    have hother : ∀ w, w ≠ t → (s.goto t pc).thread w = s.thread w := fun w hw =>
      Function.update_of_ne hw _ _
    refine ⟨hinv.step (c := c) (a := a) ?_ ?_ hs, hguarded.step hs, fun u v huv id hid => ?_,
      by rwa [hself], fun id hid => ?_, fun hl => ?_⟩
    · cases a <;> trivial
    · cases a <;> trivial
    · by_cases hu : u = t
      · subst hu
        rw [hself, htargets] at hid
        rw [hother v huv.symm]
        exact (hids id hid).2 v
      · rw [hother u hu] at hid
        by_cases hv : v = t
        · subst hv
          rw [hself, htargets]
          exact fun hmem => (hids id hmem).2 u hid
        · rw [hother v hv]
          exact hapart u v huv id hid
    · rw [hself] at hid
      exact (hids id (hmissing id hid)).1
    · rw [hself, hlook] at hl
      cases hl
  cases a with
  | waitWrId u id =>
    obtain ⟨rfl, rfl⟩ := Prod.mk.inj (Option.some.inj ha)
    have hs : c.step s (.waitWrId u id) = some (s.goto u (.single id .first)) := by
      simp [WaitConfig.step, ht, hcq]
    exact ⟨_, hs, .inr (hstart _ rfl rfl rfl (fun i hi =>
      List.mem_singleton.mpr (Finset.mem_singleton.mp hi)) hs)⟩
  | waitWrIdMulti u targets =>
    obtain ⟨rfl, rfl⟩ := Prod.mk.inj (Option.some.inj ha)
    by_cases hnil : targets = []
    · refine ⟨s.finish u .success [], by simp [WaitConfig.step, ht, hcq, hnil], .inl ?_⟩
      exact Function.update_self ..
    · have hs : c.step s (.waitWrIdMulti u targets) =
          some (s.goto u (.multi targets targets.toFinset .first)) := by
        simp [WaitConfig.step, ht, hcq, hnil]
      exact ⟨_, hs, .inr (hstart _ rfl rfl rfl (fun i hi => List.mem_toFinset.mp hi) hs)⟩
  | _ => cases ha

end Service

/-- Two requests complete; thread `0` waits for the first and polls them one by one. -/
def singlePollRun : List WaitAct :=
  [.post 1, .post 2, .complete 1 true, .complete 2 true, .waitWrId 0 1] ++
    List.replicate 5 (.run 0 (some 1) false)

/-- Two requests complete; thread `0` waits for the first and polls both at once. -/
def batchRun : List WaitAct :=
  [.post 1, .post 2, .complete 1 true, .complete 2 true, .waitWrId 0 1] ++
    List.replicate 5 (.run 0 (some 2) false)

/-- **A wait is stuck behind another one.** Thread `0` waits for request 2 and has put the
completion of 1 into `completed_wr_ids_`; thread `1` waits for 1 and cannot move, and a poll of
thread `0` changes nothing until 2 completes. -/
theorem blocked_behind_wait :
    ∃ s, Reach WaitConfig.default.step (fun s a => a.Successful ∧ s.Tidy a) .start s ∧
      s.thread 1 = .single 1 .lock ∧ 1 ∈ s.unreported ∧ 1 ∈ s.completedWrIds ∧
      (∀ polled late, WaitConfig.default.step s (.run 1 polled late) = none) ∧
      ∀ n late, WaitConfig.default.step s (.run 0 (some n) late) = some s := by
  obtain ⟨s, hr, h0, h1, hown, hcq, hun, hstash⟩ : ∃ s,
      Reach WaitConfig.default.step (fun s a => a.Successful ∧ s.Tidy a) .start s ∧
        (s.thread 0 = .single 2 .poll ∧ s.thread 1 = .single 1 .lock ∧ s.pollOwner = some 0 ∧
          s.cq = [] ∧ 1 ∈ s.unreported ∧ 1 ∈ s.completedWrIds) :=
    exists_reach_of_execOk ([.post 1, .post 2, .waitWrId 0 2] ++
      List.replicate 3 (.run 0 (some 1) false) ++ [.complete 1 true, .waitWrId 1 1,
        .run 1 (some 1) false] ++ List.replicate 3 (.run 0 (some 1) false)) (by decide +kernel)
  refine ⟨s, hr, h1, hun, hstash, fun polled late => ?_, fun n late => ?_⟩
  · simp [WaitConfig.step, h1, WaitState.stepSingle, hown]
  · simp [WaitConfig.step, h0, WaitState.stepSingle, WaitState.polled, hcq]

/-- **A timeout before a completion.** Both requests have completed when thread `0` calls
`waitWrIdMulti` for the second one. Its first batch is the other completion, and it is late. -/
theorem timeout_before_completion :
    ∃ s, Reach WaitConfig.default.step (fun s a => a.Successful ∧ s.Tidy a) .start s ∧
      s.thread 0 = .idle (some .timeout) ∧ 2 ∈ s.unreported ∧ s.cq.map Wc.wrId = [2] :=
  exists_reach_of_execOk ([.post 1, .post 2, .complete 1 true, .complete 2 true,
    .waitWrIdMulti 0 [2]] ++ List.replicate 6 (.run 0 (some 1) true)) (by decide +kernel)

end HMC.Rdma
