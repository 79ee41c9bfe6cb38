import Mathlib.Data.Finset.Lattice.Lemmas
import Mathlib.Data.List.Perm.Basic
import HMC.Machine.Run
import HMC.Ucx.Endpoint

/-!
# The waits of a UCX endpoint

`waitWrId` polls one request and returns its status. `waitWrIdMulti` polls a list of them, frees
each one it finds finished and closes the gap with the last of the list; it does not look at what
the request has finished with. So it returns `SUCCESS` where `waitWrId` on one of the ids would not
(`failure_ignored`), and `agrees_iff` says that this is the only difference.

The machine takes any list and any table, and lets the requests finish at any moment. What it
leaves of the table is what `Endpoint.waitWrId` and `Endpoint.waitWrIdMulti` say
(`waitWrId_refines`, `waitWrIdMulti_refines`).

Where a call is, is `SingleAt` and `MultiAt`: the requests that were freed and those that are left
are together those of the list, in some order, because closing a gap only permutes the others
(`cons_swapRemove_perm`). So each is freed once, and after it has finished, since a request is freed
only when it was seen to have. That a call returns is shown by a bound on its steps: as soon as all
its requests have finished, each scan finds one, and the list gets shorter.
-/

namespace HMC.Ucx

open HMC.Machine

/-- How a request ends, as an `ucs_status_t`: `err` stands for every other error. -/
inductive UcsStatus
  | ok
  | unsupported
  | timedOut
  | err
  deriving DecidableEq

/-- `ucs_to_status`. -/
def UcsStatus.toStatus : UcsStatus → Status
  | .ok => .success
  | .unsupported => .unsupport
  | .timedOut => .timeout
  | .err => .error

theorem UcsStatus.toStatus_eq_success {st : UcsStatus} : st.toStatus = .success ↔ st = .ok := by
  cases st <;> simp [toStatus]

/-- The request that `inflight_` holds for each id, as a pointer, and how each request ends. -/
structure Requests where
  handle : ℕ → ℕ
  ends : ℕ → UcsStatus

/-- The requests in `inflight_` are there, and differ. -/
structure Requests.InFlight (c : Requests) (e : Endpoint) : Prop where
  ne_null : ∀ wid ∈ e.inflight, c.handle wid ≠ 0
  inj : ∀ wid ∈ e.inflight, ∀ wid' ∈ e.inflight, c.handle wid = c.handle wid' → wid = wid'

/-- How far a call has come: before its look into `inflight_`, in the loop of `waitWrId`, and in
that of `waitWrIdMulti` at the head, inside the scan or after a scan that found nothing. -/
inductive WaitPc
  | waitWrId (wid : ℕ)
  | spin (req : ℕ)
  | waitWrIdMulti (wrids : List ℕ)
  | round (reqs : List ℕ)
  | scan (reqs : List ℕ) (i : ℕ) (madeProgress : Bool)
  | backoff (reqs : List ℕ)
  | done (ret : Status)
  deriving DecidableEq

/-- The keys of `inflight_`, the requests that have finished, and those that were freed, in that
order. -/
structure WaitState where
  inflight : Finset ℕ
  finished : Finset ℕ
  freed : List ℕ
  pc : WaitPc

/-- A request finishes, or the call makes its next step; `late` says that the timeout has passed. -/
inductive WaitAct
  | finish (req : ℕ)
  | run (late : Bool)
  deriving DecidableEq

/-- `reqs[i] = reqs.back(); reqs.pop_back();` -/
def swapRemove {α : Type*} (l : List α) (i : ℕ) : List α :=
  match l.getLast? with
  | none => []
  | some x => (l.set i x).dropLast

/-- Swapping the last element into a gap keeps all the others. -/
theorem cons_swapRemove_perm {α : Type*} {l : List α} {i : ℕ} (h : i < l.length) :
    (l[i] :: swapRemove l i).Perm l := by
  obtain rfl | ⟨init, x, rfl⟩ := l.eq_nil_or_concat'
  · cases h
  · set l := init ++ [x] with hl
    have hlast : (l.set i x).getLast? = some x := by
      rw [List.getLast?_eq_getElem?, List.length_set, List.getElem?_set]
      split_ifs
      · simp
      · simp [hl]
    have hset : l.set i x = swapRemove l i ++ [x] := by
      have hx : l.getLast? = some x := by simp [hl]
      rw [swapRemove, hx]
      exact (List.dropLast_append_getLast? x hlast).symm
    have hrest : (swapRemove l i).Perm (l.eraseIdx i) := by
      refine (List.perm_cons x).mp (List.Perm.trans ?_ (List.set_perm_cons_eraseIdx h x))
      rw [hset]
      exact (List.perm_append_singleton x _).symm
    exact (hrest.cons _).trans (List.getElem_cons_eraseIdx_perm h)

namespace Requests

variable (c : Requests)

/-- `ucp_request_check_status`; `none` is `UCS_INPROGRESS`. -/
def checkStatus (s : WaitState) (req : ℕ) : Option UcsStatus :=
  if req ∈ s.finished then some (c.ends req) else none

def step (s : WaitState) : WaitAct → Option WaitState
  | .finish req => some { s with finished := insert req s.finished }
  | .run late =>
    match s.pc with
    | .waitWrId wid =>
      if wid ∉ s.inflight then some { s with pc := .done .error }
      else if c.handle wid = 0 then
        some { s with inflight := s.inflight.erase wid, pc := .done .success }
      else some { s with inflight := s.inflight.erase wid, pc := .spin (c.handle wid) }
    | .spin req =>
      match c.checkStatus s req with
      | none => some s
      | some st => some { s with freed := s.freed ++ [req], pc := .done st.toStatus }
    | .waitWrIdMulti wrids =>
      if wrids = [] then some { s with pc := .done .success }
      else
        let taken := Endpoint.takeAll wrids s.inflight
        if taken.1 = false then some { s with inflight := taken.2, pc := .done .error }
        else
          let pending := (wrids.filter (· ≠ 0)).map c.handle
          some { s with inflight := taken.2, pc := .round (pending.filter (· ≠ 0)) }
    | .round reqs =>
      if reqs = [] then some { s with pc := .done .success }
      else some { s with pc := .scan reqs 0 false }
    | .scan reqs i madeProgress =>
      match reqs[i]? with
      | some req =>
        match c.checkStatus s req with
        | none => some { s with pc := .scan reqs (i + 1) madeProgress }
        | some _ =>
          some { s with freed := s.freed ++ [req], pc := .scan (swapRemove reqs i) i true }
      | none => some { s with pc := if madeProgress then .round reqs else .backoff reqs }
    | .backoff reqs => some { s with pc := if late then .done .timeout else .round reqs }
    | .done _ => none

end Requests

/-- A call begins. -/
def Endpoint.call (e : Endpoint) (pc : WaitPc) : WaitState := ⟨e.inflight, ∅, [], pc⟩

/-- The timeout does not pass. -/
def InTime (_ : WaitState) : WaitAct → Prop
  | .finish _ => True
  | .run late => late = false

instance (s : WaitState) : ∀ a, Decidable (InTime s a)
  | .finish _ => .isTrue trivial
  | .run late => inferInstanceAs (Decidable (late = false))

/-- The call goes on alone. -/
def OnItsOwn (_ : WaitState) (a : WaitAct) : Prop := a = .run false

namespace Requests

variable (c : Requests)

/-- The requests that a call still has to free. -/
def reqs : WaitPc → List ℕ
  | .waitWrId wid => [c.handle wid]
  | .spin req => [req]
  | .waitWrIdMulti wrids => wrids.map c.handle
  | .round reqs | .scan reqs _ _ | .backoff reqs => reqs
  | .done _ => []

/-- The claim: in every run in which the timeout does not pass, `waitWrIdMulti` returns `SUCCESS`
exactly if `waitWrId` on each of the ids, in every run, does; it frees requests that have finished,
none twice, and when it returns each of them once; and it returns on its own, as each `waitWrId`
does, once the requests have finished. -/
structure Agrees (e : Endpoint) (wrids : List ℕ) : Prop where
  result : ∀ s ret, Reach c.step InTime (e.call (.waitWrIdMulti wrids)) s → s.pc = .done ret →
    (ret = .success ↔ ∀ wid ∈ wrids, ∀ s' ret', Reach c.step InTime (e.call (.waitWrId wid)) s' →
      s'.pc = .done ret' → ret' = .success)
  freed : ∀ s, Reach c.step InTime (e.call (.waitWrIdMulti wrids)) s →
    (∀ req ∈ s.freed, req ∈ s.finished) ∧ s.freed.Nodup ∧
      ∀ ret, s.pc = .done ret → s.freed.Perm (wrids.map c.handle)
  returns : ∀ pc, pc = .waitWrIdMulti wrids ∨ (∃ wid ∈ wrids, pc = .waitWrId wid) →
    ∀ s, Reach c.step InTime (e.call pc) s → (∀ wid ∈ wrids, c.handle wid ∈ s.finished) →
      ∃ s' ret, Reach c.step OnItsOwn s s' ∧ s'.pc = .done ret

variable {c} {e : Endpoint} {s s' : WaitState} {a : WaitAct} {wid : ℕ} {wrids : List ℕ}

/-! ### One call -/

/-- The requests that `waitWrIdMulti` polls: ids that are zero and null pointers are left out. -/
def polled (c : Requests) (wrids : List ℕ) : List ℕ :=
  ((wrids.filter (· ≠ 0)).map c.handle).filter (· ≠ 0)

/-- How far a `waitWrId` on `wid` is. -/
def SingleAt (c : Requests) (e : Endpoint) (wid : ℕ) (s : WaitState) : Prop :=
  match s.pc with
  | .waitWrId id => id = wid ∧ s.inflight = e.inflight
  | .spin req => req = c.handle wid ∧ wid ∈ e.inflight ∧ s.inflight = e.inflight.erase wid
  | .done ret => (∃ finished, e.waitWrId wid finished = (ret, { e with inflight := s.inflight })) ∧
      (wid ∈ e.inflight → c.handle wid ≠ 0 → ret = (c.ends (c.handle wid)).toStatus)
  | _ => False

/-- How far a `waitWrIdMulti` on `wrids` is; `late` says that the timeout may have passed. -/
def MultiAt (c : Requests) (e : Endpoint) (wrids : List ℕ) (late : Prop) (s : WaitState) : Prop :=
  match s.pc with
  | .waitWrIdMulti ids => ids = wrids ∧ s.inflight = e.inflight ∧ s.freed = []
  | .round reqs | .scan reqs _ _ | .backoff reqs =>
    Endpoint.takeAll wrids e.inflight = (true, s.inflight) ∧
      (s.freed ++ reqs).Perm (c.polled wrids)
  | .done ret =>
    (∃ finished, e.waitWrIdMulti wrids finished = (ret, { e with inflight := s.inflight })) ∧
      ((Endpoint.takeAll wrids e.inflight).1 = true →
        ret = .success ∧ s.freed.Perm (c.polled wrids) ∨ ret = .timeout ∧ late)
  | _ => False

/-- **One step** of `waitWrId`, or of a request that finishes. -/
theorem SingleAt.step (h : c.SingleAt e wid s) (hs : c.step s a = some s') :
    c.SingleAt e wid s' := by
  obtain ⟨inflight, finished, freed, pc⟩ := s
  cases a with
  | finish req =>
    obtain rfl := Option.some.inj hs
    exact h
  | run late =>
    cases pc with
    | waitWrId id =>
      obtain ⟨rfl, rfl⟩ : id = wid ∧ inflight = e.inflight := h
      simp only [Requests.step] at hs
      split_ifs at hs with hmem hnull
      · obtain rfl := Option.some.inj hs
        refine ⟨⟨.success, ?_⟩, fun _ hne => absurd hnull hne⟩
        rw [Endpoint.waitWrId, if_neg (not_not.mpr hmem)]
      · obtain rfl := Option.some.inj hs
        exact ⟨rfl, hmem, rfl⟩
      · obtain rfl := Option.some.inj hs
        refine ⟨⟨.success, ?_⟩, fun hin => absurd hin hmem⟩
        rw [Endpoint.waitWrId, if_pos hmem]
    | spin req =>
      obtain ⟨rfl, hmem, rfl⟩ :
        req = c.handle wid ∧ wid ∈ e.inflight ∧ inflight = e.inflight.erase wid := h
      simp only [Requests.step] at hs
      split at hs
      · obtain rfl := Option.some.inj hs
        exact ⟨rfl, hmem, rfl⟩
      · rename_i st hst
        obtain rfl := Option.some.inj hs
        have hends : st = c.ends (c.handle wid) := by
          rw [checkStatus] at hst
          split_ifs at hst
          exact (Option.some.inj hst).symm
        refine ⟨⟨st.toStatus, ?_⟩, fun _ _ => by rw [hends]⟩
        rw [Endpoint.waitWrId, if_neg (not_not.mpr hmem)]
    | done ret => cases hs
    | waitWrIdMulti | round | scan | backoff => exact h.elim

/-- **One step** of `waitWrIdMulti`, or of a request that finishes. Only a late one gives up. -/
theorem MultiAt.step {late : Prop} (h : c.MultiAt e wrids late s) (hlate : a = .run true → late)
    (hs : c.step s a = some s') : c.MultiAt e wrids late s' := by
  obtain ⟨inflight, finished, freed, pc⟩ := s
  cases a with
  | finish req =>
    obtain rfl := Option.some.inj hs
    exact h
  | run b =>
    have hdone : ∀ {freed' finished' ret}, Endpoint.takeAll wrids e.inflight = (true, inflight) →
        (ret = .success ∧ freed'.Perm (c.polled wrids) ∨ ret = .timeout ∧ late) →
          c.MultiAt e wrids late ⟨inflight, finished', freed', .done ret⟩ :=
      fun {_ _ ret} htake hret =>
        ⟨⟨ret, by rw [Endpoint.waitWrIdMulti, htake]; rfl⟩, fun _ => hret⟩
    cases pc with
    | waitWrIdMulti ids =>
      obtain ⟨rfl, rfl, rfl⟩ : ids = wrids ∧ inflight = e.inflight ∧ freed = [] := h
      simp only [Requests.step] at hs
      split_ifs at hs with hnil htaken
      · obtain rfl := Option.some.inj hs
        subst hnil
        exact hdone rfl (.inl ⟨rfl, List.Perm.refl _⟩)
      · obtain rfl := Option.some.inj hs
        refine ⟨⟨.success, ?_⟩, fun htrue => ?_⟩
        · rw [Endpoint.waitWrIdMulti, htaken]
          rfl
        · rw [htaken] at htrue
          cases htrue
      · obtain rfl := Option.some.inj hs
        exact ⟨Prod.ext (Bool.eq_true_of_not_eq_false htaken) rfl, List.Perm.refl _⟩
    | round reqs =>
      obtain ⟨htake, hperm⟩ := h
      simp only [Requests.step] at hs
      split_ifs at hs with hnil
      · obtain rfl := Option.some.inj hs
        exact hdone htake (.inl ⟨rfl, by simpa [hnil] using hperm⟩)
      · obtain rfl := Option.some.inj hs
        exact ⟨htake, hperm⟩
    | scan reqs i madeProgress =>
      obtain ⟨htake, hperm⟩ := h
      simp only [Requests.step] at hs
      split at hs
      · rename_i req hreq
        split at hs
        · obtain rfl := Option.some.inj hs
          exact ⟨htake, hperm⟩
        · -- a finished request goes from the one list to the other
          obtain rfl := Option.some.inj hs
          obtain ⟨hi, rfl⟩ := List.getElem?_eq_some_iff.mp hreq
          refine ⟨htake, List.Perm.trans ?_ hperm⟩
          rw [List.append_assoc, List.singleton_append]
          exact (cons_swapRemove_perm hi).append_left _
      · obtain rfl := Option.some.inj hs
        cases madeProgress
        · exact ⟨htake, hperm⟩
        · exact ⟨htake, hperm⟩
    | backoff reqs =>
      obtain ⟨htake, hperm⟩ := h
      obtain rfl := Option.some.inj hs
      cases b with
      | true => exact hdone htake (.inr ⟨rfl, hlate rfl⟩)
      | false => exact ⟨htake, hperm⟩
    | done ret => cases hs
    | waitWrId | spin => exact h.elim

theorem SingleAt.reach (hr : Reach c.step Free (e.call (.waitWrId wid)) s) : c.SingleAt e wid s :=
  hr.invariant ⟨rfl, rfl⟩ fun _ _ _ _ h _ hs => h.step hs

theorem MultiAt.reach (hr : Reach c.step Free (e.call (.waitWrIdMulti wrids)) s) :
    c.MultiAt e wrids True s :=
  hr.invariant ⟨rfl, rfl, rfl⟩ fun _ _ _ _ h _ hs => h.step (fun _ => trivial) hs

theorem MultiAt.reach_inTime (hr : Reach c.step InTime (e.call (.waitWrIdMulti wrids)) s) :
    c.MultiAt e wrids False s :=
  hr.invariant ⟨rfl, rfl, rfl⟩ fun _ _ _ _ h hok hs => h.step (by rintro rfl; cases hok) hs

/-- A run of `waitWrId` does to the endpoint what `Endpoint.waitWrId` says. -/
theorem waitWrId_refines {ret : Status} (hr : Reach c.step Free (e.call (.waitWrId wid)) s)
    (hret : s.pc = .done ret) :
    ∃ finished, e.waitWrId wid finished = (ret, { e with inflight := s.inflight }) := by
  have h := SingleAt.reach hr
  rw [SingleAt, hret] at h
  exact h.1

/-- A run of `waitWrIdMulti` does to the endpoint what `Endpoint.waitWrIdMulti` says. -/
theorem waitWrIdMulti_refines {ret : Status}
    (hr : Reach c.step Free (e.call (.waitWrIdMulti wrids)) s) (hret : s.pc = .done ret) :
    ∃ finished, e.waitWrIdMulti wrids finished = (ret, { e with inflight := s.inflight }) := by
  have h := MultiAt.reach hr
  rw [MultiAt, hret] at h
  exact h.1

/-! ### Requests are freed after they have finished -/

theorem freed_finished {pc : WaitPc} {ok : WaitState → WaitAct → Prop}
    (hr : Reach c.step ok (e.call pc) s) : ∀ req ∈ s.freed, req ∈ s.finished := by
  refine hr.invariant (I := fun s => ∀ req ∈ s.freed, req ∈ s.finished) (by simp [Endpoint.call])
    fun s a s' _ h _ hs => ?_
  -- a request is freed where its status has just been seen
  have hfree : ∀ {req st}, c.checkStatus s req = some st →
      ∀ r ∈ s.freed ++ [req], r ∈ s.finished := fun {req st} hst r hr => by
    rw [checkStatus] at hst
    split_ifs at hst with hfin
    obtain hr | hr := List.mem_append.mp hr
    · exact h r hr
    · rwa [List.mem_singleton.mp hr]
  cases a with
  | finish req =>
    obtain rfl := Option.some.inj hs
    exact fun r hr => Finset.mem_insert_of_mem (h r hr)
  | run late =>
    simp only [Requests.step] at hs
    split at hs
    · split_ifs at hs <;> (obtain rfl := Option.some.inj hs; exact h)
    · split at hs
      · obtain rfl := Option.some.inj hs
        exact h
      · rename_i hst
        obtain rfl := Option.some.inj hs
        exact hfree hst
    · split_ifs at hs <;> (obtain rfl := Option.some.inj hs; exact h)
    · split_ifs at hs <;> (obtain rfl := Option.some.inj hs; exact h)
    · split at hs
      · split at hs
        · obtain rfl := Option.some.inj hs
          exact h
        · rename_i hst
          obtain rfl := Option.some.inj hs
          exact hfree hst
      · obtain rfl := Option.some.inj hs
        exact h
    · obtain rfl := Option.some.inj hs
      exact h
    · cases hs

/-! ### Calls return -/

/-- A bound on the steps of a call whose requests have finished. -/
def bound : WaitPc → ℕ
  | .waitWrId _ => 2
  | .spin _ => 1
  | .waitWrIdMulti wrids => 5 * wrids.length + 2
  | .round reqs => 5 * reqs.length + 1
  | .scan reqs i _ => (reqs.length - i) + 5 * min i reqs.length + 4
  | .backoff reqs => 5 * reqs.length + 2
  | .done _ => 0

theorem length_polled_le : (c.polled wrids).length ≤ wrids.length := by
  refine (List.length_filter_le _ _).trans ?_
  rw [List.length_map]
  exact List.length_filter_le _ _

theorem length_swapRemove {reqs : List ℕ} {i : ℕ} (h : i < reqs.length) :
    (swapRemove reqs i).length + 1 = reqs.length := (cons_swapRemove_perm h).length_eq

/-- One step of a call whose requests have finished brings it nearer to its return. -/
theorem exists_step (h : ∀ req ∈ c.reqs s.pc, req ∈ s.finished) (hret : ∀ ret, s.pc ≠ .done ret) :
    ∃ s', c.step s (.run false) = some s' ∧ bound s'.pc < bound s.pc ∧
      ∀ req ∈ c.reqs s'.pc, req ∈ s'.finished := by
  obtain ⟨inflight, finished, freed, pc⟩ := s
  have hstatus : ∀ {req freed' pc'}, req ∈ finished →
      c.checkStatus ⟨inflight, finished, freed', pc'⟩ req = some (c.ends req) :=
    fun hfin => if_pos hfin
  cases pc with
  | waitWrId wid =>
    simp only [Requests.step]
    split_ifs with hnull hmem
    · exact ⟨_, rfl, by simp [bound], by simp [reqs]⟩
    · exact ⟨_, rfl, by simp [bound], h⟩
    · exact ⟨_, rfl, by simp [bound], by simp [reqs]⟩
  | spin req =>
    simp only [Requests.step, hstatus (h req (List.mem_singleton.mpr rfl))]
    exact ⟨_, rfl, by simp [bound], by simp [reqs]⟩
  | waitWrIdMulti wrids =>
    simp only [Requests.step]
    split_ifs
    · exact ⟨_, rfl, by simp [bound], by simp [reqs]⟩
    · exact ⟨_, rfl, by simp [bound], by simp [reqs]⟩
    · refine ⟨_, rfl, ?_, fun req hreq => h req ?_⟩
      · have hle : (c.polled wrids).length ≤ wrids.length := length_polled_le
        simp only [polled] at hle
        simp only [bound]
        omega
      · obtain ⟨wid, hwid, rfl⟩ := List.mem_map.mp (List.mem_filter.mp hreq).1
        exact List.mem_map_of_mem (List.mem_filter.mp hwid).1
  | round reqs =>
    simp only [Requests.step]
    split_ifs with hnil
    · exact ⟨_, rfl, by simp [bound], by simp [Requests.reqs]⟩
    · refine ⟨_, rfl, ?_, h⟩
      have hpos := List.length_pos_iff.mpr hnil
      simp only [bound]
      omega
  | scan reqs i madeProgress =>
    simp only [Requests.step]
    cases hreq : reqs[i]? with
    | none =>
      have hle := List.getElem?_eq_none_iff.mp hreq
      refine ⟨_, rfl, ?_, ?_⟩
      · cases madeProgress
        · simp only [bound, Bool.false_eq_true, if_false]
          omega
        · simp only [bound, if_true]
          omega
      · cases madeProgress
        · exact h
        · exact h
    | some req =>
      obtain ⟨hi, rfl⟩ := List.getElem?_eq_some_iff.mp hreq
      have hperm := cons_swapRemove_perm hi
      have hlen := length_swapRemove hi
      simp only [hstatus (h _ (List.getElem_mem hi))]
      refine ⟨_, rfl, ?_, fun req hreq => h req (hperm.subset (List.mem_cons_of_mem _ hreq))⟩
      simp only [bound]
      omega
  | backoff reqs => exact ⟨_, rfl, by simp [bound], h⟩
  | done ret => exact absurd rfl (hret ret)

/-- A call whose requests have finished returns on its own. -/
theorem exists_return (h : ∀ req ∈ c.reqs s.pc, req ∈ s.finished) :
    ∃ s' ret, Reach c.step OnItsOwn s s' ∧ s'.pc = .done ret := by
  obtain ⟨s', hr, ret, hret⟩ : ∃ s', Reach c.step OnItsOwn s s' ∧ ∃ ret, s'.pc = .done ret :=
    exists_reach_final (fun s => bound s.pc) fun s' hr hnot => by
      have hfin : ∀ req ∈ c.reqs s'.pc, req ∈ s'.finished := by
        refine hr.invariant (I := fun s => ∀ req ∈ c.reqs s.pc, req ∈ s.finished) h
          fun t a t' _ ht ha hst => ?_
        obtain rfl := ha
        by_cases hdone : ∃ ret, t.pc = .done ret
        · obtain ⟨ret, hdone⟩ := hdone
          simp [Requests.step, hdone] at hst
        · obtain ⟨u, hu, -, hfin⟩ := exists_step ht fun ret hret => hdone ⟨ret, hret⟩
          obtain rfl := Option.some.inj (hu.symm.trans hst)
          exact hfin
      obtain ⟨u, hu, hlt, -⟩ := exists_step hfin fun ret hret => hnot ⟨ret, hret⟩
      exact ⟨_, u, rfl, hu, hlt⟩
  exact ⟨s', ret, hr, hret⟩

/-- The requests of a list finish. -/
theorem reach_finish (l : List ℕ) :
    Reach c.step InTime s { s with finished := s.finished ∪ l.toFinset } := by
  induction l generalizing s with
  | nil =>
    rw [List.toFinset_nil, Finset.union_empty]
    exact .refl
  | cons req l ih =>
    have hfirst : Reach c.step InTime s { s with finished := insert req s.finished } :=
      Reach.refl.tail (a := .finish req) trivial rfl
    have hrest := hfirst.trans ih
    rw [Finset.insert_union, ← Finset.union_insert] at hrest
    rwa [List.toFinset_cons]

/-- Every call has a run in which it returns in time. -/
theorem exists_run (pc : WaitPc) :
    ∃ s ret, Reach c.step InTime (e.call pc) s ∧ s.pc = .done ret := by
  obtain ⟨s, ret, hr, hret⟩ := exists_return (c := c)
    (s := { e.call pc with finished := (e.call pc).finished ∪ (c.reqs pc).toFinset })
    fun req hreq => by simpa [Endpoint.call] using hreq
  exact ⟨s, ret, (reach_finish _).trans (hr.mono fun _ _ ha => by rw [ha]; rfl), hret⟩

/-! ### The claim -/

/-- Distinct ids in flight are all found. -/
theorem takeAll_of_nodup {ids : List ℕ} {table : Finset ℕ} (hd : ids.Nodup)
    (hin : ∀ id ∈ ids, id ≠ 0 ∧ id ∈ table) : (Endpoint.takeAll ids table).1 = true := by
  induction ids generalizing table with
  | nil => rfl
  | cons a ids ih =>
    obtain ⟨hne, hmem⟩ := hin a List.mem_cons_self
    obtain ⟨hnew, hd⟩ := List.nodup_cons.mp hd
    rw [Endpoint.takeAll, if_neg hne, if_neg (not_not.mpr hmem)]
    refine ih hd fun id hid => ?_
    obtain ⟨hne', hmem'⟩ := hin id (List.mem_cons_of_mem _ hid)
    exact ⟨hne', Finset.mem_erase.mpr ⟨fun he => hnew (he ▸ hid), hmem'⟩⟩

section InFlight

variable (hc : c.InFlight e) (hin : ∀ wid ∈ wrids, wid ≠ 0 ∧ wid ∈ e.inflight)
include hc hin

theorem polled_eq : c.polled wrids = wrids.map c.handle := by
  have hids : wrids.filter (· ≠ 0) = wrids :=
    List.filter_eq_self.mpr fun wid hwid => by simpa using (hin wid hwid).1
  rw [polled, hids, List.filter_eq_self]
  intro req hreq
  obtain ⟨wid, hwid, rfl⟩ := List.mem_map.mp hreq
  simpa using hc.ne_null wid (hin wid hwid).2

/-- In time, `waitWrIdMulti` returns `SUCCESS` and has freed each of its requests. -/
theorem multi_done (hd : wrids.Nodup) {ret : Status}
    (hr : Reach c.step InTime (e.call (.waitWrIdMulti wrids)) s) (hret : s.pc = .done ret) :
    ret = .success ∧ s.freed.Perm (wrids.map c.handle) := by
  have h := MultiAt.reach_inTime hr
  rw [MultiAt, hret, polled_eq hc hin] at h
  exact (h.2 (takeAll_of_nodup hd hin)).resolve_right fun hlate => hlate.2

/-- `waitWrId` returns what its request has finished with. -/
theorem single_done (hwid : wid ∈ wrids) {ret : Status}
    (hr : Reach c.step InTime (e.call (.waitWrId wid)) s) (hret : s.pc = .done ret) :
    ret = (c.ends (c.handle wid)).toStatus := by
  have h := SingleAt.reach hr.free
  rw [SingleAt, hret] at h
  have hmem := (hin wid hwid).2
  exact h.2 hmem (hc.ne_null wid hmem)

/-- What was freed and what is left are the requests of the list. -/
theorem multi_reqs (hd : wrids.Nodup)
    (hr : Reach c.step InTime (e.call (.waitWrIdMulti wrids)) s) :
    (s.freed ++ c.reqs s.pc).Perm (wrids.map c.handle) := by
  have h := MultiAt.reach_inTime hr
  have hpolled := polled_eq hc hin
  rw [MultiAt, hpolled] at h
  split at h
  · rename_i ids hpc
    rw [hpc, h.1, h.2.2]
    exact List.Perm.refl _
  · rename_i hpc
    rw [hpc]
    exact h.2
  · rename_i hpc
    rw [hpc]
    exact h.2
  · rename_i hpc
    rw [hpc]
    exact h.2
  · rename_i ret hpc
    rw [hpc, reqs, List.append_nil]
    exact (multi_done hc hin hd hr hpc).2
  · exact h.elim

/-- **When waiting on a list agrees with waiting one by one**: exactly if every request of the list
finishes with `UCS_OK`. In time `waitWrIdMulti` returns `SUCCESS` whatever its requests have
finished with (`multi_done`), and a `waitWrId` returns what its request has finished with
(`single_done`); the other parts of the claim hold for every list. -/
theorem agrees_iff (hd : wrids.Nodup) :
    c.Agrees e wrids ↔ ∀ wid ∈ wrids, c.ends (c.handle wid) = .ok := by
  constructor
  · intro h wid hwid
    obtain ⟨s, ret, hr, hret⟩ := exists_run (c := c) (e := e) (.waitWrIdMulti wrids)
    obtain ⟨s', ret', hr', hret'⟩ := exists_run (c := c) (e := e) (.waitWrId wid)
    have hall := (h.result s ret hr hret).mp (multi_done hc hin hd hr hret).1
    have hone := hall wid hwid s' ret' hr' hret'
    rw [single_done hc hin hwid hr' hret', UcsStatus.toStatus_eq_success] at hone
    exact hone
  · intro h
    refine ⟨fun s ret hr hret => ?_, fun s hr => ⟨freed_finished hr, ?_, fun ret hret => ?_⟩, ?_⟩
    · refine iff_of_true (multi_done hc hin hd hr hret).1 fun wid hwid s' ret' hr' hret' => ?_
      rw [single_done hc hin hwid hr' hret', h wid hwid]
      rfl
    · have hnodup : (wrids.map c.handle).Nodup := by
        refine hd.map_on fun wid hwid wid' hwid' => ?_
        exact hc.inj wid (hin wid hwid).2 wid' (hin wid' hwid').2
      exact ((multi_reqs hc hin hd hr).nodup_iff.mpr hnodup).sublist (List.sublist_append_left ..)
    · exact (multi_done hc hin hd hr hret).2
    · rintro pc (rfl | ⟨wid, hwid, rfl⟩) s hr hfin
      · refine exists_return fun req hreq => ?_
        have hmem := (multi_reqs hc hin hd hr).subset (List.mem_append_right _ hreq)
        obtain ⟨wid, hwid, rfl⟩ := List.mem_map.mp hmem
        exact hfin wid hwid
      · refine exists_return fun req hreq => ?_
        have hat := SingleAt.reach hr.free
        have hreq' : req = c.handle wid := by
          rw [SingleAt] at hat
          split at hat
          · rename_i hpc
            rw [hpc, reqs, List.mem_singleton] at hreq
            rw [hreq, hat.1]
          · rename_i hpc
            rw [hpc, reqs, List.mem_singleton] at hreq
            rw [hreq, hat.1]
          · rename_i hpc
            rw [hpc] at hreq
            cases hreq
          · exact hat.elim
        rw [hreq']
        exact hfin wid hwid

end InFlight

/-- Two requests of one endpoint, of which the second ends with `st`. -/
def two (st : UcsStatus) : Requests where
  handle wid := 100 + wid
  ends req := if req = 102 then st else .ok

def twoInflight : Endpoint := ⟨true, 1, 1, 2, {1, 2}⟩

theorem inFlight_two (st : UcsStatus) : (two st).InFlight twoInflight where
  ne_null wid _ := by simp [two]
  inj wid _ wid' _ h := by simpa [two] using h

theorem agrees_iff_two : (two .ok).Agrees twoInflight [2, 1] ∧
    ¬ (two .timedOut).Agrees twoInflight [2, 1] := by
  have hin : ∀ wid ∈ [2, 1], wid ≠ 0 ∧ wid ∈ twoInflight.inflight := by decide
  refine ⟨(agrees_iff (inFlight_two _) hin (by decide)).mpr (by decide), fun h => ?_⟩
  have hall := (agrees_iff (inFlight_two _) hin (by decide)).mp h
  revert hall
  decide

/-- Both requests finish, the first one of the list with an error. -/
def errorRun : List WaitAct :=
  [.run false, .run false, .run false, .finish 102, .finish 101] ++ List.replicate 6 (.run false)

/-- **A failed request is taken for a successful one.** `waitWrIdMulti` returns `SUCCESS` for the
ids 2 and 1, although `waitWrId` on 2 returns `ERROR`. -/
theorem failure_ignored :
    (∃ s, Reach (two .err).step InTime (twoInflight.call (.waitWrIdMulti [2, 1])) s ∧
      s.pc = .done .success) ∧
    (∃ s, Reach (two .err).step InTime (twoInflight.call (.waitWrId 2)) s ∧ s.pc = .done .error) ∧
      ¬ (two .err).Agrees twoInflight [2, 1] := by
  have hmulti : ∃ s, Reach (two .err).step InTime (twoInflight.call (.waitWrIdMulti [2, 1])) s ∧
      s.pc = .done .success := exists_reach_of_execOk errorRun (by decide +kernel)
  have hsingle : ∃ s, Reach (two .err).step InTime (twoInflight.call (.waitWrId 2)) s ∧
      s.pc = .done .error :=
    exists_reach_of_execOk [.run false, .run false, .finish 102, .run false] (by decide +kernel)
  refine ⟨hmulti, hsingle, fun h => ?_⟩
  obtain ⟨s, hr, hret⟩ := hmulti
  obtain ⟨s', hr', hret'⟩ := hsingle
  have hall := (h.result s _ hr hret).mp rfl 2 (by decide) s' _ hr' hret'
  cases hall

end Requests

end HMC.Ucx
