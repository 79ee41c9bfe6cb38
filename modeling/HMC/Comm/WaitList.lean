import HMC.Comm.Inflight

/-!
# A wait on a list that fails

`Communicator::wait` on a list takes each id out of `inflight_ep_` as it reads the list, and the
endpoints take theirs out of their own tables before they wait. So a call that fails has forgotten
ids whose operations have not finished, and nobody can wait for them any more (`rest_forgotten`).

`losesNothing_iff` says for which calls this does not matter: nothing was taken, because the first
id is unknown, or everything that was taken has been reported as finished.

The two loops of the call are treated one after the other. The loop that takes the ids succeeds on
lists without an unknown or repeated id (`Known`) and then groups the ids under their endpoints
(`mem_takeMany`); otherwise it stops behind the ids it has taken, and has taken one unless the first
is unknown. The loop over the endpoints stops at the first wait that fails. How much of its list a
wait has seen by then belongs to the transport, so `WaitOutcome` brings it in, with `reported` as
the sum over the endpoints.
-/

namespace HMC.Comm

open HMC.Machine

/-- How the wait of an endpoint ends, once it has found its ids, and which of them it has seen
finish until then. -/
structure WaitOutcome where
  status : Status
  seen : ℕ → Bool
  possible : status = .success ∨ status = .timeout ∨ status = .error

namespace Communicator

variable (s : Communicator)

/-- The endpoint is there and knows the id. An RDMA endpoint has no table of its requests. -/
def Registered (id : ℕ) : EndpointRef → Prop
  | .rdma key => (s.rdma key).isSome
  | .ucx key => ∃ e ∈ s.ucx key, id ∈ e.inflight

/-- A wait on the id gets to its endpoint, which knows it. -/
def Waitable (id : ℕ) : Prop := id ≠ 0 ∧ ∃ ep ∈ s.inflightEp id, s.Registered id ep

/-- The ids of an endpoint. -/
def idsOf (byEp : List Op) (ep : EndpointRef) : List ℕ := (byEp.filter (·.ep = ep)).map (·.wrId)

/-- The endpoint finds all the ids in its table, and goes on to wait for them. -/
def accepts (ids : List ℕ) : EndpointRef → Bool
  | .rdma _ => true
  | .ucx key => (s.ucx key).any fun e => (Ucx.Endpoint.takeAll ids e.inflight).1

/-- What the endpoints report as finished, up to the first wait that fails: all ids of a wait that
succeeds, and those that the failing wait has seen. -/
def reportedEach (byEp : List Op) (outcome : EndpointRef → WaitOutcome) :
    List EndpointRef → List ℕ
  | [] => []
  | ep :: rest =>
    if s.accepts (idsOf byEp ep) ep = false then []
    else if (outcome ep).status = .success then idsOf byEp ep ++ reportedEach byEp outcome rest
    else (idsOf byEp ep).filter (outcome ep).seen

/-- What a call of `wait` on a list reports as finished. -/
def reported (ids : List ℕ) (visited : List EndpointRef)
    (outcome : EndpointRef → WaitOutcome) : List ℕ :=
  match s.takeMany ids [] with
  | (false, _, _) => []
  | (true, byEp, _) => s.reportedEach byEp outcome visited

/-- The hash table of the call is walked: every endpoint that got an id comes up once. -/
def Visits (ids : List ℕ) (visited : List EndpointRef) : Prop :=
  visited.Nodup ∧ ∀ ep, ep ∈ visited ↔ ∃ o ∈ (s.takeMany ids []).2.1, o.ep = ep

/-- The claim: a call that fails leaves every id of its list that has not been reported as finished
where a wait finds it, and `NOT_FOUND` leaves `inflight_ep_` as it was. -/
def LosesNothing (ids : List ℕ) (visited : List EndpointRef)
    (outcome : EndpointRef → WaitOutcome) : Prop :=
  let r := s.waitAll ids visited fun ep => (outcome ep).status
  r.1 ≠ .success →
    (∀ id ∈ ids, s.Waitable id → id ∉ s.reported ids visited outcome → r.2.Waitable id) ∧
      (r.1 = .notFound → r.2.inflightEp = s.inflightEp)

/-- The first id of the list that is not zero is unknown. -/
def FirstUnknown (ids : List ℕ) : Prop :=
  ∃ id ∈ (ids.filter (· ≠ 0)).head?, s.inflightEp id = none

/-- The ids of the list, zeros apart, are known and do not repeat. -/
def Known (ids : List ℕ) : Prop :=
  (ids.filter (· ≠ 0)).Nodup ∧ ∀ id ∈ ids, id ≠ 0 → (s.inflightEp id).isSome

variable {s} {id : ℕ} {ids : List ℕ} {byEp : List Op}

/-! ### Taking the ids -/

theorem forget_inflightEp (a : ℕ) :
    (s.forget a).inflightEp id = if id = a then none else s.inflightEp id :=
  Function.update_apply ..

theorem known_cons {a : ℕ} : s.Known (a :: ids) ↔
    if a = 0 then s.Known ids else (s.inflightEp a).isSome ∧ (s.forget a).Known ids := by
  split_ifs with ha
  · simp [Known, ha]
  · simp only [Known, forget_inflightEp, List.filter_cons, ha, ne_eq, not_false_eq_true,
      decide_true, if_true, List.nodup_cons, List.mem_filter, List.forall_mem_cons]
    constructor
    · rintro ⟨⟨hnew, hnodup⟩, hfirst, hrest⟩
      refine ⟨hfirst trivial, hnodup, fun b hb hne => ?_⟩
      have hba : b ≠ a := by
        rintro rfl
        exact hnew ⟨hb, by simp⟩
      rw [if_neg hba]
      exact hrest b hb hne
    · rintro ⟨hfirst, hnodup, hrest⟩
      refine ⟨⟨fun ⟨hmem, _⟩ => ?_, hnodup⟩, fun _ => hfirst, fun b hb hne => ?_⟩
      · simpa using hrest a hmem ha
      · have hsome := hrest b hb hne
        split_ifs at hsome
        · cases hsome
        · exact hsome

theorem takeMany_fst : (s.takeMany ids byEp).1 = true ↔ s.Known ids := by
  induction ids generalizing s byEp with
  | nil => simp [takeMany, Known]
  | cons a ids ih =>
    rw [known_cons]
    unfold takeMany
    split_ifs with ha
    · exact ih
    · split
      · rename_i hnone
        simp [hnone]
      · rename_i ep hep
        simpa [hep] using ih

theorem takeMany_of_firstUnknown (h : s.FirstUnknown ids) :
    s.takeMany ids byEp = (false, byEp, s) := by
  obtain ⟨id, hid, hnone⟩ := h
  induction ids with
  | nil => cases hid
  | cons a ids ih =>
    unfold takeMany
    by_cases ha : a = 0
    · rw [if_pos ha]
      exact ih (by simpa [ha] using hid)
    · obtain rfl : a = id := by simpa [ha] using hid
      rw [if_neg ha, hnone]

/-- What is not in the table does not get into it. -/
theorem takeMany_inflightEp_of_none (h : s.inflightEp id = none) :
    (s.takeMany ids byEp).2.2.inflightEp id = none := by
  induction ids generalizing s byEp with
  | nil => exact h
  | cons a ids ih =>
    unfold takeMany
    split_ifs
    · exact ih h
    · split
      · exact h
      · refine ih ?_
        rw [forget_inflightEp, h, ite_self]

/-- A list whose first id is known loses that id, whatever comes behind it. -/
theorem takeMany_inflightEp_ne (h : ¬ s.FirstUnknown ids) (hids : ∃ id ∈ ids, id ≠ 0) :
    (s.takeMany ids byEp).2.2.inflightEp ≠ s.inflightEp := by
  induction ids with
  | nil => simp at hids
  | cons a ids ih =>
    unfold takeMany
    by_cases ha : a = 0
    · rw [if_pos ha]
      exact ih (by simpa [FirstUnknown, ha] using h) (by simpa [ha] using hids)
    · rw [if_neg ha]
      have hsome : s.inflightEp a ≠ none := fun hnone => h ⟨a, by simp [ha], hnone⟩
      split
      · contradiction
      · intro heq
        refine hsome ?_
        rw [← heq]
        refine takeMany_inflightEp_of_none ?_
        rw [forget_inflightEp, if_pos rfl]

/-- All the ids of a known list are taken. -/
theorem takeMany_taken (h : s.Known ids) (hid : id ∈ ids) (hne : id ≠ 0) :
    (s.takeMany ids byEp).2.2.inflightEp id = none := by
  induction ids generalizing s byEp with
  | nil => cases hid
  | cons a ids ih =>
    rw [known_cons] at h
    unfold takeMany
    split_ifs at h ⊢ with ha
    · exact ih h ((List.mem_cons.mp hid).resolve_left fun he => hne (he.trans ha))
    · obtain ⟨hsome, hrest⟩ := h
      split
      · rename_i hnone
        rw [hnone] at hsome
        cases hsome
      · by_cases hida : id = a
        · refine takeMany_inflightEp_of_none ?_
          rw [forget_inflightEp, if_pos hida]
        · exact ih hrest ((List.mem_cons.mp hid).resolve_left hida)

/-- The ids of a known list are grouped under their endpoints. -/
theorem mem_takeMany (h : s.Known ids) {o : Op} : o ∈ (s.takeMany ids byEp).2.1 ↔
    o ∈ byEp ∨ o.wrId ∈ ids ∧ o.wrId ≠ 0 ∧ s.inflightEp o.wrId = some o.ep := by
  induction ids generalizing s byEp with
  | nil => simp [takeMany]
  | cons a ids ih =>
    rw [known_cons] at h
    unfold takeMany
    split_ifs at h ⊢ with ha
    · rw [ih h, List.mem_cons, ha]
      have hzero : o.wrId ≠ 0 → ¬ o.wrId = 0 := fun hne => hne
      grind
    · obtain ⟨hsome, hrest⟩ := h
      obtain ⟨ep, hep⟩ := Option.isSome_iff_exists.mp hsome
      obtain ⟨id, ep'⟩ := o
      simp only [hep]
      rw [ih hrest, List.mem_append, List.mem_singleton, forget_inflightEp, Op.mk.injEq]
      by_cases hida : id = a
      · subst hida
        simp [ha, hep, eq_comm]
      · simp [hida]

/-- The endpoints stay as they are. -/
theorem takeMany_accepts {ids' : List ℕ} {ep : EndpointRef} :
    (s.takeMany ids byEp).2.2.accepts ids' ep = s.accepts ids' ep := by
  induction ids generalizing s byEp with
  | nil => rfl
  | cons a ids ih =>
    unfold takeMany
    split_ifs
    · exact ih
    · split
      · rfl
      · rw [ih]
        rfl

/-! ### Waiting at the endpoints -/

variable {ep : EndpointRef} {visited : List EndpointRef} {outcome : EndpointRef → WaitOutcome}

theorem waitManyOn_fst (finished : Status) :
    (s.waitManyOn ep ids finished).1 = if s.accepts ids ep = true then finished else .error := by
  obtain key | key := ep
  · simp [waitManyOn, accepts]
  · cases he : s.ucx key with
    | none => simp [waitManyOn, accepts, he]
    | some e => simp [waitManyOn, accepts, he, Ucx.Endpoint.waitWrIdMulti]

theorem waitManyOn_inflightEp (finished : Status) :
    (s.waitManyOn ep ids finished).2.inflightEp = s.inflightEp := by
  obtain key | key := ep
  · rfl
  · cases he : s.ucx key with
    | none => simp [waitManyOn, he]
    | some e =>
      simp only [waitManyOn, he]
      rfl

/-- The wait of one endpoint does not touch the others. -/
theorem waitManyOn_accepts (finished : Status) {ids' : List ℕ} {ep' : EndpointRef}
    (hne : ep' ≠ ep) : (s.waitManyOn ep ids finished).2.accepts ids' ep' = s.accepts ids' ep' := by
  obtain key | key := ep
  · rfl
  · cases he : s.ucx key with
    | none => simp [waitManyOn, he]
    | some e =>
      obtain key' | key' := ep'
      · rfl
      · have hkey : key' ≠ key := fun hk => hne (by rw [hk])
        simp only [waitManyOn, he, accepts, setUcx, Function.update_of_ne hkey]

theorem reportedEach_congr {s' : Communicator}
    (h : ∀ ep ∈ visited, ∀ ids, s'.accepts ids ep = s.accepts ids ep) :
    s'.reportedEach byEp outcome visited = s.reportedEach byEp outcome visited := by
  induction visited with
  | nil => rfl
  | cons ep rest ih =>
    rw [reportedEach, reportedEach, h ep List.mem_cons_self,
      ih fun ep hep => h ep (List.mem_cons_of_mem _ hep)]

theorem waitEach_cons {finished : EndpointRef → Status} {rest : List EndpointRef} :
    s.waitEach byEp finished (ep :: rest) =
      let r := s.waitManyOn ep (idsOf byEp ep) (finished ep)
      if r.1 ≠ .success then r else r.2.waitEach byEp finished rest := rfl

theorem waitEach_inflightEp {finished : EndpointRef → Status} :
    (s.waitEach byEp finished visited).2.inflightEp = s.inflightEp := by
  induction visited generalizing s with
  | nil => rfl
  | cons ep rest ih =>
    rw [waitEach_cons]
    dsimp only
    split_ifs
    · exact waitManyOn_inflightEp _
    · rw [ih]
      exact waitManyOn_inflightEp _

theorem waitEach_ne_notFound :
    (s.waitEach byEp (fun ep => (outcome ep).status) visited).1 ≠ .notFound := by
  induction visited generalizing s with
  | nil => simp [waitEach]
  | cons ep rest ih =>
    rw [waitEach_cons]
    dsimp only
    split_ifs
    · rw [waitManyOn_fst]
      split_ifs
      · obtain h | h | h := (outcome ep).possible <;> simp [h]
      · decide
    · exact ih

/-- If every endpoint succeeds, all ids are reported. -/
theorem mem_reportedEach (hnodup : visited.Nodup)
    (hret : (s.waitEach byEp (fun ep => (outcome ep).status) visited).1 = .success)
    {o : Op} (ho : o ∈ byEp) (hep : o.ep ∈ visited) :
    o.wrId ∈ s.reportedEach byEp outcome visited := by
  induction visited generalizing s with
  | nil => cases hep
  | cons ep rest ih =>
    obtain ⟨hnew, hrest⟩ := List.nodup_cons.mp hnodup
    rw [waitEach_cons] at hret
    dsimp only at hret
    split_ifs at hret with hfirst
    · exact absurd hret hfirst
    · rw [not_not, waitManyOn_fst] at hfirst
      split_ifs at hfirst with hacc
      have hframe : ∀ ep' ∈ rest, ∀ ids',
          (s.waitManyOn ep (idsOf byEp ep) (outcome ep).status).2.accepts ids' ep' =
            s.accepts ids' ep' := fun ep' hep' ids' =>
        waitManyOn_accepts _ fun he => hnew (he ▸ hep')
      have hrec := ih hrest hret
      rw [reportedEach_congr hframe] at hrec
      rw [reportedEach, if_neg (by rw [hacc]; decide), if_pos hfirst]
      obtain rfl | hmem := List.mem_cons.mp hep
      · exact List.mem_append_left _
          (List.mem_map.mpr ⟨o, List.mem_filter.mpr ⟨ho, by simp⟩, rfl⟩)
      · exact List.mem_append_right _ (hrec hmem)

/-! ### The claim -/

/-- **When a failed wait loses nothing**: exactly if it has taken nothing, or the ids of the list
are known and all those that could be waited for have been reported as finished. If the first id is
unknown the call leaves the tables alone; if a later one is, the ids before it are gone; and if all
are known none of them is left, so that a call which loses nothing has reported them. -/
theorem losesNothing_iff (hv : s.Visits ids visited) :
    s.LosesNothing ids visited outcome ↔ s.FirstUnknown ids ∨ s.Known ids ∧
      ∀ id ∈ ids, s.Waitable id → id ∈ s.reported ids visited outcome := by
  by_cases hfirst : s.FirstUnknown ids
  · -- nothing is taken
    have htake : s.takeMany ids [] = (false, [], s) := takeMany_of_firstUnknown hfirst
    refine iff_of_true ?_ (.inl hfirst)
    simp only [LosesNothing, waitAll, htake]
    exact fun _ => ⟨fun _ _ hw _ => hw, fun _ => trivial⟩
  by_cases hknown : s.Known ids
  · obtain ⟨byEp, s', htake⟩ : ∃ byEp s', s.takeMany ids [] = (true, byEp, s') :=
      ⟨_, _, Prod.ext (takeMany_fst.mpr hknown) rfl⟩
    have hgone : ∀ id ∈ ids, id ≠ 0 →
        (s'.waitEach byEp (fun ep => (outcome ep).status) visited).2.inflightEp id = none :=
      fun id hid hne => by
        have htaken : (s.takeMany ids []).2.2.inflightEp id = none := takeMany_taken hknown hid hne
        rw [waitEach_inflightEp, ← htaken, htake]
    have hreported : s.reported ids visited outcome = s'.reportedEach byEp outcome visited := by
      rw [reported, htake]
      refine (reportedEach_congr fun ep _ ids' => ?_).symm
      have haccepts : (s.takeMany ids []).2.2.accepts ids' ep = s.accepts ids' ep :=
        takeMany_accepts
      rw [← haccepts, htake]
    rw [or_iff_right hfirst, and_iff_right hknown]
    simp only [LosesNothing, waitAll, htake]
    constructor
    · intro h id hid hw
      by_cases hret : (s'.waitEach byEp (fun ep => (outcome ep).status) visited).1 = .success
      · obtain ⟨hne, ep, hep, -⟩ := hw
        have ho : ⟨id, ep⟩ ∈ byEp := by
          have hmem : ⟨id, ep⟩ ∈ (s.takeMany ids []).2.1 :=
            (mem_takeMany hknown).mpr (.inr ⟨hid, hne, hep⟩)
          rwa [htake] at hmem
        rw [hreported]
        refine mem_reportedEach hv.1 hret ho ((hv.2 ep).mpr ⟨⟨id, ep⟩, ?_, rfl⟩)
        rwa [htake]
      · -- an id that is not reported is gone
        by_contra hun
        obtain ⟨-, ep, hep, -⟩ := (h hret).1 id hid hw hun
        rw [hgone id hid hw.1] at hep
        cases hep
    · exact fun h _ => ⟨fun id hid hw hun => absurd (h id hid hw) hun,
        fun hnf => absurd hnf waitEach_ne_notFound⟩
  · -- an id was taken before the unknown one
    obtain ⟨byEp, s', htake⟩ : ∃ byEp s', s.takeMany ids [] = (false, byEp, s') :=
      ⟨_, _, Prod.ext (Bool.eq_false_of_not_eq_true fun h => hknown (takeMany_fst.mp h)) rfl⟩
    refine iff_of_false (fun h => ?_) fun h => h.elim hfirst fun h => hknown h.1
    simp only [LosesNothing, waitAll, htake] at h
    have hids : ∃ id ∈ ids, id ≠ 0 := by
      by_contra hall
      push Not at hall
      refine hknown ⟨?_, fun id hid hne => absurd (hall id hid) hne⟩
      rw [List.filter_eq_nil_iff.mpr (by simpa using hall)]
      exact List.nodup_nil
    have hchanged : (s.takeMany ids []).2.2.inflightEp ≠ s.inflightEp :=
      takeMany_inflightEp_ne hfirst hids
    refine hchanged ?_
    rw [htake]
    exact (h (by decide)).2 trivial

end Communicator

/-! ### A list over two endpoints -/

/-- Operation 256 is in flight at an RDMA endpoint, and operation 1 at a UCX endpoint. -/
def twoInflight : Communicator where
  rdma _ := some ⟨⟨1, 1, 1, 128⟩, ⟨⟨1, 0⟩, .empty, []⟩⟩
  ucx _ := some ⟨true, 1, 1, 1, {1}⟩
  inflightEp id :=
    if id = 256 then some (.rdma peerA) else if id = 1 then some (.ucx peerB) else none
  outstanding := [⟨256, .rdma peerA⟩, ⟨1, .ucx peerB⟩]

/-- The wait at the RDMA endpoint sees its operation fail. -/
def rdmaFails : EndpointRef → WaitOutcome
  | .rdma _ => ⟨.error, fun _ => true, .inr (.inr rfl)⟩
  | .ucx _ => ⟨.success, fun _ => true, .inl rfl⟩

namespace Communicator

/-- The UCX endpoint comes first, so both operations are reported when the RDMA wait fails. -/
theorem losesNothing_iff_twoInflight :
    twoInflight.LosesNothing [256, 0, 1] [.ucx peerB, .rdma peerA] rdmaFails ∧
      (twoInflight.waitAll [256, 0, 1] [.ucx peerB, .rdma peerA]
        fun ep => (rdmaFails ep).status).1 = .error := by
  have hv : twoInflight.Visits [256, 0, 1] [.ucx peerB, .rdma peerA] := by
    refine ⟨by decide, fun ep => ?_⟩
    have htake : (twoInflight.takeMany [256, 0, 1] []).2.1 =
        [⟨256, .rdma peerA⟩, ⟨1, .ucx peerB⟩] := by decide
    rw [htake]
    simp [eq_comm, or_comm]
  refine ⟨(losesNothing_iff hv).mpr (.inr ⟨?_, ?_⟩), by decide⟩
  · exact ⟨by decide, by decide⟩
  · have hreported : twoInflight.reported [256, 0, 1] [.ucx peerB, .rdma peerA] rdmaFails =
        [1, 256] := by decide
    rw [hreported]
    intro id hid hw
    have hne := hw.1
    grind

/-- **`NOT_FOUND` forgets the rest of the list.** Operation 256 is in flight and 7 is unknown; the
call takes 256 before it comes to 7, and a second call does not find 256 any more. -/
theorem rest_forgotten :
    twoInflight.Waitable 256 ∧ twoInflight.Visits [256, 7] [.rdma peerA] ∧
      (twoInflight.waitAll [256, 7] [.rdma peerA] fun ep => (rdmaFails ep).status).1 = .notFound ∧
        ¬ twoInflight.LosesNothing [256, 7] [.rdma peerA] rdmaFails := by
  refine ⟨⟨by decide, .rdma peerA, rfl, rfl⟩, ⟨by decide, fun ep => ?_⟩, by decide, fun h => ?_⟩
  · have htake : (twoInflight.takeMany [256, 7] []).2.1 = [⟨256, .rdma peerA⟩] := by decide
    rw [htake]
    simp [eq_comm]
  · have hsame := congrFun ((h (by decide)).2 (by decide)) 256
    revert hsame
    decide

end Communicator

end HMC.Comm
