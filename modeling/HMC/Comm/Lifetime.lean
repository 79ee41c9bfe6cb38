import HMC.Comm.ConnManager

/-!
# Endpoints of operations in flight

`inflight_ep_` holds plain pointers to endpoints, and `wait` uses an endpoint after it has taken it
from there. The maps own the endpoints and know nothing of this table: an endpoint can be removed or
replaced while one of its operations is in flight, and `wait` then uses a destroyed endpoint
(`waits_after_disconnect`).

`live_of_reach` gives what the callers have to see to: an endpoint is given up only when no id of it
is in the table, no wait uses it, and no `putNB` or `getNB` on it is under way.

The last of the three is needed because an operation is noted only at the end of its callback. A
call that has found an entry but not locked it will note whatever the entry holds when the lock is
free, so its entry must then be in the map or empty. `Retained` says so for every place of a thread
(`Uses`), and each change of the maps has a lemma that says what has to be unused for it: adding,
taking an entry out of its map, moving its endpoint out, or both at once.
-/

namespace HMC.Comm

open HMC.Machine

/-- An entry of the maps holds the endpoint. -/
def EndpointMaps.Owned (m : EndpointMaps) (ep : ℕ) : Prop :=
  ∃ key e, m.table key = some e ∧ m.endpoint e = some ep

namespace ConnManager

section

variable {τ : Type} (st : ConnManager τ)

/-- No id of the endpoint is in `inflight_ep_`, and no wait uses it. -/
def Unused (ep : ℕ) : Prop :=
  (∀ id, st.inflight id ≠ some ep) ∧ ∀ t eps, st.pc t = .waiting eps → ep ∉ eps

/-- An endpoint is given up only when it is unused and no call that will note it is under way. A
call that has found an entry and not locked it does no harm where the endpoint is replaced, or
where it leaves the entry and the map in one step. -/
def Retiring : ConnAct τ → Prop
  | .addEndpoint _ key _ => ∀ e ep, st.maps.table key = some e → st.maps.endpoint e = some ep →
      st.Unused ep ∧ ∀ t, st.pc t ≠ .running e ep true
  | .removeEndpoint _ key => ∀ e ep, st.maps.table key = some e → st.maps.endpoint e = some ep →
      st.Unused ep ∧ ∀ t, st.pc t ≠ .running e ep true ∧ st.pc t ≠ .want e true
  | .compare t => ∀ key e ep, st.pc t = .matching key e (st.maps.connId ep) →
      st.maps.endpoint e = some ep → st.Unused ep
  | _ => True

/-- The maps own every endpoint that `inflight_ep_` refers to or a wait uses, and it is not
destroyed. -/
structure Live : Prop where
  inflight (id ep : ℕ) : st.inflight id = some ep → st.maps.Owned ep ∧ st.maps.destroyed ep = false
  waiting (t : τ) (eps : List ℕ) (ep : ℕ) : st.pc t = .waiting eps → ep ∈ eps →
    st.maps.Owned ep ∧ st.maps.destroyed ep = false

/-- What the calls that note an endpoint, and those that wait for it, rely on. -/
def Uses : ConnPc → Prop
  | .want e true => (∃ key, st.maps.table key = some e) ∨ st.maps.endpoint e = none
  | .running e ep true => st.maps.endpoint e = some ep ∧ ∃ key, st.maps.table key = some e
  | .waiting eps => ∀ ep ∈ eps, st.maps.Owned ep
  | _ => True

/-- The maps own what is in the table, and no thread relies on an endpoint that has been given
up. -/
structure Retained : Prop where
  inflight {id ep : ℕ} : st.inflight id = some ep → st.maps.Owned ep
  threads (t : τ) : st.Uses (st.pc t)

end

/-! ### The locked part of `wait` -/

theorem of_takeIds {ids : List ℕ} {inflight : ℕ → Option ℕ} {id ep : ℕ}
    (h : (takeIds ids inflight).2 id = some ep) : inflight id = some ep := by
  induction ids generalizing inflight with
  | nil => exact h
  | cons i ids ih =>
    rw [takeIds] at h
    split_ifs at h with hi
    · exact ih h
    · split at h
      · exact h
      · have hupd := ih h
        by_cases hid : id = i
        · simp [hid] at hupd
        · rwa [Function.update_of_ne hid] at hupd

theorem exists_of_mem_takeIds {ids eps : List ℕ} {inflight : ℕ → Option ℕ} {ep : ℕ}
    (h : (takeIds ids inflight).1 = some eps) (hep : ep ∈ eps) :
    ∃ id, inflight id = some ep := by
  induction ids generalizing inflight eps with
  | nil =>
    cases h
    cases hep
  | cons i ids ih =>
    rw [takeIds] at h
    split_ifs at h with hi
    · exact ih h hep
    · split at h
      · cases h
      · rename_i ep' hep'
        obtain ⟨eps', heps', rfl⟩ := Option.map_eq_some_iff.mp h
        obtain rfl | hep := List.mem_cons.mp hep
        · exact ⟨i, hep'⟩
        · obtain ⟨id, hid⟩ := ih heps' hep
          by_cases hne : id = i
          · simp [hne] at hid
          · exact ⟨id, by rwa [Function.update_of_ne hne] at hid⟩

/-! ### What the steps retain -/

variable {τ : Type} {st st' : ConnManager τ} {a : ConnAct τ} {t : τ}

namespace Retained

theorem start : Retained (start : ConnManager τ) := ⟨nofun, fun _ => trivial⟩

theorem uses (h : Retained st) {pc : ConnPc} (hpc : st.pc t = pc) : st.Uses pc :=
  hpc ▸ h.threads t

/-- A thread moves to another place. -/
theorem goto [DecidableEq τ] (h : Retained st) {pc : ConnPc} (hpc : st.Uses pc) :
    Retained (st.goto t pc) :=
  ⟨h.inflight, Function.forall_update_iff st.pc (fun _ pc => st.Uses pc) |>.mpr
    ⟨hpc, fun u _ => h.threads u⟩⟩

theorem lock (h : Retained st) (e : ℕ) (x : Option τ) : Retained (st.lock e x) :=
  ⟨h.inflight, h.threads⟩

theorem lockMap (h : Retained st) (kind : MapKind) (x : Option τ) :
    Retained (st.lockMap kind x) :=
  ⟨h.inflight, h.threads⟩

/-- Fewer ids are left in the table. -/
theorem setInflight (h : Retained st) {inflight : ℕ → Option ℕ}
    (hsub : ∀ {id ep}, inflight id = some ep → st.inflight id = some ep) :
    Retained (st.setInflight inflight) :=
  ⟨fun hid => h.inflight (hsub hid), h.threads⟩

/-- A call notes an endpoint. -/
theorem note (h : Retained st) {ep : ℕ} (hep : st.maps.Owned ep) (id : ℕ) :
    Retained (st.setInflight (Function.update st.inflight id (some ep))) := by
  refine ⟨?_, h.threads⟩
  intro id' ep' hid
  change Function.update st.inflight id (some ep) id' = some ep' at hid
  by_cases hne : id' = id
  · rw [hne, Function.update_self] at hid
    exact Option.some.inj hid ▸ hep
  · rw [Function.update_of_ne hne] at hid
    exact h.inflight hid

/-- The maps change at one entry. -/
theorem setMaps (hi : Inv st) (h : Retained st) {m : EndpointMaps} {e : ℕ}
    (htable : ∀ {key e'}, e' ≠ e → st.maps.table key = some e' → m.table key = some e')
    (hendpoint : ∀ {e'}, e' ≠ e → e' < st.maps.entries →
      m.endpoint e' = st.maps.endpoint e')
    (hunused : ∀ {key ep}, st.maps.table key = some e → st.maps.endpoint e = some ep →
      st.Unused ep ∧ ∀ t, st.pc t ≠ .running e ep true)
    (hwant : ∀ {t}, st.pc t = .want e true → (∃ key, m.table key = some e) ∨ m.endpoint e = none) :
    Retained (st.setMaps m) := by
  have howned : ∀ {ep}, ¬ st.Unused ep → st.maps.Owned ep → m.Owned ep := by
    rintro ep hused ⟨key, e', hkey, hep⟩
    have hne : e' ≠ e := by
      rintro rfl
      exact hused (hunused hkey hep).1
    exact ⟨key, e', htable hne hkey, (hendpoint hne (hi.maps.owner_lt hep)).trans hep⟩
  refine ⟨fun {id ep} hid => howned (fun hun => hun.1 id hid) (h.inflight hid), ?_⟩
  intro t
  have ht := h.threads t
  change Uses _ (st.pc t)
  cases hpc : st.pc t with
  | want e' nb =>
    cases nb with
    | false => trivial
    | true =>
      rw [hpc] at ht
      by_cases hne : e' = e
      · subst hne
        exact hwant hpc
      · exact ht.imp (fun ⟨key, hkey⟩ => ⟨key, htable hne hkey⟩)
          (hendpoint hne (hi.want hpc)).trans
  | running e' ep nb =>
    cases nb with
    | false => trivial
    | true =>
      rw [hpc] at ht
      obtain ⟨hep, key, hkey⟩ := ht
      have hne : e' ≠ e := by
        rintro rfl
        exact (hunused hkey hep).2 t hpc
      exact ⟨(hendpoint hne (hi.maps.owner_lt hep)).trans hep, key, htable hne hkey⟩
  | waiting eps =>
    rw [hpc] at ht
    exact fun ep hep => howned (fun hun => hun.2 t eps hpc hep) (ht ep hep)
  | idle | removing | matching => trivial

/-- `_addEndpoint`. -/
theorem add (hi : Inv st) (h : Retained st) {key : EntryKey} {connId : ℕ}
    (hok : st.Retiring (.addEndpoint t key connId)) :
    Retained (st.setMaps (st.maps.add key connId)) := by
  obtain ⟨e, he, hadd⟩ | ⟨hnone, hadd⟩ := st.maps.add_cases key connId
  · rw [hadd]
    refine h.setMaps hi (e := e) ?_ ?_ ?_ ?_
    · intro key' e' _ hkey
      exact hkey
    · intro e' hne _
      exact Function.update_of_ne hne _ _
    · intro key' ep _ hep
      exact hok e ep he hep
    · intro u _
      exact .inl ⟨key, he⟩
  · rw [hadd]
    -- nobody knows the new entry yet
    refine h.setMaps hi (e := st.maps.entries) ?_ ?_ ?_ ?_
    · intro key' e' _ hkey
      refine EndpointMaps.table_newEntry.mpr (.inr ⟨?_, hkey⟩)
      rintro rfl
      cases hnone.symm.trans hkey
    · intro e' hne _
      exact Function.update_of_ne hne _ _
    · intro key' ep hkey
      exact absurd (hi.maps.entry_lt hkey) (Nat.lt_irrefl _)
    · intro u hpc
      exact absurd (hi.want hpc) (Nat.lt_irrefl _)

/-- An entry is taken out of its map. -/
theorem erase (hi : Inv st) (h : Retained st) {key : EntryKey} {e : ℕ}
    (he : st.maps.table key = some e)
    (hunused : ∀ {ep}, st.maps.endpoint e = some ep →
      st.Unused ep ∧ ∀ t, st.pc t ≠ .running e ep true ∧ st.pc t ≠ .want e true) :
    Retained (st.setMaps (st.maps.erase key)) := by
  refine h.setMaps hi (e := e) ?_ ?_ ?_ ?_
  · intro key' e' hne hkey
    refine EndpointMaps.table_erase.mpr ⟨?_, hkey⟩
    rintro rfl
    exact hne (Option.some.inj (hkey.symm.trans he))
  · intro e' _ _
    rfl
  · intro key' ep _ hep
    obtain ⟨hun, hpcs⟩ := hunused hep
    exact ⟨hun, fun u => (hpcs u).1⟩
  · intro u hpc
    cases hep : st.maps.endpoint e with
    | none => exact .inr hep
    | some ep => exact absurd hpc ((hunused hep).2 u).2

/-- The endpoint of an entry that is in no map is moved out. -/
theorem moveOut (hi : Inv st) (h : Retained st) {e : ℕ} (he : ∀ key, st.maps.table key ≠ some e) :
    Retained (st.setMaps (st.maps.setEndpoint e none)) := by
  refine h.setMaps hi (e := e) ?_ ?_ ?_ ?_
  · intro key e' _ hkey
    exact hkey
  · intro e' hne _
    exact Function.update_of_ne hne _ _
  · intro key ep hkey
    exact absurd hkey (he key)
  · intro u _
    exact .inr (Function.update_self ..)

/-- An entry leaves its map together with its endpoint. -/
theorem remove (hi : Inv st) (h : Retained st) {key : EntryKey} {e ep : ℕ}
    (he : st.maps.table key = some e) (hfree : st.mutex e = none)
    (hep : st.maps.endpoint e = some ep) (hunused : st.Unused ep) :
    Retained (st.setMaps ((st.maps.setEndpoint e none).erase key)) := by
  refine h.setMaps hi (e := e) ?_ ?_ ?_ ?_
  · intro key' e' hne hkey
    refine EndpointMaps.table_erase.mpr ⟨?_, hkey⟩
    rintro rfl
    exact hne (Option.some.inj (hkey.symm.trans he))
  · intro e' hne _
    exact Function.update_of_ne hne _ _
  · intro key' ep' _ hep'
    obtain rfl := Option.some.inj (hep.symm.trans hep')
    refine ⟨hunused, ?_⟩
    intro u hpc
    cases hfree.symm.trans (hi.mutex hpc)
  · intro u _
    exact .inr (Function.update_self ..)

theorem live (hi : Inv st) (h : Retained st) : st.Live := by
  have hlive : ∀ {ep}, st.maps.Owned ep → st.maps.Owned ep ∧ st.maps.destroyed ep = false :=
    fun how => ⟨how, by
      obtain ⟨_, _, _, hep⟩ := how
      exact hi.maps.live hep⟩
  exact ⟨fun _ _ hid => hlive (h.inflight hid), fun _ _ ep hpc hep => hlive (h.uses hpc ep hep)⟩

end Retained

variable [DecidableEq τ]

theorem Moves.retained (hi : Inv st) (h : Moves st a st') (hok : st.Retiring a)
    (hr : Retained st) : Retained st' := by
  cases h with
  | missed | absent | unmatched => exact hr
  | @found t key nb e hpc he =>
    refine hr.goto ?_
    cases nb with
    | false => trivial
    | true => exact .inl ⟨key, he⟩
  | empty | waitDone => exact hr.goto trivial
  | left => exact (hr.lock _ _).goto trivial
  | lockedMap | differed => exact (hr.lockMap _ _).goto trivial
  | @entered t e ep nb hpc hfree hep =>
    refine (hr.lock _ _).goto ?_
    cases nb with
    | false => trivial
    | true =>
      obtain hkey | hnone := hr.uses hpc
      · exact ⟨hep, hkey⟩
      · cases hnone.symm.trans hep
  | @noted t id e ep hpc =>
    obtain ⟨hep, key, hkey⟩ := hr.uses hpc
    exact (hr.note ⟨key, e, hkey, hep⟩ id).goto trivial
  | added hpc => exact hr.add hi hok
  | taken hpc hfree he => exact (hr.erase hi he (hok _ _ he)).goto trivial
  | movedOut hpc hfree => exact (hr.moveOut hi (hi.removing hpc).2).goto trivial
  | dropped hpc hep =>
    have hr' := hr.erase hi (hi.matching hpc).1 fun h => by cases hep.symm.trans h
    exact (hr'.lockMap _ _).goto trivial
  | matched hpc hfree hep =>
    have hr' := hr.remove hi (hi.matching hpc).1 hfree hep (hok _ _ _ hpc hep)
    exact (hr'.lockMap _ _).goto trivial
  | unknown hpc hids =>
    exact hr.setInflight fun hid =>
      of_takeIds ((congrFun (congrArg Prod.snd hids) _).trans hid)
  | waits hpc hids =>
    have hr' := hr.setInflight fun hid =>
      of_takeIds ((congrFun (congrArg Prod.snd hids) _).trans hid)
    refine hr'.goto ?_
    intro ep hep
    obtain ⟨id, hid⟩ := exists_of_mem_takeIds (congrArg Prod.fst hids) hep
    exact hr.inflight hid
  | waited hpc =>
    exact hr.goto fun ep hep => hr.uses hpc ep (List.mem_of_mem_erase hep)

/-- **Handles do not outlive their endpoint** while endpoints are given up only when they are
unused: the endpoint of every id in `inflight_ep_`, and every endpoint that a wait uses, belongs to
an entry and is not destroyed. The condition is on the state before the step; that the threads find
their entries and mutexes in order holds in every run (`inv_of_reach`). -/
theorem live_of_reach (h : Reach step Retiring start st) : st.Live := by
  refine Retained.live (inv_of_reach h) ?_
  exact h.invariant .start fun s a s' hr hret hok hs =>
    (moves_of_step hs).retained (inv_of_reach hr) hok hret

/-- A disconnect, a reconnect, and an operation on the new endpoint. -/
theorem live_of_reach_reconnected : ∃ st : ConnManager Bool, Reach step Retiring start st ∧
    st.inflight 256 = some 1 ∧ st.maps.destroyed 0 = true ∧ st.Live := by
  have hconnect : Reach step Retiring (start : ConnManager Bool) _ :=
    .tail (a := .addEndpoint true (.rdma samplePeer) 1) .refl (fun _ _ h => nomatch h) rfl
  have hremove : Reach step Retiring start _ :=
    hconnect.tail (a := (.removeEndpoint true (.rdma samplePeer) : ConnAct Bool))
      (fun _ _ _ _ => ⟨⟨nofun, fun _ _ h => nomatch h⟩, fun _ => ⟨nofun, nofun⟩⟩) rfl
  have hmove : Reach step Retiring start _ :=
    hremove.tail (a := (.moveOut true : ConnAct Bool)) trivial rfl
  have hreconnect : Reach step Retiring start _ :=
    hmove.tail (a := (.addEndpoint true (.rdma samplePeer) 2 : ConnAct Bool))
      (fun _ _ h => nomatch h) rfl
  have hfind : Reach step Retiring start _ :=
    hreconnect.tail (a := (.withEndpoint true (.rdma samplePeer) true : ConnAct Bool)) trivial rfl
  have henter : Reach step Retiring start _ :=
    hfind.tail (a := (.enter true : ConnAct Bool)) trivial rfl
  have hnote : Reach step Retiring start _ :=
    henter.tail (a := (.note true 256 : ConnAct Bool)) trivial rfl
  exact ⟨_, hnote, rfl, rfl, live_of_reach hnote⟩

def disconnectedEarly : List (ConnAct Bool) :=
  [.addEndpoint true (.rdma samplePeer) 1, .withEndpoint true (.rdma samplePeer) true, .enter true,
    .note true 256, .leave true, .withEndpoint true (.rdma samplePeer) false, .enter true,
    .leave true, .removeEndpoint true (.rdma samplePeer), .moveOut true]

/-- `putNB`, then `disConnect`, then `wait`: it waits on a destroyed endpoint. -/
theorem waits_after_disconnect : ∃ st : ConnManager Bool, Reach step Free start st ∧
    st.inflight 256 = some 0 ∧ st.maps.destroyed 0 = true ∧ ¬ st.Live ∧
    ∃ st', st.step (.wait true [256]) = some st' ∧ st'.pc true = .waiting [0] ∧
      st'.maps.destroyed 0 = true := by
  obtain ⟨st, hr, hid, hgone, hwait⟩ : ∃ st : ConnManager Bool, Reach step Free start st ∧
      st.inflight 256 = some 0 ∧ st.maps.destroyed 0 = true ∧
      (st.step (.wait true [256])).any (fun st' => decide (st'.pc true = .waiting [0] ∧
        st'.maps.destroyed 0 = true)) :=
    exists_reach_of_exec disconnectedEarly (by decide)
  refine ⟨st, hr, hid, hgone, fun hlive => ?_, exists_of_any hwait⟩
  cases hgone.symm.trans (hlive.inflight 256 0 hid).2

end ConnManager

end HMC.Comm
