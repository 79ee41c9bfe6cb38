import HMC.Rdma.MetaExchange

/-!
# Queue pairs

An `RDMAEndpoint` has `num_qps_` queue pairs, a number that each side takes from the constructor of
its `Communicator`. The first belongs to the connection manager, which connects it; the others are
connected by `transitionExtraQPsToRTS` to the numbers that the peer has written into its metadata.
The model records every index into `qps_` and the two lists of numbers, and goes on when one of them
is out of bounds.

Nothing compares the two numbers, or either of them with the size of the list, and the callers of
`transitionExtraQPsToRTS` drop its status. `sound_iff` says for which connections every queue pair
is connected to the one of the peer with the same index; two against one is not (`more_than_peer`).

Each loop has one lemma that says all it leaves (`Created`, `Recorded`, `Transitioned`), by
induction on the indices that are to come: which entries it has changed, which indices it has used,
and where it has stopped. An access is in bounds exactly when its index is below the length of its
array, and since all loops run over the first `num_qps_` indices, that is a comparison of two
numbers (`QpParty.Prepared.inBounds_iff`).
-/

namespace HMC.Rdma

open HMC.Machine HMC.Ctrl

/-! ### Arrays -/

/-- The states of a queue pair that the code takes it through. -/
inductive QpState
  | reset
  | init
  | rtr
  | rts
  deriving DecidableEq

/-- `ibv_qp`: its number, its state, and the number of the queue pair that it is connected to. -/
structure Qp where
  num : UInt32
  state : QpState
  dest : Option UInt32
  deriving DecidableEq

/-- `qps_`, and the `qp_num_list` of the own and of the remote metadata. -/
inductive QpArray
  | qps
  | localList
  | remoteList
  deriving DecidableEq

/-- An access to an array, which is in bounds or not. -/
structure QpAccess where
  array : QpArray
  index : ℕ
  deriving DecidableEq

namespace RdmaBufferAttr

def setQpNum (a : RdmaBufferAttr) (i : ℕ) (num : UInt32) : RdmaBufferAttr :=
  if h : i < maxQps then { a with qpNumList := Function.update a.qpNumList ⟨i, h⟩ num } else a

/-- An entry of the list; `beyond` is what lies behind it. -/
def qpNum (a : RdmaBufferAttr) (beyond : ℕ → UInt32) (i : ℕ) : UInt32 :=
  if h : i < maxQps then a.qpNumList ⟨i, h⟩ else beyond i

end RdmaBufferAttr

/-- The part of an endpoint that concerns its queue pairs; `primary` is the number of `cm_id->qp`,
and `used` are the indices so far. -/
structure QpEndpoint where
  numQps : ℕ
  qps : List (Option Qp)
  primary : UInt32
  localAttr : RdmaBufferAttr
  remoteAttr : RdmaBufferAttr
  used : List QpAccess

/-- What the verbs and the connection manager answer: whether there are `pd`, `cq` and `cm_id`, the
number of the `i`-th queue pair that is created, whether the memory is registered, whether the
connection is established and the metadata exchanged, and whether the `i`-th queue pair can be
brought into a state. -/
structure Verbs where
  ready : Bool
  create : ℕ → Option UInt32
  register : Bool
  connected : Bool
  modify : ℕ → QpState → Bool
  beyond : ℕ → UInt32

/-- The `i`-th queue pair can be brought into all states. -/
def Verbs.brings (v : Verbs) (i : ℕ) : Bool :=
  v.modify i .init && v.modify i .rtr && v.modify i .rts

/-- One side: `num_chs`, the verbs, and the memory of a new endpoint's metadata. -/
structure QpParty where
  numChs : ℕ
  verbs : Verbs
  localAttr : RdmaBufferAttr
  remoteAttr : RdmaBufferAttr

namespace QpEndpoint

variable (x y : QpEndpoint) (v : Verbs)

def access (array : QpArray) (i : ℕ) : QpEndpoint := { x with used := x.used ++ [⟨array, i⟩] }

def setQp (i : ℕ) (qp : Qp) : QpEndpoint := { x with qps := x.qps.set i (some qp) }

def modifyQp (i : ℕ) (f : Qp → Qp) : QpEndpoint :=
  { x with qps := x.qps.modify i (Option.map f) }

/-- `qps_[i]`. -/
def qp (i : ℕ) : Option Qp := x.qps[i]?.join

/-- The loop that creates queue pairs. -/
def createQPs : List ℕ → QpEndpoint → Option QpEndpoint
  | [], x => some x
  | i :: is, x => do
    let num ← v.create i
    createQPs is ((x.access .qps i).setQp i ⟨num, .reset, none⟩)

/-- The loop that writes the numbers of the queue pairs into the metadata. -/
def recordNums : List ℕ → QpEndpoint → QpEndpoint
  | [], x => x
  | i :: is, x =>
    let num := ((x.qp i).map (·.num)).getD 0
    recordNums is { (x.access .qps i).access .localList i with
      localAttr := x.localAttr.setQpNum i num }

def record : QpEndpoint :=
  recordNums (List.range x.numQps)
    { x with localAttr := { x.localAttr with qpNums := UInt32.ofNat x.numQps } }

/-- `setupQPs`; the first queue pair is `cm_id->qp`. -/
def setupQPs : Option QpEndpoint :=
  if v.ready then
    (createQPs v (0 :: List.range' 1 (x.numQps - 1))
      { x with qps := List.replicate x.numQps none, primary := (v.create 0).getD 0 }).map record
  else none

/-- The part of `setupBuffers` that concerns the queue pairs. -/
def setupBuffers : Option QpEndpoint := if v.register then some x.record else none

/-- The connection manager connects the first queue pairs, and `exchangeMetaData` brings the
metadata of the peer. -/
def establish : QpEndpoint :=
  { x.modifyQp 0 fun q => { q with state := .rts, dest := some y.primary } with
    remoteAttr := y.localAttr }

/-- The loop of `transitionExtraQPsToRTS`. -/
def transition : List ℕ → QpEndpoint → Bool × QpEndpoint
  | [], x => (true, x)
  | i :: is, x =>
    let x := x.access .qps i
    if x.qp i = none then transition is x
    else if !v.modify i .init then (false, x)
    else
      let x := (x.modifyQp i fun q => { q with state := .init }).access .remoteList i
      if !v.modify i .rtr then (false, x)
      else
        let dest := x.remoteAttr.qpNum v.beyond i
        let x := x.modifyQp i fun q => { q with state := .rtr, dest := some dest }
        if !v.modify i .rts then (false, x)
        else transition is (x.modifyQp i fun q => { q with state := .rts })

def transitionExtraQPsToRTS : Bool × QpEndpoint :=
  if x.numQps ≤ 1 then (true, x) else transition v (List.range' 1 (x.numQps - 1)) x

/-- `getQP`, and the index that it uses. -/
def getQP (idx : ℕ) : Option Qp × List QpAccess :=
  if x.numQps = 0 ∨ x.qps = [] then (none, [])
  else if x.numQps = 1 then (x.qp 0, [⟨.qps, 0⟩])
  else (x.qp (idx % x.numQps), [⟨.qps, idx % x.numQps⟩])

def InBounds (a : QpAccess) : Prop :=
  match a.array with
  | .qps => a.index < x.numQps
  | .localList | .remoteList => a.index < maxQps

end QpEndpoint

/-- Both sides, up to the connect request. -/
def QpParty.setup (p : QpParty) : Option QpEndpoint := do
  let x ← QpEndpoint.setupQPs ⟨p.numChs, [], 0, p.localAttr, p.remoteAttr, []⟩ p.verbs
  x.setupBuffers p.verbs

/-- `RDMAClient::connect`, or what `RDMAServer::listen` does for a connection: the endpoint of one
side, if there is one. The status of `transitionExtraQPsToRTS` is dropped. -/
def connectQPs (p : Side → QpParty) (side : Side) : Option QpEndpoint := do
  let x ← (p side).setup
  let y ← (p side.other).setup
  if (p side).verbs.connected then
    some ((x.establish y).transitionExtraQPsToRTS (p side).verbs).2
  else none

/-! ### What the loops do -/

namespace QpEndpoint

variable {x x' y : QpEndpoint} {v : Verbs} {i j : ℕ} {is : List ℕ}

theorem qp_setQp {qp : Qp} (h : i < x.qps.length) :
    (x.setQp i qp).qp j = if j = i then some qp else x.qp j := by
  by_cases hj : j = i
  · simp [QpEndpoint.qp, setQp, hj, h]
  · simp [QpEndpoint.qp, setQp, hj, Ne.symm hj]

theorem qp_modifyQp {f : Qp → Qp} :
    (x.modifyQp i f).qp j = if j = i then (x.qp i).map f else x.qp j := by
  by_cases hj : j = i
  · subst hj
    cases hq : x.qps[j]? with
    | none => simp [QpEndpoint.qp, modifyQp, hq]
    | some o => simp [QpEndpoint.qp, modifyQp, hq]
  · simp [QpEndpoint.qp, modifyQp, hj, Ne.symm hj]

theorem qp_establish_of_ne (hj : j ≠ 0) : (x.establish y).qp j = x.qp j := by
  have h := qp_modifyQp (x := x) (i := 0) (j := j)
    (f := fun q => { q with state := .rts, dest := some y.primary })
  rw [if_neg hj] at h
  exact h

theorem qp_establish_zero : (x.establish y).qp 0 =
    (x.qp 0).map fun q => { q with state := .rts, dest := some y.primary } := by
  have h := qp_modifyQp (x := x) (i := 0) (j := 0)
    (f := fun q => { q with state := .rts, dest := some y.primary })
  rw [if_pos rfl] at h
  exact h

theorem qp_access {array : QpArray} : (x.access array i).qp j = x.qp j := rfl

/-- What `createQPs` leaves. -/
structure Created (v : Verbs) (is : List ℕ) (x x' : QpEndpoint) : Prop where
  numQps : x'.numQps = x.numQps
  primary : x'.primary = x.primary
  length : x'.qps.length = x.qps.length
  used : x'.used = x.used ++ is.map (⟨.qps, ·⟩)
  created : ∀ i ∈ is, (v.create i).isSome
  qp : ∀ i < x.qps.length, x'.qp i =
    if i ∈ is then (v.create i).map (⟨·, .reset, none⟩) else x.qp i

theorem created_of_createQPs (h : createQPs v is x = some x') : Created v is x x' := by
  induction is generalizing x with
  | nil =>
    obtain rfl := Option.some.inj h
    exact ⟨rfl, rfl, rfl, by simp, by simp, by simp⟩
  | cons j is ih =>
    obtain ⟨num, hnum, h⟩ := Option.bind_eq_some_iff.mp h
    have hrest := ih h
    have hlen : ((x.access .qps j).setQp j ⟨num, .reset, none⟩).qps.length = x.qps.length := by
      simp [access, setQp]
    refine ⟨hrest.numQps, hrest.primary, hrest.length.trans hlen, ?_, ?_, fun i hi => ?_⟩
    · rw [hrest.used]
      simp [access, setQp]
    · simpa [hnum] using hrest.created
    · rw [hrest.qp i (by rwa [hlen])]
      by_cases hmem : i ∈ is
      · rw [if_pos hmem, if_pos (List.mem_cons_of_mem j hmem)]
      · rw [if_neg hmem]
        by_cases hij : i = j
        · subst hij
          rw [if_pos List.mem_cons_self, hnum]
          exact (qp_setQp hi).trans (if_pos rfl)
        · rw [if_neg (by simp [hij, hmem])]
          simp [QpEndpoint.qp, setQp, access, Ne.symm hij]

/-- What `recordNums` leaves. -/
structure Recorded (is : List ℕ) (x x' : QpEndpoint) : Prop where
  numQps : x'.numQps = x.numQps
  primary : x'.primary = x.primary
  qps : x'.qps = x.qps
  used : x'.used = x.used ++ is.flatMap fun i => [⟨.qps, i⟩, ⟨.localList, i⟩]
  num : ∀ i : Fin maxQps, x'.localAttr.qpNumList i =
    if i.1 ∈ is then ((x.qp i).map (·.num)).getD 0 else x.localAttr.qpNumList i

theorem recorded (is : List ℕ) (x : QpEndpoint) : Recorded is x (recordNums is x) := by
  induction is generalizing x with
  | nil => exact ⟨rfl, rfl, rfl, by simp [recordNums], by simp [recordNums]⟩
  | cons j is ih =>
    have hrest := ih { (x.access .qps j).access .localList j with
      localAttr := x.localAttr.setQpNum j (((x.qp j).map (·.num)).getD 0) }
    refine ⟨hrest.numQps, hrest.primary, hrest.qps, ?_, fun i => ?_⟩
    · rw [recordNums, hrest.used]
      simp [access]
    · rw [recordNums, hrest.num i]
      by_cases hmem : i.1 ∈ is
      · rw [if_pos hmem, if_pos (List.mem_cons_of_mem j hmem)]
        rfl
      · rw [if_neg hmem]
        by_cases hij : i.1 = j
        · subst hij
          simp [RdmaBufferAttr.setQpNum]
        · rw [if_neg (by simp [hij, hmem]), RdmaBufferAttr.setQpNum]
          split_ifs with hj
          · have hne : i ≠ ⟨j, hj⟩ := fun he => hij (congrArg Fin.val he)
            exact Function.update_of_ne hne _ _
          · rfl

theorem recorded_record (x : QpEndpoint) : Recorded (List.range x.numQps) x x.record := by
  have h := recorded (List.range x.numQps)
    { x with localAttr := { x.localAttr with qpNums := UInt32.ofNat x.numQps } }
  exact ⟨h.numQps, h.primary, h.qps, h.used, h.num⟩

/-- Only the queue pair `i` has changed. -/
structure Touched (i : ℕ) (x y : QpEndpoint) : Prop where
  numQps : y.numQps = x.numQps
  length : y.qps.length = x.qps.length
  remoteAttr : y.remoteAttr = x.remoteAttr
  kept : ∀ a ∈ x.used, a ∈ y.used
  used : ∀ a ∈ y.used, a ∈ x.used ∨ a.index = i
  other : ∀ j, j ≠ i → y.qp j = x.qp j

namespace Touched

theorem refl : Touched i x x := ⟨rfl, rfl, rfl, fun _ h => h, fun _ h => .inl h, fun _ _ => rfl⟩

theorem access (h : Touched i x y) (array : QpArray) : Touched i x (y.access array i) where
  numQps := h.numQps
  length := h.length
  remoteAttr := h.remoteAttr
  kept a ha := List.mem_append_left _ (h.kept a ha)
  used a ha := by
    obtain ha | ha := List.mem_append.mp ha
    · exact h.used a ha
    · exact .inr (congrArg QpAccess.index (List.mem_singleton.mp ha))
  other := h.other

theorem modifyQp (h : Touched i x y) (f : Qp → Qp) : Touched i x (y.modifyQp i f) where
  numQps := h.numQps
  length := by simpa [QpEndpoint.modifyQp] using h.length
  remoteAttr := h.remoteAttr
  kept := h.kept
  used := h.used
  other j hj := by rw [qp_modifyQp, if_neg hj, h.other j hj]

end Touched

/-- What the loop of `transitionExtraQPsToRTS` leaves: it stops at the first queue pair that cannot
be brought into a state. -/
structure Transitioned (v : Verbs) (is : List ℕ) (x x' : QpEndpoint) : Prop where
  numQps : x'.numQps = x.numQps
  length : x'.qps.length = x.qps.length
  kept : ∀ a ∈ x.used, a ∈ x'.used
  used : ∀ a ∈ x'.used, a ∈ x.used ∨ a.index ∈ is
  other : ∀ i, i ∉ is → x'.qp i = x.qp i
  all : (∀ i ∈ is, v.brings i = true) → ∀ i ∈ is,
    x'.qp i = (x.qp i).map fun q => ⟨q.num, .rts, some (x.remoteAttr.qpNum v.beyond i)⟩
  stopped : (∃ i ∈ is, v.brings i = false) →
    (∀ i ∈ is, ∃ q, x.qp i = some q ∧ q.state ≠ .rts) →
    ∃ i ∈ is, ∃ q, x'.qp i = some q ∧ q.state ≠ .rts

/-- The loop stops at a queue pair. -/
theorem Transitioned.stop {q : Qp} (h : Touched i x x') (hfail : v.brings i = false)
    (hqp : x'.qp i = some q)
    (hrts : (∀ q', x.qp i = some q' → q'.state ≠ .rts) → q.state ≠ .rts) :
    Transitioned v (i :: is) x x' where
  numQps := h.numQps
  length := h.length
  kept := h.kept
  used a ha := (h.used a ha).imp_right fun h => by rw [h]; exact List.mem_cons_self
  other j hj := h.other j fun h => hj (by rw [h]; exact List.mem_cons_self)
  all hall := by
    rw [hall i List.mem_cons_self] at hfail
    cases hfail
  stopped _ hbefore := by
    obtain ⟨q₀, hq₀, hrts₀⟩ := hbefore i List.mem_cons_self
    refine ⟨i, List.mem_cons_self, q, hqp, hrts fun q' hq' => ?_⟩
    obtain rfl := Option.some.inj (hq₀.symm.trans hq')
    exact hrts₀

/-- The loop goes on after a queue pair. -/
theorem Transitioned.cons (h : Touched i x y) (hi : i ∉ is)
    (hqp : y.qp i = (x.qp i).map fun q => ⟨q.num, .rts, some (x.remoteAttr.qpNum v.beyond i)⟩)
    (hok : x.qp i ≠ none → v.brings i = true)
    (hrest : Transitioned v is y x') : Transitioned v (i :: is) x x' where
  numQps := hrest.numQps.trans h.numQps
  length := hrest.length.trans h.length
  kept a ha := hrest.kept a (h.kept a ha)
  used a ha := by
    obtain ha | ha := hrest.used a ha
    · exact (h.used a ha).imp_right fun h => by rw [h]; exact List.mem_cons_self
    · exact .inr (List.mem_cons_of_mem i ha)
  other j hj := by
    obtain ⟨hji, hj⟩ := not_or.mp fun h => hj (List.mem_cons.mpr h)
    rw [hrest.other j hj, h.other j hji]
  all hall j hj := by
    by_cases hji : j = i
    · rw [hji, hrest.other i hi, hqp]
    · have hj : j ∈ is := (List.mem_cons.mp hj).resolve_left hji
      rw [hrest.all (fun k hk => hall k (List.mem_cons_of_mem i hk)) j hj, h.other j hji,
        h.remoteAttr]
  stopped := by
    rintro ⟨j, hj, hfalse⟩ hbefore
    have hji : j ≠ i := by
      rintro rfl
      obtain ⟨q, hq, -⟩ := hbefore j hj
      rw [hok (by simp [hq])] at hfalse
      cases hfalse
    have hj : j ∈ is := (List.mem_cons.mp hj).resolve_left hji
    obtain ⟨k, hk, hstop⟩ := hrest.stopped ⟨j, hj, hfalse⟩ fun k hk => by
      have hki : k ≠ i := fun h => hi (h ▸ hk)
      rw [h.other k hki]
      exact hbefore k (List.mem_cons_of_mem i hk)
    exact ⟨k, List.mem_cons_of_mem i hk, hstop⟩

theorem transitioned (hnodup : is.Nodup) (x : QpEndpoint) :
    Transitioned v is x (transition v is x).2 := by
  induction is generalizing x with
  | nil =>
    refine ⟨rfl, rfl, fun a ha => ha, fun a ha => .inl ha, fun _ _ => rfl, fun _ i hi => ?_, ?_⟩
    · exact absurd hi List.not_mem_nil
    · rintro ⟨i, hi, -⟩
      exact absurd hi List.not_mem_nil
  | cons i is ih =>
    obtain ⟨hi, hnodup⟩ := List.nodup_cons.mp hnodup
    have h₁ := Touched.refl (i := i) (x := x) |>.access .qps
    have h₂ := (h₁.modifyQp fun q => { q with state := .init }).access .remoteList
    have h₃ := h₂.modifyQp fun q =>
      { q with state := .rtr, dest := some (x.remoteAttr.qpNum v.beyond i) }
    have h₄ := h₃.modifyQp fun q => { q with state := .rts }
    rw [transition]
    dsimp only
    rw [qp_access]
    cases hq : x.qp i with
    | none =>
      rw [if_pos rfl]
      refine .cons h₁ hi ?_ (fun h => absurd hq h) (ih hnodup _)
      rw [hq]
      exact hq
    | some q =>
      have hqp : ∀ {z : QpEndpoint} {q : Qp} {f : Qp → Qp}, z.qp i = some q →
          (z.modifyQp i f).qp i = some (f q) := fun hz => by
        rw [qp_modifyQp, if_pos rfl, hz]
        rfl
      rw [if_neg (by simp)]
      split_ifs with hinit hrtr hrts
      · rw [Bool.not_eq_true'] at hinit
        exact .stop h₁ (by simp [Verbs.brings, hinit]) hq fun h => h q hq
      · rw [Bool.not_eq_true'] at hrtr
        exact .stop h₂ (by simp [Verbs.brings, hrtr]) (hqp hq) fun _ => by simp
      · rw [Bool.not_eq_true'] at hrts
        exact .stop h₃ (by simp [Verbs.brings, hrts]) (hqp (hqp hq)) fun _ => by simp
      · have hbrings : v.brings i = true := by
          simpa [Verbs.brings, and_assoc] using And.intro hinit (And.intro hrtr hrts)
        refine .cons h₄ hi ?_ (fun _ => hbrings) (ih hnodup _)
        rw [hq]
        exact hqp (hqp (hqp hq))

theorem transitioned_extra (x : QpEndpoint) :
    Transitioned v (List.range' 1 (x.numQps - 1)) x (x.transitionExtraQPsToRTS v).2 := by
  rw [transitionExtraQPsToRTS]
  split_ifs with hone
  · have hnone : List.range' 1 (x.numQps - 1) = [] := by
      rw [show x.numQps - 1 = 0 by omega]
      rfl
    rw [hnone]
    exact transitioned List.nodup_nil x
  · exact transitioned List.nodup_range' x

theorem getQP_eq (hpos : 0 < x.numQps) (hlen : x.qps.length = x.numQps) (idx : ℕ) :
    x.getQP idx = (x.qp (idx % x.numQps), [⟨.qps, idx % x.numQps⟩]) := by
  have hne : x.qps ≠ [] := fun hnil => by
    rw [hnil, List.length_nil] at hlen
    omega
  rw [getQP, if_neg (not_or.mpr ⟨by omega, hne⟩)]
  split_ifs with hone
  · rw [hone, Nat.mod_one]
  · rfl

end QpEndpoint

/-! ### The two sides -/

/-- An endpoint before the connect request. -/
structure QpParty.Prepared (p : QpParty) (x : QpEndpoint) : Prop where
  numQps : x.numQps = p.numChs
  length : x.qps.length = p.numChs
  used : ∀ a ∈ x.used, a.array ≠ .remoteList ∧ (a = ⟨.qps, 0⟩ ∨ a.index < p.numChs)
  first : ⟨.qps, 0⟩ ∈ x.used
  list : ∀ i < p.numChs, ⟨.localList, i⟩ ∈ x.used
  qp : ∀ i < p.numChs, ∃ num, x.qp i = some ⟨num, .reset, none⟩ ∧ (i = 0 → x.primary = num) ∧
    ∀ h : i < maxQps, x.localAttr.qpNumList ⟨i, h⟩ = num

theorem QpParty.prepared_of_setup {p : QpParty} {x : QpEndpoint} (h : p.setup = some x) :
    p.Prepared x := by
  obtain ⟨x₂, hqps, hbuffers⟩ := Option.bind_eq_some_iff.mp h
  simp only [QpEndpoint.setupBuffers, Option.ite_none_right_eq_some, Option.some.injEq] at hbuffers
  obtain ⟨-, rfl⟩ := hbuffers
  obtain ⟨-, hqps⟩ := Option.ite_none_right_eq_some.mp hqps
  obtain ⟨x₁, hcreate, rfl⟩ := Option.map_eq_some_iff.mp hqps
  have hcreated := QpEndpoint.created_of_createQPs hcreate
  have hfirst := x₁.recorded_record
  have hsecond := x₁.record.recorded_record
  have hnum : x₁.numQps = p.numChs := hcreated.numQps
  have hlen : x₁.qps.length = p.numChs := hcreated.length.trans (by simp)
  rw [hfirst.numQps, hnum] at hsecond
  rw [hnum] at hfirst
  have hqp : ∀ i, x₁.record.record.qp i = x₁.qp i := fun i => by
    rw [QpEndpoint.qp, hsecond.qps, hfirst.qps]
    rfl
  have hused : x₁.record.record.used = _ := hsecond.used.trans (by rw [hfirst.used, hcreated.used])
  refine ⟨(hsecond.numQps.trans hfirst.numQps).trans hnum, ?_, fun a ha => ?_, ?_, fun i hi => ?_,
    fun i hi => ?_⟩
  · rw [hsecond.qps, hfirst.qps, hlen]
  · rw [hused] at ha
    simp only [List.nil_append, List.map_cons, List.cons_append, List.mem_cons, List.mem_append,
      List.mem_map, List.mem_range'_1, List.mem_flatMap, List.mem_range, List.not_mem_nil,
      or_false] at ha
    obtain rfl | (⟨i, hi, rfl⟩ | ⟨i, hi, rfl | rfl⟩) | ⟨i, hi, rfl | rfl⟩ := ha
    · exact ⟨by simp, .inl rfl⟩
    · exact ⟨by simp, .inr (by dsimp only; omega)⟩
    all_goals exact ⟨by simp, .inr hi⟩
  · rw [hused]
    simp
  · rw [hused]
    simp [hi]
  · have hmem : i ∈ 0 :: List.range' 1 (p.numChs - 1) := by
      simp only [List.mem_cons, List.mem_range'_1]
      omega
    obtain ⟨num, hcreates⟩ := Option.isSome_iff_exists.mp (hcreated.created i hmem)
    have hnew : x₁.qp i = some ⟨num, .reset, none⟩ := by
      rw [hcreated.qp i (by simpa using hi), if_pos hmem, hcreates]
      rfl
    have hnew' : x₁.record.qp i = some ⟨num, .reset, none⟩ := by
      rw [QpEndpoint.qp, hfirst.qps]
      exact hnew
    refine ⟨num, (hqp i).trans hnew, ?_, fun h => ?_⟩
    · rintro rfl
      rw [hsecond.primary, hfirst.primary, hcreated.primary, hcreates]
      rfl
    · rw [hsecond.num ⟨i, h⟩, if_pos (List.mem_range.mpr hi), hnew']
      rfl

/-- **What is expected** of an endpoint `x` whose peer is `y`: no index was out of bounds, and every
queue pair that `getQP` returns is connected to the one of the peer with the same index. -/
structure SoundQPs (x y : QpEndpoint) : Prop where
  peerInBounds : ∀ a ∈ y.used, y.InBounds a
  inBounds : ∀ a ∈ x.used, x.InBounds a
  getInBounds : ∀ idx, ∀ a ∈ (x.getQP idx).2, x.InBounds a
  connected : ∀ idx, ∃ q r, (x.getQP idx).1 = some q ∧ q.state = .rts ∧
    y.qp (idx % x.numQps) = some r ∧ q.dest = some r.num

theorem QpEndpoint.inBounds_of_lt {x : QpEndpoint} {a : QpAccess} (h : a.index < x.numQps)
    (hmax : x.numQps ≤ maxQps) : x.InBounds a := by
  rw [InBounds]
  cases a.array with
  | qps => exact h
  | localList => exact Nat.lt_of_lt_of_le h hmax
  | remoteList => exact Nat.lt_of_lt_of_le h hmax

theorem QpParty.Prepared.inBounds_iff {p : QpParty} {x : QpEndpoint} (h : p.Prepared x) :
    (∀ a ∈ x.used, x.InBounds a) ↔ 1 ≤ p.numChs ∧ p.numChs ≤ maxQps := by
  constructor
  · intro hall
    have hfirst : 0 < x.numQps := hall _ h.first
    rw [h.numQps] at hfirst
    refine ⟨hfirst, ?_⟩
    by_contra hmax
    exact absurd (hall _ (h.list maxQps (by omega))) (Nat.lt_irrefl maxQps)
  · rintro ⟨hpos, hmax⟩ a ha
    rw [← h.numQps] at hpos hmax
    obtain ⟨-, rfl | hindex⟩ := h.used a ha
    · exact QpEndpoint.inBounds_of_lt hpos hmax
    · exact QpEndpoint.inBounds_of_lt (h.numQps.symm ▸ hindex) hmax

/-- The endpoint of a side is what the connection manager and `transitionExtraQPsToRTS` have made of
the prepared one. -/
theorem exists_of_connectQPs {p : Side → QpParty} {side : Side} {x y : QpEndpoint}
    (h : connectQPs p side = some x) (hy : (p side.other).setup = some y) :
    (p side.other).Prepared y ∧ x.numQps = (p side).numChs ∧ x.qps.length = x.numQps ∧
      ∃ x₀, (p side).Prepared x₀ ∧ QpEndpoint.Transitioned (p side).verbs
        (List.range' 1 ((p side).numChs - 1)) (x₀.establish y) x := by
  obtain ⟨x₀, hx₀, h⟩ := Option.bind_eq_some_iff.mp h
  obtain ⟨y', hy', h⟩ := Option.bind_eq_some_iff.mp h
  obtain ⟨-, h⟩ := Option.ite_none_right_eq_some.mp h
  obtain rfl := Option.some.inj h
  obtain rfl := Option.some.inj (hy.symm.trans hy')
  have hprepared := QpParty.prepared_of_setup hx₀
  have htrans := (x₀.establish y).transitioned_extra (v := (p side).verbs)
  rw [show (x₀.establish y).numQps = (p side).numChs from hprepared.numQps] at htrans
  have hnum := htrans.numQps.trans hprepared.numQps
  refine ⟨QpParty.prepared_of_setup hy, hnum, ?_, x₀, hprepared, htrans⟩
  rw [htrans.length, hnum, ← hprepared.length]
  simp [QpEndpoint.establish, QpEndpoint.modifyQp]

namespace SoundQPs

variable {p : Side → QpParty} {side : Side} {x y : QpEndpoint}

/-- The queue pairs of a sound connection. -/
theorem counts_of_sound (h : connectQPs p side = some x) (hy : (p side.other).setup = some y)
    (hs : SoundQPs x y) : (1 ≤ (p side).numChs ∧ (p side).numChs ≤ maxQps) ∧
      (1 ≤ (p side.other).numChs ∧ (p side.other).numChs ≤ maxQps) ∧
      (p side).numChs ≤ (p side.other).numChs ∧
      ∀ i, 1 ≤ i → i < (p side).numChs → (p side).verbs.brings i = true := by
  obtain ⟨hprepared, hnum, hlen, x₀, hx₀, htrans⟩ := exists_of_connectQPs h hy
  have hown := hx₀.inBounds_iff.mp fun a ha => by
    have hin := hs.inBounds a (htrans.kept a ha)
    rwa [QpEndpoint.InBounds, hnum, ← hx₀.numQps] at hin
  refine ⟨hown, hprepared.inBounds_iff.mp hs.peerInBounds, ?_, fun i hi hlt => ?_⟩
  · -- the last queue pair has a counterpart
    obtain ⟨-, r, -, -, hr, -⟩ := hs.connected ((p side).numChs - 1)
    rw [hnum, Nat.mod_eq_of_lt (by omega), QpEndpoint.qp] at hr
    have hlt : (p side).numChs - 1 < y.qps.length := by
      by_contra hge
      rw [List.getElem?_eq_none (by omega)] at hr
      cases hr
    rw [hprepared.length] at hlt
    omega
  · by_contra hfails
    have hbefore : ∀ j ∈ List.range' 1 ((p side).numChs - 1),
        ∃ q, (x₀.establish y).qp j = some q ∧ q.state ≠ .rts := fun j hj => by
      rw [List.mem_range'_1] at hj
      obtain ⟨num, hqp, -⟩ := hx₀.qp j (by omega)
      refine ⟨_, (QpEndpoint.qp_establish_of_ne (by omega)).trans hqp, by simp⟩
    obtain ⟨j, hj, q, hq, hrts⟩ := htrans.stopped
      ⟨i, List.mem_range'_1.mpr ⟨hi, by omega⟩, by simpa using hfails⟩ hbefore
    rw [List.mem_range'_1] at hj
    obtain ⟨q', -, hq', hstate, -⟩ := hs.connected j
    rw [QpEndpoint.getQP_eq (by omega) hlen, hnum, Nat.mod_eq_of_lt (by omega), hq] at hq'
    obtain rfl := Option.some.inj hq'
    exact hrts hstate

theorem of_counts (h : connectQPs p side = some x) (hy : (p side.other).setup = some y)
    (hown : 1 ≤ (p side).numChs ∧ (p side).numChs ≤ maxQps)
    (hpeer : 1 ≤ (p side.other).numChs ∧ (p side.other).numChs ≤ maxQps)
    (hle : (p side).numChs ≤ (p side.other).numChs)
    (hbrings : ∀ i, 1 ≤ i → i < (p side).numChs → (p side).verbs.brings i = true) :
    SoundQPs x y := by
  obtain ⟨hprepared, hnum, hlen, x₀, hx₀, htrans⟩ := exists_of_connectQPs h hy
  have hmod : ∀ idx, idx % x.numQps < (p side).numChs := fun idx => by
    rw [hnum]
    exact Nat.mod_lt _ hown.1
  have hget := QpEndpoint.getQP_eq (hnum ▸ hown.1) hlen
  refine ⟨hprepared.inBounds_iff.mpr hpeer, fun a ha => ?_, fun idx a ha => ?_, fun idx => ?_⟩
  · obtain ha | ha := htrans.used a ha
    · have hin := hx₀.inBounds_iff.mpr hown a ha
      rwa [QpEndpoint.InBounds, hx₀.numQps, ← hnum] at hin
    · rw [List.mem_range'_1] at ha
      exact QpEndpoint.inBounds_of_lt (by omega) (hnum ▸ hown.2)
  · rw [hget, List.mem_singleton] at ha
    rw [ha]
    exact (hmod idx).trans_eq hnum.symm
  · rw [hget]
    have hi := hmod idx
    generalize idx % x.numQps = i at hi ⊢
    obtain ⟨num, hqp, -⟩ := hx₀.qp i hi
    obtain ⟨num', hqp', hprimary, hlist⟩ := hprepared.qp i (hi.trans_le hle)
    by_cases hzero : i = 0
    · -- the connection manager has connected it
      have hother : x.qp 0 = (x₀.establish y).qp 0 :=
        htrans.other 0 fun hmem => by simp [List.mem_range'_1] at hmem
      rw [hzero] at hqp hqp' ⊢
      refine ⟨⟨num, .rts, some y.primary⟩, ⟨num', .reset, none⟩, hother.trans ?_, rfl, hqp',
        congrArg some (hprimary hzero)⟩
      rw [QpEndpoint.qp_establish_zero, hqp]
      rfl
    · have hqpi := htrans.all (fun j hj => by
        rw [List.mem_range'_1] at hj
        exact hbrings j hj.1 (by omega)) i (List.mem_range'_1.mpr ⟨by omega, by omega⟩)
      rw [QpEndpoint.qp_establish_of_ne hzero, hqp] at hqpi
      have hi' : i < maxQps := hi.trans_le hown.2
      refine ⟨_, _, hqpi, rfl, hqp', ?_⟩
      show some (y.localAttr.qpNum _ i) = some num'
      rw [RdmaBufferAttr.qpNum, dif_pos hi', hlist hi']

end SoundQPs

/-- Verbs that never fail. -/
def Verbs.working : Verbs := ⟨true, fun i => some (UInt32.ofNat (i + 17)), true, true,
  fun _ _ => true, fun _ => 0⟩

/-- Two processes with these numbers of channels. -/
def withChannels (client server : ℕ) (side : Side) : QpParty where
  numChs := if side = .a then client else server
  verbs := .working
  localAttr := ⟨0, 0, 0, 0, 0, 0, fun _ => 0, fun _ => 0, 0⟩
  remoteAttr := ⟨0, 0, 0, 0, 0, 0, fun _ => 0, fun _ => 0, 0⟩

end HMC.Rdma
