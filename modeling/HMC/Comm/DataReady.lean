import HMC.Machine.Log
import HMC.Rdma.Endpoint
import HMC.Ucx.Endpoint

/-!
# The data-ready handshake

A process puts data into the `ConnBuffer` of its peer and then sends a tag on the control
socket; the peer reads its buffer when it has received the tag. Data and tags travel on
separate channels: the bytes of an issued put land at the peer one by one, in any order and
at any later moment (`HandshakeAct.land`), while the tags form a reliable stream.

`put` returns when the transport reports completion. For RDMA this means that the bytes have
landed. For UCX it means only that the local buffer may be used again, and nothing is flushed,
so a tag may overtake the data (`tag_overtakes_data`), and the data of a put those of an earlier
one (`put_overtakes_put`). `dataReady_of_reach` says that the handshake is sound in runs in which
the bytes of the UCX puts have landed when the tag is sent and no put lands over a later one; RDMA
puts need no more than that their size fits the 32 bits of a request.

The invariant `ReadyInv` keeps two facts apart. What a tag vouches for has landed (`sent`): an RDMA
put by its completion, a UCX put by the condition on the tag. And what has landed stays until a
later put lands there (`kept`), which is where the order of the puts is needed.
-/

namespace HMC.Comm

open HMC.Machine

/-- A put that was handed to its transport, with the bytes the local buffer held at the call.
`length` is how many bytes the transport was asked for. -/
structure Put where
  conn : ConnType
  remoteOff : ℕ
  size : ℕ
  length : ℕ
  bytes : Bytes

/-- The sender is between two calls or waits in put number `n`. -/
inductive SenderPc
  | idle
  | waiting (n : ℕ)
  deriving DecidableEq

/-- A tag on the control socket, with the number of puts issued before it was sent. -/
structure Tag where
  value : ℕ
  puts : ℕ
  deriving DecidableEq

/-- The two buffers, the puts by number with what they have returned and whether they are
complete, the bytes that have landed (put and index, the oldest first), the tags sent and how
many of them the peer has received. -/
structure Handshake where
  localMem : Bytes
  peerMem : Bytes
  next : ℕ
  put : ℕ → Put
  pc : SenderPc
  outcome : ℕ → Option Status
  completed : ℕ → Bool
  landed : List (ℕ × ℕ)
  sent : List Tag
  received : ℕ

/-- The sender fills its buffer, calls `put` or `ctrlSend`, or returns from `put`; a put is
reported complete; a byte lands; the peer returns from `ctrlRecv`. -/
inductive HandshakeAct
  | stage (off : ℕ) (src : Bytes) (size : ℕ)
  | put (conn : ConnType) (localOff remoteOff size : ℕ) (answer : Ucx.NbxResult)
  | complete (n : ℕ)
  | ret (ok : Bool)
  | send (value : ℕ) (ok : Bool)
  | land (n k : ℕ) (v : UInt8)
  | recv

/-- The sender's endpoints of the peer. -/
structure PeerEndpoints where
  rdma : Option Rdma.EndpointConfig
  ucx : Option Ucx.Endpoint

namespace Handshake

/-- Both processes before the first call. -/
def start (localMem peerMem : Bytes) : Handshake where
  localMem := localMem
  peerMem := peerMem
  next := 0
  put := fun _ => ⟨.rdma, 0, 0, 0, fun _ => 0⟩
  pc := .idle
  outcome := fun _ => none
  completed := fun _ => false
  landed := []
  sent := []
  received := 0

/-- Every byte of put `n` has landed. -/
def Landed (st : Handshake) (n : ℕ) : Prop := ∀ k < (st.put n).size, (n, k) ∈ st.landed

instance (st : Handshake) (n : ℕ) : Decidable (st.Landed n) :=
  inferInstanceAs (Decidable (∀ k < (st.put n).size, (n, k) ∈ st.landed))

/-- Every byte of put `n` has landed and is in the peer's buffer, unless a byte of a later put
landed on it. -/
def Present (st : Handshake) (n : ℕ) : Prop :=
  ∀ k < (st.put n).size, ∃ before after, st.landed = before ++ (n, k) :: after ∧
    (st.peerMem ((st.put n).remoteOff + k) = (st.put n).bytes k ∨
      ∃ p ∈ after, n < p.1 ∧ (st.put p.1).remoteOff + p.2 = (st.put n).remoteOff + k)

/-- When the peer has received a tag, every put that returned `SUCCESS` before the tag was sent
is present. -/
def DataReady (st : Handshake) : Prop :=
  ∀ i < st.received, ∀ tag, st.sent[i]? = some tag →
    ∀ n < tag.puts, st.outcome n = some .success → st.Present n

end Handshake

namespace PeerEndpoints

variable (c : PeerEndpoints)

/-- What `Communicator::put` hands to the transport. RDMA knows an accepted post only. -/
def issued (conn : ConnType) (localOff remoteOff size : ℕ) (answer : Ucx.NbxResult) :
    Option Transfer :=
  match conn with
  | .rdma => c.rdma.bind fun g =>
    g.issued localOff remoteOff size (decide (answer ≠ .error))
  | .ucx => c.ucx.bind fun e => e.issued localOff remoteOff size answer
  | .p2p => none

/-- The length a transport is asked for: that of an RDMA request has 32 bits. -/
def lengthOf (conn : ConnType) (size : ℕ) : ℕ :=
  if conn = .rdma then wrap32 size else size

/-- A put is handed to its transport. UCX may report it complete at once. -/
def issue (st : Handshake) (conn : ConnType) (t : Transfer) (answer : Ucx.NbxResult) :
    Handshake :=
  let n := st.next
  let p : Put :=
    ⟨conn, t.remoteOff, t.size, lengthOf conn t.size, fun k => st.localMem (t.localOff + k)⟩
  let done := conn = .ucx ∧ answer = .immediate
  { st with
    next := n + 1
    put := Function.update st.put n p
    pc := if done then .idle else .waiting n
    outcome := Function.update st.outcome n (if done then some .success else none)
    completed := Function.update st.completed n (decide done) }

/-- One step. -/
def step (st : Handshake) : HandshakeAct → Option Handshake
  | .stage off src size =>
    if st.pc = .idle then some { st with localMem := blit st.localMem off src size } else none
  | .put conn localOff remoteOff size answer =>
    if st.pc = .idle then
      match c.issued conn localOff remoteOff size answer with
      | none => some st
      | some t => some (issue st conn t answer)
    else none
  | .complete n =>
    -- an RDMA completion says that the request has been executed
    if n < st.next ∧
        ((st.put n).conn = .rdma → ∀ k < (st.put n).length, (n, k) ∈ st.landed) then
      some { st with completed := Function.update st.completed n true }
    else none
  | .ret ok =>
    match st.pc with
    | .idle => none
    | .waiting n =>
      if ok = true → st.completed n = true then
        some { st with
          outcome := Function.update st.outcome n (some (if ok then .success else .error))
          pc := .idle }
      else none
  | .send value ok =>
    if st.pc = .idle then
      some (if ok then { st with sent := st.sent ++ [⟨value, st.next⟩] } else st)
    else none
  | .land n k v =>
    -- what a failed put still writes is not known
    if n < st.next ∧ k < (st.put n).length ∧ (n, k) ∉ st.landed ∧
        (st.outcome n = some .error ∨ v = (st.put n).bytes k) then
      some { st with
        peerMem := Function.update st.peerMem ((st.put n).remoteOff + k) v
        landed := st.landed ++ [(n, k)] }
    else none
  | .recv =>
    if st.received < st.sent.length then some { st with received := st.received + 1 } else none

/-- The tag does not get ahead of the data of a UCX put, no byte lands over one of a later put
(unless that has failed), and RDMA requests are not cut. -/
def Flushed (st : Handshake) : HandshakeAct → Prop
  | .put conn _ _ size _ => conn = .rdma → size < 2 ^ 32
  | .send _ ok => ok = true →
    ∀ n < st.next, st.outcome n = some .success → (st.put n).conn = .ucx → st.Landed n
  | .land n k _ => ∀ p ∈ st.landed,
    (st.put p.1).remoteOff + p.2 = (st.put n).remoteOff + k →
      st.outcome p.1 ≠ some .error → p.1 ≤ n
  | _ => True

instance (st : Handshake) (a : HandshakeAct) : Decidable (Flushed st a) := by
  cases a <;> unfold Flushed <;> infer_instance

/-- What an issued put is. -/
theorem issued_cases {conn : ConnType} {localOff remoteOff size : ℕ} {answer : Ucx.NbxResult}
    {t : Transfer} (h : c.issued conn localOff remoteOff size answer = some t) :
    t = ⟨localOff, remoteOff, size⟩ ∧ (conn = .rdma ∨ conn = .ucx) := by
  cases conn with
  | rdma =>
    obtain ⟨g, -, hg⟩ := Option.bind_eq_some_iff.mp h
    exact ⟨(g.issued_eq_some.mp hg).1, .inl rfl⟩
  | ucx =>
    obtain ⟨e, -, he⟩ := Option.bind_eq_some_iff.mp h
    exact ⟨(e.issued_eq_some.mp he).2.1, .inr rfl⟩
  | p2p => cases h

end PeerEndpoints

/-- The puts that have returned `SUCCESS` have landed, if by RDMA, and all that a tag vouches for
have; what has landed is in the buffer until something else lands there. -/
structure ReadyInv (st : Handshake) : Prop where
  waiting : ∀ n, st.pc = .waiting n → n + 1 = st.next ∧ st.outcome n = none
  outcome_lt : ∀ n, st.outcome n ≠ none → n < st.next
  completed_lt : ∀ n, st.completed n = true → n < st.next
  landed_lt : ∀ p ∈ st.landed, p.1 < st.next
  length : ∀ n < st.next, (st.put n).length = (st.put n).size
  conn : ∀ n < st.next, (st.put n).conn = .rdma ∨ (st.put n).conn = .ucx
  completed : ∀ n, st.completed n = true → (st.put n).conn = .rdma → st.Landed n
  succeeded : ∀ n, st.outcome n = some .success → st.completed n = true
  sent : ∀ tag ∈ st.sent, tag.puts ≤ st.next ∧ (∀ n, st.pc = .waiting n → tag.puts ≤ n) ∧
    ∀ n < tag.puts, st.outcome n = some .success → st.Landed n
  kept : ∀ before n k after, st.landed = before ++ (n, k) :: after →
    st.outcome n ≠ some .error →
    st.peerMem ((st.put n).remoteOff + k) = (st.put n).bytes k ∨
      ∃ p ∈ after, n < p.1 ∧ (st.put p.1).remoteOff + p.2 = (st.put n).remoteOff + k

namespace ReadyInv

variable {c : PeerEndpoints} {st st' : Handshake}

theorem start (localMem peerMem : Bytes) : ReadyInv (.start localMem peerMem) where
  waiting _ h := by cases h
  outcome_lt _ h := absurd rfl h
  completed_lt _ h := by cases h
  landed_lt _ h := by cases h
  length _ h := absurd h (Nat.not_lt_zero _)
  conn _ h := absurd h (Nat.not_lt_zero _)
  completed _ h := by cases h
  succeeded _ h := by cases h
  sent _ h := by cases h
  kept _ _ _ _ h := by simp [Handshake.start] at h

/-- What the invariant is for. -/
theorem dataReady (h : ReadyInv st) : st.DataReady := by
  intro i _ tag htag n hn hout k hk
  have hlanded := (h.sent tag (List.mem_of_getElem? htag)).2.2 n hn hout
  obtain ⟨before, after, heq⟩ := List.append_of_mem (hlanded k hk)
  exact ⟨before, after, heq, h.kept before n k after heq (by simp [hout])⟩

/-- A put is issued under a new number. -/
theorem issue (h : ReadyInv st) {conn : ConnType} {t : Transfer}
    {answer : Ucx.NbxResult} (hconn : conn = .rdma ∨ conn = .ucx)
    (hsize : conn = .rdma → t.size < 2 ^ 32) :
    ReadyInv (PeerEndpoints.issue st conn t answer) := by
  -- what is known of the older puts stays as it is
  have hput : ∀ n < st.next, (PeerEndpoints.issue st conn t answer).put n = st.put n :=
    fun n hn => Function.update_of_ne (Nat.ne_of_lt hn) _ _
  have hlanded : ∀ n < st.next, st.Landed n → (PeerEndpoints.issue st conn t answer).Landed n := by
    intro n hn hl k hk
    rw [hput n hn] at hk
    exact hl k hk
  have hout : ∀ n < st.next, (PeerEndpoints.issue st conn t answer).outcome n = st.outcome n :=
    fun n hn => Function.update_of_ne (Nat.ne_of_lt hn) _ _
  have hself : (PeerEndpoints.issue st conn t answer).put st.next = ⟨conn, t.remoteOff, t.size,
      PeerEndpoints.lengthOf conn t.size, fun k => st.localMem (t.localOff + k)⟩ :=
    Function.update_self _ _ _
  have hnew : ∀ n, n < st.next + 1 → n = st.next ∨ n < st.next := fun n hn => by omega
  exact
    { waiting := fun n hn => by
        simp only [PeerEndpoints.issue] at hn ⊢
        split_ifs at hn with hd
        obtain rfl := SenderPc.waiting.inj hn
        exact ⟨rfl, by rw [Function.update_self, if_neg hd]⟩
      outcome_lt := fun n hn => by
        by_cases hne : n = st.next
        · exact hne ▸ Nat.lt_succ_self _
        · simp only [PeerEndpoints.issue, Function.update_of_ne hne] at hn
          exact Nat.lt_succ_of_lt (h.outcome_lt n hn)
      completed_lt := fun n hn => by
        by_cases hne : n = st.next
        · exact hne ▸ Nat.lt_succ_self _
        · simp only [PeerEndpoints.issue, Function.update_of_ne hne] at hn
          exact Nat.lt_succ_of_lt (h.completed_lt n hn)
      landed_lt := fun p hp => Nat.lt_succ_of_lt (h.landed_lt p hp)
      length := fun n hn => by
        obtain rfl | hn := hnew n hn
        · rw [hself]
          dsimp only [PeerEndpoints.lengthOf]
          split_ifs with hr
          · exact wrap32_of_lt (hsize hr)
          · rfl
        · rw [hput n hn]
          exact h.length n hn
      conn := fun n hn => by
        obtain rfl | hn := hnew n hn
        · rw [hself]
          exact hconn
        · rw [hput n hn]
          exact h.conn n hn
      completed := fun n hc hr => by
        by_cases hne : n = st.next
        · subst hne
          rw [hself] at hr
          simp only [PeerEndpoints.issue, Function.update_self, decide_eq_true_iff] at hc
          exact absurd (hr.symm.trans hc.1) (by decide)
        · simp only [PeerEndpoints.issue, Function.update_of_ne hne] at hc
          have hn := h.completed_lt n hc
          rw [hput n hn] at hr
          exact hlanded n hn (h.completed n hc hr)
      succeeded := fun n ho => by
        by_cases hne : n = st.next
        · subst hne
          simp only [PeerEndpoints.issue, Function.update_self] at ho ⊢
          split_ifs at ho with hd
          exact decide_eq_true hd
        · simp only [PeerEndpoints.issue, Function.update_of_ne hne] at ho ⊢
          exact h.succeeded n ho
      sent := fun tag ht => by
        obtain ⟨hle, -, hl⟩ := h.sent tag ht
        refine ⟨Nat.le_succ_of_le hle, fun n hn => ?_, fun n hn ho => ?_⟩
        · simp only [PeerEndpoints.issue] at hn
          split_ifs at hn
          obtain rfl := SenderPc.waiting.inj hn
          exact hle
        · have hlt := Nat.lt_of_lt_of_le hn hle
          rw [hout n hlt] at ho
          exact hlanded n hlt (hl n hn ho)
      kept := fun before n k after heq ho => by
        have hmem : ∀ p ∈ (n, k) :: after, p.1 < st.next := fun p hp =>
          h.landed_lt p (by rw [show st.landed = _ from heq]; exact List.mem_append_right _ hp)
        have hn := hmem (n, k) List.mem_cons_self
        rw [hout n hn] at ho
        rw [hput n hn]
        refine (h.kept before n k after heq ho).imp_right fun ⟨p, hp, hlt, hpe⟩ =>
          ⟨p, hp, hlt, ?_⟩
        rwa [hput p.1 (hmem p (List.mem_cons_of_mem _ hp))] }

/-- A byte lands, which no later put has been before. -/
theorem land (h : ReadyInv st) {n k : ℕ} {v : UInt8} (hn : n < st.next)
    (hnew : (n, k) ∉ st.landed) (hv : st.outcome n = some .error ∨ v = (st.put n).bytes k)
    (horder : ∀ p ∈ st.landed, (st.put p.1).remoteOff + p.2 = (st.put n).remoteOff + k →
      st.outcome p.1 ≠ some .error → p.1 ≤ n) :
    ReadyInv { st with
      peerMem := Function.update st.peerMem ((st.put n).remoteOff + k) v
      landed := st.landed ++ [(n, k)] } := by
  have hlanded : ∀ m, st.Landed m → Handshake.Landed { st with
      peerMem := Function.update st.peerMem ((st.put n).remoteOff + k) v
      landed := st.landed ++ [(n, k)] } m :=
    fun m hl j hj => List.mem_append_left _ (hl j hj)
  exact
    { h with
      landed_lt := fun p hp => by
        obtain hp | hp := List.mem_append.mp hp
        · exact h.landed_lt p hp
        · rw [List.mem_singleton.mp hp]
          exact hn
      completed := fun m hc hr => hlanded m (h.completed m hc hr)
      sent := fun tag ht => by
        obtain ⟨hle, hw, hl⟩ := h.sent tag ht
        exact ⟨hle, hw, fun m hm ho => hlanded m (hl m hm ho)⟩
      kept := fun before m j after heq ho => by
        dsimp only at ho ⊢
        obtain ⟨mid, rfl, hlog⟩ | ⟨rfl, he, -⟩ := snoc_eq_append_cons heq
        · obtain hm | ⟨p, hp, hlt, hpe⟩ := h.kept before m j mid hlog ho
          · by_cases ha : (st.put m).remoteOff + j = (st.put n).remoteOff + k
            · -- it lands on a byte of `m`: of the same put it would be the same byte
              have hmem : (m, j) ∈ st.landed := by
                rw [hlog]
                exact List.mem_append_right _ List.mem_cons_self
              have hne : m ≠ n := by
                rintro rfl
                obtain rfl : j = k := Nat.add_left_cancel ha
                exact hnew hmem
              exact .inr ⟨(n, k), List.mem_append_right _ (List.mem_singleton.mpr rfl),
                Nat.lt_of_le_of_ne (horder _ hmem ha ho) hne, ha.symm⟩
            · left
              rwa [Function.update_of_ne ha]
          · exact .inr ⟨p, List.mem_append_left _ hp, hlt, hpe⟩
        · cases he
          left
          rw [Function.update_self]
          exact hv.resolve_left ho }

/-- A put is reported complete. -/
theorem complete (h : ReadyInv st) {n : ℕ} (hn : n < st.next)
    (hl : (st.put n).conn = .rdma → ∀ k < (st.put n).length, (n, k) ∈ st.landed) :
    ReadyInv { st with completed := Function.update st.completed n true } where
  waiting := h.waiting
  outcome_lt := h.outcome_lt
  completed_lt m hm := by
    by_cases hne : m = n
    · exact hne ▸ hn
    · exact h.completed_lt m (by simpa [hne] using hm)
  landed_lt := h.landed_lt
  length := h.length
  conn := h.conn
  completed m hm hr := by
    by_cases hne : m = n
    · subst hne
      have := hl hr
      rwa [h.length m hn] at this
    · exact h.completed m (by simpa [hne] using hm) hr
  succeeded m hm := by
    by_cases hne : m = n
    · subst hne
      exact Function.update_self _ _ _
    · dsimp only
      rw [Function.update_of_ne hne]
      exact h.succeeded m hm
  sent := h.sent
  kept := h.kept

/-- The sender returns from put `n`. -/
theorem ret (h : ReadyInv st) {n : ℕ} (hpc : st.pc = .waiting n) {ret : Status}
    (hret : ret = .success → st.completed n = true) :
    ReadyInv { st with outcome := Function.update st.outcome n (some ret), pc := .idle } := by
  obtain ⟨hn, hnone⟩ := h.waiting n hpc
  refine
    { h with
      waiting := fun m hm => by cases hm
      outcome_lt := fun m hm => ?_
      succeeded := fun m hm => ?_
      sent := fun tag ht => ?_
      kept := fun before m k after heq hm => h.kept before m k after heq ?_ }
  · by_cases hne : m = n
    · dsimp only
      omega
    · exact h.outcome_lt m (by simpa [hne] using hm)
  · by_cases hne : m = n
    · subst hne
      simp only [Function.update_self, Option.some.injEq] at hm
      exact hret hm
    · exact h.succeeded m (by simpa [hne] using hm)
  · obtain ⟨hle, hw, hl⟩ := h.sent tag ht
    refine ⟨hle, fun m hm => (by cases hm), fun m hm ho => hl m hm ?_⟩
    have hne : m ≠ n := Nat.ne_of_lt (Nat.lt_of_lt_of_le hm (hw n hpc))
    simpa [hne] using ho
  · by_cases hne : m = n
    · rw [hne, hnone]
      simp
    · simpa [hne] using hm

/-- A tag is sent when every put that it vouches for has landed. -/
theorem send (h : ReadyInv st) (hpc : st.pc = .idle) (value : ℕ)
    (hl : ∀ n < st.next, st.outcome n = some .success → (st.put n).conn = .ucx → st.Landed n) :
    ReadyInv { st with sent := st.sent ++ [⟨value, st.next⟩] } :=
  { h with
    sent := fun tag ht => by
      obtain ht | ht := List.mem_append.mp ht
      · exact h.sent tag ht
      · obtain rfl := List.mem_singleton.mp ht
        refine ⟨Nat.le_refl _, fun n hn => ?_, fun n hn ho => ?_⟩
        · exact absurd (hpc.symm.trans hn) (by simp)
        · obtain hr | hu := h.conn n hn
          · exact h.completed n (h.succeeded n ho) hr
          · exact hl n hn ho hu }

/-- **One step** keeps the invariant. -/
theorem step (h : ReadyInv st) {a : HandshakeAct} (hok : PeerEndpoints.Flushed st a)
    (hs : c.step st a = some st') : ReadyInv st' := by
  cases a with
  | stage off src size =>
    simp only [PeerEndpoints.step] at hs
    split_ifs at hs
    cases hs
    exact { h with }
  | put conn localOff remoteOff size answer =>
    simp only [PeerEndpoints.step] at hs
    split_ifs at hs with hpc
    split at hs
    · cases hs
      exact h
    · rename_i t ht
      cases hs
      obtain ⟨rfl, hconn⟩ := c.issued_cases ht
      exact h.issue hconn hok
  | complete n =>
    simp only [PeerEndpoints.step] at hs
    split_ifs at hs with hg
    cases hs
    exact h.complete hg.1 hg.2
  | ret ok =>
    simp only [PeerEndpoints.step] at hs
    split at hs
    · cases hs
    · rename_i n hpc
      by_cases hg : ok = true → st.completed n = true
      · rw [if_pos hg] at hs
        obtain rfl := Option.some.inj hs
        refine h.ret hpc fun hret => hg ?_
        cases ok with
        | true => rfl
        | false => cases hret
      · rw [if_neg hg] at hs
        cases hs
  | send value ok =>
    simp only [PeerEndpoints.step] at hs
    split_ifs at hs with hpc hsend <;> cases hs
    · exact h.send hpc value (hok hsend)
    · exact h
  | land n k v =>
    simp only [PeerEndpoints.step] at hs
    split_ifs at hs with hg
    cases hs
    exact h.land hg.1 hg.2.2.1 hg.2.2.2 hok
  | recv =>
    simp only [PeerEndpoints.step] at hs
    split_ifs at hs
    cases hs
    exact { h with }

end ReadyInv

namespace PeerEndpoints

/-- **Data are ready when the tag is.** In every run in which the bytes of the UCX puts have landed
when a tag is sent, no put lands over a later one, and no RDMA put has more bytes than a request can
ask for, the peer that has received a tag finds the bytes of all the puts before it. -/
theorem dataReady_of_reach (c : PeerEndpoints) (localMem peerMem : Bytes) {st : Handshake}
    (hr : Reach c.step Flushed (.start localMem peerMem) st) : st.DataReady :=
  (hr.invariant (I := ReadyInv) (.start localMem peerMem)
    fun _ _ _ _ h hok hs => h.step hok hs).dataReady

variable {c : PeerEndpoints} {st : Handshake} {localMem peerMem : Bytes}

theorem received_le (hr : Reach c.step Free (.start localMem peerMem) st) :
    st.received ≤ st.sent.length := by
  refine hr.invariant (I := fun st => st.received ≤ st.sent.length) (Nat.le_refl _) ?_
  intro s a t _ ih _ hs
  cases a with
  | put conn localOff remoteOff size answer =>
    simp only [step] at hs
    split_ifs at hs
    split at hs <;> cases hs <;> exact ih
  | ret ok =>
    simp only [step] at hs
    split at hs
    · cases hs
    · split at hs <;> cases hs
      exact ih
  | send value ok =>
    simp only [step] at hs
    split_ifs at hs <;> cases hs
    · rw [List.length_append]
      exact Nat.le_add_right_of_le ih
    · exact ih
  | stage | complete | land =>
    simp only [step] at hs
    split_ifs at hs
    cases hs
    exact ih
  | recv =>
    simp only [step] at hs
    split_ifs at hs with hlt
    cases hs
    exact hlt

/-- The peer can receive all the tags that were sent. -/
theorem reach_received {m : ℕ} (hle : st.received ≤ m) (hm : m ≤ st.sent.length) :
    Reach c.step Free st { st with received := m } := by
  induction m, hle using Nat.le_induction with
  | base => exact .refl
  | succ m hle ih =>
    refine (ih (Nat.le_of_succ_le hm)).tail (a := .recv) trivial ?_
    exact if_pos hm

/-- Nothing less will do: a tag that is sent while the bytes of a put that has returned `SUCCESS`
are on their way can reach the peer before them. -/
theorem exists_not_dataReady (hr : Reach c.step Free (.start localMem peerMem) st)
    (hpc : st.pc = .idle) {n : ℕ} (hn : n < st.next) (ho : st.outcome n = some .success)
    (hl : ¬ st.Landed n) : ∃ st', Reach c.step Free st st' ∧ ¬ st'.DataReady := by
  let tagged : Handshake := { st with sent := st.sent ++ [⟨0, st.next⟩] }
  have hlen : tagged.sent.length = st.sent.length + 1 := List.length_append
  have hsend : c.step st (.send 0 true) = some tagged := if_pos hpc
  have hle : tagged.received ≤ tagged.sent.length := by
    have := received_le hr
    rw [hlen]
    exact Nat.le_succ_of_le this
  refine ⟨{ tagged with received := tagged.sent.length },
    (Reach.refl.tail trivial hsend).trans (reach_received hle (Nat.le_refl _)), fun hready => hl ?_⟩
  have hpresent :=
    hready st.sent.length (by dsimp only; omega) ⟨0, st.next⟩ (by simp [tagged]) n hn ho
  intro k hk
  obtain ⟨before, after, heq, -⟩ := hpresent k hk
  rw [show st.landed = _ from heq]
  exact List.mem_append_right _ List.mem_cons_self

theorem landed_lt (hr : Reach c.step Free (.start localMem peerMem) st) :
    ∀ p ∈ st.landed, p.1 < st.next := by
  refine hr.invariant (I := fun st => ∀ p ∈ st.landed, p.1 < st.next) (fun p hp => by cases hp) ?_
  intro s a t _ ih _ hs
  cases a with
  | put conn localOff remoteOff size answer =>
    simp only [step] at hs
    split_ifs at hs
    split at hs <;> cases hs
    · exact ih
    · exact fun p hp => Nat.lt_succ_of_lt (ih p hp)
  | ret ok =>
    simp only [step] at hs
    split at hs
    · cases hs
    · split at hs <;> cases hs
      exact ih
  | send value ok =>
    simp only [step] at hs
    split_ifs at hs <;> cases hs <;> exact ih
  | stage | complete | recv =>
    simp only [step] at hs
    split_ifs at hs
    cases hs
    exact ih
  | land n k v =>
    simp only [step] at hs
    split_ifs at hs with hg
    cases hs
    intro p hp
    obtain hp | hp := List.mem_append.mp hp
    · exact ih p hp
    · rw [List.mem_singleton.mp hp]
      exact hg.1

/-- Nor will less than the order of the puts do: when the last put has returned `SUCCESS` and a byte
of an earlier one is still to land on it, some run ends with the earlier byte. -/
theorem exists_not_dataReady_of_earlier (hr : Reach c.step Free (.start localMem peerMem) st)
    (hpc : st.pc = .idle) {n m j k : ℕ} (hn : n + 1 = st.next)
    (ho : st.outcome n = some .success) (hk : k < (st.put n).size) (hm : m < n)
    (hj : j < (st.put m).length) (hnew : (m, j) ∉ st.landed)
    (haddr : (st.put m).remoteOff + j = (st.put n).remoteOff + k)
    (hne : (st.put m).bytes j ≠ (st.put n).bytes k) :
    ∃ st', Reach c.step Free st st' ∧ ¬ st'.DataReady := by
  let late : Handshake := { st with
    peerMem := Function.update st.peerMem ((st.put m).remoteOff + j) ((st.put m).bytes j)
    landed := st.landed ++ [(m, j)] }
  have hland : c.step st (.land m j ((st.put m).bytes j)) = some late :=
    if_pos ⟨by omega, hj, hnew, .inr rfl⟩
  let tagged : Handshake := { late with sent := st.sent ++ [⟨0, st.next⟩] }
  have hsend : c.step late (.send 0 true) = some tagged := if_pos hpc
  have hlen : tagged.sent.length = st.sent.length + 1 := List.length_append
  have hle : tagged.received ≤ tagged.sent.length := by
    have := received_le hr
    rw [hlen]
    exact Nat.le_succ_of_le this
  refine ⟨{ tagged with received := tagged.sent.length }, ((Reach.refl.tail trivial hland).tail
    trivial hsend).trans (reach_received hle (Nat.le_refl _)), fun hready => ?_⟩
  have hpresent :=
    hready st.sent.length (by dsimp only; omega) ⟨0, st.next⟩ (by simp [tagged]) n
      (by dsimp only; omega) ho
  obtain ⟨before, after, heq, hbyte | ⟨p, hp, hlt, -⟩⟩ := hpresent k hk
  · have hlate : tagged.peerMem ((st.put n).remoteOff + k) = (st.put m).bytes j := by
      rw [← haddr]
      exact Function.update_self _ _ _
    exact hne (hlate.symm.trans hbyte)
  · -- no put is later than the last
    have hmem : p ∈ st.landed ++ [(m, j)] := by
      rw [show st.landed ++ [(m, j)] = _ from heq]
      exact List.mem_append_right _ (List.mem_cons_of_mem _ hp)
    obtain hmem | hmem := List.mem_append.mp hmem
    · have := landed_lt hr p hmem
      omega
    · rw [List.mem_singleton.mp hmem] at hlt
      dsimp only at hlt
      omega

/-- RDMA and UCX between two buffers of 16 bytes. -/
def connected : PeerEndpoints where
  rdma := some ⟨16, 16, 1, 16⟩
  ucx := some ⟨true, 16, 16, 0, ∅⟩

/-- An RDMA put and a tag, with a failed UCX put of another byte in between. -/
theorem dataReady_connected :
    ∃ st, Reach connected.step Flushed (.start (fun _ => 7) fun _ => 0) st ∧
      st.received = 1 ∧ st.DataReady := by
  obtain ⟨st, hr, hrecv⟩ : ∃ st, Reach connected.step Flushed (.start (fun _ => 7) fun _ => 0) st ∧
      st.received = 1 :=
    exists_reach_of_execOk [.put .rdma 0 0 1 .request, .land 0 0 7, .complete 0, .ret true,
      .put .ucx 0 1 1 .request, .ret false, .send 1 true, .recv, .land 1 0 3] (by decide +kernel)
  exact ⟨st, hr, hrecv, dataReady_of_reach connected _ _ hr⟩

/-- **A tag overtakes the data.** UCX reports a put complete at once, and the tag arrives before
the byte. -/
theorem tag_overtakes_data :
    ∃ st, Reach connected.step Free (.start (fun _ => 7) fun _ => 0) st ∧ ¬ st.DataReady := by
  obtain ⟨st, hr, hrecv, hsent, hout, hsize, hlanded⟩ :
      ∃ st, Reach connected.step Free (.start (fun _ => 7) fun _ => 0) st ∧
        st.received = 1 ∧ st.sent = [⟨1, 1⟩] ∧ st.outcome 0 = some .success ∧
        (st.put 0).size = 1 ∧ st.landed = [] :=
    exists_reach_of_exec [.put .ucx 0 0 1 .immediate, .send 1 true, .recv] (by decide +kernel)
  refine ⟨st, hr, fun h => ?_⟩
  obtain ⟨before, after, heq, -⟩ :=
    h 0 (by omega) ⟨1, 1⟩ (by rw [hsent]; rfl) 0 Nat.one_pos hout 0 (by omega)
  rw [hlanded] at heq
  exact absurd heq.symm (by simp)

/-- **A put overtakes a put.** Both are reported complete at once, the second one lands first, and
the first one stays, although both have landed when the tag is sent. -/
theorem put_overtakes_put :
    ∃ st, Reach connected.step Free (.start (fun _ => 7) fun _ => 0) st ∧
      st.Landed 0 ∧ st.Landed 1 ∧ ¬ st.DataReady := by
  obtain ⟨st, hr, hrecv, hsent, hout, hsize, hlanded, hbyte⟩ :
      ∃ st, Reach connected.step Free (.start (fun _ => 7) fun _ => 0) st ∧
        st.received = 1 ∧ st.sent = [⟨1, 2⟩] ∧ st.outcome 1 = some .success ∧
        ((st.put 0).size = 1 ∧ (st.put 1).size = 1) ∧ st.landed = [(1, 0), (0, 0)] ∧
        st.peerMem ((st.put 1).remoteOff + 0) ≠ (st.put 1).bytes 0 :=
    exists_reach_of_exec [.put .ucx 0 0 1 .immediate, .stage 0 (fun _ => 8) 1,
      .put .ucx 0 0 1 .immediate, .land 1 0 8, .land 0 0 7, .send 1 true, .recv]
      (by decide +kernel)
  refine ⟨st, hr, fun k hk => ?_, fun k hk => ?_, fun h => ?_⟩
  · obtain rfl : k = 0 := by omega
    simp [hlanded]
  · obtain rfl : k = 0 := by omega
    simp [hlanded]
  · obtain ⟨before, after, heq, hkept | ⟨p, hp, hlt, -⟩⟩ :=
      h 0 (by omega) ⟨1, 2⟩ (by rw [hsent]; rfl) 1 (by decide) hout 0 (by omega)
    · exact hbyte hkept
    · have hmem : p ∈ st.landed := by
        rw [heq]
        exact List.mem_append_right _ (List.mem_cons_of_mem _ hp)
      rw [hlanded] at hmem
      simp only [List.mem_cons, List.not_mem_nil, or_false] at hmem
      obtain rfl | rfl := hmem <;> simp at hlt

end PeerEndpoints

end HMC.Comm
