import HMC.Ctrl.Frame

/-!
# Messages on a connection

A connection is opened by the HELLO that its dialer sends and the other side reads; then messages
are sent on it. `received_of_sent` says that the `k`-th call of the receiver returns the `k`-th
message, however the socket cuts the writes and the reads.

A message that looks like a HELLO is refused before its payload is read, and its payload is then
taken for the next header (`misaligned_after_refused`). `aligned_iff` says that the calls stay at
the boundaries of messages exactly when no such message has a payload.

Each process is a program on its end of the connection: `dialer` and `acceptor`, which exchange the
HELLO and then go on with the calls. Because nobody else reads or writes here, a run in small pieces
ends as the two programs do when each runs by itself on the whole stream
(`exists_settles_transfer`). So both results are about `recvCalls` on a list of frames.
-/

namespace HMC.Ctrl

open HMC.Machine

/-! ### A connection -/

/-- A channel is named by the side that reads it. -/
def ports : Ports Side Side := ⟨id, Side.other, fun side => side.other_ne.symm⟩

theorem ports_private : ports.Private where
  inp := Function.injective_id
  out x y h := by rw [← Side.other_other x, ← Side.other_other y]; exact congrArg Side.other h

/-- The socket is registered and used, or closed when the HELLO has failed. -/
def afterHello (p : Io UInt8 (List Outcome)) : Bool → Io UInt8 (Option (List Outcome))
  | true => do return some (← p)
  | false => Io.close (return none)

/-- A process that has dialed the other. -/
def dialer (selfId : ℕ) (p : Io UInt8 (List Outcome)) : Io UInt8 (Option (List Outcome)) := do
  afterHello p (← Socket.sendHello selfId)

/-- A process that has accepted the connection. -/
def acceptor (p : Io UInt8 (List Outcome)) : Io UInt8 (Option (List Outcome)) := do
  afterHello p (← Socket.recvHello).isSome

abbrev Connection := Net Side Side UInt8 (Option (List Outcome))

namespace Connection

variable (selfId : ℕ) (p : Side → Io UInt8 (List Outcome))

/-- Process `a` has dialed `b`. -/
def opened : Connection where
  prog
    | .a => dialer selfId (p .a)
    | .b => acceptor (p .b)
  read _ := []
  wire _ := []
  closed _ := false

/-- The bytes of the HELLO, which only `b` reads. -/
def greeting : Side → List UInt8
  | .a => []
  | .b => (Ctrl.sendHello selfId).hdr.bytes ++ leBytes sizeofCtrlId selfId

theorem length_greeting : (greeting selfId .b).length = sizeofHeader + sizeofCtrlId := by
  simp [greeting]

/-- The HELLO has been read. -/
def registered : Connection where
  prog side := (p side).bind fun r => .ret (some r)
  read := greeting selfId
  wire _ := []
  closed _ := false

theorem reach_registered {selfId : ℕ} (hid : selfId < 2 ^ 32)
    (p : Side → Io UInt8 (List Outcome)) :
    Reach (Net.step ports) Free (opened selfId p) (registered selfId p) := by
  have hhello := Net.reach_run (P := ports) (s := opened selfId p) (i := .a)
    (f := afterHello (p .a)) rfl rfl (Socket.run_sendHello selfId _)
  have hread := Net.reach_run (P := ports) (i := .b)
    (s := (opened selfId p).apply ports .a ⟨afterHello (p .a) true, greeting selfId .b, 0, false⟩)
    (f := fun r : Option ℕ => afterHello (p .b) r.isSome) rfl rfl
    (by simpa [opened, Net.apply, ports, greeting, Side.other] using
      Socket.run_recvHello hid [])
  refine Eq.subst (motive := fun s => Reach _ _ _ s) ?_ (hhello.trans hread)
  refine Net.ext (funext fun side => ?_) (funext fun side => ?_) (funext fun side => ?_) ?_
  · cases side <;> rfl
  · cases side with
    | a => rfl
    | b => exact List.take_of_length_le (Nat.le_of_eq (length_greeting selfId))
  · cases side with
    | a => rfl
    | b => exact List.drop_eq_nil_of_le (Nat.le_of_eq (length_greeting selfId))
  · rfl

/-- **A transfer.** What one side sends on an open connection is what the other side reads. -/
theorem exists_settles {selfId : ℕ} (hid : selfId < 2 ^ 32) {p : Side → Io UInt8 (List Outcome)}
    {side : Side} {sent received : List Outcome} {bytes : List UInt8} {took : ℕ}
    (hsend : (p side).run [] = some ⟨sent, bytes, 0⟩)
    (hrecv : (p side.other).run bytes = some ⟨received, [], took⟩) :
    ∃ st, Settles (Net.step ports) (opened selfId p) st ∧ st.prog side = .ret (some sent) ∧
      st.prog side.other = .ret (some received) ∧
      st.read side.other = greeting selfId side.other ++ bytes.take took := by
  have hne := side.other_ne
  have h₁ := Net.reach_run (P := ports) (s := registered selfId p) (i := side)
    (f := fun r => .ret (some r)) rfl rfl hsend
  have h₂ := Net.reach_run (P := ports) (i := side.other)
    (s := (registered selfId p).apply ports side ⟨.ret (some sent), bytes, 0, false⟩)
    (f := fun r => .ret (some r)) (Net.apply_prog_of_ne hne)
    (by simp [registered, Net.apply]) (by simpa [registered, Net.apply, ports, hne] using hrecv)
  have hprog : ∀ s, (((registered selfId p).apply ports side
      ⟨.ret (some sent), bytes, 0, false⟩).apply ports side.other
        ⟨.ret (some received), [], took, false⟩).prog s =
      .ret (some (if s = side then sent else received)) := fun s => by
    by_cases hs : s = side
    · subst hs
      simp [Net.apply, hne.symm]
    · obtain rfl := Side.eq_other_of_ne hs
      simp [Net.apply, hne]
  refine ⟨_, Net.settles_of_reach ports_private ((reach_registered hid p).trans (h₁.trans h₂))
    fun s => Net.unit_of_ret (hprog s), ?_, ?_, ?_⟩
  · rw [hprog, if_pos rfl]
  · rw [hprog, if_neg hne]
  · simp [registered, Net.apply, ports]

/-- One side sends messages, the other receives. -/
def transfer (side : Side) (sends : List SendCall) (calls : List RecvCall) (s : Side) :
    Io UInt8 (List Outcome) :=
  if s = side then sendCalls sends else recvCalls calls

theorem exists_settles_transfer (selfId : UInt32) (side : Side) (sends : List SendCall)
    (calls : List RecvCall) (hlen : calls.length ≤ sends.length)
    (hall : ∀ m ∈ (sends.map (·.msg)).take (calls.length - 1), m.taken = m.frame.length) :
    ∃ st, Settles (Net.step ports) (opened selfId.toNat (transfer side sends calls)) st ∧
      st.prog side = .ret (some (sends.map fun _ => .sent true)) ∧
      st.prog side.other =
        .ret (some (List.zipWith (fun c s => c.outcome s.msg) calls sends)) ∧
      st.read side.other = greeting selfId.toNat side.other ++ (frames (sends.map (·.msg))).take
        (((sends.map (·.msg)).take calls.length).map (·.taken)).sum := by
  have hmsgs : calls.length ≤ (sends.map (·.msg)).length := by rwa [List.length_map]
  have hrecv := run_recvCalls hmsgs hall
  have hside : transfer side sends calls side = sendCalls sends := if_pos rfl
  have hother : transfer side sends calls side.other = recvCalls calls := if_neg side.other_ne
  obtain ⟨st, hst, hs, ho, hread⟩ := exists_settles (p := transfer side sends calls)
    selfId.toNat_lt (by rw [hside]; exact run_sendCalls sends []) (by rw [hother]; exact hrecv)
  rw [List.zipWith_map_right] at ho
  exact ⟨st, hst, hs, ho, hread⟩

end Connection

/-! ### The round trip -/

/-- What a receiver may expect: the value whose object representation is the payload when type and
size are right, and a failure otherwise. -/
def RecvCall.Returns (m : CtrlMsg) : RecvCall → Outcome → Prop
  | .recv, o => o = .msg (some (m.header, m.payload))
  | .recvInt, o =>
    if m.type.toNat = ctrlInt ∧ m.payload.length = 4 then
      ∃ v, Socket.intBytes v = m.payload ∧ o = .int (some v)
    else o = .int none
  | .recvU64, o =>
    if m.type.toNat = ctrlInt ∧ m.payload.length = 8 then
      ∃ v, Socket.u64Bytes v = m.payload ∧ o = .u64 (some v)
    else o = .u64 none
  | .recvStruct size, o =>
    if m.type.toNat = ctrlStruct ∧ m.payload.length = size then o = .struct (some m.payload)
    else o = .struct none

theorem RecvCall.returns_outcome (c : RecvCall) {m : CtrlMsg} (h : m.header.refused = false) :
    c.Returns m (c.outcome m) := by
  cases c with
  | recv => simp [Returns, outcome, h]
  | recvInt =>
    simp only [Returns, outcome, CtrlMsg.payloadAs, h, true_and]
    split_ifs with hm
    · exact ⟨_, Socket.intBytes_ofNat hm.2, rfl⟩
    · rfl
  | recvU64 =>
    simp only [Returns, outcome, CtrlMsg.payloadAs, h, true_and]
    split_ifs with hm
    · exact ⟨_, Socket.u64Bytes_ofNat hm.2, rfl⟩
    · rfl
  | recvStruct size =>
    simp only [Returns, outcome, CtrlMsg.payloadAs, h, true_and]
    split_ifs <;> rfl

/-- **The round trip.** However the socket cuts the writes and the reads, every run ends with each
call having returned its message and all messages up to the last call read. A typed call returns the
value of a message of its type and size, and fails on any other, which it has nevertheless read to
its end. -/
theorem Connection.received_of_sent (selfId : UInt32) (side : Side) {sends : List SendCall}
    {calls : List RecvCall} (hlen : calls.length ≤ sends.length)
    (hhello : ∀ c ∈ sends, c.msg.header.refused = false) :
    ∃ st os, Settles (Net.step ports) (opened selfId.toNat (transfer side sends calls)) st ∧
      st.prog side = .ret (some (sends.map fun _ => .sent true)) ∧
      st.prog side.other = .ret (some os) ∧ os.length = calls.length ∧
      (∀ (k : ℕ) (c : RecvCall) (s : SendCall) (o : Outcome), calls[k]? = some c →
        sends[k]? = some s → os[k]? = some o → c.Returns s.msg o) ∧
      st.read side.other = greeting selfId.toNat side.other ++
        frames ((sends.map (·.msg)).take calls.length) := by
  have htaken : ∀ m ∈ sends.map (·.msg), m.taken = m.frame.length :=
    List.forall_mem_map.mpr fun c hc => by simp [CtrlMsg.taken, hhello c hc]
  obtain ⟨st, hst, hs, ho, hread⟩ := exists_settles_transfer selfId side sends calls hlen
    fun m hm => htaken m (List.mem_of_mem_take hm)
  refine ⟨st, _, hst, hs, ho, by simp [hlen], fun k c s o hc hm hk => ?_, ?_⟩
  · simp only [List.getElem?_zipWith, hc, hm] at hk
    obtain rfl := Option.some.inj hk
    exact c.returns_outcome (hhello s (List.mem_of_getElem? hm))
  · rw [hread, take_taken fun m hm => htaken m (List.mem_of_mem_take hm)]

/-- An `int` arrives as it was sent. -/
theorem Connection.received_of_sent_int : ∃ st, Settles (Net.step ports)
    (opened (3 : UInt32).toNat (transfer .a [.sendInt 7] [.recvInt])) st ∧
      st.prog .b = .ret (some [.int (some 7)]) := by
  have hlen : [RecvCall.recvInt].length ≤ [SendCall.sendInt 7].length := by decide
  obtain ⟨st, os, hst, -, hret, hlen, hall, -⟩ := received_of_sent 3 .a hlen (by decide)
  obtain ⟨o, rfl⟩ := List.length_eq_one_iff.mp hlen
  obtain ⟨v, hv, rfl⟩ := hall 0 .recvInt (.sendInt 7) o rfl rfl rfl
  obtain rfl := Socket.intBytes_injective hv
  exact ⟨st, hst, hret⟩

/-! ### Refused messages -/

/-- Nothing is left of a message after the call that has refused it. -/
def CtrlMsg.Clean (m : CtrlMsg) : Prop := m.header.refused = true → m.payload = []

instance (m : CtrlMsg) : Decidable m.Clean := inferInstanceAs (Decidable (_ → _))

theorem CtrlMsg.taken_of_clean {m : CtrlMsg} (h : m.Clean) : m.taken = m.frame.length := by
  cases hre : m.header.refused with
  | false => simp [taken, hre]
  | true => simp [taken, hre, h hre]

/-- A message that is not clean fails, and its payload stays in the stream. -/
theorem CtrlMsg.of_not_clean {m : CtrlMsg} (h : ¬ m.Clean) :
    m.taken < m.frame.length ∧ ∀ c : RecvCall, (c.outcome m).failed = true := by
  obtain ⟨hre, hpayload⟩ := Classical.not_imp.mp h
  have hlen := List.length_pos_iff.mpr hpayload
  refine ⟨by simp [taken, hre, hlen], fun c => ?_⟩
  cases c <;> simp [RecvCall.outcome, payloadAs, hre, Outcome.failed]

/-- If the last call has failed, the next byte is the first one of the next message. -/
def Connection.AlignedAfter (selfId : UInt32) (side : Side) (sends : List SendCall)
    (calls : List RecvCall) : Prop :=
  ∀ st, Reach (Net.step ports) Free (opened selfId.toNat (transfer side sends calls)) st →
    ∀ os o, st.prog side.other = .ret (some os) → os.getLast? = some o → o.failed = true →
      st.read side.other = greeting selfId.toNat side.other ++
        frames ((sends.map (·.msg)).take calls.length)

/-- The call that gets a message which is not clean leaves the stream inside it. -/
theorem Connection.clean_of_aligned {selfId : UInt32} {side : Side} {sends : List SendCall}
    (calls : List RecvCall) {n : ℕ} {s : SendCall} (hn : n < calls.length)
    (hs : sends[n]? = some s) (hbefore : ∀ c ∈ sends.take n, c.msg.Clean)
    (haligned : AlignedAfter selfId side sends (calls.take (n + 1))) : s.msg.Clean := by
  by_contra hclean
  obtain ⟨htaken, hfails⟩ := CtrlMsg.of_not_clean hclean
  obtain ⟨hlt, rfl⟩ := List.getElem?_eq_some_iff.mp hs
  have hlen : (calls.take (n + 1)).length = n + 1 := List.length_take_of_le hn
  have hbefore' : ∀ m ∈ (sends.map (·.msg)).take n, m.taken = m.frame.length := by
    rw [← List.map_take]
    exact List.forall_mem_map.mpr fun c hc => CtrlMsg.taken_of_clean (hbefore c hc)
  obtain ⟨f, hf, -, hprog, hread⟩ := exists_settles_transfer selfId side sends
    (calls.take (n + 1)) (by omega) (by rwa [hlen, Nat.add_sub_cancel])
  rw [hlen] at hread
  have hlast : (List.zipWith (fun c s => c.outcome s.msg) (calls.take (n + 1)) sends).getLast? =
      some (calls[n].outcome sends[n].msg) := by
    have hmin : min (n + 1) sends.length = n + 1 := Nat.min_eq_left hlt
    rw [List.getLast?_eq_getElem?, List.length_zipWith, hlen, hmin, Nat.add_sub_cancel,
      List.getElem?_zipWith, List.getElem?_take_of_lt (Nat.lt_succ_self n),
      List.getElem?_eq_getElem hn, hs]
  have heq := hread.symm.trans (haligned f (hf.leads _ .refl) _ _ hprog hlast (hfails _))
  -- compare the lengths
  rw [hlen] at heq
  have hcount := congrArg List.length (List.append_cancel_left heq)
  have hbound : ((frames (sends.map (·.msg))).take
      (((sends.map (·.msg)).take (n + 1)).map (·.taken)).sum).length ≤
      (((sends.map (·.msg)).take (n + 1)).map (·.taken)).sum := List.length_take_le _ _
  have hlast : (sends.map (·.msg)).take (n + 1) =
      (sends.map (·.msg)).take n ++ [sends[n].msg] := by
    rw [List.take_succ_eq_append_getElem (by rwa [List.length_map]), List.getElem_map]
  rw [hcount, hlast, length_frames, List.map_append, List.map_append, List.sum_append,
    List.sum_append, sum_taken hbefore', length_frames] at hbound
  simp only [List.map_cons, List.map_nil, List.sum_cons, List.sum_nil] at hbound
  omega

/-- The payload of a refused message is read as a header. -/
theorem Connection.misaligned_after_refused :
    ¬ AlignedAfter 3 .a [.send ⟨2, 0x8000, [1], by decide⟩, .sendInt 7] [.recv] := fun h =>
  absurd (clean_of_aligned [.recv] (n := 0) (by decide) rfl (by simp) h) (by decide)

/-- **Alignment.** The calls stay aligned exactly when no message that `recv` refuses has a
payload. A call that fails for another reason has read its whole message; the first call that gets a
refused message with a payload leaves the stream inside it (`clean_of_aligned`). -/
theorem Connection.aligned_iff (selfId : UInt32) (side : Side) (sends : List SendCall)
    (calls : List RecvCall) :
    (∀ n ≤ calls.length, n ≤ sends.length → AlignedAfter selfId side sends (calls.take n)) ↔
      ∀ c ∈ sends.take calls.length, c.msg.Clean := by
  constructor
  · intro haligned
    suffices hall : ∀ n ≤ calls.length, ∀ c ∈ sends.take n, c.msg.Clean from
      hall _ (Nat.le_refl _)
    intro n hn
    induction n with
    | zero => simp
    | succ n ih =>
      intro c hc
      obtain hlt | hge := Nat.lt_or_ge n sends.length
      · rw [List.take_succ_eq_append_getElem hlt, List.mem_append, List.mem_singleton] at hc
        obtain hc | rfl := hc
        · exact ih (by omega) c hc
        · exact clean_of_aligned calls hn (List.getElem?_eq_getElem hlt) (ih (by omega))
            (haligned (n + 1) hn hlt)
      · refine ih (by omega) c ?_
        rwa [List.take_of_length_le (by omega)] at hc ⊢
  · intro hclean n hn hn' st hst os o hret hlast hfailed
    have hlen : (calls.take n).length = n := List.length_take_of_le hn
    have htaken : ∀ m ∈ (sends.map (·.msg)).take n, m.taken = m.frame.length := by
      rw [← List.map_take]
      exact List.forall_mem_map.mpr fun c hc =>
        CtrlMsg.taken_of_clean (hclean c (List.take_subset_take_left sends hn hc))
    obtain ⟨f, hf, -, hprog, hread⟩ := exists_settles_transfer selfId side sends
      (calls.take n) (by omega) fun m hm => by
        rw [hlen] at hm
        exact htaken m (List.take_subset_take_left _ (Nat.sub_le n 1) hm)
    have hsame := (Net.read_of_ret ports_private (hf.leads st hst) hret).2
    rw [hlen, take_taken htaken] at hread
    rw [hlen]
    exact hsame.symm.trans hread

end HMC.Ctrl
