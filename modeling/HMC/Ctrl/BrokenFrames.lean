import HMC.Ctrl.Senders

/-!
# Broken frames

A call of `send` whose socket refuses a write returns false, wherever it has come to in its frame,
and the descriptor stays registered. The next call writes its frame behind the part that is there,
and the peer takes bytes of the one for the rest of the other (`completed_by_next`).

`genuine_of_unbroken` is about the runs in which nothing is written behind such a part: the peer
gets the messages that were written in full, in order and unaltered.

The invariant speaks of the two ends of the stream one by one. `Written` is the sender's: whole
frames, and behind them the start of one more, which is the message under way or the one that was
torn. `Reading` is the receiver's: some of the whole messages have been returned, and of the next
one the first bytes have been read. A write changes only the one, a read only the other, and they
meet where a call of `recv` returns (`Written.returned`).
-/

namespace HMC.Ctrl

open HMC.Machine

theorem CtrlMsg.frame_ne_nil (m : CtrlMsg) : m.frame ≠ [] := by
  rw [← List.length_pos_iff, m.length_frame, sizeofHeader]
  omega

/-- The arguments of `CtrlSocketManager::send`. A payload that is not null has `len` bytes. -/
structure SendArgs where
  type : UInt16
  flags : UInt16
  payload : Option (List UInt8)
  len : ℕ
  length_eq : ∀ bytes ∈ payload, bytes.length = len

namespace SendArgs

variable (a : SendArgs)

def program : Io UInt8 (List Outcome) :=
  (Socket.send a.type.toNat a.payload a.len a.flags.toNat).bind fun ok => .ret [.sent ok]

/-- The message as the peer is to receive it. -/
def delivered : CtrlMsgHeader × List UInt8 :=
  (⟨a.type.toNat, a.flags.toNat, a.len⟩, a.payload.getD [])

/-- The frame of the call is that of a message which `recv` reads to its end: there is a payload
if there is a length, the length fits into the header, and `recv` does not refuse the header of a
message with a payload. -/
def Plain : Prop :=
  (a.payload = none → a.len = 0) ∧ a.len < 2 ^ 32 ∧
    (CtrlMsgHeader.refused ⟨a.type.toNat, a.flags.toNat, a.len⟩ = true → a.len = 0)

instance : Decidable a.Plain := inferInstanceAs (Decidable (_ ∧ _ ∧ (_ → _)))

/-- The message that a call sends. -/
def Sends (m : CtrlMsg) : Prop := m.Clean ∧ a.delivered = (m.header, m.payload)

variable {a}

theorem Plain.exists_sends (h : a.Plain) : ∃ m, a.Sends m := by
  obtain ⟨hnull, hshort, hrefused⟩ := h
  have hlen : (a.payload.getD []).length = a.len := by
    cases hp : a.payload with
    | none => simp [hnull hp]
    | some bytes => simpa using a.length_eq bytes hp
  refine ⟨⟨a.type, a.flags, a.payload.getD [], by rwa [hlen]⟩, fun hr => ?_, ?_⟩
  · refine List.eq_nil_of_length_eq_zero (hlen.trans (hrefused ?_))
    rw [← hlen]
    exact hr
  · simp [delivered, CtrlMsg.header, hlen]

theorem Sends.program_eq {m : CtrlMsg} (h : a.Sends m) : a.program = sendCalls [.send m] := by
  have heq := h.2
  simp only [delivered, CtrlMsg.header, Prod.mk.injEq, CtrlMsgHeader.mk.injEq] at heq
  obtain ⟨⟨htype, hflags, hlen⟩, hpayload⟩ := heq
  have hcalls : sendCalls [.send m] =
      (Socket.send m.type.toNat (some m.payload) m.payload.length m.flags.toNat).bind
        fun ok => .ret [Outcome.sent ok] := rfl
  rw [hcalls, program, htype, hflags, hlen]
  cases hp : a.payload with
  | none =>
    rw [hp] at hpayload
    rw [← hpayload]
    rfl
  | some bytes =>
    rw [hp] at hpayload
    rw [← hpayload]
    rfl

end SendArgs

/-! ### The link -/

/-- One side sends and the other receives. `given` are the calls of `send` so far, `part` is what
the last one has written, `received` what `recv` has returned, and `torn` says that some call has
failed inside its frame. -/
structure SendLink where
  sender : Io UInt8 (List Outcome)
  receiver : Io UInt8 (Option (CtrlMsgHeader × List UInt8))
  given : List SendArgs
  part : List UInt8
  read : List UInt8
  wire : List UInt8
  received : List (CtrlMsgHeader × List UInt8)
  torn : Bool

/-- A call of `send` or `recv`, a socket call that moves `k` bytes, or one that refuses to. -/
inductive SendLinkAct
  | send (a : SendArgs)
  | write (k : ℕ)
  | fail
  | recv
  | read (k : ℕ)

namespace SendLink

variable (s : SendLink)

def start : SendLink where
  sender := .ret []
  receiver := .ret none
  given := []
  part := []
  read := []
  wire := []
  received := []
  torn := false

def step : SendLinkAct → Option SendLink
  | .send a =>
    if s.sender.returned.isSome then
      some { s with sender := a.program, given := s.given ++ [a], part := [] }
    else none
  | .write k => (s.sender.move ⟨[], false, false⟩ k).map fun e =>
    { s with sender := e.next, part := s.part ++ e.wrote, wire := s.wire ++ e.wrote }
  | .fail =>
    match s.sender with
    | .send (_ :: _) next => some { s with sender := next false, torn := s.torn || s.part != [] }
    | _ => none
  | .recv =>
    if s.receiver.returned.isSome then some { s with receiver := Socket.recv } else none
  | .read k => (s.receiver.move ⟨s.wire, false, false⟩ k).map fun e =>
    { s with
      receiver := e.next
      read := s.read ++ s.wire.take e.took
      wire := s.wire.drop e.took
      received := s.received ++ e.next.returned.join.toList }

/-- Nothing is written behind a part of a frame, and the frames are those of plain messages. -/
def Unbroken : SendLinkAct → Prop
  | .send a => a.Plain
  | .write k => 0 < k → s.torn = false
  | _ => True

instance (s : SendLink) : (a : SendLinkAct) → Decidable (s.Unbroken a)
  | .send a => inferInstanceAs (Decidable a.Plain)
  | .write _ => inferInstanceAs (Decidable (_ → _))
  | .fail | .recv | .read _ => .isTrue trivial

/-- What `recv` returns was given to `send`, and the stream consists of the frames of such messages
and at most one part of a frame, at its end. -/
structure Genuine : Prop where
  received : ∀ x ∈ s.received, ∃ a ∈ s.given, x = a.delivered
  unmixed : ∃ (whole : List CtrlMsg) (tail : List UInt8),
    (∀ m ∈ whole, ∃ a ∈ s.given, a.Sends m) ∧ s.read ++ s.wire = frames whole ++ tail ∧
      (tail = [] ∨ ∃ a ∈ s.given, ∃ m, a.Sends m ∧ tail <+: m.frame)

/-! ### The invariant -/

/-- Where the stream ends: the frames of `whole`, and of that of `next` all but `rest`. If nothing
is torn, this is the message that is under way. -/
structure Written (whole : List CtrlMsg) (tail rest : List UInt8) (next : CtrlMsg) : Prop where
  stream : s.read ++ s.wire = frames whole ++ tail
  given : ∀ m ∈ whole, ∃ a ∈ s.given, a.Sends m
  frame : tail ++ rest = next.frame
  unfinished : rest ≠ []
  clean : next.Clean
  begun : tail ≠ [] → ∃ a ∈ s.given, a.Sends next
  sender : s.sender.returned.isSome ∧ (s.torn = false → tail = []) ∨
    ∃ left, Senders.Sends left s.sender ∧ (s.torn = false →
      left = [] ∧ tail = [] ∨ tail = s.part ∧ left = rest ∧ ∃ a ∈ s.given, a.Sends next)

/-- The receiver has returned `n` messages, and read `got` of the next one. -/
structure Reading (whole : List CtrlMsg) (n : ℕ) (got : List UInt8) : Prop where
  le : n ≤ whole.length
  read : s.read = frames (whole.take n) ++ got
  received : s.received = ((whole.take n).filter (!·.header.refused)).map fun m =>
    (m.header, m.payload)
  receiver : s.receiver.returned.isSome ∧ got = [] ∨
    s.receiver.returned = none ∧ s.receiver.KeepsOpen ∧ ∀ more,
      (Socket.recv.run (got ++ s.wire ++ more)).map (fun o => (o.result, o.took)) =
        (s.receiver.run (s.wire ++ more)).map fun o => (o.result, got.length + o.took)

def Inv : Prop :=
  ∃ whole tail rest next n got, s.Written whole tail rest next ∧ s.Reading whole n got

variable {s} {s' : SendLink} {whole : List CtrlMsg} {tail rest got : List UInt8} {next : CtrlMsg}
  {n : ℕ}

theorem Inv.start : start.Inv := by
  have hshort : ([] : List UInt8).length < 2 ^ 32 := by decide
  refine ⟨[], [], (⟨1, 0, [], hshort⟩ : CtrlMsg).frame, ⟨1, 0, [], hshort⟩, 0, [], ?_, ?_⟩
  · exact
      { stream := rfl
        given := by simp
        frame := rfl
        unfinished := CtrlMsg.frame_ne_nil _
        clean := fun _ => rfl
        begun := by simp
        sender := .inl ⟨rfl, fun _ => rfl⟩ }
  · exact
      { le := Nat.le_refl _
        read := rfl
        received := rfl
        receiver := .inl ⟨rfl, rfl⟩ }

/-- Between two calls nothing is left of a frame, unless one is torn. -/
theorem Written.tail_eq_nil (h : s.Written whole tail rest next) (hidle : s.sender.returned.isSome)
    (htorn : s.torn = false) : tail = [] := by
  obtain ⟨-, hnil⟩ | ⟨left, hsends, hleft⟩ := h.sender
  · exact hnil htorn
  · obtain ⟨r, hr⟩ := Option.isSome_iff_exists.mp hidle
    rw [Io.returned_eq_some.mp hr] at hsends
    obtain ⟨-, hnil⟩ | ⟨-, hrest, -⟩ := hleft htorn
    · exact hnil
    · exact absurd (hrest.symm.trans hsends.of_ret.1) h.unfinished

/-- A call of `send`. -/
theorem Written.call (h : s.Written whole tail rest next) (hidle : s.sender.returned.isSome)
    {a : SendArgs} {m : CtrlMsg} (ha : a.Sends m) : ∃ rest' next',
      Written { s with sender := a.program, given := s.given ++ [a], part := [] } whole tail rest'
        next' := by
  have hgiven : ∀ {m : CtrlMsg}, (∃ b ∈ s.given, b.Sends m) → ∃ b ∈ s.given ++ [a], b.Sends m :=
    fun ⟨b, hb, hm⟩ => ⟨b, List.mem_append_left _ hb, hm⟩
  have hfresh : Senders.Sends m.frame a.program := by
    rw [ha.program_eq]
    exact .fresh (.send m)
  by_cases htorn : s.torn = true
  · refine ⟨rest, next, { h with
      given := fun m hm => hgiven (h.given m hm)
      begun := fun hne => hgiven (h.begun hne)
      sender := .inr ⟨_, hfresh, fun hf => ?_⟩ }⟩
    cases htorn.symm.trans hf
  · obtain rfl := h.tail_eq_nil hidle (by simpa using htorn)
    have hself : ∃ b ∈ s.given ++ [a], b.Sends m :=
      ⟨a, List.mem_append_right _ (List.mem_singleton.mpr rfl), ha⟩
    refine ⟨m.frame, m,
      { stream := h.stream
        given := fun m hm => hgiven (h.given m hm)
        frame := rfl
        unfinished := m.frame_ne_nil
        clean := ha.1
        begun := fun hne => absurd rfl hne
        sender := .inr ⟨_, hfresh, fun _ => .inr ⟨rfl, rfl, hself⟩⟩ }⟩

/-- A write, behind whole frames or behind a part of the same frame. -/
theorem Written.write (h : s.Written whole tail rest next) {k : ℕ}
    {e : Io.Effect UInt8 (List Outcome)} (hok : 0 < k → s.torn = false)
    (he : s.sender.move ⟨[], false, false⟩ k = some e) : ∃ whole' tail' rest' next',
      whole <+: whole' ∧ Written { s with
        sender := e.next
        part := s.part ++ e.wrote
        wire := s.wire ++ e.wrote } whole' tail' rest' next' := by
  obtain ⟨hidle, -⟩ | ⟨left, hsends, hleft⟩ := h.sender
  · obtain ⟨r, hr⟩ := Option.isSome_iff_exists.mp hidle
    rw [Io.returned_eq_some.mp hr] at he
    simp [Io.move, Io.atOnce] at he
  obtain ⟨left', rfl, hsends', -, -, hpos⟩ := hsends.move he rfl
  by_cases hwrote : e.wrote = []
  · refine ⟨whole, tail, rest, next, List.prefix_refl _, { h with
      stream := by simpa [hwrote] using h.stream
      sender := .inr ⟨left', hsends', fun htorn => ?_⟩ }⟩
    simpa [hwrote] using hleft htorn
  · have htorn := hok (hpos hwrote)
    obtain ⟨hnil, -⟩ | ⟨rfl, rfl, hnext⟩ := hleft htorn
    · exact absurd (List.append_eq_nil_iff.mp hnil).1 hwrote
    have hstream : s.read ++ (s.wire ++ e.wrote) = frames whole ++ (s.part ++ e.wrote) := by
      rw [← List.append_assoc, h.stream, List.append_assoc]
    by_cases hlast : left' = []
    · -- the frame is complete
      subst hlast
      have hframe : s.part ++ e.wrote = next.frame := by simpa using h.frame
      refine ⟨whole ++ [next], [], next.frame, next, List.prefix_append _ _,
        { stream := ?_
          given := fun m hm => ?_
          frame := rfl
          unfinished := next.frame_ne_nil
          clean := h.clean
          begun := fun hne => absurd rfl hne
          sender := .inr ⟨_, hsends', fun _ => .inl ⟨rfl, rfl⟩⟩ }⟩
      · rw [hstream, hframe, frames_append]
        simp [frames]
      · obtain hm | hm := List.mem_append.mp hm
        · exact h.given m hm
        · rwa [List.mem_singleton.mp hm]
    · refine ⟨whole, s.part ++ e.wrote, left', next, List.prefix_refl _, { h with
        stream := hstream
        frame := by rw [List.append_assoc, h.frame]
        unfinished := hlast
        begun := fun _ => hnext
        sender := .inr ⟨left', hsends', fun _ => .inr ⟨rfl, rfl, hnext⟩⟩ }⟩

/-- A write is refused; the frame is torn if a part of it is there. -/
theorem Written.fail (h : s.Written whole tail rest next) {b : UInt8} {bytes : List UInt8}
    {cont : Bool → Io UInt8 (List Outcome)} (hsender : s.sender = .send (b :: bytes) cont) :
    Written { s with sender := cont false, torn := s.torn || s.part != [] } whole tail rest
      next := by
  obtain ⟨hidle, -⟩ | ⟨left, hsends, hleft⟩ := h.sender
  · rw [hsender] at hidle
    cases hidle
  rw [hsender] at hsends
  obtain ⟨hret, left', hleft', -⟩ := hsends.of_send
  refine { h with sender := .inl ⟨by simp [hret, Io.returned], fun htorn => ?_⟩ }
  simp only [Bool.or_eq_false_iff, bne_eq_false_iff_eq] at htorn
  obtain ⟨-, hnil⟩ | ⟨htail, -, -⟩ := hleft htorn.1
  · exact hnil
  · exact htail.trans htorn.2

/-- A read takes bytes from the wire only. -/
theorem Written.read (h : s.Written whole tail rest next) {k : ℕ}
    {receiver : Io UInt8 (Option (CtrlMsgHeader × List UInt8))}
    {received : List (CtrlMsgHeader × List UInt8)} : Written { s with
      receiver := receiver
      read := s.read ++ s.wire.take k
      wire := s.wire.drop k
      received := received } whole tail rest next :=
  { h with stream := by rw [List.append_assoc, List.take_append_drop, h.stream] }

/-- What was read and what is on the wire, of the messages that were not returned. -/
theorem Reading.unreturned (h : s.Reading whole n got) (hw : s.Written whole tail rest next) :
    got ++ s.wire = frames (whole.drop n) ++ tail := by
  have hstream := hw.stream
  have hsplit : frames whole = frames (whole.take n) ++ frames (whole.drop n) := by
    rw [← frames_append, List.take_append_drop]
  rwa [h.read, hsplit, List.append_assoc, List.append_assoc, List.append_cancel_left_eq] at hstream

/-- A write reaches the receiver later. -/
theorem Reading.write (h : s.Reading whole n got) {whole' : List CtrlMsg} (hpre : whole <+: whole')
    {sender : Io UInt8 (List Outcome)} {part wrote : List UInt8} : Reading { s with
      sender := sender
      part := part
      wire := s.wire ++ wrote } whole' n got := by
  obtain ⟨ms, rfl⟩ := hpre
  have htake : (whole ++ ms).take n = whole.take n := List.take_append_of_le_length h.le
  refine
    { le := by simpa using Nat.le_add_right_of_le h.le
      read := by rw [htake, h.read]
      received := by rw [htake, h.received]
      receiver := h.receiver.imp_right fun ⟨hbusy, hopen, hrun⟩ =>
        ⟨hbusy, hopen, fun more => ?_⟩ }
  simpa using hrun (wrote ++ more)

/-- A call of `recv`. -/
theorem Reading.call (h : s.Reading whole n got) (hidle : s.receiver.returned.isSome) :
    Reading { s with receiver := Socket.recv } whole n [] := by
  obtain ⟨-, rfl⟩ | ⟨hbusy, -⟩ := h.receiver
  · refine { h with receiver := .inr ⟨rfl, Senders.keepsOpen_recv, fun more => ?_⟩ }
    simp
  · rw [hbusy] at hidle
    cases hidle

/-- A call of `recv` that returns has read one whole frame. -/
theorem Written.returned (hw : s.Written whole tail rest next) {wire : List UInt8}
    (hgot : got ++ wire = frames (whole.drop n) ++ tail)
    {r : Option (CtrlMsgHeader × List UInt8)}
    (hrun : ∀ more, (Socket.recv.run (got ++ wire ++ more)).map (fun o => (o.result, o.took)) =
      some (r, got.length)) :
    ∃ m, whole[n]? = some m ∧ got = m.frame ∧
      r = if m.header.refused then none else some (m.header, m.payload) := by
  have hclean : ∀ m ∈ whole.drop n ++ [next], m.Clean := fun m hm => by
    obtain hm | hm := List.mem_append.mp hm
    · obtain ⟨a, -, ha⟩ := hw.given m (List.mem_of_mem_drop hm)
      exact ha.1
    · rw [List.mem_singleton.mp hm]
      exact hw.clean
  -- let the last frame be completed
  have hmore := hrun rest
  have hall : got ++ wire ++ rest = frames (whole.drop n ++ [next]) := by
    rw [hgot, List.append_assoc, hw.frame, frames_append]
    simp [frames]
  have hfirst : ∀ m ms, whole.drop n ++ [next] = m :: ms → got.length = m.frame.length ∧
      r = if m.header.refused then none else some (m.header, m.payload) := fun m ms hms => by
    have hcons : frames (m :: ms) = m.frame ++ frames ms := by simp [frames]
    rw [hall, hms, hcons, Socket.run_recv] at hmore
    simp only [Option.map_some, Option.some.injEq, Prod.mk.injEq] at hmore
    rw [CtrlMsg.taken_of_clean (hclean m (by simp [hms]))] at hmore
    exact ⟨hmore.2.symm, hmore.1.symm⟩
  cases hdrop : whole.drop n with
  | nil =>
    -- the part of a frame is shorter than the frame
    have hlen := (hfirst next [] (by simp [hdrop])).1
    have hframe := congrArg List.length hw.frame
    have hpart := congrArg List.length hgot
    have hpos := List.length_pos_iff.mpr hw.unfinished
    simp only [hdrop, frames, List.map_nil, List.flatten_nil, List.nil_append,
      List.length_append] at hframe hpart
    omega
  | cons m ms =>
    obtain ⟨hlen, hr⟩ := hfirst m (ms ++ [next]) (by simp [hdrop])
    refine ⟨m, ?_, ?_, hr⟩
    · rw [← List.head?_drop, hdrop, List.head?_cons]
    · have htake := congrArg (List.take got.length) hgot
      rw [List.take_left' rfl, hdrop, hlen] at htake
      simpa [frames] using htake

/-- A read by a call of `recv`. -/
theorem Reading.readStep (h : s.Reading whole n got) (hw : s.Written whole tail rest next) {k : ℕ}
    {e : Io.Effect UInt8 (Option (CtrlMsgHeader × List UInt8))}
    (he : s.receiver.move ⟨s.wire, false, false⟩ k = some e) : ∃ n' got', Reading { s with
      receiver := e.next
      read := s.read ++ s.wire.take e.took
      wire := s.wire.drop e.took
      received := s.received ++ e.next.returned.join.toList } whole n' got' := by
  obtain ⟨hidle, -⟩ | ⟨-, hopen, hrun⟩ := h.receiver
  · obtain ⟨r, hr⟩ := Option.isSome_iff_exists.mp hidle
    rw [Io.returned_eq_some.mp hr] at he
    simp [Io.move, Io.atOnce] at he
  have hlen : e.took ≤ s.wire.length := Io.took_le_of_move he
  have hstep : ∀ more,
      (Socket.recv.run (got ++ s.wire.take e.took ++ s.wire.drop e.took ++ more)).map
        (fun o => (o.result, o.took)) =
      (e.next.run (s.wire.drop e.took ++ more)).map fun o =>
        (o.result, (got ++ s.wire.take e.took).length + o.took) := fun more => by
    rw [List.append_assoc got, List.take_append_drop, hrun,
      (Io.run_of_move he rfl rfl hopen more).2.2, Option.map_map]
    refine congrArg (Option.map · _) (funext fun o => ?_)
    simp only [Function.comp_apply, List.length_append, List.length_take, Prod.mk.injEq, true_and]
    omega
  have hread : s.read ++ s.wire.take e.took =
      frames (whole.take n) ++ (got ++ s.wire.take e.took) := by rw [h.read, List.append_assoc]
  cases hret : e.next.returned with
  | none =>
    exact ⟨n, got ++ s.wire.take e.took,
      { le := h.le
        read := hread
        received := by simp [h.received]
        receiver := .inr ⟨hret, (Io.run_of_move he rfl rfl hopen []).1, hstep⟩ }⟩
  | some r =>
    have hnext := Io.returned_eq_some.mp hret
    have hall : got ++ s.wire.take e.took ++ s.wire.drop e.took =
        frames (whole.drop n) ++ tail := by
      rw [List.append_assoc, List.take_append_drop, h.unreturned hw]
    obtain ⟨m, hm, hgot, hr⟩ := hw.returned (r := r) hall fun more => by
      rw [hstep, hnext]
      simp
    obtain ⟨hlt, hget⟩ := List.getElem?_eq_some_iff.mp hm
    have htake : whole.take (n + 1) = whole.take n ++ [m] := by
      rw [List.take_succ_eq_append_getElem hlt, hget]
    refine ⟨n + 1, [],
      { le := hlt
        read := ?_
        received := ?_
        receiver := .inl ⟨by simp [hret], rfl⟩ }⟩
    · dsimp only
      rw [htake, frames_append, h.read, List.append_assoc, hgot]
      simp [frames]
    · dsimp only
      rw [htake, List.filter_append, List.map_append, h.received, hr]
      cases hrefused : m.header.refused with
      | true => simp [hrefused]
      | false => simp [hrefused]

/-- **One step** keeps the invariant. The condition is used where a call begins to write. -/
theorem Inv.step (h : s.Inv) {a : SendLinkAct} (hok : s.Unbroken a) (hst : s.step a = some s') :
    s'.Inv := by
  obtain ⟨whole, tail, rest, next, n, got, hw, hr⟩ := h
  cases a with
  | send a =>
    simp only [SendLink.step] at hst
    split_ifs at hst with hidle
    obtain rfl := Option.some.inj hst
    obtain ⟨m, hm⟩ := SendArgs.Plain.exists_sends hok
    obtain ⟨rest', next', hw'⟩ := hw.call hidle hm
    exact ⟨whole, tail, rest', next', n, got, hw', { hr with }⟩
  | write k =>
    obtain ⟨e, he, rfl⟩ := Option.map_eq_some_iff.mp hst
    obtain ⟨whole', tail', rest', next', hpre, hw'⟩ := hw.write hok he
    exact ⟨whole', tail', rest', next', n, got, hw', hr.write hpre⟩
  | fail =>
    simp only [SendLink.step] at hst
    split at hst
    · rename_i b bytes cont hsender
      obtain rfl := Option.some.inj hst
      exact ⟨whole, tail, rest, next, n, got, hw.fail hsender, { hr with }⟩
    · cases hst
  | recv =>
    simp only [SendLink.step] at hst
    split_ifs at hst with hidle
    obtain rfl := Option.some.inj hst
    exact ⟨whole, tail, rest, next, n, [], { hw with }, hr.call hidle⟩
  | read k =>
    obtain ⟨e, he, rfl⟩ := Option.map_eq_some_iff.mp hst
    obtain ⟨n', got', hr'⟩ := hr.readStep hw he
    exact ⟨whole, tail, rest, next, n', got', hw.read, hr'⟩

theorem Inv.genuine (h : s.Inv) : s.Genuine := by
  obtain ⟨whole, tail, rest, next, n, got, hw, hr⟩ := h
  refine ⟨fun x hx => ?_, whole, tail, hw.given, hw.stream, ?_⟩
  · rw [hr.received] at hx
    obtain ⟨m, hm, rfl⟩ := List.mem_map.mp hx
    obtain ⟨a, ha, hsends⟩ := hw.given m (List.mem_of_mem_take (List.mem_filter.mp hm).1)
    exact ⟨a, ha, hsends.2.symm⟩
  · by_cases htail : tail = []
    · exact .inl htail
    · obtain ⟨a, ha, hsends⟩ := hw.begun htail
      exact .inr ⟨a, ha, next, hsends, rest, hw.frame⟩

/-- **No message is forged** in a run in which nothing is written behind a part of a frame. What
`recv` returns was given to `send`, however the socket cuts the writes and the reads and whichever
of them it refuses; a refused write before the first byte of a frame does no harm. -/
theorem genuine_of_unbroken (h : Reach step Unbroken start s) : s.Genuine :=
  (h.invariant Inv.start fun _ _ _ _ hI hok hst => hI.step hok hst).genuine

/-- The call `sendInt(v)`, for a small `v`. -/
def intArgs (v : UInt8) : SendArgs := ⟨1, 0, some [v, 0, 0, 0], 4, by simp⟩

/-- A send that fails before its first byte, one that goes through, and one that fails inside its
frame. -/
def failedLast : List SendLinkAct :=
  [.send (intArgs 5), .fail, .recv, .send (intArgs 6), .write 8, .write 0, .read 3, .write 4,
    .write 0, .send (intArgs 7), .write 2, .fail, .read 5, .read 0, .read 4, .read 0]

theorem genuine_of_unbroken_failedLast : ∃ s, Reach step Unbroken start s ∧ s.torn = true ∧
    s.received = [(⟨1, 0, 4⟩, [6, 0, 0, 0])] ∧ s.Genuine := by
  obtain ⟨s, hs, htorn, hreceived⟩ : ∃ s, Reach step Unbroken start s ∧
      (s.torn = true ∧ s.received = [(⟨1, 0, 4⟩, [6, 0, 0, 0])]) :=
    exists_reach_of_execOk failedLast (by decide +kernel)
  exact ⟨s, hs, htorn, hreceived, genuine_of_unbroken hs⟩

/-- The payload of the first message is refused, and the second message is sent. -/
def sentOn : List SendLinkAct :=
  [.send (intArgs 5), .write 8, .write 0, .fail, .send (intArgs 6), .write 8, .write 0, .write 4,
    .write 0, .recv, .read 8, .read 0, .read 4, .read 0]

/-- **A broken frame is completed by the next one.** The peer gets the header of the first message
with a payload that nobody has sent. -/
theorem completed_by_next : ∃ s, Reach step Free start s ∧ (∀ a ∈ s.given, a.Plain) ∧
    s.received = [(⟨1, 0, 4⟩, [1, 0, 0, 0])] ∧ ¬ s.Genuine := by
  obtain ⟨s, hs, hplain, hreceived, hforged⟩ : ∃ s, Reach step Free start s ∧
      ((∀ a ∈ s.given, a.Plain) ∧ s.received = [(⟨1, 0, 4⟩, [1, 0, 0, 0])] ∧
        ∀ a ∈ s.given, a.delivered ≠ (⟨1, 0, 4⟩, [1, 0, 0, 0])) :=
    exists_reach_of_exec sentOn (by decide +kernel)
  refine ⟨s, hs, hplain, hreceived, fun h => ?_⟩
  obtain ⟨a, ha, heq⟩ := h.received _ (by rw [hreceived]; exact List.mem_singleton.mpr rfl)
  exact hforged a ha heq.symm

end SendLink

end HMC.Ctrl
