import HMC.Ctrl.Frame

/-!
# The exchange of P2P handles

Two ranks call `connectP2p` towards each other: each exports a handle of its own buffer, sends it
over the control link, receives the peer's, and imports what it has received. The rank with the
smaller id sends first. Neither `sendStruct` nor `recvStruct` is checked: when the receive fails,
zeros are imported, and when the link still holds another message, the receive takes that one.

`mapsPeer_iff` says that in calls whose receives do not fail, on a link that no other thread uses
meanwhile, each side maps the handle of its peer exactly when nothing was queued on the link.

On an empty link, what is on its way to a side is the start of the message of its peer, of which it
is the only reader (`PartyInv`); a receive that is content with it has read the whole of it. With a
message already there, the side takes that one first and makes of it what `stale` says. This does
not depend on the handle of the peer, so some handle differs from it (`exists_handle_ne`).
-/

namespace HMC.Comm

open HMC.Machine HMC.Ctrl

/-- `P2P_HANDLE_SIZE`. -/
def p2pHandleSize : ℕ := 64

/-- What `exportHandle` writes. -/
structure Handle where
  bytes : List UInt8
  length_eq : bytes.length = p2pHandleSize

/-- The calls of the two sides: each one's `self_id`, which is the other one's `peer_id`, and the
handle that it exports. -/
structure P2pCalls where
  selfId : Side → ℕ
  handle : Side → Handle

/-- Before the export of the local handle, before the two halves of the exchange, before the import,
or at the end. -/
inductive P2pPc
  | exportHandle
  | sendStruct
  | recvStruct
  | importHandle
  | done (ret : Status)
  deriving DecidableEq

/-- The two sides, and on the link to each of them the bytes that it has still to read. `imported`
is what was passed to `importHandle`. -/
structure P2pState where
  pc : Side → P2pPc
  wire : Side → List UInt8
  peerHandle : Side → List UInt8
  imported : Side → Option (List UInt8)

/-- `exportHandle` ends with the status of the transport's set-up. `sendStruct` gets `k` bytes of
its message out, and has failed if these are not all. `recvFails` is a receive that fails after `k`
bytes. With `others`, other threads take `k` bytes from the link to a side and add some. -/
inductive P2pAct
  | exportHandle (side : Side) (ret : Status)
  | sendStruct (side : Side) (k : ℕ)
  | recvStruct (side : Side)
  | recvFails (side : Side) (k : ℕ)
  | importHandle (side : Side) (ret : Status)
  | others (side : Side) (k : ℕ) (bytes : List UInt8)

def P2pState.goto (s : P2pState) (side : Side) (pc : P2pPc) : P2pState :=
  { s with pc := Function.update s.pc side pc }

namespace P2pState

variable {s : P2pState} {side : Side} {pc : P2pPc}

@[simp] theorem goto_pc_self : (s.goto side pc).pc side = pc := Function.update_self _ _ _

@[simp] theorem goto_pc_other : (s.goto side pc).pc side.other = s.pc side.other :=
  Function.update_of_ne side.other_ne _ _

end P2pState

def P2pState.start (queued : Side → List UInt8) : P2pState where
  pc _ := .exportHandle
  wire := queued
  peerHandle _ := List.replicate p2pHandleSize 0
  imported _ := none

/-- The side has still to receive. -/
def P2pPc.Awaits (first : Bool) : P2pPc → Prop
  | .exportHandle | .recvStruct => True
  | .sendStruct => first = true
  | _ => False

/-- The side has received. -/
def P2pPc.Heard (first : Bool) : P2pPc → Prop
  | .importHandle => True
  | .sendStruct => first = false
  | _ => False

/-- The side has still to send. -/
def P2pPc.Unsent (first : Bool) : P2pPc → Prop
  | .exportHandle | .sendStruct => True
  | .recvStruct => first = false
  | _ => False

namespace P2pCalls

variable (c : P2pCalls)

/-- `self_id < peer_id`. -/
def sendsFirst (side : Side) : Bool := c.selfId side < c.selfId side.other

def afterExport (side : Side) : P2pPc := if c.sendsFirst side then .sendStruct else .recvStruct

def afterSend (side : Side) : P2pPc := if c.sendsFirst side then .recvStruct else .importHandle

def afterRecv (side : Side) : P2pPc := if c.sendsFirst side then .importHandle else .sendStruct

/-- The message that `sendStruct` writes. -/
def msg (side : Side) : CtrlMsg :=
  SendCall.msg (.sendStruct (c.handle side).bytes (by rw [(c.handle side).length_eq]; decide))

/-- `Communicator::connectP2p` of the two sides. The results of `sendStruct` and `recvStruct` are
ignored, and `peer_handle` stays as it is if nothing has been received. -/
def step (s : P2pState) : P2pAct → Option P2pState
  | .exportHandle side ret =>
    if s.pc side = .exportHandle then
      some (s.goto side (if ret = .success then c.afterExport side else .done ret))
    else none
  | .sendStruct side k =>
    if s.pc side = .sendStruct then
      some { s.goto side (c.afterSend side) with
        wire := Function.update s.wire side.other (s.wire side.other ++ (c.msg side).frame.take k) }
    else none
  | .recvStruct side =>
    if s.pc side = .recvStruct then
      ((Socket.recvStruct p2pHandleSize).run (s.wire side)).map fun o =>
        { s.goto side (c.afterRecv side) with
          wire := Function.update s.wire side ((s.wire side).drop o.took)
          peerHandle :=
            Function.update s.peerHandle side (o.result.getD (s.peerHandle side)) }
    else none
  | .recvFails side k =>
    if s.pc side = .recvStruct then
      some { s.goto side (c.afterRecv side) with
        wire := Function.update s.wire side ((s.wire side).drop k) }
    else none
  | .importHandle side ret =>
    if s.pc side = .importHandle then
      some { s.goto side (.done ret) with
        imported := Function.update s.imported side (some (s.peerHandle side)) }
    else none
  | .others side k bytes =>
    some { s with wire := Function.update s.wire side ((s.wire side).drop k ++ bytes) }

/-- The claim: a side that has returned `SUCCESS` has imported the handle of its peer. -/
def MapsPeer (s : P2pState) : Prop :=
  ∀ side, s.pc side = .done .success → s.imported side = some (c.handle side.other).bytes

/-- No receive fails, and no other thread uses the link. -/
def Undisturbed : P2pState → P2pAct → Prop
  | _, .recvFails .. | _, .others .. => False
  | _, _ => True

/-! ### What is on the link -/

variable {c} {s s' : P2pState} {x side : Side}

/-- A receive that is content with the start of the peer's message has read the whole of it, and its
result is the peer's handle. -/
theorem recvStruct_of_msg {k : ℕ} {o : Io.Ran UInt8 (Option (List UInt8))}
    (h : (Socket.recvStruct p2pHandleSize).run ((c.msg side).frame.take k) = some o) :
    o.result = some (c.handle side).bytes ∧ (c.msg side).frame.take k ≠ [] := by
  -- what follows the part that was read does not change the result
  have hwhole := Io.run_append h ((c.msg side).frame.drop k)
  have hmsg := Socket.run_recvAs ctrlStruct p2pHandleSize (c.msg side) []
  rw [List.append_nil] at hmsg
  rw [List.take_append_drop] at hwhole
  obtain rfl := Option.some.inj (hwhole.symm.trans hmsg)
  have hrefused : (c.msg side).header.refused = false := by
    simp [msg, SendCall.msg, CtrlMsg.header, CtrlMsgHeader.refused]
  refine ⟨?_, fun hnil => ?_⟩
  · exact if_pos ⟨hrefused, rfl, (c.handle side).length_eq⟩
  · -- a whole frame was taken, and a frame has a header
    have htook := Io.took_le_of_run h
    rw [hnil] at htook
    rw [CtrlMsg.taken, hrefused, if_neg (by decide), CtrlMsg.length_frame] at htook
    exact absurd htook (by simp [sizeofHeader])

/-! ### The invariant -/

/-- One side of an undisturbed exchange: before its peer has sent nothing is on its way to it, then
the start of the peer's message. -/
structure PartyInv (c : P2pCalls) (s : P2pState) (x : Side) : Prop where
  silent : (s.pc x.other).Unsent (c.sendsFirst x.other) → s.wire x = []
  wire : (s.pc x).Awaits (c.sendsFirst x) → ∃ k, s.wire x = (c.msg x.other).frame.take k
  heard : (s.pc x).Heard (c.sendsFirst x) → s.peerHandle x = (c.handle x.other).bytes
  mapped : s.pc x = .done .success → s.imported x = some (c.handle x.other).bytes

theorem PartyInv.initial : PartyInv c (.start fun _ => []) x where
  silent _ := rfl
  wire _ := ⟨0, rfl⟩
  heard h := h.elim
  mapped h := by cases h

/-- A side moves on, and neither the link to it nor what it holds has changed. -/
theorem PartyInv.goto (h : PartyInv c s side) {pc : P2pPc}
    (hpc : s'.pc side = pc) (hother : s'.pc side.other = s.pc side.other)
    (hwire : s'.wire side = s.wire side) (hhandle : s'.peerHandle side = s.peerHandle side)
    (hawaits : pc.Awaits (c.sendsFirst side) → (s.pc side).Awaits (c.sendsFirst side))
    (hheard : pc.Heard (c.sendsFirst side) → (s.pc side).Heard (c.sendsFirst side))
    (hdone : pc ≠ .done .success) : PartyInv c s' side where
  silent hu := by
    rw [hwire]
    exact h.silent (hother ▸ hu)
  wire ha := by
    rw [hwire]
    exact h.wire (hawaits (hpc ▸ ha))
  heard hd := by
    rw [hhandle]
    exact h.heard (hheard (hpc ▸ hd))
  mapped hd := absurd (hpc.symm.trans hd) hdone

/-- The peer of a side moves on, without a message to it. -/
theorem PartyInv.peer (h : PartyInv c s side.other) (hpc : s'.pc side.other = s.pc side.other)
    (hwire : s'.wire side.other = s.wire side.other)
    (hhandle : s'.peerHandle side.other = s.peerHandle side.other)
    (himported : s'.imported side.other = s.imported side.other)
    (hunsent : (s'.pc side).Unsent (c.sendsFirst side) →
      (s.pc side).Unsent (c.sendsFirst side)) : PartyInv c s' side.other where
  silent hu := by
    rw [hwire]
    refine h.silent ?_
    rw [Side.other_other] at hu ⊢
    exact hunsent hu
  wire ha := by
    rw [hwire]
    exact h.wire (hpc ▸ ha)
  heard hd := by
    rw [hhandle]
    exact h.heard (hpc ▸ hd)
  mapped hd := by
    rw [himported]
    exact h.mapped (hpc ▸ hd)

section Step

variable {k : ℕ} {ret : Status} (h : ∀ x, PartyInv c s x)

include h

theorem PartyInv.step_export (hs : c.step s (.exportHandle side ret) = some s') :
    PartyInv c s' x := by
  simp only [step, Option.ite_none_right_eq_some] at hs
  obtain ⟨hpc, hs⟩ := hs
  obtain rfl := Option.some.inj hs
  obtain rfl | hne := eq_or_ne x side
  · refine (h x).goto P2pState.goto_pc_self P2pState.goto_pc_other rfl rfl ?_ ?_ ?_
    · intro _
      rw [hpc]
      trivial
    · split_ifs
      · unfold afterExport
        cases c.sendsFirst x <;> exact fun hd => absurd hd (by simp [P2pPc.Heard])
      · exact fun hd => hd.elim
    · split_ifs with hret
      · unfold afterExport
        split_ifs <;> simp
      · simpa using hret
  · obtain rfl := Side.eq_other_of_ne hne
    refine (h side.other).peer P2pState.goto_pc_other rfl rfl rfl fun _ => ?_
    rw [hpc]
    trivial

theorem PartyInv.step_send (hs : c.step s (.sendStruct side k) = some s') : PartyInv c s' x := by
  simp only [step, Option.ite_none_right_eq_some] at hs
  obtain ⟨hpc, hs⟩ := hs
  obtain rfl := Option.some.inj hs
  obtain rfl | hne := eq_or_ne x side
  · refine (h x).goto P2pState.goto_pc_self P2pState.goto_pc_other
      (Function.update_of_ne x.other_ne.symm _ _) rfl ?_ ?_ ?_
    · rw [hpc, afterSend]
      cases c.sendsFirst x <;> simp [P2pPc.Awaits]
    · rw [hpc, afterSend]
      cases c.sendsFirst x <;> simp [P2pPc.Heard]
    · rw [afterSend]
      split_ifs <;> simp
  · obtain rfl := Side.eq_other_of_ne hne
    -- the link was silent, so the frame stands alone on it
    have hsilent : s.wire side.other = [] := by
      refine (h side.other).silent ?_
      rw [Side.other_other, hpc]
      trivial
    refine ⟨fun hu => ?_, fun _ => ⟨k, ?_⟩, fun hd => ?_, fun hd => ?_⟩
    · rw [Side.other_other] at hu
      refine absurd hu ?_
      dsimp only
      rw [P2pState.goto_pc_self, afterSend]
      cases c.sendsFirst side <;> simp [P2pPc.Unsent]
    · dsimp only
      rw [Function.update_self, hsilent, List.nil_append, Side.other_other]
    · exact (h side.other).heard (P2pState.goto_pc_other (s := s) ▸ hd)
    · exact (h side.other).mapped (P2pState.goto_pc_other (s := s) ▸ hd)

theorem PartyInv.step_recv (hs : c.step s (.recvStruct side) = some s') : PartyInv c s' x := by
  simp only [step, Option.ite_none_right_eq_some] at hs
  obtain ⟨hpc, hs⟩ := hs
  obtain ⟨o, hrun, rfl⟩ := Option.map_eq_some_iff.mp hs
  obtain rfl | hne := eq_or_ne x side
  · obtain ⟨k, hwire⟩ := (h x).wire (by rw [hpc]; trivial)
    rw [hwire] at hrun
    obtain ⟨hresult, hsent⟩ := recvStruct_of_msg hrun
    refine ⟨fun hu => ?_, fun ha => ?_, fun _ => ?_, fun hd => ?_⟩
    · -- a peer that has not sent has not been heard
      dsimp only at hu
      rw [P2pState.goto_pc_other] at hu
      exact absurd (hwire.symm.trans ((h x).silent hu)) hsent
    · -- a side receives once
      refine absurd ha ?_
      dsimp only
      rw [P2pState.goto_pc_self, afterRecv]
      cases c.sendsFirst x <;> simp [P2pPc.Awaits]
    · dsimp only
      rw [Function.update_self, hresult, Option.getD_some]
    · refine absurd hd ?_
      dsimp only
      rw [P2pState.goto_pc_self, afterRecv]
      split_ifs <;> simp
  · obtain rfl := Side.eq_other_of_ne hne
    refine (h side.other).peer P2pState.goto_pc_other (Function.update_of_ne side.other_ne _ _)
      (Function.update_of_ne side.other_ne _ _) rfl ?_
    dsimp only
    rw [P2pState.goto_pc_self, hpc, afterRecv]
    cases c.sendsFirst side <;> simp [P2pPc.Unsent]

theorem PartyInv.step_import (hs : c.step s (.importHandle side ret) = some s') :
    PartyInv c s' x := by
  simp only [step, Option.ite_none_right_eq_some] at hs
  obtain ⟨hpc, hs⟩ := hs
  obtain rfl := Option.some.inj hs
  obtain rfl | hne := eq_or_ne x side
  · refine ⟨fun hu => ?_, fun ha => ?_, fun hd => ?_, fun _ => ?_⟩
    · dsimp only at hu
      rw [P2pState.goto_pc_other] at hu
      exact (h x).silent hu
    · refine absurd ha ?_
      dsimp only
      rw [P2pState.goto_pc_self]
      exact id
    · refine absurd hd ?_
      dsimp only
      rw [P2pState.goto_pc_self]
      exact id
    · dsimp only
      rw [Function.update_self, (h x).heard (by rw [hpc]; trivial)]
  · obtain rfl := Side.eq_other_of_ne hne
    refine (h side.other).peer P2pState.goto_pc_other rfl rfl
      (Function.update_of_ne side.other_ne _ _) fun hu => ?_
    refine absurd hu ?_
    dsimp only
    rw [P2pState.goto_pc_self]
    exact id

end Step

theorem partyInv_of_reach (h : Reach c.step Undisturbed (.start fun _ => []) s) :
    ∀ x, PartyInv c s x := by
  refine h.invariant (I := fun s => ∀ x, PartyInv c s x) (fun _ => .initial)
    fun s a s' _ hI hok hs x => ?_
  cases a with
  | exportHandle side ret => exact .step_export hI hs
  | sendStruct side k => exact .step_send hI hs
  | recvStruct side => exact .step_recv hI hs
  | recvFails side k => exact hok.elim
  | importHandle side ret => exact .step_import hI hs
  | others side k bytes => exact hok.elim

/-! ### Stale messages -/

/-- What a side makes of the first message on the link to it. -/
def stale (ms : List CtrlMsg) : List UInt8 :=
  (ms.head?.bind fun m => m.payloadAs ctrlStruct p2pHandleSize).getD
    (List.replicate p2pHandleSize 0)

theorem exists_send (hpc : s.pc x = .sendStruct) : ∃ s', c.step s (.sendStruct x 0) = some s' ∧
    s'.pc x = c.afterSend x ∧ s'.wire x = s.wire x ∧ s'.peerHandle x = s.peerHandle x := by
  refine ⟨_, if_pos hpc, P2pState.goto_pc_self, ?_, rfl⟩
  exact Function.update_of_ne x.other_ne.symm _ _

theorem exists_recv {ms : List CtrlMsg} (hms : ms ≠ []) (hpc : s.pc x = .recvStruct)
    (hwire : s.wire x = frames ms) (hhandle : s.peerHandle x = List.replicate p2pHandleSize 0) :
    ∃ s', c.step s (.recvStruct x) = some s' ∧ s'.pc x = c.afterRecv x ∧
      s'.peerHandle x = stale ms := by
  obtain ⟨m, ms, rfl⟩ := List.exists_cons_of_ne_nil hms
  have hrun : (Socket.recvStruct p2pHandleSize).run (s.wire x) =
      some ⟨m.payloadAs ctrlStruct p2pHandleSize, [], m.taken⟩ := by
    rw [hwire]
    exact Socket.run_recvAs ctrlStruct p2pHandleSize m (frames ms)
  refine ⟨_, (if_pos hpc).trans (congrArg (Option.map _) hrun), P2pState.goto_pc_self, ?_⟩
  dsimp only
  rw [Function.update_self, hhandle]
  rfl

theorem exists_import (hpc : s.pc x = .importHandle) :
    ∃ s', c.step s (.importHandle x .success) = some s' ∧ s'.pc x = .done .success ∧
      s'.imported x = some (s.peerHandle x) :=
  ⟨_, if_pos hpc, P2pState.goto_pc_self, Function.update_self _ _ _⟩

/-- With a message on the link to it, a side comes to `SUCCESS` by itself, and has then imported
what it took from that message, or zeros. -/
theorem exists_success_of_stale (c : P2pCalls) {queued : Side → List CtrlMsg} {x : Side}
    (h : queued x ≠ []) : ∃ s,
      Reach c.step Undisturbed (.start fun side => frames (queued side)) s ∧
        s.pc x = .done .success ∧ s.imported x = some (stale (queued x)) := by
  have hexport : c.step (.start fun side => frames (queued side)) (.exportHandle x .success) =
      some ((P2pState.start fun side => frames (queued side)).goto x (c.afterExport x)) := rfl
  have hr₁ : Reach c.step Undisturbed _ _ :=
    .tail (a := P2pAct.exportHandle x .success) .refl trivial hexport
  cases hfirst : c.sendsFirst x with
  | true =>
    -- its own message leaves the link to it as it is
    obtain ⟨s₂, hs₂, hpc₂, hwire₂, hhandle₂⟩ := c.exists_send (x := x)
      (s := (P2pState.start fun side => frames (queued side)).goto x (c.afterExport x))
      (by rw [P2pState.goto_pc_self, afterExport, hfirst]; rfl)
    rw [afterSend, hfirst] at hpc₂
    obtain ⟨s₃, hs₃, hpc₃, hhandle₃⟩ := c.exists_recv h hpc₂ hwire₂ hhandle₂
    rw [afterRecv, hfirst] at hpc₃
    obtain ⟨s₄, hs₄, hpc₄, himported⟩ := c.exists_import hpc₃
    rw [hhandle₃] at himported
    have hr₂ := hr₁.tail (a := P2pAct.sendStruct x 0) trivial hs₂
    have hr₃ := hr₂.tail (a := P2pAct.recvStruct x) trivial hs₃
    exact ⟨s₄, hr₃.tail (a := P2pAct.importHandle x .success) trivial hs₄, hpc₄, himported⟩
  | false =>
    obtain ⟨s₂, hs₂, hpc₂, hhandle₂⟩ := c.exists_recv (x := x) h
      (s := (P2pState.start fun side => frames (queued side)).goto x (c.afterExport x))
      (by rw [P2pState.goto_pc_self, afterExport, hfirst]; rfl) rfl rfl
    rw [afterRecv, hfirst] at hpc₂
    obtain ⟨s₃, hs₃, hpc₃, -, hhandle₃⟩ := c.exists_send hpc₂
    rw [afterSend, hfirst] at hpc₃
    obtain ⟨s₄, hs₄, hpc₄, himported⟩ := c.exists_import hpc₃
    rw [hhandle₃, hhandle₂] at himported
    have hr₂ := hr₁.tail (a := P2pAct.recvStruct x) trivial hs₂
    have hr₃ := hr₂.tail (a := P2pAct.sendStruct x 0) trivial hs₃
    exact ⟨s₄, hr₃.tail (a := P2pAct.importHandle x .success) trivial hs₄, hpc₄, himported⟩

/-- There is a handle that differs from given bytes. -/
theorem exists_handle_ne (bytes : List UInt8) : ∃ handle : Handle, handle.bytes ≠ bytes := by
  by_cases h : bytes = List.replicate p2pHandleSize 0
  · refine ⟨⟨List.replicate p2pHandleSize 1, List.length_replicate⟩, fun heq => ?_⟩
    exact absurd (heq.trans h) (by decide)
  · exact ⟨⟨List.replicate p2pHandleSize 0, List.length_replicate⟩, Ne.symm h⟩

/-! ### The claim -/

/-- **When a side maps its peer's handle**: whatever the handles are, and however the two calls are
interleaved, exactly when no message was queued on the link. The invariant gives one direction; for
the other, a side with a message before it comes to `SUCCESS` by itself, with a handle that need not
be the peer's (`exists_success_of_stale`). -/
theorem mapsPeer_iff (selfId : Side → ℕ) (queued : Side → List CtrlMsg) :
    (∀ (handle : Side → Handle) (s : P2pState),
      Reach (P2pCalls.mk selfId handle).step Undisturbed
        (.start fun side => frames (queued side)) s → (P2pCalls.mk selfId handle).MapsPeer s) ↔
      ∀ side, queued side = [] := by
  constructor
  · intro h x
    by_contra hstale
    -- a peer with another handle than the one that is imported
    obtain ⟨handle, hne⟩ := exists_handle_ne (stale (queued x))
    obtain ⟨s, hr, hpc, himported⟩ :=
      exists_success_of_stale ⟨selfId, fun _ => handle⟩ hstale
    have hmaps := h (fun _ => handle) s hr x hpc
    rw [himported] at hmaps
    exact hne (Option.some.inj hmaps).symm
  · intro h handle s hr x hpc
    have hempty : (fun side => frames (queued side)) = fun _ => [] := by
      funext side
      rw [h side]
      rfl
    rw [hempty] at hr
    exact (partyInv_of_reach hr x).mapped hpc

/-- Two ranks. Rank 0 sends first. -/
def ranks : P2pCalls where
  selfId
    | .a => 0
    | .b => 1
  handle
    | .a => ⟨List.replicate p2pHandleSize 1, List.length_replicate⟩
    | .b => ⟨List.replicate p2pHandleSize 2, List.length_replicate⟩

/-- The tag `1` of an earlier collective. -/
def unreadTag : CtrlMsg := SendCall.msg (.sendInt 1)

/-- Both calls, without a failure. -/
def bothCalls : List P2pAct :=
  [.exportHandle .a .success, .exportHandle .b .success, .sendStruct .a 72, .recvStruct .b,
    .sendStruct .b 72, .recvStruct .a, .importHandle .a .success, .importHandle .b .success]

/-- **An unread tag.** Both calls return `SUCCESS`, and rank 0 has imported zeros: it has taken the
tag for the message of its peer. -/
theorem zeros_imported : ∃ s,
    exec ranks.step (.start fun side => if side = .a then unreadTag.frame else []) bothCalls =
      some s ∧
    (s.pc .a = .done .success ∧ s.pc .b = .done .success ∧
      s.imported .a = some (List.replicate p2pHandleSize 0)) ∧ ¬ ranks.MapsPeer s := by
  have hrun : (exec ranks.step (.start fun side => if side = .a then unreadTag.frame else [])
      bothCalls).any (fun s => decide (s.pc .a = .done .success ∧ s.pc .b = .done .success ∧
        s.imported .a = some (List.replicate p2pHandleSize 0))) = true := by decide +kernel
  obtain ⟨s, hs, hend⟩ := exists_of_any hrun
  refine ⟨s, hs, hend, fun h => ?_⟩
  have hmaps := h .a hend.1
  rw [hend.2.2] at hmaps
  exact absurd hmaps (by decide)

end P2pCalls

end HMC.Comm
