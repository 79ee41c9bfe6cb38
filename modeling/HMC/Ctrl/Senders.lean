import HMC.Ctrl.Connection
import HMC.Machine.Blocks
import Mathlib.Data.Fintype.Basic

/-!
# Several senders on one control connection

Any number of calls of `send` to one peer are under way, and the peer calls `recv`. A call writes
its header and its payload with a loop each and holds no lock meanwhile, so that the writes of two
calls can alternate: both calls return true, and the peer reads a header where a payload should be
(`headers_first`). The connection is documented as thread-safe.

`framed_of_exclusive` is what remains: while a call that has begun a frame completes it before
another call writes, the stream is a sequence of frames, one for each successful call, and the
peer receives these messages.

That whole frames follow each other is a fact about any number of writers who take turns (`Whole`):
`left` is what each has still to write, and behind the whole frames stands what the one inside its
frame has written. A call of `send` is one of these writers, whatever the socket accepts at a time
(`Sends`). The receiver is compared with one that has the whole stream before it (`received` of the
invariant), as it does not see how the bytes came.
-/

namespace HMC.Ctrl

open HMC.Machine

namespace Senders

variable {τ : Type} (calls : τ → SendCall) (n : ℕ)

/-- The senders write to the channel that the receiver reads. -/
def ports : Ports (Option τ) Bool where
  inp := Option.isNone
  out := Option.isSome
  ne i := by cases i <;> simp

/-- The threads: one for each call of `send`, and one that receives. -/
abbrev Shared (τ : Type) := Net (Option τ) Bool UInt8 (List Outcome)

def program : Option τ → Io UInt8 (List Outcome)
  | some t => sendCalls [calls t]
  | none => recvCalls (List.replicate n .recv)

def start : Shared τ where
  prog := program calls n
  read _ := []
  wire _ := []
  closed _ := false

/-- The socket moves `k` bytes for a thread, or refuses it a write. -/
inductive Act (τ : Type)
  | io (i : Option τ) (k : ℕ)
  /-- The socket refuses a write. -/
  | fail (t : τ)

def step [DecidableEq τ] (s : Shared τ) : Act τ → Option (Shared τ)
  | .io i k => Net.step ports s (i, k)
  | .fail t =>
    match s.prog (some t) with
    | .send (_ :: _) next => some { s with prog := Function.update s.prog (some t) (next false) }
    | _ => none

/-- The bytes of the message of a call. -/
def frame (t : τ) : List UInt8 := (calls t).msg.frame

/-- What a call has still to write. -/
def unsent (s : Shared τ) (t : τ) : List UInt8 :=
  (((s.prog (some t)).run []).map (·.out)).getD []

/-- A call writes only while no other call is inside its frame, and fails only outside of it. -/
def Exclusive (s : Shared τ) : Act τ → Prop
  | .io none _ => True
  | .io (some t) k => 0 < k → ∀ u, u ≠ t → ¬ Open (frame calls) (unsent s) u
  | .fail t => ¬ Open (frame calls) (unsent s) t

instance [Fintype τ] [DecidableEq τ] (s : Shared τ) (a : Act τ) : Decidable (Exclusive calls s a) :=
  match a with
  | .io none _ => .isTrue trivial
  | .io (some _) _ => inferInstanceAs (Decidable (_ → _))
  | .fail _ => inferInstanceAs (Decidable (¬ _))

/-- No call is under way. -/
def Quiet (s : Shared τ) : Prop :=
  ∀ t, s.prog (some t) = sendCalls [calls t] ∨ (s.prog (some t)).returned.isSome

/-- The stream consists of complete frames, one for each successful call, and these are the
messages that the peer receives. -/
def Framed [DecidableEq τ] (s : Shared τ) : Prop :=
  ∃ order : List τ, order.Nodup ∧
    (∀ t, t ∈ order ↔ (s.prog (some t)).returned = some [.sent true]) ∧
    s.sent true = frames (order.map fun t => (calls t).msg) ∧
    (n ≤ order.length → ∃ s', Reach step Free s s' ∧ (s'.prog none).returned.isSome) ∧
    ∀ os, (s.prog none).returned = some os → n ≤ order.length ∧
      os = (order.take n).map fun t => RecvCall.recv.outcome (calls t).msg

/-! ### One call of `send` -/

/-- The program still has the bytes `l` to write, and it returns false when a write is refused. -/
inductive Sends : List UInt8 → Io UInt8 (List Outcome) → Prop
  | done : Sends [] (.ret [.sent true])
  | send {bytes l : List UInt8} {next : Bool → Io UInt8 (List Outcome)} :
      next false = .ret [.sent false] → Sends l (next true) → Sends (bytes ++ l) (.send bytes next)

namespace Sends

variable {l : List UInt8} {p : Io UInt8 (List Outcome)}

theorem fresh (c : SendCall) : Sends c.msg.frame (sendCalls [c]) := by
  rw [Ctrl.sendCalls, c.program_eq, CtrlMsg.frame, Socket.send, wrap32_of_lt c.msg.short]
  refine .send rfl ?_
  by_cases hlen : 0 < c.msg.payload.length
  · have hpayload : Sends (c.msg.payload ++ []) (.send c.msg.payload fun ok => .ret [.sent ok]) :=
      .send rfl .done
    rw [List.append_nil] at hpayload
    simpa [hlen, Io.sendAll, Io.bind, Ctrl.sendCalls] using hpayload
  · have hnil : c.msg.payload = [] := List.eq_nil_of_length_eq_zero (by omega)
    simpa [hnil, Ctrl.sendCalls] using Sends.done

theorem run (h : Sends l p) (rest : List UInt8) : p.run rest = some ⟨[.sent true], l, 0⟩ := by
  induction h with
  | done => rfl
  | send _ _ ih => simp [Io.run, ih]

theorem of_ret {r : List Outcome} (h : Sends l (.ret r)) : l = [] ∧ r = [.sent true] := by
  cases h
  exact ⟨rfl, rfl⟩

theorem of_send {bytes : List UInt8} {next : Bool → Io UInt8 (List Outcome)}
    (h : Sends l (.send bytes next)) :
    next false = .ret [.sent false] ∧ ∃ l', l = bytes ++ l' ∧ Sends l' (next true) := by
  cases h with
  | @send bytes l' next hrefused hrest => exact ⟨hrefused, l', rfl, hrest⟩

/-- A call of the socket writes the first of the bytes. -/
theorem move (h : Sends l p) {v : Io.View UInt8} {k : ℕ} {e : Io.Effect UInt8 (List Outcome)}
    (hm : p.move v k = some e) (hshut : v.shut = false) :
    ∃ l', l = e.wrote ++ l' ∧ Sends l' e.next ∧ e.took = 0 ∧ e.closes = false ∧
      (e.wrote ≠ [] → 0 < k) := by
  cases h with
  | done => simp [Io.move, Io.atOnce] at hm
  | @send bytes l next hrefused hrest =>
    unfold Io.move at hm
    split_ifs at hm with hnow h0
    · obtain rfl := Option.some.inj hm
      have hnil : bytes = [] := by simpa [Io.atOnce, hshut] using hnow
      subst hnil
      exact ⟨l, rfl, hrest, rfl, rfl, fun h => absurd rfl h⟩
    · dsimp only at hm
      split_ifs at hm with hk
      obtain rfl := Option.some.inj hm
      refine ⟨bytes.drop k ++ l, ?_, .send hrefused hrest, rfl, rfl, fun _ => hk.1⟩
      rw [← List.append_assoc, List.take_append_drop]

theorem unique {l' : List UInt8} (h : Sends l p) (h' : Sends l' p) : l = l' := by
  have hrun := (h.run []).symm.trans (h'.run [])
  simpa using hrun

end Sends

/-! ### The receiver -/

theorem keepsOpen_recv : Socket.recv.KeepsOpen := by
  refine Io.KeepsOpen.bind (fun _ => trivial) fun r => ?_
  cases r with
  | none => trivial
  | some bytes =>
    dsimp only
    split_ifs
    · trivial
    · trivial
    · refine Io.KeepsOpen.bind (fun _ => trivial) fun r => ?_
      cases r with
      | none => trivial
      | some payload => trivial

theorem keepsOpen_program : (program calls n none).KeepsOpen := by
  show (recvCalls (List.replicate n .recv)).KeepsOpen
  induction n with
  | zero => trivial
  | succ n ih =>
    have hcall : (RecvCall.program .recv).KeepsOpen := keepsOpen_recv.bind fun _ => trivial
    exact hcall.bind fun _ => ih.bind fun _ => trivial

/-! ### The invariant -/

variable {calls n} {s s' : Shared τ}

variable (calls) in
/-- Where a call stands: it is under way, or it has failed without having written anything. -/
def Stands (left : τ → List UInt8) (s : Shared τ) (t : τ) : Prop :=
  Sends (left t) (s.prog (some t)) ∨
    s.prog (some t) = .ret [.sent false] ∧ left t = frame calls t

variable (calls n) in
/-- The stream consists of whole frames and a part of one, each call stands at the right place of
its own frame, and the receiver will return what it would if it had the whole stream before it. -/
structure Inv (s : Shared τ) : Prop where
  senders : ∃ left order part, Whole (frame calls) left order part (s.sent true) ∧
    ∀ t, Stands calls left s t
  opens : ∀ c, s.closed c = false
  keeps : (s.prog none).KeepsOpen
  received : ∀ more, ((program calls n none).run (s.sent true ++ more)).map
    (fun o => (o.result, o.took)) = ((s.prog none).run (s.wire true ++ more)).map fun o =>
      (o.result, (s.read true).length + o.took)

theorem length_frame_pos (t : τ) : 0 < (frame calls t).length := by
  rw [frame, CtrlMsg.length_frame, sizeofHeader]
  omega

theorem Inv.start : Inv calls n (start calls n) where
  senders := by
    refine ⟨frame calls, [], [], .start fun t => ?_, fun t => .inl (.fresh (calls t))⟩
    exact List.length_pos_iff.mp (length_frame_pos t)
  opens _ := rfl
  keeps := keepsOpen_program calls n
  received more := by simp [Senders.start, Net.sent]

theorem Stands.of_prog {left : τ → List UInt8} {t : τ} (h : Stands calls left s t)
    (hprog : s'.prog (some t) = s.prog (some t)) : Stands calls left s' t := by
  rwa [Stands, hprog]

/-- A call inside its frame is seen to be so. -/
theorem Stands.open_unsent {left : τ → List UInt8} {t : τ} (h : Stands calls left s t)
    (hopen : Open (frame calls) left t) : Open (frame calls) (unsent s) t := by
  obtain hsends | ⟨-, hleft⟩ := h
  · simpa [Open, unsent, hsends.run] using hopen
  · exact absurd hleft hopen.2

/-- Between the calls nobody is inside a frame. -/
theorem Stands.closed_of_quiet {left : τ → List UInt8} {t : τ} (h : Stands calls left s t)
    (hq : s.prog (some t) = sendCalls [calls t] ∨ (s.prog (some t)).returned.isSome) :
    ¬ Open (frame calls) left t ∧
      (left t = [] ↔ (s.prog (some t)).returned = some [.sent true]) := by
  have hpos : 0 < (frame calls t).length := length_frame_pos t
  obtain hsends | ⟨hret, hleft⟩ := h
  · obtain hfresh | hret := hq
    · rw [hfresh] at hsends ⊢
      have hleft : left t = frame calls t := hsends.unique (.fresh (calls t))
      refine ⟨fun hopen => hopen.2 hleft, fun hnil => ?_, fun hret => ?_⟩
      · rw [← hleft, hnil] at hpos
        exact absurd hpos (Nat.lt_irrefl 0)
      · rw [Io.returned_eq_some.mp hret] at hsends
        exact hsends.of_ret.1
    · obtain ⟨r, hr⟩ := Option.isSome_iff_exists.mp hret
      rw [Io.returned_eq_some.mp hr] at hsends ⊢
      obtain ⟨hleft, rfl⟩ := hsends.of_ret
      exact ⟨fun hopen => hopen.1 hleft, by simp [hleft, Io.returned]⟩
  · rw [hret]
    refine ⟨fun hopen => hopen.2 hleft, ?_⟩
    rw [hleft, ← List.length_eq_zero_iff]
    simp only [Io.returned, Option.some.injEq, List.cons.injEq, Outcome.sent.injEq, and_true,
      Bool.false_eq_true, iff_false]
    omega

private theorem zipWith_replicate_left {α β γ : Type} (f : α → β → γ) (a : α) (n : ℕ)
    (l : List β) : List.zipWith f (List.replicate n a) l = (l.take n).map (f a) := by
  induction n generalizing l with
  | zero => simp
  | succ n ih =>
    cases l with
    | nil => simp
    | cons b l => simp [List.replicate_succ, ih]

/-- What the receiver makes of a stream of frames that continues in any way. -/
theorem run_receiver {ms : List CtrlMsg} (hclean : ∀ m ∈ ms, m.Clean) (hn : n ≤ ms.length) :
    (program calls n none).run (frames ms) =
      some ⟨(ms.take n).map RecvCall.recv.outcome, [], (frames (ms.take n)).length⟩ := by
  have hlen : (List.replicate n RecvCall.recv).length = n := List.length_replicate
  have htaken : ∀ m ∈ ms, m.taken = m.frame.length := fun m hm =>
    CtrlMsg.taken_of_clean (hclean m hm)
  have hcalls : (List.replicate n RecvCall.recv).length ≤ ms.length := by rwa [hlen]
  have hrun := run_recvCalls hcalls fun m hm => htaken m (List.mem_of_mem_take hm)
  rw [hlen, zipWith_replicate_left,
    sum_taken fun m hm => htaken m (List.mem_of_mem_take hm)] at hrun
  exact hrun

/-- What the receiver returns, it has found. -/
theorem Inv.returned_eq (h : Inv calls n s) {ms : List CtrlMsg} {os : List Outcome}
    (hsent : s.sent true = frames ms) (hclean : ∀ m ∈ ms, m.Clean)
    (hos : (s.prog none).returned = some os) :
    n ≤ ms.length ∧ os = (ms.take n).map RecvCall.recv.outcome := by
  -- let the stream continue with empty messages
  have hshort : ([] : List UInt8).length < 2 ^ 32 := by decide
  have hall : ∀ m ∈ ms ++ List.replicate n ⟨1, 0, [], hshort⟩, m.Clean := fun m hm => by
    obtain hm | hm := List.mem_append.mp hm
    · exact hclean m hm
    · obtain rfl := List.eq_of_mem_replicate hm
      exact fun _ => rfl
  have hrest := h.received (frames (List.replicate n ⟨1, 0, [], hshort⟩))
  rw [hsent, ← frames_append, run_receiver hall (by simp), Io.returned_eq_some.mp hos] at hrest
  simp only [Io.run_ret, Option.map_some, Option.some.injEq, Prod.mk.injEq] at hrest
  obtain ⟨hos', hlen⟩ := hrest
  have hread : (s.read true).length ≤ (frames ms).length := by
    rw [← hsent, Net.sent, List.length_append]
    omega
  have hn : n ≤ ms.length := by
    by_contra hn
    have hle : ms.length ≤ n := by omega
    have hlast : 0 < (frames (List.replicate (n - ms.length) ⟨1, 0, [], hshort⟩)).length := by
      rw [length_frames, List.map_replicate, List.sum_replicate_nat, CtrlMsg.length_frame,
        sizeofHeader, List.length_nil]
      omega
    rw [List.take_append, List.take_of_length_le hle, List.take_replicate, frames_append,
      List.length_append, Nat.min_eq_left (Nat.sub_le _ _)] at hlen
    omega
  refine ⟨hn, ?_⟩
  rw [← hos', List.take_append_of_le_length hn]

variable [DecidableEq τ]

theorem Inv.send (h : Inv calls n s) {t : τ} {k : ℕ} {e : Io.Effect UInt8 (List Outcome)}
    (hexcl : 0 < k → ∀ u, u ≠ t → ¬ Open (frame calls) (unsent s) u)
    (he : (s.prog (some t)).move (s.view ports (some t)) k = some e) :
    Inv calls n (s.apply ports (some t) e) := by
  obtain ⟨left, order, part, hwhole, hstands⟩ := h.senders
  have hsends : Sends (left t) (s.prog (some t)) := by
    obtain hsends | ⟨hret, -⟩ := hstands t
    · exact hsends
    · rw [hret] at he
      simp [Io.move, Io.atOnce] at he
  obtain ⟨rest, hleft, hrest, htook, hcloses, hpos⟩ := hsends.move he (h.opens _)
  have hsent : (s.apply ports (some t) e).sent true = s.sent true ++ e.wrote := by
    simp [Net.sent, Net.apply, ports]
  have hstands' : ∀ u, Stands calls (Function.update left t rest)
      (s.apply ports (some t) e) u := fun u => by
    by_cases hu : u = t
    · subst hu
      exact .inl (by simpa [Function.update_self] using hrest)
    · have hu' : Stands calls left (s.apply ports (some t) e) u :=
        (hstands u).of_prog (Net.apply_prog_of_ne fun h => hu (Option.some.inj h))
      rwa [Stands, Function.update_of_ne hu]
  refine ⟨?_, fun c => by simp [Net.apply, h.opens c, hcloses], ?_, fun more => ?_⟩
  · rw [hsent]
    by_cases hwrote : e.wrote = []
    · refine ⟨left, order, part, by rwa [hwrote, List.append_nil], ?_⟩
      have hsame : Function.update left t rest = left := by
        rw [hwrote, List.nil_append] at hleft
        rw [← hleft, Function.update_eq_self]
      rwa [hsame] at hstands'
    · obtain ⟨order', part', hwhole'⟩ := hwhole.append hleft hwrote fun u hu hopen =>
        hexcl (hpos hwrote) u hu ((hstands u).open_unsent hopen)
      exact ⟨_, order', part', hwhole', hstands'⟩
  · exact h.keeps
  · have hmore := h.received (e.wrote ++ more)
    rw [hsent, List.append_assoc, hmore]
    simp [Net.apply, ports]

theorem Inv.recv (h : Inv calls n s) {k : ℕ} {e : Io.Effect UInt8 (List Outcome)}
    (he : (s.prog none).move (s.view ports none) k = some e) :
    Inv calls n (s.apply ports none e) := by
  obtain ⟨left, order, part, hwhole, hstands⟩ := h.senders
  obtain ⟨hkeeps, hcloses, -⟩ := Io.run_of_move he (h.opens _) (h.opens _) h.keeps []
  have hsent : (s.apply ports none e).sent true = s.sent true := by
    simp [Net.sent, Net.apply, ports]
  refine ⟨⟨left, order, part, by rwa [hsent], hstands⟩,
    fun c => by simp [Net.apply, h.opens c, hcloses], by simpa using hkeeps, fun more => ?_⟩
  have hrun := (Io.run_of_move he (h.opens _) (h.opens _) h.keeps more).2.2
  have hlen : e.took ≤ (s.wire true).length := Io.took_le_of_move he
  have hunread : (s.view ports none).unread = s.wire true := rfl
  rw [hunread] at hrun
  rw [hsent, h.received more, hrun, Option.map_map]
  have hread : ((s.apply ports none e).read true).length = (s.read true).length + e.took := by
    simp [Net.apply, ports, hlen]
  have hwire : (s.apply ports none e).wire true = (s.wire true).drop e.took := by
    simp [Net.apply, ports]
  rw [hread, hwire, Net.apply_prog]
  refine congrArg (Option.map · _) (funext fun o => ?_)
  simp [Nat.add_assoc]

theorem Inv.fail (h : Inv calls n s) {t : τ} {b : UInt8} {bytes : List UInt8}
    {next : Bool → Io UInt8 (List Outcome)} (hclosed : ¬ Open (frame calls) (unsent s) t)
    (hprog : s.prog (some t) = .send (b :: bytes) next) :
    Inv calls n { s with prog := Function.update s.prog (some t) (next false) } := by
  obtain ⟨left, order, part, hwhole, hstands⟩ := h.senders
  have hsends : Sends (left t) (.send (b :: bytes) next) := by
    obtain hsends | ⟨hret, -⟩ := hstands t
    · rwa [hprog] at hsends
    · rw [hprog] at hret
      cases hret
  obtain ⟨hfalse, rest, hrest, -⟩ := hsends.of_send
  have hfresh : left t = frame calls t := by
    refine not_not.mp fun hne => hclosed ((hstands t).open_unsent ⟨?_, hne⟩)
    simp [hrest]
  refine ⟨⟨left, order, part, hwhole, fun u => ?_⟩, h.opens, ?_, h.received⟩
  · by_cases hu : u = t
    · subst hu
      exact .inr ⟨by simp [hfalse], hfresh⟩
    · exact (hstands u).of_prog (Function.update_of_ne (fun h => hu (Option.some.inj h)) _ _)
  · exact h.keeps

/-- **One step** keeps the invariant. A write is inside a frame that nobody else is in. -/
theorem Inv.step (h : Inv calls n s) {a : Act τ} (hok : Exclusive calls s a)
    (hst : step s a = some s') : Inv calls n s' := by
  cases a with
  | io i k =>
    obtain ⟨e, he, rfl⟩ := Option.map_eq_some_iff.mp hst
    cases i with
    | none => exact h.recv he
    | some t => exact h.send hok he
  | fail t =>
    simp only [Senders.step] at hst
    split at hst
    · rename_i b bytes next hprog
      obtain rfl := Option.some.inj hst
      exact h.fail hok hprog
    · cases hst

/-! ### Whole frames -/

theorem reach_io (h : Reach (Net.step ports) Free s s') : Reach step Free s s' := by
  induction h with
  | refl => exact .refl
  | @tail u v a _ _ hst ih => exact ih.tail (a := .io a.1 a.2) trivial hst

/-- The receiver returns when it finds as many frames as it waits for. -/
theorem Inv.exists_returned (h : Inv calls n s) {ms : List CtrlMsg}
    (hsent : s.sent true = frames ms) (hclean : ∀ m ∈ ms, m.Clean) (hn : n ≤ ms.length) :
    ∃ s', Reach Senders.step Free s s' ∧ (s'.prog none).returned.isSome := by
  have hrest := h.received []
  rw [List.append_nil, List.append_nil, hsent, run_receiver hclean hn] at hrest
  obtain ⟨o, ho, -⟩ := Option.map_eq_some_iff.mp hrest.symm
  have hreach := Net.reach_run (P := ports) (f := Io.ret) (Io.bind_ret (s.prog none)).symm
    (h.opens _) ho
  exact ⟨_, reach_io hreach, by rw [Net.apply_prog]; rfl⟩

theorem Inv.framed (h : Inv calls n s) (hclean : ∀ t, (calls t).msg.Clean) (hq : Quiet calls s) :
    Framed calls n s := by
  obtain ⟨left, order, part, hwhole, hstands⟩ := h.senders
  have hpart : part = [] := hwhole.nobody fun t => ((hstands t).closed_of_quiet (hq t)).1
  have hsent : s.sent true = frames (order.map fun t => (calls t).msg) := by
    rw [hwhole.split, hpart, List.append_nil, frames, List.map_map]
    rfl
  have hcleans : ∀ m ∈ order.map (fun t => (calls t).msg), m.Clean := fun m hm => by
    obtain ⟨t, -, rfl⟩ := List.mem_map.mp hm
    exact hclean t
  refine ⟨order, hwhole.nodup, fun t => ?_, hsent, fun hn => ?_, fun os hos => ?_⟩
  · rw [hwhole.mem]
    exact ((hstands t).closed_of_quiet (hq t)).2
  · exact h.exists_returned hsent hcleans (by simpa using hn)
  · obtain ⟨hn, hos⟩ := h.returned_eq hsent hcleans hos
    rw [List.length_map] at hn
    rw [← List.map_take, List.map_map] at hos
    exact ⟨hn, hos⟩

/-- **Whole frames.** In every run in which no call writes while another one is inside its frame,
the stream is made of the frames of the successful calls, and the peer receives their messages, in
the order of the frames. A call that has failed has written nothing. -/
theorem framed_of_exclusive (calls : τ → SendCall) (n : ℕ) (hclean : ∀ t, (calls t).msg.Clean)
    (h : Reach step (Exclusive calls) (start calls n) s) (hq : Quiet calls s) :
    Framed calls n s := by
  have hinv : Inv calls n s := h.invariant .start fun _ _ _ _ hI hok hst => hI.step hok hst
  exact hinv.framed hclean hq

/-- Two calls. -/
def pair (t : Bool) : SendCall := .sendInt (if t then 6 else 5)

def inTurn : List (Act Bool) :=
  [.io (some true) 8, .io (some true) 0, .io none 3, .io (some true) 4, .io (some true) 0,
    .io (some false) 5, .io (some false) 3, .io (some false) 0, .io (some false) 4,
    .io (some false) 0, .io none 5, .io none 0, .io none 4, .io none 0, .io none 8, .io none 0,
    .io none 4, .io none 0]

/-- Two calls of which the second waits for the first. -/
theorem framed_of_exclusive_inTurn : ∃ s, Reach step (Exclusive pair) (start pair 2) s ∧
    (s.prog none).returned = some [.msg (some (⟨1, 0, 4⟩, [6, 0, 0, 0])),
      .msg (some (⟨1, 0, 4⟩, [5, 0, 0, 0]))] ∧ Framed pair 2 s := by
  obtain ⟨s, hs, hret, hall⟩ : ∃ s, Reach step (Exclusive pair) (start pair 2) s ∧
      (s.prog none).returned = some [.msg (some (⟨1, 0, 4⟩, [6, 0, 0, 0])),
        .msg (some (⟨1, 0, 4⟩, [5, 0, 0, 0]))] ∧
      ∀ t, (s.prog (some t)).returned.isSome = true :=
    exists_reach_of_execOk inTurn (by decide +kernel)
  exact ⟨s, hs, hret, framed_of_exclusive pair 2 (by decide) hs fun t => .inr (hall t)⟩

def headersFirst : List (Act Bool) :=
  [.io (some true) 8, .io (some false) 8, .io (some true) 0, .io (some true) 4, .io (some true) 0,
    .io (some false) 0, .io (some false) 4, .io (some false) 0, .io none 8, .io none 0, .io none 4,
    .io none 0]

/-- Both calls succeed, and the peer receives a header as the payload of the first message. -/
theorem headers_first : ∃ s, Reach step Free (start pair 1) s ∧ Quiet pair s ∧
    (s.prog none).returned = some [.msg (some (⟨1, 0, 4⟩, [1, 0, 0, 0]))] ∧
    ¬ Framed pair 1 s := by
  obtain ⟨s, hs, hret, hall, hsent⟩ : ∃ s, Reach step Free (start pair 1) s ∧
      (s.prog none).returned = some [.msg (some (⟨1, 0, 4⟩, [1, 0, 0, 0]))] ∧
      (∀ t, (s.prog (some t)).returned = some [.sent true]) ∧
      ∀ t, (s.sent true).take 12 ≠ frame pair t :=
    exists_reach_of_exec headersFirst (by decide +kernel)
  refine ⟨s, hs, fun t => .inr (by rw [hall t]; rfl), hret, ?_⟩
  rintro ⟨order, -, hmem, hframes, -⟩
  cases order with
  | nil => exact absurd ((hmem true).mpr (hall true)) List.not_mem_nil
  | cons t order =>
    refine hsent t ?_
    rw [hframes, List.map_cons, frames, List.map_cons, List.flatten_cons]
    exact List.take_left' (by cases t <;> rfl)

end Senders

end HMC.Ctrl
