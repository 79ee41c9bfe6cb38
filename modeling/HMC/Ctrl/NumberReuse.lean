import HMC.Ctrl.Descriptors
import Mathlib.Data.Fintype.Basic

/-!
# Numbers that are used again

`send` and `recv` copy the descriptor of a peer out of `id_to_conn_` and use it without the mutex,
and an accept thread copies the number of its listener. `close` and `stop` may close the descriptor
in between, and the kernel may give its number to another.

`directed_of_reach` says that this is the only way in which a call comes to use the descriptor of
another: as long as no number is given again that somebody has kept, every system call is on the
descriptor that is meant.

A number that was copied is, from then on, of the descriptor that was meant or of none (`Directed`).
A new descriptor is the only thing that could change this, and the condition is on that step. What
else a step may do is said once for all of them (`Effect`): it opens or closes, copies a number, and
notes a system call on a number that somebody holds.
-/

namespace HMC.Ctrl.Descriptors

open HMC.Machine

/-- The descriptor that a system call opens. -/
def Act.opens {κ : Type} : Act κ → Option Desc
  | .socket e | .accept _ e | .dial _ e | .otherOpens _ e => some e
  | _ => none

namespace Manager

variable {κ : Type} [DecidableEq κ] (st : Manager κ)

/-- A call or an accept thread has a copy of the descriptor that it will use again. -/
def Held (e : Desc) : Prop :=
  (∃ k, st.copied k = some e) ∨ ∃ t, st.thread t = some (.accept (some e))

/-- The kernel does not give a number that somebody has kept a copy of. -/
def Unaliased (a : Act κ) : Prop := ∀ d, a.opens = some d → ∀ e, st.Held e → e.fd ≠ d.fd

/-- The number of the listener that an accept thread has loaded. -/
def loaded (t : Transport) : Option Desc :=
  match st.thread t with
  | some (.accept l) => l
  | _ => none

omit [DecidableEq κ] in
theorem loaded_eq_some {t : Transport} {e : Desc} :
    st.loaded t = some e ↔ st.thread t = some (.accept (some e)) := by
  unfold loaded
  split
  next l h => simp [h]
  next h => exact iff_of_false nofun (h (some e))

instance [Fintype κ] (a : Act κ) : Decidable (st.Unaliased a) :=
  decidable_of_iff (∀ d ∈ a.opens, (∀ k, ∀ e ∈ st.copied k, e.fd ≠ d.fd) ∧
      (∀ e ∈ st.loaded .tcp, e.fd ≠ d.fd) ∧ ∀ e ∈ st.loaded .uds, e.fd ≠ d.fd) <| by
    refine forall₂_congr fun d _ => ⟨?_, fun h => ⟨fun k e hk => h e (.inl ⟨k, hk⟩), ?_, ?_⟩⟩
    · rintro ⟨hcopied, htcp, huds⟩ e (⟨k, hk⟩ | ⟨t, ht⟩)
      · exact hcopied k e hk
      · have hloaded := (st.loaded_eq_some).mpr ht
        cases t with
        | tcp => exact htcp e hloaded
        | uds => exact huds e hloaded
    · exact fun e he => h e (.inr ⟨.tcp, (st.loaded_eq_some).mp he⟩)
    · exact fun e he => h e (.inr ⟨.uds, (st.loaded_eq_some).mp he⟩)

/-- What a step does to the table of the process, to the copies and to the history. -/
structure Effect (a : Act κ) (st st' : Manager κ) : Prop where
  owner : ∀ x, st'.owner x = st.owner x ∨ st'.owner x = none ∨ ∃ d, a.opens = some d ∧ d.fd = x
  held : ∀ e, st'.Held e → st.Held e ∨ ∃ p, st.place p = some e
  uses : ∀ u ∈ st'.uses, u ∈ st.uses ∨ st.Held u.meant ∧ st.owner u.meant.fd = some u.got

namespace Effect

variable {st} {st' : Manager κ} {a : Act κ} {t : Transport} {p : Place κ} {e : Desc} {ok : Bool}

omit [DecidableEq κ] in
/-- A step that is not a system call on a number. -/
theorem of_copies
    (howner : ∀ x, st'.owner x = st.owner x ∨ st'.owner x = none ∨
      ∃ d, a.opens = some d ∧ d.fd = x)
    (hcopied : st'.copied = st.copied)
    (hthread : ∀ t e, st'.thread t = some (.accept (some e)) →
      st.thread t = some (.accept (some e)) ∨ ∃ p, st.place p = some e)
    (huses : st'.uses = st.uses) : Effect a st st' where
  owner := howner
  held e := by
    rintro (⟨k, hk⟩ | ⟨t, ht⟩)
    · rw [hcopied] at hk
      exact .inl (.inl ⟨k, hk⟩)
    · exact (hthread t e ht).imp_left fun h => .inr ⟨t, h⟩
  uses u hu := by
    rw [huses] at hu
    exact .inl hu

omit [DecidableEq κ] in
/-- A step that is no system call and makes no copy. -/
theorem still (howner : st'.owner = st.owner) (hcopied : st'.copied = st.copied)
    (hthread : st'.thread = st.thread) (huses : st'.uses = st.uses) : Effect a st st' :=
  of_copies (fun x => .inl (by rw [howner])) hcopied (fun t e ht => .inl (by rwa [hthread] at ht))
    huses

omit [DecidableEq κ] in
theorem same : Effect a st st := still rfl rfl rfl rfl

omit [DecidableEq κ] in
/-- What follows a step in the same thread and has no effect of its own. -/
theorem next {st'' : Manager κ} (h : Effect a st st') (howner : st''.owner = st'.owner)
    (hcopied : st''.copied = st'.copied)
    (hthread : ∀ t e, st''.thread t = some (.accept (some e)) →
      st'.thread t = some (.accept (some e)))
    (huses : st''.uses = st'.uses) : Effect a st st'' where
  owner x := by
    rw [howner]
    exact h.owner x
  held e := by
    rintro (⟨k, hk⟩ | ⟨t, ht⟩)
    · rw [hcopied] at hk
      exact h.held e (.inl ⟨k, hk⟩)
    · exact h.held e (.inr ⟨t, hthread t e ht⟩)
  uses u hu := by
    rw [huses] at hu
    exact h.uses u hu

theorem openAt (p : Place κ) (ha : a.opens = some e) : Effect a st (st.openAt p e) := by
  refine of_copies (fun x => ?_) rfl (fun _ _ h => .inl h) rfl
  by_cases hx : x = e.fd
  · exact .inr (.inr ⟨e, ha, hx.symm⟩)
  · exact .inl (Function.update_of_ne hx _ _)

theorem closeAt (p : Place κ) : Effect a st (st.closeAt p) := by
  refine of_copies (fun x => ?_) rfl (fun _ _ h => .inl h) rfl
  show release Desc.fd st.owner (st.place p) x = _ ∨ release Desc.fd st.owner (st.place p) x = _ ∨ _
  cases st.place p with
  | none => exact .inl rfl
  | some e =>
    by_cases hx : x = e.fd
    · exact .inr (.inl (by rw [hx, release, Function.update_self]))
    · exact .inl (Function.update_of_ne hx _ _)

theorem bind (p : Place κ) (peerId : ℕ) : Effect a st (st.bind p peerId) := by
  unfold Manager.bind
  split
  · exact still rfl rfl rfl rfl
  · exact closeAt p

omit [DecidableEq κ] in
theorem goto {c : Control} (h : Effect a st st') : Effect a st (st'.goto c) :=
  h.next rfl rfl (fun _ _ => id) rfl

omit [DecidableEq κ] in
theorem stop (h : Effect a st st') : Effect a st st'.stop := by
  unfold Manager.stop
  split
  · exact h.next rfl rfl (fun _ _ => id) rfl
  · exact h.next rfl rfl (fun _ _ => id) rfl

omit [DecidableEq κ] in
theorem after (h : Effect a st st') : Effect a st (st'.after t ok) := by
  unfold Manager.after
  split
  · exact h.goto
  · exact h.goto
  · exact h.stop

omit [DecidableEq κ] in
theorem joined (h : Effect a st st') : Effect a st (st'.joined t) := by
  unfold Manager.joined
  split
  · exact h.goto
  · exact h.goto

omit [DecidableEq κ] in
/-- The thread of a transport comes to a place where it holds no number. -/
theorem setThread {pc : Option AcceptPc} (h : Effect a st st')
    (hpc : ∀ e, pc ≠ some (.accept (some e))) : Effect a st (st'.setThread t pc) := by
  refine h.next rfl rfl (fun u e hu => ?_) rfl
  obtain ⟨-, hnew⟩ | ⟨-, hold⟩ := update_eq_some.mp hu
  · exact absurd hnew (hpc e)
  · exact hold

theorem stepControl (hst : st.stepControl st.control a = some st') : Effect a st st' := by
  unfold Manager.stepControl at hst
  split at hst
  next =>
    split_ifs at hst
    · obtain rfl := Option.some.inj hst
      exact still rfl rfl rfl rfl
    · obtain rfl := Option.some.inj hst
      exact still rfl rfl rfl rfl
  next =>
    obtain rfl := Option.some.inj hst
    exact same.stop
  next =>
    obtain ⟨-, hst⟩ := Option.ite_none_right_eq_some.mp hst
    obtain rfl := Option.some.inj hst
    exact same.after
  next =>
    obtain ⟨-, hst⟩ := Option.ite_none_right_eq_some.mp hst
    obtain rfl := Option.some.inj hst
    exact (openAt _ rfl).goto
  next t _ _ =>
    obtain ⟨-, hst⟩ := Option.ite_none_right_eq_some.mp hst
    obtain rfl := Option.some.inj hst
    have hassign : Effect .socketFails st (st.assign (.listenFd t) none) := still rfl rfl rfl rfl
    exact hassign.after
  next t _ _ =>
    obtain rfl := Option.some.inj hst
    have hspawn : Effect .listens st (st.spawn t) :=
      Effect.next (same.setThread (by simp)) rfl rfl (fun _ _ => id) rfl
    exact hspawn.after
  next =>
    obtain rfl := Option.some.inj hst
    exact (closeAt _).after
  next =>
    obtain rfl := Option.some.inj hst
    exact (closeAt _).goto
  next =>
    split at hst
    · obtain rfl := Option.some.inj hst
      exact same.joined
    · obtain rfl := Option.some.inj hst
      exact (same.setThread (by simp)).joined
    · cases hst
  next => cases hst

theorem stepThread (hst : st.stepThread t (st.thread t) a = some st') : Effect a st st' := by
  unfold Manager.stepThread at hst
  split at hst
  next =>
    obtain rfl := Option.some.inj hst
    refine same.setThread fun e => ?_
    split_ifs <;> simp
  next =>
    -- the thread copies the number of the listener
    obtain rfl := Option.some.inj hst
    refine of_copies (fun _ => .inl rfl) rfl (fun u e hu => ?_) rfl
    obtain ⟨-, hnew⟩ | ⟨-, hold⟩ := update_eq_some.mp hu
    · exact .inr ⟨_, AcceptPc.accept.inj (Option.some.inj hnew)⟩
    · exact .inl hold
  next l _ e ht =>
    split at hst
    next => cases hst
    next got hgot =>
      obtain ⟨-, hst⟩ := Option.ite_none_right_eq_some.mp hst
      obtain rfl := Option.some.inj hst
      have hopen :
          Effect (.accept t e) st ((st.openAt (.accepted t) e).setThread t (some .hello)) :=
        (openAt _ rfl).setThread (by simp)
      refine ⟨hopen.owner, hopen.held, fun u hu => ?_⟩
      obtain hu | hu := List.mem_append.mp hu
      · exact .inl hu
      · obtain rfl := List.mem_singleton.mp hu
        exact .inr ⟨.inr ⟨_, ht⟩, hgot⟩
  next =>
    obtain rfl := Option.some.inj hst
    exact same.setThread (by simp)
  next =>
    split_ifs at hst
    obtain rfl := Option.some.inj hst
    exact (bind _ _).setThread (by simp)
  next =>
    obtain rfl := Option.some.inj hst
    exact (closeAt _).setThread (by simp)
  next => cases hst

/-- **One step** has no other effect on numbers. -/
theorem step (hst : st.step a = some st') : Effect a st st' := by
  cases a with
  | check | load | accept | acceptFails | hello | helloFails => exact stepThread hst
  | dial k e =>
    obtain ⟨-, hst⟩ := Option.ite_none_right_eq_some.mp hst
    obtain rfl := Option.some.inj hst
    exact openAt _ rfl
  | dialFails k =>
    obtain rfl := Option.some.inj hst
    exact closeAt _
  | register k peerId =>
    obtain ⟨-, hst⟩ := Option.ite_none_right_eq_some.mp hst
    obtain rfl := Option.some.inj hst
    exact bind _ _
  | close peerId =>
    obtain ⟨-, hst⟩ := Option.ite_none_right_eq_some.mp hst
    obtain rfl := Option.some.inj hst
    exact (closeAt _).next rfl rfl (fun _ _ => id) rfl
  | closeAll =>
    obtain ⟨-, hst⟩ := Option.ite_none_left_eq_some.mp hst
    obtain rfl := Option.some.inj hst
    exact still rfl rfl rfl rfl
  | closeNext peerId =>
    obtain ⟨-, hst⟩ := Option.ite_none_right_eq_some.mp hst
    obtain rfl := Option.some.inj hst
    exact (closeAt _).next rfl rfl (fun _ _ => id) rfl
  | closeDone =>
    obtain ⟨-, hst⟩ := Option.ite_none_right_eq_some.mp hst
    obtain rfl := Option.some.inj hst
    exact still rfl rfl rfl rfl
  | fdOf k peerId =>
    -- a call copies the number of an entry
    obtain ⟨-, hst⟩ := Option.ite_none_right_eq_some.mp hst
    obtain rfl := Option.some.inj hst
    refine ⟨fun _ => .inl rfl, fun e => ?_, fun u hu => .inl hu⟩
    rintro (⟨j, hj⟩ | ht)
    · obtain ⟨-, hnew⟩ | ⟨-, hold⟩ := update_eq_some.mp hj
      · exact .inr ⟨_, hnew⟩
      · exact .inl (.inl ⟨j, hold⟩)
    · exact .inl (.inr ht)
  | io k =>
    simp only [Manager.step] at hst
    split at hst
    next => cases hst
    next e hk =>
      split at hst
      next =>
        obtain rfl := Option.some.inj hst
        exact same
      next got hgot =>
        obtain rfl := Option.some.inj hst
        refine ⟨fun _ => .inl rfl, fun e he => .inl he, fun u hu => ?_⟩
        obtain hu | hu := List.mem_append.mp hu
        · exact .inl hu
        · obtain rfl := List.mem_singleton.mp hu
          exact .inr ⟨.inl ⟨k, hk⟩, hgot⟩
  | returns k =>
    obtain rfl := Option.some.inj hst
    refine ⟨fun _ => .inl rfl, fun e => ?_, fun u hu => .inl hu⟩
    rintro (⟨j, hj⟩ | ht)
    · obtain ⟨-, hnew⟩ | ⟨-, hold⟩ := update_eq_some.mp hj
      · cases hnew
      · exact .inl (.inl ⟨j, hold⟩)
    · exact .inl (.inr ht)
  | otherOpens n e =>
    obtain ⟨-, hst⟩ := Option.ite_none_right_eq_some.mp hst
    obtain rfl := Option.some.inj hst
    exact openAt _ rfl
  | otherCloses n =>
    obtain rfl := Option.some.inj hst
    exact closeAt _
  | start | skip | socket | socketFails | listens | listenFails | stop | closeListener | join =>
    exact stepControl hst

end Effect

/-- What a copied number is of: the descriptor that was meant, or none. -/
structure Directed : Prop where
  held : ∀ e, st.Held e → st.owner e.fd = some e ∨ st.owner e.fd = none
  uses : ∀ u ∈ st.uses, u.got = u.meant

omit [DecidableEq κ] in
theorem Directed.empty : (empty : Manager κ).Directed where
  held e := by
    rintro (⟨k, hk⟩ | ⟨t, ht⟩)
    · cases hk
    · cases ht
  uses u hu := by cases hu

/-- A system call opens a descriptor whose number is free. -/
theorem owner_of_opens {st st' : Manager κ} {a : Act κ} {d : Desc} (hst : st.step a = some st')
    (hd : a.opens = some d) : st.owner d.fd = none := by
  cases a with
  | socket e =>
    obtain rfl := Option.some.inj hd
    replace hst : st.stepControl st.control (.socket e) = some st' := hst
    cases hc : st.control with
    | socket t ok =>
      rw [hc] at hst
      exact (Option.ite_none_right_eq_some.mp hst).1.2.1
    | _ =>
      rw [hc] at hst
      cases hst
  | accept t e =>
    obtain rfl := Option.some.inj hd
    replace hst : st.stepThread t (st.thread t) (.accept t e) = some st' := hst
    match ht : st.thread t with
    | some (.accept (some l)) =>
      rw [ht] at hst
      simp only [stepThread] at hst
      split at hst
      · cases hst
      · exact (Option.ite_none_right_eq_some.mp hst).1.1
    | none | some .check | some .load | some (.accept none) | some .hello | some .exited =>
      rw [ht] at hst
      cases hst
  | dial k e =>
    obtain rfl := Option.some.inj hd
    exact (Option.ite_none_right_eq_some.mp hst).1.2.1
  | otherOpens n e =>
    obtain rfl := Option.some.inj hd
    exact (Option.ite_none_right_eq_some.mp hst).1.2.1
  | _ => cases hd

/-- **One step** keeps the numbers directed: a number that is given again is nobody's copy. -/
theorem Directed.step {st st' : Manager κ} {a : Act κ} (h : st.Directed) (hkept : st.Kept)
    (hfree : st.Unaliased a) (hst : st.step a = some st') : st'.Directed where
  held e he := by
    have hheld := (Effect.step hst).held e he
    have hbefore : st.owner e.fd = some e ∨ st.owner e.fd = none := by
      rcases hheld with hheld | ⟨p, hp⟩
      · exact h.held e hheld
      · exact .inl (hkept.placed.live hp)
    have hne : ∀ d, a.opens = some d → e.fd ≠ d.fd := fun d hd => by
      rcases hheld with hheld | ⟨p, hp⟩
      · exact hfree d hd e hheld
      · -- a number that is copied now is one of an open descriptor
        intro heq
        have hlive := hkept.placed.live hp
        rw [heq, owner_of_opens hst hd] at hlive
        cases hlive
    obtain hsame | hnone | ⟨d, hd, hfd⟩ := (Effect.step hst).owner e.fd
    · rw [hsame]
      exact hbefore
    · exact .inr hnone
    · exact absurd hfd.symm (hne d hd)
  uses u hu := by
    obtain hu | ⟨hheld, hgot⟩ := (Effect.step hst).uses u hu
    · exact h.uses u hu
    · obtain hmeant | hnone := h.held u.meant hheld
      · exact Option.some.inj (hgot.symm.trans hmeant)
      · rw [hnone] at hgot
        cases hgot

/-- **No number is mistaken for another.** In every run in which the kernel gives no number that a
call or an accept thread still holds, what they send, receive and accept is on the descriptor that
they mean. A system call on a number that is closed and not given again is one on no descriptor, and
fails; it does not count as a use. -/
theorem directed_of_reach {st : Manager κ} (h : Reach step Unaliased empty st) :
    ∀ u ∈ st.uses, u.got = u.meant := by
  have hinv := h.invariant (I := fun st => st.Inv ∧ st.Directed) ⟨.empty, .empty⟩
    fun _ _ _ _ hI hfree hst => ⟨hI.1.step hst, hI.2.step hI.1.kept hfree hst⟩
  exact hinv.2.uses

/-- While a call has the number 3, another entry is opened and closed, and its number 4 is given
again. The number 3 is given again when the call has returned. -/
theorem directed_of_reach_sent :
    ∃ st : Manager Bool, st.uses = [⟨⟨3, 0⟩, ⟨3, 0⟩⟩, ⟨⟨3, 3⟩, ⟨3, 3⟩⟩] ∧
      ∀ u ∈ st.uses, u.got = u.meant := by
  obtain ⟨st, hr, huses⟩ : ∃ st : Manager Bool, Reach step Unaliased empty st ∧
      st.uses = [⟨⟨3, 0⟩, ⟨3, 0⟩⟩, ⟨⟨3, 3⟩, ⟨3, 3⟩⟩] :=
    exists_reach_of_execOk [.dial true ⟨3, 0⟩, .register true 1, .fdOf true 1, .dial false ⟨4, 1⟩,
      .register false 2, .close 2, .otherOpens 0 ⟨4, 2⟩, .io true, .close 1, .returns true,
      .dial true ⟨3, 3⟩, .register true 1, .fdOf true 1, .io true] (by decide +kernel)
  exact ⟨st, huses, directed_of_reach hr⟩

/-- An entry is closed while a call has its number, and another descriptor gets it. -/
example : (exec step (empty : Manager Bool) [.dial true ⟨3, 0⟩, .register true 1, .fdOf true 1,
    .close 1, .dial false ⟨3, 1⟩, .register false 2, .io true]).map uses =
      some [⟨⟨3, 0⟩, ⟨3, 1⟩⟩] := by
  decide

end Manager

end HMC.Ctrl.Descriptors
