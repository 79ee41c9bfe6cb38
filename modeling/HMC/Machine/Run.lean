import Mathlib.Tactic.Common

/-!
# Runs of a labelled machine

A machine is a partial step function `step : σ → α → Option σ`: `step s a = none` says that
the action `a` is not enabled in `s`. Threads, network cards and servers are interleaved by
letting the action name the component that moves, so a claim about *every interleaving* is
a claim about every list of actions.

* `exec` runs a list of actions; it is executable, so a concrete run is evaluated. `execOk` checks
  the step condition as well, and `exists_reach_of_exec` turns an evaluated run into a reachable
  state with the property that was evaluated on it.
* `Trace step ok s as t`: the actions `as` lead from `s` to `t`, each of them meeting `ok`. It is
  for claims that count the steps of a run.
* `Reach step ok s₀ s`: some run from `s₀` to `s` takes only steps that meet `ok`. With
  `ok := Free` every run is meant; a stronger `ok` names the runs a conditional result is
  about.
* `Reach.invariant` is the induction over runs, packaged once: a predicate that holds
  initially and is kept by every `ok` step holds of every reachable state. A safety result is
  then two goals, the start and one step, and the step may use what was already shown of
  reachable states.
* `Reach.simulate`: what follows every step follows every run. It is how a machine with more
  detail is shown to refine one with less.
* `exists_reach_final`: a measure that some enabled step decreases leads a run to its end. The
  claim is that the run *can* be completed; `length_le_of_decreases` is the stronger claim that
  no run is longer than the measure, for machines in which every step decreases it.
* `Reach.exists_first`: where a run comes to a property, there is the step that brought it.

Nothing here is about a particular machine; the modules of the program give `σ`, `α` and `step`.
-/

namespace HMC.Machine

variable {σ α : Type*} {step : σ → α → Option σ} {ok ok' : σ → α → Prop} {s₀ s t : σ}

/-- The unconditional step condition. -/
def Free : σ → α → Prop := fun _ _ => True

/-- Run a list of actions; `none` as soon as one of them is not enabled. -/
def exec (step : σ → α → Option σ) : σ → List α → Option σ
  | s, [] => some s
  | s, a :: as => (step s a).bind fun t => exec step t as

/-- Run a list of actions, checking the step condition before each of them. -/
def execOk (step : σ → α → Option σ) (ok : σ → α → Prop) [∀ s a, Decidable (ok s a)] :
    σ → List α → Option σ
  | s, [] => some s
  | s, a :: as => if ok s a then (step s a).bind fun t => execOk step ok t as else none

/-- A list of actions given by how often each is repeated. -/
def schedule (l : List (ℕ × α)) : List α := l.flatMap fun p => List.replicate p.1 p.2

/-- `s` is reached from `s₀` by a run each step of which meets `ok`. -/
inductive Reach (step : σ → α → Option σ) (ok : σ → α → Prop) (s₀ : σ) : σ → Prop
  | refl : Reach step ok s₀ s₀
  | tail {s t : σ} {a : α} :
      Reach step ok s₀ s → ok s a → step s a = some t → Reach step ok s₀ t

/-- `t` is reached from `s` by the actions `as`, each of which meets `ok`. -/
inductive Trace (step : σ → α → Option σ) (ok : σ → α → Prop) : σ → List α → σ → Prop
  | nil (s : σ) : Trace step ok s [] s
  | cons {s t u : σ} {a : α} {as : List α} :
      ok s a → step s a = some t → Trace step ok t as u → Trace step ok s (a :: as) u

namespace Reach

/-- **Induction over runs.** A predicate that holds initially and is kept by every step
holds of every reachable state. The step may use that its source is reachable, so an invariant
can be proved on top of another one without restating it. -/
theorem invariant {I : σ → Prop} (h : Reach step ok s₀ s) (h₀ : I s₀)
    (hstep : ∀ s a t, Reach step ok s₀ s → I s → ok s a → step s a = some t → I t) : I s := by
  induction h with
  | refl => exact h₀
  | tail hr hok hst ih => exact hstep _ _ _ hr ih hok hst

/-- A weaker step condition admits more runs. -/
theorem mono (h : Reach step ok s₀ s) (hok : ∀ s a, ok s a → ok' s a) :
    Reach step ok' s₀ s := by
  induction h with
  | refl => exact .refl
  | tail _ ha hst ih => exact .tail ih (hok _ _ ha) hst

/-- Every conditional run is a run. -/
theorem free (h : Reach step ok s₀ s) : Reach step Free s₀ s :=
  h.mono fun _ _ _ => trivial

theorem trans (h : Reach step ok s₀ s) (h' : Reach step ok s t) : Reach step ok s₀ t := by
  induction h' with
  | refl => exact h
  | tail _ hok hst ih => exact .tail ih hok hst

/-- **Forward simulation.** A machine that can follow every step of another one, and stays related
to it, can follow every run. -/
theorem simulate {τ β : Type*} {step' : τ → β → Option τ} {okT : τ → β → Prop} {t₀ : τ}
    {R : σ → τ → Prop} (h : Reach step ok s₀ s) (h₀ : R s₀ t₀)
    (hstep : ∀ s a s' t, R s t → ok s a → step s a = some s' →
      ∃ t', Reach step' okT t t' ∧ R s' t') : ∃ t, Reach step' okT t₀ t ∧ R s t := by
  induction h with
  | refl => exact ⟨t₀, .refl, h₀⟩
  | tail _ hok hst ih =>
    obtain ⟨t, hrun, hR⟩ := ih
    obtain ⟨t', hrun', hR'⟩ := hstep _ _ _ t hR hok hst
    exact ⟨t', hrun.trans hrun', hR'⟩

/-- A run that comes to `P` comes to it in one of its steps: before that step `P` fails, after
it `P` holds. The induction is on the run, from its end. -/
theorem exists_first {P : σ → Prop} (h : Reach step ok s₀ s) (h₀ : ¬ P s₀) (hs : P s) :
    ∃ u a v, Reach step ok s₀ u ∧ ¬ P u ∧ ok u a ∧ step u a = some v ∧ P v := by
  induction h with
  | refl => exact absurd hs h₀
  | @tail u v a hr hok hst ih =>
    by_cases hu : P u
    · exact ih hu
    · exact ⟨u, a, v, hr, hu, hok, hst, hs⟩

/-- A run that was evaluated with its step condition is a run. -/
theorem of_execOk [∀ s a, Decidable (ok s a)] {as : List α}
    (h : execOk step ok s₀ as = some s) : Reach step ok s₀ s := by
  induction as generalizing s₀ with
  | nil => cases h; exact .refl
  | cons a as ih =>
    simp only [execOk] at h
    split at h
    · rename_i hok
      obtain ⟨t, ht, hrest⟩ := Option.bind_eq_some_iff.mp h
      exact (Reach.tail .refl hok ht).trans (ih hrest)
    · cases h

/-- A run that was evaluated is a run. -/
theorem of_exec {as : List α} (h : exec step s₀ as = some s) : Reach step Free s₀ s := by
  induction as generalizing s₀ with
  | nil => cases h; exact .refl
  | cons a as ih =>
    obtain ⟨t, ht, hrest⟩ := Option.bind_eq_some_iff.mp h
    exact (Reach.tail .refl trivial ht).trans (ih hrest)

end Reach

theorem Trace.reach {as : List α} (h : Trace step ok s as t) : Reach step ok s t := by
  induction h with
  | nil => exact .refl
  | cons hok hst _ ih => exact (Reach.refl.tail hok hst).trans ih

/-- The outcome of an evaluation, with a property that was evaluated on it. -/
theorem exists_of_any {o : Option σ} {P : σ → Prop} [DecidablePred P]
    (h : o.any (fun s => decide (P s)) = true) : ∃ s, o = some s ∧ P s := by
  cases o with
  | none => cases h
  | some s => exact ⟨s, rfl, of_decide_eq_true h⟩

/-- The state a list of actions leads to, when all of them are enabled. -/
theorem exists_reach_of_exec (as : List α) {P : σ → Prop} [DecidablePred P]
    (h : (exec step s₀ as).any (fun s => decide (P s)) = true) :
    ∃ s, Reach step Free s₀ s ∧ P s := by
  obtain ⟨s, hs, hP⟩ := exists_of_any h
  exact ⟨s, .of_exec hs, hP⟩

/-- The state a list of actions leads to, when all of them meet the step condition. -/
theorem exists_reach_of_execOk [∀ s a, Decidable (ok s a)] (as : List α) {P : σ → Prop}
    [DecidablePred P] (h : (execOk step ok s₀ as).any (fun s => decide (P s)) = true) :
    ∃ s, Reach step ok s₀ s ∧ P s := by
  obtain ⟨s, hs, hP⟩ := exists_of_any h
  exact ⟨s, .of_execOk hs, hP⟩

/-- A run that keeps an invariant is completed, if each state of the invariant that is not final has
a step that keeps it and decreases the measure. -/
theorem exists_reach_final_of_inv {I final : σ → Prop} (μ : σ → ℕ) (h₀ : I s₀)
    (h : ∀ s, Reach step ok s₀ s → I s → ¬ final s →
      ∃ a t, ok s a ∧ step s a = some t ∧ I t ∧ μ t < μ s) :
    ∃ s, Reach step ok s₀ s ∧ I s ∧ final s := by
  suffices hs : ∀ n s, μ s = n → Reach step ok s₀ s → I s →
      ∃ t, Reach step ok s₀ t ∧ I t ∧ final t from hs _ s₀ rfl .refl h₀
  intro n
  induction n using Nat.strongRecOn with
  | ind n ih =>
    intro s hn hr hI
    by_cases hf : final s
    · exact ⟨s, hr, hI, hf⟩
    · obtain ⟨a, t, hok, hst, hIt, hlt⟩ := h s hr hI hf
      exact ih (μ t) (by omega) t rfl (hr.tail hok hst) hIt

/-- **Progress to a final state.** If every reachable state that is not final has a step that
decreases the measure, some run is completed. The run is built by strong induction on the
measure of the state that it has come to. -/
theorem exists_reach_final {final : σ → Prop} (μ : σ → ℕ)
    (h : ∀ s, Reach step ok s₀ s → ¬ final s →
      ∃ a t, ok s a ∧ step s a = some t ∧ μ t < μ s) : ∃ s, Reach step ok s₀ s ∧ final s := by
  suffices hs : ∀ n s, μ s = n → Reach step ok s₀ s → ∃ t, Reach step ok s₀ t ∧ final t from
    hs _ s₀ rfl .refl
  intro n
  induction n using Nat.strongRecOn with
  | ind n ih =>
    intro s hn hr
    by_cases hf : final s
    · exact ⟨s, hr, hf⟩
    · obtain ⟨a, t, hok, hst, hlt⟩ := h s hr hf
      exact ih (μ t) (by omega) t rfl (hr.tail hok hst)

/-- **Termination.** A measure that every step of an invariant decreases bounds all runs. -/
theorem length_le_of_decreases {I : σ → Prop} (μ : σ → ℕ)
    (h : ∀ s a t, I s → step s a = some t → I t ∧ μ t < μ s) (h₀ : I s₀) {as : List α}
    (hrun : exec step s₀ as = some s) : as.length ≤ μ s₀ := by
  induction as generalizing s₀ with
  | nil => exact Nat.zero_le _
  | cons a as ih =>
    obtain ⟨t, ht, hrest⟩ := Option.bind_eq_some_iff.mp hrun
    obtain ⟨hI, hlt⟩ := h s₀ a t h₀ ht
    exact Nat.lt_of_le_of_lt (ih hI hrest) hlt

end HMC.Machine
