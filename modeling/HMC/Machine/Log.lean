import HMC.Machine.Run

/-!
# Runs that keep a log

A claim about the order of two events of a run speaks of the run, not of its last state.
`logStep step emit` is the machine `step` with a log beside its state: each step appends the
event it emits, if any. The log changes nothing, so the logged runs are the runs of `step`
(`Reach.of_logged`, `Reach.exists_log`).

* `Preceded a b log`: every `b` in the log has an `a` before it. `PrecededBy A b log` is the
  same for a kind `A` of events, for when the data of the event before is not known in advance.
* `Barred a b log`: no `b` comes after an `a`.

All of them are kept by a new event under a condition on the log so far (`PrecededBy.snoc`,
`Barred.snoc`). When the occurrence of an event of `A` can be read off the state,
`precededBy_of_reach` reduces `PrecededBy` to a fact about single steps: the state property holds
only after such an event, and `b` is emitted only where it holds.
-/

namespace HMC.Machine

variable {σ α ε : Type*} {step : σ → α → Option σ} {emit : σ → α → Option ε}
  {ok : σ → α → Prop} {s₀ s : σ} {a b e : ε} {A : ε → Prop} {log : List ε}

/-! ### The order of events -/

/-- Every `b` of the log has an `a` before it. -/
def Preceded (a b : ε) (log : List ε) : Prop :=
  ∀ before after, log = before ++ b :: after → a ∈ before

/-- Every `b` of the log has an event of `A` before it. -/
def PrecededBy (A : ε → Prop) (b : ε) (log : List ε) : Prop :=
  ∀ before after, log = before ++ b :: after → ∃ a ∈ before, A a

/-- No `b` of the log comes after an `a`. -/
def Barred (a b : ε) (log : List ε) : Prop :=
  ∀ before after, log = before ++ a :: after → b ∉ after

/-- Where an event of a longer log stands. -/
theorem snoc_eq_append_cons {before after : List ε} (h : log ++ [e] = before ++ b :: after) :
    (∃ mid, after = mid ++ [e] ∧ log = before ++ b :: mid) ∨
      after = [] ∧ e = b ∧ log = before := by
  obtain rfl | ⟨mid, x, rfl⟩ := after.eq_nil_or_concat
  · obtain ⟨rfl, hb⟩ := List.append_inj' h rfl
    exact .inr ⟨rfl, List.head_eq_of_cons_eq hb, rfl⟩
  · rw [List.concat_eq_append, ← List.cons_append, ← List.append_assoc] at h
    obtain ⟨rfl, hx⟩ := List.append_inj' h rfl
    obtain rfl := List.head_eq_of_cons_eq hx
    exact .inl ⟨mid, List.concat_eq_append, rfl⟩

theorem preceded_iff : Preceded a b log ↔ PrecededBy (· = a) b log := by
  simp [Preceded, PrecededBy]

theorem precededBy_nil : PrecededBy A b [] := by
  intro before after h
  cases before <;> cases h

theorem preceded_nil : Preceded a b [] := preceded_iff.mpr precededBy_nil

theorem barred_nil : Barred a b [] := by
  intro before after h
  cases before <;> cases h

/-- A new event keeps the order when a new `b` finds an event of `A` in the log. -/
theorem PrecededBy.snoc (h : PrecededBy A b log) (he : e = b → ∃ a ∈ log, A a) :
    PrecededBy A b (log ++ [e]) := by
  intro before after heq
  obtain ⟨mid, -, hlog⟩ | ⟨-, hb, rfl⟩ := snoc_eq_append_cons heq
  · exact h before mid hlog
  · exact he hb

/-- A new event keeps the bar when a new `b` finds no `a` in the log. -/
theorem Barred.snoc (h : Barred a b log) (he : e = b → a ∉ log) :
    Barred a b (log ++ [e]) := by
  intro before after heq hmem
  obtain ⟨mid, rfl, hlog⟩ | ⟨rfl, -, -⟩ := snoc_eq_append_cons heq
  · obtain hmem | hmem := List.mem_append.mp hmem
    · exact h before mid hlog hmem
    · refine he (List.mem_singleton.mp hmem).symm ?_
      rw [hlog]
      exact List.mem_append_right _ List.mem_cons_self
  · cases hmem

theorem PrecededBy.append (h : PrecededBy A b log) {es : Option ε}
    (he : ∀ e ∈ es, e = b → ∃ a ∈ log, A a) : PrecededBy A b (log ++ es.toList) := by
  cases es with
  | none => simpa using h
  | some e => exact h.snoc (he e rfl)

theorem Preceded.append (h : Preceded a b log) {es : Option ε}
    (he : ∀ e ∈ es, e = b → a ∈ log) : Preceded a b (log ++ es.toList) :=
  preceded_iff.mpr ((preceded_iff.mp h).append fun e hmem heb => ⟨a, he e hmem heb, rfl⟩)

theorem Barred.append (h : Barred a b log) {es : Option ε}
    (he : ∀ e ∈ es, e = b → a ∉ log) : Barred a b (log ++ es.toList) := by
  cases es with
  | none => simpa using h
  | some e => exact h.snoc (he e rfl)

/-! ### Logged machines -/

/-- A state with the events that led to it. -/
structure Logged (σ ε : Type*) where
  state : σ
  log : List ε

/-- The machine `step`, logging what each step emits. -/
def logStep (step : σ → α → Option σ) (emit : σ → α → Option ε) (w : Logged σ ε) (x : α) :
    Option (Logged σ ε) :=
  (step w.state x).map fun s => ⟨s, w.log ++ (emit w.state x).toList⟩

/-- A step condition, read on logged states. -/
def onState (ok : σ → α → Prop) : Logged σ ε → α → Prop := fun w x => ok w.state x

instance [h : ∀ s x, Decidable (ok s x)] (w : Logged σ ε) (x : α) :
    Decidable (onState ok w x) := h w.state x

theorem logStep_eq_some {w w' : Logged σ ε} {x : α} :
    logStep step emit w x = some w' ↔
      step w.state x = some w'.state ∧ w'.log = w.log ++ (emit w.state x).toList := by
  rw [logStep, Option.map_eq_some_iff]
  constructor
  · rintro ⟨s, hs, rfl⟩
    exact ⟨hs, rfl⟩
  · rintro ⟨hs, hlog⟩
    refine ⟨w'.state, hs, ?_⟩
    rw [← hlog]

namespace Reach

variable {w₀ w : Logged σ ε}

/-- Forgetting the log of a run leaves a run. -/
theorem of_logged (h : Reach (logStep step emit) (onState ok) w₀ w) :
    Reach step ok w₀.state w.state := by
  induction h with
  | refl => exact .refl
  | tail _ hok hst ih => exact ih.tail hok (logStep_eq_some.mp hst).1

/-- Leaving events out of the log of a run. A log with more events, kept once for several results,
is read by each of them through the events that it is about. -/
theorem filterMap_log {ε' : Type*} {emit' : σ → α → Option ε'} (f : ε → Option ε')
    (hf : ∀ s x, emit' s x = (emit s x).bind f)
    (h : Reach (logStep step emit) (onState ok) w₀ w) :
    Reach (logStep step emit') (onState ok) ⟨w₀.state, w₀.log.filterMap f⟩
      ⟨w.state, w.log.filterMap f⟩ := by
  induction h with
  | refl => exact .refl
  | tail _ hok hst ih =>
    obtain ⟨hs, hlog⟩ := logStep_eq_some.mp hst
    refine ih.tail hok (logStep_eq_some.mpr ⟨hs, ?_⟩)
    dsimp only
    rw [hlog, List.filterMap_append, hf]
    congr 1
    cases emit _ _ with
    | none => rfl
    | some e => cases hfe : f e <;> simp [hfe]

/-- Every run has a log. -/
theorem exists_log (h : Reach step ok s₀ s) (emit : σ → α → Option ε) (log : List ε) :
    ∃ log', Reach (logStep step emit) (onState ok) ⟨s₀, log⟩ ⟨s, log'⟩ := by
  induction h with
  | refl => exact ⟨log, .refl⟩
  | tail _ hok hst ih =>
    obtain ⟨log', hr⟩ := ih
    exact ⟨_, hr.tail hok (logStep_eq_some.mpr ⟨hst, rfl⟩)⟩

/-- **Order from the states.** `D` says that an event of `A` has happened: it holds only after a
step that emits one. If `b` is emitted from states of `D` alone, every `b` has an event of `A`
before it. The invariant of the induction is that `D` holds only if the log has an event of `A`;
a new `b` then finds that event. -/
theorem precededBy_of_reach {D : σ → Prop} (h₀ : w₀.log = []) (hD₀ : ¬ D w₀.state)
    (hD : ∀ s x t, Reach step ok w₀.state s → ok s x → step s x = some t → D t →
      D s ∨ ∃ a, emit s x = some a ∧ A a)
    (hb : ∀ s x t, Reach step ok w₀.state s → ok s x → step s x = some t → emit s x = some b →
      D s)
    (h : Reach (logStep step emit) (onState ok) w₀ w) : PrecededBy A b w.log := by
  suffices hs : PrecededBy A b w.log ∧ (D w.state → ∃ a ∈ w.log, A a) from hs.1
  induction h with
  | refl => exact ⟨by rw [h₀]; exact precededBy_nil, fun hD' => absurd hD' hD₀⟩
  | tail hr hok hst ih =>
    obtain ⟨hst, hlog⟩ := logStep_eq_some.mp hst
    rw [hlog]
    refine ⟨ih.1.append fun e he heb => ih.2 ?_, fun hDt => ?_⟩
    · rw [Option.mem_def, heb] at he
      exact hb _ _ _ hr.of_logged hok hst he
    · obtain hDs | ⟨a, hemit, ha⟩ := hD _ _ _ hr.of_logged hok hst hDt
      · obtain ⟨a, hmem, ha⟩ := ih.2 hDs
        exact ⟨a, List.mem_append_left _ hmem, ha⟩
      · rw [hemit]
        exact ⟨a, List.mem_append_right _ (List.mem_singleton.mpr rfl), ha⟩

/-- The same for one event `a`. -/
theorem preceded_of_reach {D : σ → Prop} (h₀ : w₀.log = []) (hD₀ : ¬ D w₀.state)
    (hD : ∀ s x t, Reach step ok w₀.state s → ok s x → step s x = some t → D t →
      D s ∨ emit s x = some a)
    (hb : ∀ s x t, Reach step ok w₀.state s → ok s x → step s x = some t → emit s x = some b →
      D s)
    (h : Reach (logStep step emit) (onState ok) w₀ w) : Preceded a b w.log := by
  refine preceded_iff.mpr (precededBy_of_reach h₀ hD₀ (fun s x t hr hok hst hDt => ?_) hb h)
  exact (hD s x t hr hok hst hDt).imp_right fun he => ⟨a, he, rfl⟩

end Reach

end HMC.Machine
