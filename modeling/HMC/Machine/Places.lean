import HMC.Machine.Tables

/-!
# Objects that lie in one place each

A component keeps objects in *places*: the entries of its tables, the hands of its threads. An
object has a *handle*, which another object may be given once the first is destroyed, and a
*serial*, which is given once. `owner` is the object that a handle belongs to now, and `made` the
object that a serial was ever given to.

`Placed` says that no object lies in two places and that the objects with a handle are the ones
that lie somewhere. Making an object, moving it and destroying it keep this (`Placed.insert`,
`Placed.move`, `Placed.destroy`).

The difference between the two names is what the results about late events turn on. A handle
identifies an object among those that live at one time (`Placed.eq_of_handle`), but an event that
names a handle may come after the handle was given to another object. A serial is never given
again, so an event that names a serial is about one object for ever; an object that does not live
any more is then found in no place.
-/

namespace HMC.Machine

variable {π ι η σ : Type*}

/-- Every object lies in one place, and its handle is its own: whoever lies in a place owns its
handle and was given its serial (`live`, `serial`), no one lies in two places (`once`), and the
owner of a handle lies somewhere (`somewhere`). -/
structure Placed (handle : ι → η) (serial : ι → σ) (place : π → Option ι) (owner : η → Option ι)
    (made : σ → Option ι) : Prop where
  live : ∀ {p e}, place p = some e → owner (handle e) = some e
  serial : ∀ {p e}, place p = some e → made (serial e) = some e
  once : ∀ {p q e}, place p = some e → place q = some e → p = q
  somewhere : ∀ {x e}, owner x = some e → handle e = x ∧ ∃ p, place p = some e

/-- Destroy the object, if there is one. -/
def release [DecidableEq η] (handle : ι → η) (owner : η → Option ι) : Option ι → η → Option ι
  | none => owner
  | some e => Function.update owner (handle e) none

namespace Placed

variable {handle : ι → η} {serial : ι → σ} {place : π → Option ι} {owner : η → Option ι}
  {made : σ → Option ι} {p q : π} {e e' : ι}

theorem empty : Placed handle serial (fun _ : π => none) (fun _ => none) fun _ => none where
  live h := by cases h
  serial h := by cases h
  once h := by cases h
  somewhere h := by cases h

/-- Two objects with one handle are one. -/
theorem eq_of_handle (h : Placed handle serial place owner made) (hp : place p = some e)
    (hq : place q = some e') (he : handle e = handle e') : e = e' := by
  have hlive := h.live hp
  rw [he, h.live hq] at hlive
  exact (Option.some.inj hlive).symm

/-- No object has a handle that is free. -/
theorem handle_ne (h : Placed handle serial place owner made) (hfree : owner (handle e) = none)
    (hq : place q = some e') : handle e' ≠ handle e := by
  intro heq
  have hlive := h.live hq
  rw [heq, hfree] at hlive
  cases hlive

/-- No object has a serial that was never given. -/
theorem serial_ne (h : Placed handle serial place owner made) (hnew : made (serial e) = none)
    (hq : place q = some e') : serial e' ≠ serial e := by
  intro heq
  have hmade := h.serial hq
  rw [heq, hnew] at hmade
  cases hmade

variable [DecidableEq π]

/-- An object is made, with a handle that nobody has and a new serial. -/
theorem insert [DecidableEq η] [DecidableEq σ] (h : Placed handle serial place owner made)
    (hp : place p = none) (hfree : owner (handle e) = none) (hnew : made (serial e) = none) :
    Placed handle serial (Function.update place p (some e))
      (Function.update owner (handle e) (some e)) (Function.update made (serial e) (some e)) := by
  refine ⟨fun {q d} hd => ?_, fun {q d} hd => ?_, fun {q r d} hq hr => ?_, fun {x d} hd => ?_⟩
  · obtain ⟨-, hd⟩ | ⟨-, hd⟩ := update_eq_some.mp hd
    · obtain rfl := Option.some.inj hd
      exact Function.update_self _ _ _
    · rw [Function.update_of_ne (h.handle_ne hfree hd)]
      exact h.live hd
  · obtain ⟨-, hd⟩ | ⟨-, hd⟩ := update_eq_some.mp hd
    · obtain rfl := Option.some.inj hd
      exact Function.update_self _ _ _
    · rw [Function.update_of_ne (h.serial_ne hnew hd)]
      exact h.serial hd
  · -- the new object lies nowhere else
    have hne : ∀ {q}, place q = some d → some e ≠ some d := fun hq he =>
      h.handle_ne hfree hq (by rw [Option.some.inj he])
    obtain ⟨rfl, hnew⟩ | ⟨-, hold⟩ := update_eq_some.mp hq
    · obtain ⟨rfl, -⟩ | ⟨-, hold⟩ := update_eq_some.mp hr
      · rfl
      · exact absurd hnew (hne hold)
    · obtain ⟨-, hnew⟩ | ⟨-, hold'⟩ := update_eq_some.mp hr
      · exact absurd hnew (hne hold)
      · exact h.once hold hold'
  · obtain ⟨rfl, hself⟩ | ⟨-, hold⟩ := update_eq_some.mp hd
    · obtain rfl := Option.some.inj hself
      exact ⟨rfl, p, Function.update_self _ _ _⟩
    · obtain ⟨hx, q, hq⟩ := h.somewhere hold
      refine ⟨hx, q, update_eq_some.mpr (.inr ⟨?_, hq⟩)⟩
      rintro rfl
      rw [hp] at hq
      cases hq

/-- What lies in one place is put into another, which is empty. Handles and serials stay. -/
theorem move (h : Placed handle serial place owner made) (hne : q ≠ p) (hq : place q = none) :
    Placed handle serial (Function.update (Function.update place p none) q (place p))
      owner made := by
  have hold : ∀ {r d}, Function.update (Function.update place p none) q (place p) r = some d →
      r = q ∧ place p = some d ∨ r ≠ p ∧ place r = some d := by
    intro r d hd
    obtain hd | ⟨-, hd⟩ := update_eq_some.mp hd
    · exact .inl hd
    · exact .inr ((update_eq_some.mp hd).resolve_left (by simp))
  refine ⟨fun {r d} hd => ?_, fun {r d} hd => ?_, fun {r s d} hr hs => ?_, fun {x d} hd => ?_⟩
  · obtain ⟨-, hd⟩ | ⟨-, hd⟩ := hold hd
    · exact h.live hd
    · exact h.live hd
  · obtain ⟨-, hd⟩ | ⟨-, hd⟩ := hold hd
    · exact h.serial hd
    · exact h.serial hd
  · obtain ⟨rfl, hmoved⟩ | ⟨hrp, hstays⟩ := hold hr
    · obtain ⟨rfl, -⟩ | ⟨hsp, hstays⟩ := hold hs
      · rfl
      · exact absurd (h.once hstays hmoved) hsp
    · obtain ⟨rfl, hmoved⟩ | ⟨-, hstays'⟩ := hold hs
      · exact absurd (h.once hstays hmoved) hrp
      · exact h.once hstays hstays'
  · obtain ⟨hx, r, hr⟩ := h.somewhere hd
    refine ⟨hx, ?_⟩
    by_cases hrp : r = p
    · subst hrp
      exact ⟨q, by rw [Function.update_self, hr]⟩
    · refine ⟨r, update_eq_some.mpr (.inr ⟨?_, update_eq_some.mpr (.inr ⟨hrp, hr⟩)⟩)⟩
      rintro rfl
      rw [hq] at hr
      cases hr

/-- What lies in a place is destroyed, and its handle is free again; its serial is not. -/
theorem destroy [DecidableEq η] (h : Placed handle serial place owner made) (p : π) :
    Placed handle serial (Function.update place p none) (release handle owner (place p)) made := by
  have hold : ∀ {q d}, Function.update place p none q = some d → q ≠ p ∧ place q = some d :=
    fun hd => (update_eq_some.mp hd).resolve_left (by simp)
  refine ⟨fun {q d} hd => ?_, fun hd => h.serial (hold hd).2,
    fun hd hd' => h.once (hold hd).2 (hold hd').2, fun {x d} hd => ?_⟩
  · obtain ⟨hqp, hd⟩ := hold hd
    cases hp : place p with
    | none => exact h.live hd
    | some e =>
      -- another object has another handle
      have hne : handle d ≠ handle e := fun he =>
        hqp (h.once hd (h.eq_of_handle hd hp he ▸ hp))
      rw [release, Function.update_of_ne hne]
      exact h.live hd
  · suffices hx : owner x = some d ∧ place p ≠ some d by
      obtain ⟨hxd, q, hq⟩ := h.somewhere hx.1
      refine ⟨hxd, q, update_eq_some.mpr (.inr ⟨?_, hq⟩)⟩
      rintro rfl
      exact hx.2 hq
    cases hp : place p with
    | none =>
      rw [hp] at hd
      exact ⟨hd, by simp⟩
    | some e =>
      rw [hp] at hd
      obtain ⟨hx, hd⟩ := (update_eq_some.mp hd).resolve_left (by simp)
      refine ⟨hd, fun he => hx ?_⟩
      rw [Option.some.inj he]
      exact (h.somewhere hd).1.symm

end Placed

end HMC.Machine
