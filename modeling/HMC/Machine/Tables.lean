import Mathlib.Logic.Function.Basic
import Mathlib.Tactic.Common

/-!
# Tables

A table is a function that is changed one entry at a time by `Function.update`, or by `set₂` when
it has two indices. These lemmas say what the other entries are.

The invariants of the machines speak of *all* entries of a table, and a step changes one. The
lemmas have the form that a step needs: what is found in the changed table was found in the old one
or is the new entry (`update_eq_some`, `mem_update_append`, `update_true`), and a quantity that the
new entry shares with the old one is the same everywhere (`apply_update_of_eq`).
-/

namespace HMC

variable {α β γ δ : Type*} [DecidableEq α] [DecidableEq β]

/-- Set one entry of a table with two indices. -/
def set₂ (f : α → β → γ) (a : α) (b : β) (v : γ) : α → β → γ :=
  Function.update f a (Function.update (f a) b v)

theorem set₂_apply (f : α → β → γ) (a : α) (b : β) (v : γ) (x : α) (y : β) :
    set₂ f a b v x y = if x = a ∧ y = b then v else f x y := by
  unfold set₂
  by_cases hx : x = a
  · subst hx
    by_cases hy : y = b
    · subst hy
      simp
    · simp [hy]
  · simp [hx]

@[simp] theorem set₂_self (f : α → β → γ) (a : α) (b : β) (v : γ) : set₂ f a b v a b = v := by
  simp [set₂_apply]

theorem set₂_of_ne {f : α → β → γ} {a x : α} {b y : β} (v : γ) (h : x = a → y ≠ b) :
    set₂ f a b v x y = f x y := by
  rw [set₂_apply, if_neg fun hxy => h hxy.1 hxy.2]

@[simp] theorem set₂_eq_self (f : α → β → γ) (a : α) (b : β) : set₂ f a b (f a b) = f := by
  unfold set₂
  rw [Function.update_eq_self, Function.update_eq_self]

/-- What is read off each entry stays, when it is the same for the new one. -/
theorem apply_update_of_eq {f : α → γ} {g : γ → δ} {a : α} {v : γ} (h : g v = g (f a)) (x : α) :
    g (Function.update f a v x) = g (f x) := by
  by_cases hx : x = a
  · rw [hx, Function.update_self, h]
  · rw [Function.update_of_ne hx]

/-- Raise one flag of a table. -/
theorem update_true (f : α → Bool) (a x : α) :
    Function.update f a true x = true ↔ f x = true ∨ x = a := by
  by_cases hx : x = a
  · simp [hx]
  · simp [hx]

/-- Append to one list of a table. -/
theorem mem_update_append (f : α → List γ) (a x : α) (c d : γ) :
    d ∈ Function.update f a (f a ++ [c]) x ↔ d ∈ f x ∨ x = a ∧ d = c := by
  by_cases hx : x = a
  · simp [hx]
  · simp [hx]

/-- What a table holds after one of its entries was set. -/
theorem update_eq_some {f : α → Option γ} {a x : α} {o : Option γ} {c : γ} :
    Function.update f a o x = some c ↔ x = a ∧ o = some c ∨ x ≠ a ∧ f x = some c := by
  by_cases hx : x = a
  · subst hx
    simp
  · simp [hx]

end HMC
