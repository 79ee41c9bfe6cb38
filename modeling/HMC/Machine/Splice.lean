import Mathlib.Tactic.Common

/-!
# Arrays as lists

An array of `n` elements is a list of length `n`: `slice` reads a range of it, `splice` replaces
one. `window f n` is the array that the first `n` values of a memory `f` make up, and
`window_overwrite` says that replacing a range of the memory is a `splice` of its window.

The lists say what an array *is for*, without offsets that lie outside it; the memory is what a
program really has, where an offset may lie anywhere. A result of the form "the window after the
call is the splice of the window before it" therefore says at once that the right bytes were written
and that no others were.
-/

namespace HMC.Machine

variable {α : Type*}

/-- The `n` elements from `off` on. -/
def slice (l : List α) (off n : ℕ) : List α := (l.drop off).take n

/-- `data` in the place of the elements from `off` on. -/
def splice (l : List α) (off : ℕ) (data : List α) : List α :=
  l.take off ++ data ++ l.drop (off + data.length)

/-- The first `n` values of a memory. -/
def window (f : ℕ → α) (n : ℕ) : List α := (List.range n).map f

variable {l data : List α} {f g : ℕ → α} {off n k : ℕ}

@[simp] theorem length_window : (window f n).length = n := by simp [window]

theorem getElem?_window (h : k < n) : (window f n)[k]? = some (f k) := by
  simp [window, h]

theorem window_congr (h : ∀ k < n, f k = g k) : window f n = window g n :=
  List.map_congr_left fun k hk => h k (List.mem_range.mp hk)

/-- A window behind another one. -/
theorem window_add (f : ℕ → α) (m n : ℕ) :
    window f (m + n) = window f m ++ window (fun k => f (m + k)) n := by
  rw [window, List.range_add, List.map_append, List.map_map]
  rfl

theorem take_window (h : off ≤ n) : (window f n).take off = window f off := by
  rw [window, ← List.map_take, List.take_range, Nat.min_eq_left h]
  rfl

theorem drop_window (h : off ≤ n) :
    (window f n).drop off = window (fun k => f (off + k)) (n - off) := by
  obtain ⟨k, rfl⟩ := Nat.exists_eq_add_of_le h
  rw [window_add, List.drop_left' length_window, Nat.add_sub_cancel_left]

/-- Reading a range of a window. -/
theorem slice_window {size : ℕ} (h : off + size ≤ n) :
    slice (window f n) off size = window (fun k => f (off + k)) size := by
  rw [slice, drop_window (Nat.le_trans (Nat.le_add_right _ _) h), take_window (by omega)]

/-- **Replacing a range of a window**: `g` holds `src` from `off` on and is `f` elsewhere. -/
theorem window_overwrite {src : ℕ → α} {size : ℕ} (h : off + size ≤ n)
    (hin : ∀ k < size, g (off + k) = src k) (hout : ∀ a, a < off ∨ off + size ≤ a → g a = f a) :
    window g n = splice (window f n) off (window src size) := by
  obtain ⟨rest, rfl⟩ := Nat.exists_eq_add_of_le h
  rw [splice, length_window, take_window (by omega), drop_window h, Nat.add_sub_cancel_left,
    window_add, window_add]
  congr 1
  · congr 1
    · exact window_congr fun k hk => hout k (.inl hk)
    · exact window_congr hin
  · exact window_congr fun k _ => hout _ (.inr (Nat.le_add_right _ _))

end HMC.Machine
