import Mathlib.Logic.Function.Basic
import Mathlib.Tactic.Common

/-!
# A ring of slots with mirrored flag words

A writer and a reader share a ring of `s` slots. Item `k` uses slot `k % s`, and each side
keeps one flag word per slot: `full` while the slot holds an item for the reader, `free`
while the writer may fill it. The writer *marks* the items in order (it stores `full` in its
own word) and sends each mark to the reader; the reader marks them in order as well (it
stores `free`) and sends each mark back. A mark is delivered at an arbitrary later moment.

* `WriterSlots m words granted`: the writer has marked the items below `m`, and `granted k`
  says that the reader's mark of item `k` was delivered. The word of a slot is `full` exactly
  while the last item marked in it is not granted.
* `ReaderSlots m words flagged`: the reader has marked the items below `m`, and `flagged k`
  says that the writer's mark of item `k` was delivered. The words of the next `s` items are
  `free` until their marks arrive.

Each operation of either side and each delivery is one lemma; nothing here speaks of how the
marks travel.

The point of both invariants is the window: items that are less than `s` apart use different
slots (`slot_ne`), so a mark that is delivered changes the word of one item only. The writer learns
from a word that reads `free` that the item `s` before is granted (`WriterSlots.granted_of_free`),
because the word would be `full` otherwise. The reader learns from a word that does not read `free`
that the next item is flagged. Neither side needs to know in which order the marks of different
slots arrive.
-/

namespace HMC.Machine

variable {α : Type*} {s m k k' : ℕ} {free full : α} {words : ℕ → α} {granted flagged : ℕ → Prop}

/-- Fewer than `s` apart, two items use different slots. -/
theorem slot_ne (hne : k ≠ k') (h : k < k' + s) (h' : k' < k + s) : k % s ≠ k' % s := by
  intro he
  obtain hlt | hlt := Nat.lt_or_gt_of_ne hne
  · have hd := Nat.dvd_of_mod_eq_zero (Nat.sub_mod_eq_zero_of_mod_eq he.symm)
    exact absurd (Nat.le_of_dvd (by omega) hd) (by omega)
  · have hd := Nat.dvd_of_mod_eq_zero (Nat.sub_mod_eq_zero_of_mod_eq he)
    exact absurd (Nat.le_of_dvd (by omega) hd) (by omega)

/-! ### The writer's side -/

/-- The writer's words after it marked the items below `m`. An item is granted only after it was
marked, and all items more than a round behind are granted; of the items of the last round, the
words tell the granted ones from the others. -/
structure WriterSlots (s : ℕ) (free full : α) (m : ℕ) (words : ℕ → α)
    (granted : ℕ → Prop) : Prop where
  granted_lt : ∀ k, granted k → k < m
  granted_of_lt : ∀ k, k + s < m → granted k
  word_full : ∀ k < m, ¬ granted k → words (k % s) = full
  word_free : ∀ k < m, m ≤ k + s → granted k → words (k % s) = free
  word_fresh : ∀ h < s, m ≤ h → words h = free

namespace WriterSlots

theorem start (h : ∀ i < s, words i = free) (hg : ∀ k, ¬ granted k) :
    WriterSlots s free full 0 words granted where
  granted_lt k hk := absurd hk (hg k)
  granted_of_lt _ hk := absurd hk (Nat.not_lt_zero _)
  word_full _ hk := absurd hk (Nat.not_lt_zero _)
  word_free _ hk := absurd hk (Nat.not_lt_zero _)
  word_fresh i hi _ := h i hi

/-- A writer that reads `free` in the slot of item `m` has been granted the item that used
the slot before. -/
theorem granted_of_free (h : WriterSlots s free full m words granted) (hs : 0 < s)
    (hff : full ≠ free) (hw : words (m % s) = free) (hk : m = k + s) : granted k := by
  by_contra hg
  have hf := h.word_full k (by omega) hg
  rw [hk, Nat.add_mod_right] at hw
  exact hff (hf.symm.trans hw)

/-- Mark item `m`, whose slot is free. -/
theorem mark (h : WriterSlots s free full m words granted) (hg : ∀ k, m = k + s → granted k) :
    WriterSlots s free full (m + 1) (Function.update words (m % s) full) granted where
  granted_lt k hk := Nat.lt_succ_of_lt (h.granted_lt k hk)
  granted_of_lt k hk := by
    obtain hlt | heq := Nat.lt_or_eq_of_le (Nat.le_of_lt_succ hk)
    · exact h.granted_of_lt k hlt
    · exact hg k heq.symm
  word_full k hk hng := by
    by_cases he : k % s = m % s
    · rw [he, Function.update_self]
    · rw [Function.update_of_ne he]
      refine h.word_full k ?_ hng
      obtain hlt | rfl := Nat.lt_or_eq_of_le (Nat.le_of_lt_succ hk)
      · exact hlt
      · exact absurd rfl he
  word_free k hk hms hgk := by
    have hlt := h.granted_lt k hgk
    rw [Function.update_of_ne (slot_ne (by omega) (by omega) (by omega))]
    exact h.word_free k hlt (by omega) hgk
  word_fresh i hi him := by
    have hne : i ≠ m % s := by
      rw [Nat.mod_eq_of_lt (by omega)]
      omega
    rw [Function.update_of_ne hne]
    exact h.word_fresh i hi (by omega)

/-- The reader's mark of item `k` is delivered. -/
theorem grant (h : WriterSlots s free full m words granted) (hk : k < m) (hng : ¬ granted k) :
    WriterSlots s free full m (Function.update words (k % s) free)
      fun i => granted i ∨ i = k where
  granted_lt i hi := by
    obtain hi | rfl := hi
    · exact h.granted_lt i hi
    · exact hk
  granted_of_lt i hi := .inl (h.granted_of_lt i hi)
  word_full i hi hni := by
    rw [not_or] at hni
    have hik : ¬ i + s < m := fun hlt => hni.1 (h.granted_of_lt i hlt)
    have hks : ¬ k + s < m := fun hlt => hng (h.granted_of_lt k hlt)
    rw [Function.update_of_ne (slot_ne hni.2 (by omega) (by omega))]
    exact h.word_full i hi hni.1
  word_free i hi hms hgi := by
    by_cases he : i % s = k % s
    · rw [he, Function.update_self]
    · rw [Function.update_of_ne he]
      obtain hgi | rfl := hgi
      · exact h.word_free i hi hms hgi
      · exact absurd rfl he
  word_fresh i hi him := by
    by_cases he : i = k % s
    · rw [he, Function.update_self]
    · rw [Function.update_of_ne he]
      exact h.word_fresh i hi him

end WriterSlots

/-! ### The reader's side -/

/-- The reader's words after it marked the items below `m`. It marks an item only once that item
is flagged, and the words of the round before it are `free` up to the flags that have arrived. -/
structure ReaderSlots (s : ℕ) (free : α) (m : ℕ) (words : ℕ → α) (flagged : ℕ → Prop) :
    Prop where
  flagged_of_lt : ∀ k < m, flagged k
  word_free : ∀ k, m ≤ k → k < m + s → ¬ flagged k → words (k % s) = free

namespace ReaderSlots

theorem start (h : ∀ i < s, ¬ flagged i → words i = free) :
    ReaderSlots s free 0 words flagged where
  flagged_of_lt _ hk := absurd hk (Nat.not_lt_zero _)
  word_free k _ hk hn := by
    have hks : k < s := by omega
    rw [Nat.mod_eq_of_lt hks]
    exact h k hks hn

/-- Mark item `m`, which the writer had marked. -/
theorem mark (h : ReaderSlots s free m words flagged) (hf : flagged m) :
    ReaderSlots s free (m + 1) (Function.update words (m % s) free) flagged where
  flagged_of_lt k hk := by
    obtain hlt | rfl := Nat.lt_or_eq_of_le (Nat.le_of_lt_succ hk)
    · exact h.flagged_of_lt k hlt
    · exact hf
  word_free k hmk hk hn := by
    by_cases he : k % s = m % s
    · rw [he, Function.update_self]
    · rw [Function.update_of_ne he]
      have hne : k ≠ m + s := fun heq => he (by rw [heq, Nat.add_mod_right])
      exact h.word_free k (by omega) (by omega) hn

/-- The writer's mark of item `k` is delivered. -/
theorem flag (h : ReaderSlots s free m words flagged) (hk : k < m + s) (hn : ¬ flagged k)
    (v : α) :
    ReaderSlots s free m (Function.update words (k % s) v) fun i => flagged i ∨ i = k where
  flagged_of_lt i hi := .inl (h.flagged_of_lt i hi)
  word_free i hmi hi hni := by
    rw [not_or] at hni
    have hmk : ¬ k < m := fun hlt => hn (h.flagged_of_lt k hlt)
    rw [Function.update_of_ne (slot_ne hni.2 (by omega) (by omega))]
    exact h.word_free i hmi hi hni.1

end ReaderSlots

end HMC.Machine
