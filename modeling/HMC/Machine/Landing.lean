import HMC.Machine.SlotRing

/-!
# Items that land in a ring of slots

Items are sent to a memory in order, item `k` to slot `k % s`. A sent item lands at any later
moment, and in any order with the others. An item is sent when no other is on its way to its slot.

`written item m₀ n` is the memory that the first `n` items make when they are written one after
another. `Landing` says that this is the memory at every time, except for the slots that an item is
on its way to: these are as they were when it was sent.

Sending an item (`Landing.send`) changes nothing but the set of items under way, and its slot is
then one of the exceptions. When the item lands (`Landing.land`), the cells of its slot change from
what they were when it was sent to what the sequence of all items makes them: the items that
were sent after it went to other slots (`InSlot.written_eq`), as a second item of its own slot would
have had to wait for it. So the order of landings makes no difference, and once nothing is under
way the memory is that of the items written in order (`Landing.eq_written`).
-/

namespace HMC.Machine

variable {A α : Type*}

/-- Write some of the cells of a memory. -/
def overwrite (w : A → Option α) (m : A → α) : A → α := fun a => (w a).getD (m a)

theorem overwrite_of_none {w : A → Option α} {m : A → α} {a : A} (h : w a = none) :
    overwrite w m a = m a := by
  rw [overwrite, h]
  rfl

theorem overwrite_congr {w : A → Option α} {m m' : A → α} {a : A} (h : m a = m' a) :
    overwrite w m a = overwrite w m' a := by
  rw [overwrite, overwrite, h]

/-- The memory after the first `n` items. -/
def written (item : ℕ → A → Option α) (m₀ : A → α) : ℕ → A → α
  | 0 => m₀
  | n + 1 => overwrite (item n) (written item m₀ n)

/-- The items below `n` are sent, those of `pending` are on their way. A pending item belongs to the
last `s` of them (`near`); its slot is as it was before it (`waiting`), and every other slot is as
all `n` items make it (`settled`). -/
structure Landing (s : ℕ) (slot : A → ℕ) (item : ℕ → A → Option α) (m₀ : A → α) (n : ℕ)
    (pending : ℕ → Prop) (m : A → α) : Prop where
  lt : ∀ k, pending k → k < n
  near : ∀ k, pending k → n ≤ k + s
  waiting : ∀ k a, pending k → slot a = k % s → m a = written item m₀ k a
  settled : ∀ a, (∀ k, pending k → slot a ≠ k % s) → m a = written item m₀ n a

/-- An item stays in its slot. -/
def InSlot (s : ℕ) (slot : A → ℕ) (item : ℕ → A → Option α) : Prop :=
  ∀ k a, slot a ≠ k % s → item k a = none

variable {s n k : ℕ} {slot : A → ℕ} {item : ℕ → A → Option α} {m₀ m : A → α}
  {pending : ℕ → Prop} {a : A}

namespace InSlot

theorem written_succ (h : InSlot s slot item) (hne : slot a ≠ k % s) :
    written item m₀ (k + 1) a = written item m₀ k a :=
  overwrite_of_none (h k a hne)

/-- The next items but `s - 1` leave the slot of an item as it is. -/
theorem written_eq (h : InSlot s slot item) (ha : slot a = k % s) (hkn : k < n)
    (hn : n ≤ k + s) : written item m₀ n a = written item m₀ (k + 1) a := by
  induction n with
  | zero => omega
  | succ n ih =>
    rcases Nat.lt_or_eq_of_le (Nat.le_of_lt_succ hkn) with hlt | rfl
    · have hne : slot a ≠ n % s := by
        rw [ha]
        exact slot_ne (by omega) (by omega) (by omega)
      rw [h.written_succ hne]
      exact ih hlt (by omega)
    · rfl

end InSlot

namespace Landing

theorem start : Landing s slot item m₀ 0 (fun _ => False) m₀ where
  lt _ h := h.elim
  near _ h := h.elim
  waiting _ _ h := h.elim
  settled _ _ := rfl

theorem congr {pending' : ℕ → Prop} (h : Landing s slot item m₀ n pending m)
    (hp : ∀ k, pending' k ↔ pending k) : Landing s slot item m₀ n pending' m := by
  obtain rfl : pending' = pending := funext fun k => propext (hp k)
  exact h

/-- An item is sent to a slot that no other is on its way to. -/
theorem send (h : Landing s slot item m₀ n pending m) (hs : 0 < s) (hitem : InSlot s slot item)
    (hfree : ∀ k, pending k → k % s ≠ n % s) :
    Landing s slot item m₀ (n + 1) (fun k => pending k ∨ k = n) m where
  lt k hk := by
    rcases hk with hk | rfl
    · exact Nat.lt_succ_of_lt (h.lt k hk)
    · exact Nat.lt_succ_self _
  near k hk := by
    rcases hk with hk | rfl
    · have hne : n ≠ k + s := fun heq => hfree k hk (by rw [heq, Nat.add_mod_right])
      have hle := h.near k hk
      omega
    · omega
  waiting k a hk ha := by
    rcases hk with hk | rfl
    · exact h.waiting k a hk ha
    · exact h.settled a fun j hj => ha ▸ (hfree j hj).symm
  settled a ha := by
    rw [hitem.written_succ (ha n (.inr rfl))]
    exact h.settled a fun k hk => ha k (.inl hk)

/-- An item lands. Its slot, which was as before it, becomes as it makes it, and no later item went
to that slot; the slots of the other pending items are not touched. -/
theorem land (h : Landing s slot item m₀ n pending m) (hitem : InSlot s slot item)
    (hk : pending k) :
    Landing s slot item m₀ n (fun j => pending j ∧ j ≠ k) (overwrite (item k) m) where
  lt j hj := h.lt j hj.1
  near j hj := h.near j hj.1
  waiting j a hj ha := by
    have hslot : j % s ≠ k % s := by
      have hjn := h.lt j hj.1
      have hkn := h.lt k hk
      have hjs := h.near j hj.1
      have hks := h.near k hk
      exact slot_ne hj.2 (by omega) (by omega)
    rw [overwrite_of_none (hitem k a (ha ▸ hslot))]
    exact h.waiting j a hj.1 ha
  settled a ha := by
    by_cases hslot : slot a = k % s
    · rw [hitem.written_eq hslot (h.lt k hk) (h.near k hk)]
      exact overwrite_congr (h.waiting k a hk hslot)
    · rw [overwrite_of_none (hitem k a hslot)]
      refine h.settled a fun j hj => ?_
      by_cases hjk : j = k
      · exact hjk ▸ hslot
      · exact ha j ⟨hj, hjk⟩

/-- **The memory in the end.** When nothing is on its way, the items are written as if one after
another, in whatever order they landed. -/
theorem eq_written (h : Landing s slot item m₀ n pending m) (hnone : ∀ k, ¬ pending k) :
    m = written item m₀ n :=
  funext fun a => h.settled a fun k hk => absurd hk (hnone k)

end Landing

end HMC.Machine
