import Mathlib.Algebra.GroupWithZero.Nat
import Mathlib.Tactic.Common

/-!
# Cutting a range into chunks

`numChunks n c` chunks of at most `c` bytes cover `[0, n)`: chunk `i` starts at `i * c` and
has `chunkLen n c i` bytes, which is `c` for every chunk but the last.

`signalAt d m i` says that chunk `i` of `m` is signaled when every `d`-th one is, and the last.

The transfers, the pipelines and the collective operations all cut their messages in this way, each
with its own loop, so the arithmetic is stated here once. `chunksIn p b k` lists the chunks of an
interval that have a property; a loop that posts chunk `k` appends to it (`chunksIn_succ`), and one
that waits for all of them starts a new interval (`chunksIn_self`, `chunksIn_append`).
`interval_test_iff` is the test as the loops make it, with a counter of the posts since the last
signal.
-/

namespace HMC

/-- `(n + c - 1) / c`. -/
def numChunks (n c : ℕ) : ℕ := (n + c - 1) / c

/-- `min(c, n - i * c)`. -/
def chunkLen (n c i : ℕ) : ℕ := min c (n - i * c)

variable {n c i : ℕ}

/-- Chunk `i` exists exactly when its start lies inside the range. -/
theorem lt_numChunks_iff (hc : 0 < c) : i < numChunks n c ↔ i * c < n := by
  rw [numChunks, Nat.lt_iff_add_one_le, Nat.le_div_iff_mul_le hc, Nat.add_mul, Nat.one_mul]
  omega

theorem numChunks_pos (hc : 0 < c) (hn : 0 < n) : 0 < numChunks n c :=
  (lt_numChunks_iff hc).mpr (by omega)

theorem chunkLen_le : chunkLen n c i ≤ c := Nat.min_le_left _ _

/-- Every chunk but the last is full. -/
theorem chunkLen_of_succ_lt (hc : 0 < c) (h : i + 1 < numChunks n c) : chunkLen n c i = c := by
  have := (lt_numChunks_iff hc).mp h
  rw [Nat.add_mul, Nat.one_mul] at this
  rw [chunkLen]
  omega

/-- The last chunk ends where the range does. -/
theorem chunkLen_of_succ_eq (hc : 0 < c) (h : i + 1 = numChunks n c) :
    i * c + chunkLen n c i = n := by
  have hi := (lt_numChunks_iff hc).mp (show i < numChunks n c by omega)
  have hn : ¬ (i + 1) * c < n := fun hlt => by
    have := (lt_numChunks_iff hc).mpr hlt
    omega
  rw [Nat.add_mul, Nat.one_mul] at hn
  rw [chunkLen]
  omega

theorem chunkLen_pos (hc : 0 < c) (h : i < numChunks n c) : 0 < chunkLen n c i := by
  have := (lt_numChunks_iff hc).mp h
  rw [chunkLen]
  omega

/-- Every chunk stays inside the range. -/
theorem chunk_end_le (hc : 0 < c) (h : i < numChunks n c) : i * c + chunkLen n c i ≤ n := by
  have := (lt_numChunks_iff hc).mp h
  rw [chunkLen]
  omega

/-- A chunk is the last one exactly when it ends where the range does. -/
theorem le_chunk_end_iff (hc : 0 < c) (h : i < numChunks n c) :
    n ≤ i * c + chunkLen n c i ↔ i + 1 = numChunks n c := by
  refine ⟨fun hle => ?_, fun he => Nat.le_of_eq (chunkLen_of_succ_eq hc he).symm⟩
  by_contra hne
  have hlt := (lt_numChunks_iff hc).mp (show i + 1 < numChunks n c by omega)
  rw [chunkLen_of_succ_lt hc (by omega)] at hle
  rw [Nat.add_mul, Nat.one_mul] at hlt
  omega

/-- A range has one chunk exactly when it is not longer than a chunk. -/
theorem numChunks_eq_one_iff (hc : 0 < c) (hn : 0 < n) : numChunks n c = 1 ↔ n ≤ c := by
  have hpos := numChunks_pos hc hn
  have h := lt_numChunks_iff (n := n) (i := 1) hc
  omega

/-- The first chunks cover an initial part of the range. -/
theorem sum_chunkLen_range (hc : 0 < c) {k : ℕ} (hk : k ≤ numChunks n c) :
    ((List.range k).map (chunkLen n c)).sum = min (k * c) n := by
  induction k with
  | zero => simp
  | succ k ih =>
    have hlt := (lt_numChunks_iff hc).mp (show k < numChunks n c by omega)
    rw [List.range_succ, List.map_append, List.sum_append, ih (by omega), List.map_singleton,
      List.sum_singleton, chunkLen, Nat.add_mul, Nat.one_mul]
    omega

/-- The chunks cover the range. -/
theorem sum_chunkLen (hc : 0 < c) : ((List.range (numChunks n c)).map (chunkLen n c)).sum = n := by
  rw [sum_chunkLen_range hc (Nat.le_refl _)]
  have h := lt_numChunks_iff (n := n) (i := numChunks n c) hc
  omega

/-! ### Ranges of chunks -/

/-- The chunks from `b` on, below `k`, that meet `p`. -/
def chunksIn (p : ℕ → Prop) [DecidablePred p] (b k : ℕ) : List ℕ :=
  (List.range k).filter fun i => b ≤ i ∧ p i

section ChunksIn

variable {p : ℕ → Prop} [DecidablePred p] {b k : ℕ}

theorem mem_chunksIn : i ∈ chunksIn p b k ↔ (b ≤ i ∧ i < k) ∧ p i := by
  simp only [chunksIn, List.mem_filter, List.mem_range, decide_eq_true_eq]
  tauto

theorem chunksIn_congr {p' : ℕ → Prop} [DecidablePred p'] (h : ∀ i < k, p i ↔ p' i) :
    chunksIn p b k = chunksIn p' b k :=
  List.filter_congr fun i hi => by simp only [h i (List.mem_range.mp hi)]

theorem chunksIn_succ (hb : b ≤ k) :
    chunksIn p b (k + 1) = chunksIn p b k ++ if p k then [k] else [] := by
  rw [chunksIn, chunksIn, List.range_succ, List.filter_append]
  split_ifs with h
  · simp [h, hb]
  · simp [h]

theorem chunksIn_self : chunksIn p k k = [] := by
  refine List.eq_nil_iff_forall_not_mem.mpr fun i hi => ?_
  have := (mem_chunksIn.mp hi).1
  omega

theorem chunksIn_append (hb : b ≤ k) : chunksIn p 0 b ++ chunksIn p b k = chunksIn p 0 k := by
  induction hb with
  | refl => rw [chunksIn_self, List.append_nil]
  | step hb ih => rw [chunksIn_succ hb, chunksIn_succ (Nat.zero_le _), ← ih, List.append_assoc]

end ChunksIn

/-! ### Spaced signals -/

/-- Chunk `i` of `m` is the last one or ends an interval of `d` chunks. -/
def signalAt (d m i : ℕ) : Prop := i + 1 = m ∨ d ∣ i + 1

instance (d m i : ℕ) : Decidable (signalAt d m i) :=
  inferInstanceAs (Decidable (i + 1 = m ∨ d ∣ i + 1))

/-- One more post since the last signal. -/
theorem succ_mod_of_not_dvd {d : ℕ} (h : ¬ d ∣ i + 1) : (i + 1) % d = i % d + 1 := by
  have h₁ := Nat.mod_add_div i d
  have h₂ := Nat.mod_add_div (i + 1) d
  rw [Nat.succ_div_of_not_dvd h] at h₂
  omega

/-- The test of the posting loops, with `i % d` posts since the last signal. -/
theorem interval_test_iff {d m : ℕ} (hd : 0 < d) :
    (d ≤ 1 ∨ i + 1 = m ∨ d ≤ i % d + 1) ↔ signalAt d m i := by
  have key : d ≤ i % d + 1 ↔ d ∣ i + 1 := by
    obtain ⟨b, rfl⟩ : ∃ b, d = b + 1 := ⟨d - 1, by omega⟩
    have := Nat.mod_lt i hd
    rw [Nat.dvd_iff_mod_eq_zero, Nat.succ_mod_succ_eq_zero_iff]
    omega
  rw [signalAt, key]
  refine ⟨?_, .inr⟩
  rintro (h | h)
  · exact .inr (by rw [show d = 1 by omega]; exact Nat.one_dvd _)
  · exact h

end HMC
