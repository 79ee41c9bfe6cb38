import HMC.Core.Basic
import HMC.Core.Chunks

/-!
# Tilings

A request that is cut into transfers is carried out when these are nonempty and follow one another
from its start to its end. `Tiles` is that property of a list of transfers, by recursion on the
list, with the offsets and the size that are still to be covered.

A program that cuts a request posts the transfers from the front, so its invariant is that those
posted so far tile an initial part of the request; `Tiles.snoc` continues the tiling by one more,
and `tiles_chunks` is the tiling by chunks of one size with a shorter last one.
-/

namespace HMC

/-- The transfers are, in order, nonempty ranges of at most `chunk` bytes that tile the `size` bytes
at the two offsets. -/
def Tiles (chunk : ℕ) : ℕ → ℕ → ℕ → List Transfer → Prop
  | _, _, size, [] => size = 0
  | localOff, remoteOff, size, t :: ts =>
    t.localOff = localOff ∧ t.remoteOff = remoteOff ∧ 0 < t.size ∧ t.size ≤ chunk ∧
      t.size ≤ size ∧ Tiles chunk (localOff + t.size) (remoteOff + t.size) (size - t.size) ts

/-- A tiling is continued where it ends. -/
theorem Tiles.snoc {chunk localOff remoteOff size : ℕ} {ts : List Transfer} {t : Transfer}
    (h : Tiles chunk localOff remoteOff size ts) (hlocal : t.localOff = localOff + size)
    (hremote : t.remoteOff = remoteOff + size) (hpos : 0 < t.size) (hle : t.size ≤ chunk) :
    Tiles chunk localOff remoteOff (size + t.size) (ts ++ [t]) := by
  induction ts generalizing localOff remoteOff size with
  | nil =>
    obtain rfl : size = 0 := h
    refine ⟨hlocal, hremote, hpos, hle, Nat.le_add_left _ _, ?_⟩
    rw [Nat.zero_add]
    exact Nat.sub_self _
  | cons t' ts ih =>
    obtain ⟨hl, hr, hp, hc, hs, hrest⟩ := h
    refine ⟨hl, hr, hp, hc, Nat.le_trans hs (Nat.le_add_right _ _), ?_⟩
    have := ih hrest (by omega) (by omega)
    rwa [← Nat.sub_add_comm hs] at this

/-- The first chunks of a request tile an initial part of it. -/
theorem tiles_chunks {n c l r k : ℕ} (hc : 0 < c) (hk : k ≤ numChunks n c) :
    Tiles c l r (min (k * c) n) ((List.range k).map fun i =>
      ⟨l + i * c, r + i * c, chunkLen n c i⟩) := by
  induction k with
  | zero =>
    rw [Nat.zero_mul, Nat.zero_min]
    exact rfl
  | succ k ih =>
    have hlt := (lt_numChunks_iff hc).mp hk
    rw [List.range_succ, List.map_append]
    have hsnoc := (ih (by omega)).snoc (t := ⟨l + k * c, r + k * c, chunkLen n c k⟩)
      (by dsimp only; omega) (by dsimp only; omega) (chunkLen_pos hc hk) chunkLen_le
    have hend : min (k * c) n + chunkLen n c k = min ((k + 1) * c) n := by
      rw [chunkLen, Nat.add_mul, Nat.one_mul]
      omega
    rwa [hend] at hsnoc

end HMC
