import Mathlib.Algebra.Group.Nat.Even
import Mathlib.Tactic.Common

/-!
# Words as bytes

`leBytes k x` are the `k` bytes of a word of that width, the lowest first, and `leNat` reads them
back. The round trips hold in both directions, so a block of bytes and the word it stands for
determine each other. Big-endian words are the reversed lists.

A program that shifts and adds bytes one after another reads a word by folding over the list
(`foldl_reverse_leBytes`); a program that copies the word reads it by `leNat`. Both are a number
below `256 ^ k`, and a number that has more bits than the word keeps its lowest ones
(`leNat_leBytes`).
-/

namespace HMC.Machine

/-- The `k` lowest bytes of a number, the lowest first. -/
def leBytes : ℕ → ℕ → List UInt8
  | 0, _ => []
  | k + 1, x => UInt8.ofNat x :: leBytes k (x / 256)

/-- The number that a little-endian word stands for. -/
def leNat : List UInt8 → ℕ
  | [] => 0
  | b :: bytes => b.toNat + 256 * leNat bytes

@[simp] theorem length_leBytes (k x : ℕ) : (leBytes k x).length = k := by
  induction k generalizing x with
  | zero => rfl
  | succ k ih => rw [leBytes, List.length_cons, ih]

theorem leNat_leBytes (k x : ℕ) : leNat (leBytes k x) = x % 256 ^ k := by
  induction k generalizing x with
  | zero => rw [leBytes, leNat, Nat.pow_zero, Nat.mod_one]
  | succ k ih =>
    have hmod : x % 256 ^ (k + 1) = x % 256 + 256 * (x / 256 % 256 ^ k) := by
      rw [pow_succ', Nat.mod_mul]
    rw [leBytes, leNat, ih, UInt8.toNat_ofNat', hmod]

theorem leNat_leBytes_of_lt {k x : ℕ} (h : x < 256 ^ k) : leNat (leBytes k x) = x := by
  rw [leNat_leBytes, Nat.mod_eq_of_lt h]

theorem leNat_lt (bytes : List UInt8) : leNat bytes < 256 ^ bytes.length := by
  induction bytes with
  | nil => exact Nat.one_pos
  | cons b bytes ih =>
    have hb : b.toNat < 256 := b.toNat_lt
    have hmul : 256 * (leNat bytes + 1) ≤ 256 * 256 ^ bytes.length := Nat.mul_le_mul_left _ ih
    rw [leNat, List.length_cons, pow_succ']
    omega

theorem leBytes_leNat (bytes : List UInt8) : leBytes bytes.length (leNat bytes) = bytes := by
  induction bytes with
  | nil => rfl
  | cons b bytes ih =>
    have hb : b.toNat < 256 := b.toNat_lt
    have hlow : UInt8.ofNat (b.toNat + 256 * leNat bytes) = b := by
      refine UInt8.toNat_inj.mp ?_
      rw [UInt8.toNat_ofNat']
      omega
    have hhigh : (b.toNat + 256 * leNat bytes) / 256 = leNat bytes := by omega
    rw [leNat, List.length_cons, leBytes, hlow, hhigh, ih]

/-- A big-endian word, read by folding over its bytes. -/
theorem foldl_reverse_leBytes (k x : ℕ) :
    (leBytes k x).reverse.foldl (fun n b => n * 256 + b.toNat) 0 = x % 256 ^ k := by
  rw [List.foldl_reverse, ← leNat_leBytes]
  generalize leBytes k x = bytes
  induction bytes with
  | nil => rfl
  | cons b bytes ih => rw [List.foldr_cons, ih, leNat, Nat.add_comm, Nat.mul_comm]

end HMC.Machine
