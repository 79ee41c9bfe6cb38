import Mathlib.Data.Int.Notation
import Mathlib.Tactic.Common

/-!
# Strided layouts

An array of several dimensions lies in memory by its strides: element `(i, j, ..)` is found at the
sum of the indices times the strides. `offsets` lists the elements in their logical order, the last
index fastest. A contiguous layout has them one after another (`offsets_of_contiguous`).

This is the part of a buffer protocol that decides whether an object can be copied as a block.
Strides may be negative or zero, so two elements may share a place; a dimension with one index may
have any stride; and an array without elements is contiguous whatever its strides are, which is
the convention of the buffer protocol that the callers of these definitions rely on.
-/

namespace HMC.Machine

/-- The number of indices of a dimension, and the distance from one to the next. -/
structure Dim where
  size : ℕ
  stride : ℤ
  deriving DecidableEq

/-- The number of elements. -/
def numel : List Dim → ℕ
  | [] => 1
  | d :: ds => d.size * numel ds

/-- Where the elements are, in logical order. -/
def offsets : List Dim → List ℤ
  | [] => [0]
  | d :: ds => (List.range d.size).flatMap fun i : ℕ => (offsets ds).map ((i : ℤ) * d.stride + ·)

/-- Every dimension steps over what the ones behind it hold; the stride of a dimension with a single
index does not matter. -/
def dense : List Dim → Bool
  | [] => true
  | d :: ds => (d.size == 1 || d.stride == numel ds) && dense ds

/-- An array without elements is contiguous whatever its strides are. -/
def contiguous (ds : List Dim) : Bool := numel ds == 0 || dense ds

variable {ds : List Dim}

@[simp] theorem length_offsets : (offsets ds).length = numel ds := by
  induction ds with
  | nil => rfl
  | cons d ds ih =>
    rw [offsets, numel, List.length_flatMap]
    simp only [List.length_map, ih, List.map_const', List.length_range]
    exact List.sum_replicate_nat

/-- Blocks of `m` numbers one after another. -/
theorem flatMap_range_mul (n m : ℕ) :
    (List.range n).flatMap (fun i => (List.range m).map (i * m + ·)) = List.range (n * m) := by
  induction n with
  | zero => rw [Nat.zero_mul]; rfl
  | succ n ih =>
    rw [List.range_succ, List.flatMap_append, ih, Nat.succ_mul, List.range_add]
    simp

theorem offsets_of_dense (h : dense ds = true) :
    offsets ds = (List.range (numel ds)).map fun k : ℕ => (k : ℤ) := by
  induction ds with
  | nil => rfl
  | cons d ds ih =>
    simp only [dense, Bool.and_eq_true, Bool.or_eq_true, beq_iff_eq] at h
    obtain ⟨hstride, hds⟩ := h
    rw [offsets, ih hds, numel]
    obtain hone | hstride := hstride
    · simp [hone]
    · rw [← flatMap_range_mul, List.map_flatMap]
      refine congrArg (List.flatMap · _) (funext fun i => ?_)
      rw [List.map_map, List.map_map, hstride]
      refine List.map_congr_left fun k _ => ?_
      simp

/-- **Contiguous layouts.** Element `k` of the logical order lies at place `k`. By induction on the
dimensions: the elements behind the first index make up blocks of one length, and the stride of that
index is this length. -/
theorem offsets_of_contiguous (h : contiguous ds = true) :
    offsets ds = (List.range (numel ds)).map fun k : ℕ => (k : ℤ) := by
  rw [contiguous, Bool.or_eq_true, beq_iff_eq] at h
  obtain h0 | hdense := h
  · have hnil : offsets ds = [] := List.eq_nil_of_length_eq_zero (length_offsets.trans h0)
    rw [hnil, h0]
    rfl
  · exact offsets_of_dense hdense

end HMC.Machine
