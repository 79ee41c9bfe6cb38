import Mathlib.Data.Fin.Tuple.Basic
import Mathlib.Logic.Equiv.Fin.Basic
import HMC.Machine.Endian

/-!
# Packed structs

A `Packed α` is a binary format of fixed size for the values of `α`, together with its round trip.
A packed struct of C is put together from the formats of its fields: `prod` places one after the
other, `array` repeats one, `reversed` changes the byte order and `map` gives the result the type it
has in the program.

The size and the round trip are fields, so every format that is put together in this way comes with
them: a struct of the program is one term, and the claim that its bytes are read back as the struct
is `Packed.ofBytes_bytes` of that term. Nothing has to be proved again when a field is added.
-/

namespace HMC.Machine

/-- A binary format of fixed size: how a value is written, how it is read, and that what was written
is read back. -/
structure Packed (α : Type) where
  size : ℕ
  bytes : α → List UInt8
  ofBytes : List UInt8 → α
  length_bytes : ∀ a, (bytes a).length = size
  ofBytes_bytes : ∀ a, ofBytes (bytes a) = a

namespace Packed

variable {α β : Type}

attribute [simp] length_bytes ofBytes_bytes

/-! ### Words -/

def u8 : Packed UInt8 where
  size := 1
  bytes v := leBytes 1 v.toNat
  ofBytes l := UInt8.ofNat (leNat l)
  length_bytes _ := length_leBytes _ _
  ofBytes_bytes v := by rw [leNat_leBytes_of_lt v.toNat_lt, UInt8.ofNat_toNat]

def u16 : Packed UInt16 where
  size := 2
  bytes v := leBytes 2 v.toNat
  ofBytes l := UInt16.ofNat (leNat l)
  length_bytes _ := length_leBytes _ _
  ofBytes_bytes v := by rw [leNat_leBytes_of_lt v.toNat_lt, UInt16.ofNat_toNat]

def u32 : Packed UInt32 where
  size := 4
  bytes v := leBytes 4 v.toNat
  ofBytes l := UInt32.ofNat (leNat l)
  length_bytes _ := length_leBytes _ _
  ofBytes_bytes v := by rw [leNat_leBytes_of_lt v.toNat_lt, UInt32.ofNat_toNat]

def u64 : Packed UInt64 where
  size := 8
  bytes v := leBytes 8 v.toNat
  ofBytes l := UInt64.ofNat (leNat l)
  length_bytes _ := length_leBytes _ _
  ofBytes_bytes v := by rw [leNat_leBytes_of_lt v.toNat_lt, UInt64.ofNat_toNat]

/-! ### Structs -/

/-- The other byte order. -/
def reversed (p : Packed α) : Packed α where
  size := p.size
  bytes a := (p.bytes a).reverse
  ofBytes l := p.ofBytes l.reverse
  length_bytes a := by rw [List.length_reverse, p.length_bytes]
  ofBytes_bytes a := by rw [List.reverse_reverse, p.ofBytes_bytes]

def prod (p : Packed α) (q : Packed β) : Packed (α × β) where
  size := p.size + q.size
  bytes a := p.bytes a.1 ++ q.bytes a.2
  ofBytes l := (p.ofBytes (l.take p.size), q.ofBytes (l.drop p.size))
  length_bytes a := by rw [List.length_append, p.length_bytes, q.length_bytes]
  ofBytes_bytes a := by
    rw [List.take_left' (p.length_bytes _), List.drop_left' (p.length_bytes _), p.ofBytes_bytes,
      q.ofBytes_bytes]

def map (p : Packed α) (e : α ≃ β) : Packed β where
  size := p.size
  bytes b := p.bytes (e.symm b)
  ofBytes l := e (p.ofBytes l)
  length_bytes b := p.length_bytes _
  ofBytes_bytes b := by rw [p.ofBytes_bytes, e.apply_symm_apply]

def array (p : Packed α) : (n : ℕ) → Packed (Fin n → α)
  | 0 => ⟨0, fun _ => [], fun _ => Fin.elim0, fun _ => rfl, fun _ => Subsingleton.elim _ _⟩
  | n + 1 => (p.prod (p.array n)).map (Fin.consEquiv fun _ => α)

end Packed

end HMC.Machine
