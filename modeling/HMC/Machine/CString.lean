import Mathlib.Data.List.TakeWhile
import Mathlib.Tactic.Common

/-!
# Strings of C

A C string ends at its first zero byte (`cStr`), and `snprintf` cuts it to the size of a field and
fills the rest with zeros (of a field that was zeroed before). `decimal` is the decimal notation of
a number, and `decimal_prefix_inj` says that a number is known from the start of a text in which a
byte that is not a digit follows it.

A field of `n` bytes holds at most `n - 1` bytes of a text, silently: what is read back of it is the
text up to its first zero and up to that length (`cStr_snprintf`). Two texts are therefore told
apart in a field only as far as they differ before the cut, and the lemmas on prefixes of decimal
numbers are about what is left of them there.
-/

namespace HMC.Machine

/-- The bytes of an ASCII text. -/
def ascii (s : String) : List UInt8 := s.toList.map Char.toUInt8

/-- What a C function reads of a buffer: the bytes before the first zero. -/
def cStr (s : List UInt8) : List UInt8 := s.takeWhile (· != 0)

/-- `snprintf(field, n, "%s", s)` of a zeroed field of `n` bytes. -/
def snprintf (n : ℕ) (s : List UInt8) : List UInt8 :=
  let text := (cStr s).take (n - 1)
  text ++ List.replicate (n - text.length) 0

section CStr

variable {s t : List UInt8} {n : ℕ}

theorem not_mem_cStr : 0 ∉ cStr s := fun h => by
  simpa using List.mem_takeWhile_imp h

theorem cStr_of_not_mem (h : 0 ∉ s) : cStr s = s := by
  refine List.takeWhile_eq_self_iff.mpr fun b hb => ?_
  exact bne_iff_ne.mpr fun h0 => h (h0 ▸ hb)

/-- What follows a zero is not read. -/
theorem cStr_append_of_mem (h : 0 ∈ s) : cStr (s ++ t) = cStr s := by
  induction s with
  | nil => cases h
  | cons b s ih =>
    by_cases hb : b = 0
    · simp [cStr, hb]
    · have hmem : 0 ∈ s := (List.mem_cons.mp h).resolve_left (Ne.symm hb)
      simpa [cStr, hb] using ih hmem

theorem cStr_append_zero (h : 0 ∉ s) : cStr (s ++ 0 :: t) = s := by
  induction s with
  | nil => rfl
  | cons b s ih =>
    rw [List.mem_cons, not_or] at h
    simpa [cStr, Ne.symm h.1] using ih h.2

/-- The text in a field. -/
theorem cStr_snprintf (hn : 0 < n) : cStr (snprintf n s) = (cStr s).take (n - 1) := by
  have hlt : ((cStr s).take (n - 1)).length < n := by
    rw [List.length_take]
    omega
  obtain ⟨k, hk⟩ := Nat.exists_eq_succ_of_ne_zero (Nat.sub_ne_zero_of_lt hlt)
  rw [snprintf, hk, List.replicate_succ]
  exact cStr_append_zero fun h => not_mem_cStr (List.mem_of_mem_take h)

end CStr

/-! ### Decimal notation -/

/-- A byte that is a decimal digit. -/
def isDigit (b : UInt8) : Bool := 48 ≤ b && b ≤ 57

/-- The decimal notation of a number. -/
def decimal (n : ℕ) : List UInt8 := (Nat.toDigits 10 n).map Char.toUInt8

theorem isDigit_toUInt8 {c : Char} (h : c.isDigit = true) :
    isDigit c.toUInt8 = true ∧ c.toUInt8.toNat = c.toNat := by
  simp only [Char.isDigit, Bool.and_eq_true, decide_eq_true_eq, ge_iff_le, UInt32.le_iff_toNat_le]
    at h
  have hnat : c.toUInt8.toNat = c.toNat := by
    have hlt : c.val.toNat < 2 ^ 8 := Nat.lt_of_le_of_lt h.2 (by decide)
    exact Nat.mod_eq_of_lt hlt
  refine ⟨?_, hnat⟩
  simp only [isDigit, Bool.and_eq_true, decide_eq_true_eq, UInt8.le_iff_toNat_le, hnat]
  exact h

theorem isDigit_of_mem_decimal {n : ℕ} {b : UInt8} (h : b ∈ decimal n) : isDigit b = true := by
  obtain ⟨c, hc, rfl⟩ := List.mem_map.mp h
  exact (isDigit_toUInt8 (Nat.isDigit_of_mem_toDigits (by decide) (by decide) hc)).1

theorem decimal_injective : Function.Injective decimal := by
  intro m n h
  -- the digits are read back from the bytes
  have hback : ∀ n, (decimal n).map (fun b => Char.ofNat b.toNat) = Nat.toDigits 10 n := by
    intro n
    have hid : ∀ c ∈ Nat.toDigits 10 n, Char.ofNat c.toUInt8.toNat = id c := fun c hc => by
      rw [(isDigit_toUInt8 (Nat.isDigit_of_mem_toDigits (by decide) (by decide) hc)).2]
      exact Char.ofNat_toNat c
    rw [decimal, List.map_map]
    exact (List.map_congr_left hid).trans (List.map_id _)
  have hdigits : Nat.toDigits 10 m = Nat.toDigits 10 n := by
    rw [← hback m, ← hback n, h]
  have hvalue := congrArg (fun cs => Nat.ofDigitChars 10 cs 0) hdigits
  simpa using hvalue

/-- Where another byte follows, the number ends. -/
theorem decimal_prefix_inj {m n : ℕ} {b : UInt8} {s t : List UInt8} (hb : isDigit b = false)
    (h : decimal m ++ b :: s <+: decimal n ++ b :: t) : m = n := by
  obtain ⟨rest, hrest⟩ := h
  rw [List.append_assoc, List.cons_append] at hrest
  have hdigits := congrArg (List.takeWhile isDigit) hrest
  rw [List.takeWhile_append_of_pos fun _ => isDigit_of_mem_decimal,
    List.takeWhile_append_of_pos fun _ => isDigit_of_mem_decimal] at hdigits
  refine decimal_injective ?_
  simpa [hb] using hdigits

end HMC.Machine
