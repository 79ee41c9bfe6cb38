import Mathlib.Algebra.Group.Nat.Even
import Mathlib.Data.List.Basic
import HMC.Machine.CString

/-!
# `strtoul`

`strtoul(s, &end, 10)` in the C locale, with an `unsigned long` of 64 bits. It skips white space,
takes a sign, and reads digits as long as there are any; a minus sign negates the number modulo
`2 ^ 64`. `Numeral` is the grammar of the texts that are read to their end (`strtoul_stop_iff`), and
`strtoul_of_numeral` is what is read of them.

Both directions go by the three scans of the function. A text of the grammar is split by them as it
was put together, because a digit is no white space and a sign is no digit; and a text that is read
to its end is the concatenation of what the scans took, which is a derivation of the grammar.
Overflow is decided on the digits, before the sign is applied, so `-1` is read as `2 ^ 64 - 1`
without an error.
-/

namespace HMC.Machine

/-- `isspace`. -/
def isSpace (b : UInt8) : Bool := b == 32 || (9 ≤ b && b ≤ 13)

/-- The value of digits. -/
def ofDigits (digits : List UInt8) : ℕ := digits.foldl (fun n b => 10 * n + (b.toNat - 48)) 0

/-- What `strtoul` returns, how many bytes are before `*end`, and whether `errno` is `ERANGE`. -/
structure Strtoul where
  value : ℕ
  stop : ℕ
  erange : Bool
  deriving DecidableEq

/-- Whether there is a minus sign, and what follows the sign. -/
def takeSign : List UInt8 → Bool × List UInt8
  | [] => (false, [])
  | b :: t => if b = 45 then (true, t) else if b = 43 then (false, t) else (false, b :: t)

/-- A number with its sign, as an `unsigned long`. -/
def toUnsigned (neg : Bool) (n : ℕ) : ℕ := if neg then (2 ^ 64 - n) % 2 ^ 64 else n

/-- `strtoul` in base ten. Without digits nothing is converted, and `*end` is `s`. -/
def strtoul (s : List UInt8) : Strtoul :=
  let signed := takeSign (s.dropWhile isSpace)
  let digits := signed.2.takeWhile isDigit
  let stop := s.length - (signed.2.dropWhile isDigit).length
  if digits = [] then ⟨0, 0, false⟩
  else if ofDigits digits ≥ 2 ^ 64 then ⟨2 ^ 64 - 1, stop, true⟩
  else ⟨toUnsigned signed.1 (ofDigits digits), stop, false⟩

/-- A sign, or none. -/
inductive Sign : List UInt8 → Bool → Prop
  | none : Sign [] false
  | plus : Sign [43] false
  | minus : Sign [45] true

/-- A text that is a number: white space, perhaps a sign, and digits up to its end. -/
inductive Numeral : List UInt8 → Bool → ℕ → Prop
  | intro {spaces sign digits : List UInt8} {neg : Bool} : (∀ b ∈ spaces, isSpace b = true) →
      Sign sign neg → digits ≠ [] → (∀ b ∈ digits, isDigit b = true) →
      Numeral (spaces ++ (sign ++ digits)) neg (ofDigits digits)

/-! ### Scanning -/

variable {s t sign digits : List UInt8} {neg : Bool} {b : UInt8} {n : ℕ}

theorem isSpace_of_isDigit (h : isDigit b = true) : isSpace b = false := by
  simp only [isDigit, isSpace, Bool.and_eq_true, decide_eq_true_eq, UInt8.le_iff_toNat_le,
    Bool.or_eq_false_iff, beq_eq_false_iff_ne, Bool.and_eq_false_iff, decide_eq_false_iff_not,
    ne_eq, ← UInt8.toNat_inj, UInt8.reduceToNat] at h ⊢
  omega

/-- A sign is taken off. -/
theorem takeSign_append (hs : Sign sign neg) (hne : digits ≠ [])
    (hd : ∀ b ∈ digits, isDigit b = true) : takeSign (sign ++ digits) = (neg, digits) := by
  cases hs with
  | plus => rfl
  | minus => rfl
  | none =>
    obtain ⟨b, t, rfl⟩ := List.exists_cons_of_ne_nil hne
    have hb := hd b List.mem_cons_self
    rw [List.nil_append, takeSign, if_neg, if_neg]
    · rintro rfl
      cases hb
    · rintro rfl
      cases hb

/-- What `takeSign` takes off is a sign. -/
theorem exists_sign (s : List UInt8) :
    ∃ sign, Sign sign (takeSign s).1 ∧ s = sign ++ (takeSign s).2 := by
  cases s with
  | nil => exact ⟨[], .none, rfl⟩
  | cons b t =>
    rw [takeSign]
    split_ifs with hminus hplus
    · exact ⟨[45], .minus, by rw [hminus]; rfl⟩
    · exact ⟨[43], .plus, by rw [hplus]; rfl⟩
    · exact ⟨[], .none, rfl⟩

/-- Neither a sign nor a digit is white space. -/
theorem dropWhile_isSpace (hs : Sign sign neg) (hne : digits ≠ [])
    (hd : ∀ b ∈ digits, isDigit b = true) (hsp : ∀ b ∈ t, isSpace b = true) :
    (t ++ (sign ++ digits)).dropWhile isSpace = sign ++ digits := by
  rw [List.dropWhile_append_of_pos hsp]
  cases hs with
  | plus => rfl
  | minus => rfl
  | none =>
    obtain ⟨b, u, rfl⟩ := List.exists_cons_of_ne_nil hne
    rw [List.nil_append, List.dropWhile_cons_of_neg]
    simp [isSpace_of_isDigit (hd b List.mem_cons_self)]

/-! ### What is read -/

theorem stop_le (s : List UInt8) : (strtoul s).stop ≤ s.length := by
  rw [strtoul]
  split_ifs
  · exact Nat.zero_le _
  · exact Nat.sub_le _ _
  · exact Nat.sub_le _ _

/-- **A number is read to its end.** With digits for `2 ^ 64` or more, the greatest `unsigned long`
is read and `errno` is set, whatever the sign is. -/
theorem strtoul_of_numeral (h : Numeral s neg n) : strtoul s =
    if n ≥ 2 ^ 64 then ⟨2 ^ 64 - 1, s.length, true⟩ else ⟨toUnsigned neg n, s.length, false⟩ := by
  obtain ⟨hsp, hs, hne, hd⟩ := h
  rw [strtoul, dropWhile_isSpace hs hne hd hsp, takeSign_append hs hne hd]
  have htake := List.takeWhile_eq_self_iff.mpr hd
  have hdrop := List.dropWhile_eq_nil_iff.mpr hd
  simp only [htake, hdrop, if_neg hne, List.length_nil, Nat.sub_zero]

theorem stop_of_numeral (h : Numeral s neg n) : (strtoul s).stop = s.length := by
  rw [strtoul_of_numeral h]
  split_ifs <;> rfl

theorem length_pos_of_numeral (h : Numeral s neg n) : 0 < s.length := by
  obtain ⟨-, -, hne, -⟩ := h
  have := List.length_pos_iff.mpr hne
  simp only [List.length_append]
  omega

/-- **The texts that are read to their end** are the numbers. -/
theorem strtoul_stop_iff :
    0 < (strtoul s).stop ∧ (strtoul s).stop = s.length ↔ ∃ neg n, Numeral s neg n := by
  constructor
  · rintro ⟨hpos, hstop⟩
    obtain ⟨sign, hs, hsign⟩ := exists_sign (s.dropWhile isSpace)
    have hsplit := List.takeWhile_append_dropWhile (p := isSpace) (l := s)
    rw [strtoul] at hpos hstop
    generalize takeSign (s.dropWhile isSpace) = signed at hs hsign hpos hstop
    have hne : signed.2.takeWhile isDigit ≠ [] := by
      intro hnil
      rw [if_pos hnil] at hpos
      exact Nat.lt_irrefl 0 hpos
    have hrest : (signed.2.dropWhile isDigit).length = 0 := by
      rw [if_neg hne] at hpos hstop
      split_ifs at hpos hstop <;> dsimp only at hpos hstop <;> omega
    -- all that follows the sign are digits
    have hall : signed.2.takeWhile isDigit = signed.2 := by
      have happ := List.takeWhile_append_dropWhile (p := isDigit) (l := signed.2)
      rwa [List.length_eq_zero_iff.mp hrest, List.append_nil] at happ
    rw [hsign, ← hall] at hsplit
    rw [← hsplit]
    exact ⟨_, _, .intro (fun b => List.mem_takeWhile_imp) hs hne fun b => List.mem_takeWhile_imp⟩
  · rintro ⟨neg, n, h⟩
    rw [stop_of_numeral h]
    exact ⟨length_pos_of_numeral h, rfl⟩

/-! ### Decimal notation -/

theorem ofDigits_decimal (n : ℕ) : ofDigits (decimal n) = n := by
  have hdigit : ∀ m, ∀ c ∈ Nat.toDigits 10 n,
      10 * m + (c.toUInt8.toNat - 48) = 10 * m + (c.toNat - '0'.toNat) := fun m c hc => by
    rw [(isDigit_toUInt8 (Nat.isDigit_of_mem_toDigits (by decide) (by decide) hc)).2]
    rfl
  rw [ofDigits, decimal, List.foldl_map, List.foldl_ext _ _ _ hdigit, ← Nat.ofDigitChars_eq_foldl]
  exact Nat.ofDigitChars_ten_toDigits

theorem decimal_ne_nil (n : ℕ) : decimal n ≠ [] := by
  rw [decimal, ne_eq, List.map_eq_nil_iff]
  exact Nat.toDigits_ne_nil

/-- The decimal notation is a number. -/
theorem numeral_decimal (n : ℕ) : Numeral (decimal n) false n := by
  have h : Numeral ([] ++ ([] ++ decimal n)) false (ofDigits (decimal n)) :=
    .intro (fun _ hb => absurd hb List.not_mem_nil) .none (decimal_ne_nil n)
      fun _ => isDigit_of_mem_decimal
  rwa [ofDigits_decimal] at h

end HMC.Machine
