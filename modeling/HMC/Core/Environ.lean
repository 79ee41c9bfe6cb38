import HMC.Core.Basic
import HMC.Machine.Strtoul

/-!
# Settings in the environment

`envU32OrDefault` at the level of texts. The model of the transfers takes the number that a variable
holds, as `HMC.envU32OrDefault` does; here the number is read from the bytes that `getenv` returns.

`overrides_iff` says which texts replace a default, and by what. A number of `2 ^ 32` and more does
not, but a minus sign lets numbers in at the other end: `-18446744073709551615` is `1`.

The code tests the first byte, `errno`, whether anything was converted, and the byte at which the
conversion stopped. `number_eq_ite` says that together these tests mean that the whole text is
a number of the grammar `Numeral`; `envU32OrDefault_eq` is then the link between the two levels, and
`capacity_range` is what the constructor of `RDMAEndpoint` makes of any text at all.
-/

namespace HMC

open HMC.Machine

/-- What `getenv` returns when the variable is set: the bytes before the final zero. -/
structure EnvText where
  bytes : List UInt8
  noZero : 0 ∉ bytes

namespace EnvText

/-- `v[i]`, up to the final zero. -/
def char (v : EnvText) (i : ℕ) : UInt8 := v.bytes.getD i 0

/-- `envU32OrDefault`, with what `getenv` has returned. -/
def envU32OrDefault (v : Option EnvText) (defv : ℕ) : ℕ :=
  match v with
  | none => defv
  | some v =>
    if v.char 0 = 0 then defv
    else
      let out := strtoul v.bytes
      if out.erange = true ∨ out.stop = 0 ∨ v.char out.stop ≠ 0 then defv
      else if out.value > 2 ^ 32 - 1 then defv
      else out.value

/-- The number that the text of a variable is, if `strtoul` reads all of it as one. -/
def number (v : EnvText) : Option ℕ :=
  let out := strtoul v.bytes
  if out.erange = false ∧ 0 < out.stop ∧ out.stop = v.bytes.length then some out.value else none

/-- The variable is set to a number, which is `out` when it has been negated modulo `2 ^ 64` for a
minus sign, and `out` has 32 bits. -/
def Overrides (v : Option EnvText) (out : ℕ) : Prop :=
  ∃ text neg n, v = some text ∧ Numeral text.bytes neg n ∧ n < 2 ^ 64 ∧ toUnsigned neg n = out ∧
    out < 2 ^ 32

variable {v : EnvText} {w : Option EnvText} {out defv : ℕ}

/-- The final zero is the only one. -/
theorem char_eq_zero_iff {i : ℕ} : v.char i = 0 ↔ v.bytes.length ≤ i := by
  rw [char, List.getD_eq_getElem?_getD]
  constructor
  · intro h
    by_contra hlt
    rw [List.getElem?_eq_getElem (Nat.not_le.mp hlt), Option.getD_some] at h
    exact v.noZero (h ▸ List.getElem_mem _)
  · intro h
    rw [List.getElem?_eq_none h, Option.getD_none]

/-- The tests of the code are passed by numbers only. -/
theorem number_eq_ite (v : EnvText) : v.number =
    if v.char 0 = 0 ∨ (strtoul v.bytes).erange = true ∨ (strtoul v.bytes).stop = 0 ∨
      v.char (strtoul v.bytes).stop ≠ 0 then none else some (strtoul v.bytes).value := by
  have hle := stop_le v.bytes
  rw [number, ← ite_not]
  refine if_congr ?_ rfl rfl
  rw [ne_eq, char_eq_zero_iff, char_eq_zero_iff]
  cases (strtoul v.bytes).erange with
  | true => simp
  | false =>
    simp only [true_and, Bool.false_eq_true, false_or]
    omega

/-- **The settings of the model** are read from texts: the code is `HMC.envU32OrDefault`, of the
number that the text is. -/
theorem envU32OrDefault_eq (w : Option EnvText) (defv : ℕ) :
    envU32OrDefault w defv = HMC.envU32OrDefault (w.bind number) defv := by
  cases w with
  | none => rfl
  | some v =>
    rw [envU32OrDefault, Option.bind_some, number_eq_ite]
    by_cases h0 : v.char 0 = 0
    · rw [if_pos h0, if_pos (.inl h0)]
      rfl
    · by_cases hend : (strtoul v.bytes).erange = true ∨ (strtoul v.bytes).stop = 0 ∨
        v.char (strtoul v.bytes).stop ≠ 0
      · rw [if_neg h0, if_pos hend, if_pos (.inr hend)]
        rfl
      · rw [if_neg h0, if_neg hend, if_neg (not_or.mpr ⟨h0, hend⟩)]
        rfl

/-- **Texts that are numbers.** -/
theorem number_eq_some : v.number = some out ↔
    ∃ neg n, Numeral v.bytes neg n ∧ n < 2 ^ 64 ∧ toUnsigned neg n = out := by
  rw [number, Option.ite_none_right_eq_some]
  constructor
  · rintro ⟨⟨herange, hstop⟩, hout⟩
    obtain ⟨neg, n, hn⟩ := strtoul_stop_iff.mp hstop
    rw [strtoul_of_numeral hn] at herange hout
    by_cases hbig : n ≥ 2 ^ 64
    · rw [if_pos hbig] at herange
      cases herange
    · rw [if_neg hbig] at hout
      exact ⟨neg, n, hn, Nat.not_le.mp hbig, Option.some.inj hout⟩
  · rintro ⟨neg, n, hn, hlt, rfl⟩
    have hread := strtoul_of_numeral hn
    rw [if_neg (Nat.not_le.mpr hlt)] at hread
    refine ⟨⟨?_, strtoul_stop_iff.mpr ⟨neg, n, hn⟩⟩, ?_⟩
    · rw [hread]
    · rw [hread]

theorem overrides_iff_number : Overrides w out ↔ w.bind number = some out ∧ out < 2 ^ 32 := by
  rw [Option.bind_eq_some_iff]
  constructor
  · rintro ⟨v, neg, n, hw, hn, hlt, hout, h32⟩
    exact ⟨⟨v, hw, number_eq_some.mpr ⟨neg, n, hn, hlt, hout⟩⟩, h32⟩
  · rintro ⟨⟨v, hw, hv⟩, h32⟩
    obtain ⟨neg, n, hn, hlt, hout⟩ := number_eq_some.mp hv
    exact ⟨v, neg, n, hw, hn, hlt, hout, h32⟩

/-- A variable that overrides. -/
theorem envU32OrDefault_of_overrides (h : Overrides w out) : envU32OrDefault w defv = out := by
  obtain ⟨hw, hlt⟩ := overrides_iff_number.mp h
  rw [envU32OrDefault_eq, hw, HMC.envU32OrDefault]
  exact if_neg (by omega)

/-- A variable that does not. -/
theorem envU32OrDefault_of_not (h : ∀ out, ¬ Overrides w out) : envU32OrDefault w defv = defv := by
  rw [envU32OrDefault_eq]
  cases hw : w.bind number with
  | none => rfl
  | some m =>
    have hm : ¬ m < 2 ^ 32 := fun hlt => h m (overrides_iff_number.mpr ⟨hw, hlt⟩)
    exact if_pos (by omega)

/-- **What a variable does to its default.** Whatever the default is, the result is `out` exactly
when the variable overrides with `out`, and the default exactly when it overrides with nothing.

An override gives its number whatever the default is (`envU32OrDefault_of_overrides`). For the other
directions two defaults are enough: a variable that does not override follows the default, so it
cannot give `out` for the default `out + 1`, and one that overrides with `out` cannot. -/
theorem overrides_iff (w : Option EnvText) :
    (∀ out, (∀ defv, envU32OrDefault w defv = out) ↔ Overrides w out) ∧
      ((∀ defv, envU32OrDefault w defv = defv) ↔ ∀ out, ¬ Overrides w out) := by
  constructor
  · refine fun out => ⟨fun h => ?_, fun h defv => envU32OrDefault_of_overrides h⟩
    by_cases hex : ∃ m, Overrides w m
    · obtain ⟨m, hm⟩ := hex
      have heq : m = out := (envU32OrDefault_of_overrides hm).symm.trans (h 0)
      exact heq ▸ hm
    · -- otherwise the result follows the default
      have hdef : envU32OrDefault w (out + 1) = out + 1 :=
        envU32OrDefault_of_not (not_exists.mp hex)
      exact absurd (hdef.symm.trans (h (out + 1))) (Nat.succ_ne_self out)
  · refine ⟨fun h out hout => ?_, fun h defv => envU32OrDefault_of_not h⟩
    have heq : out = out + 1 :=
      (envU32OrDefault_of_overrides hout).symm.trans (h (out + 1))
    exact absurd heq.symm (Nat.succ_ne_self out)

/-- The decimal notation of a number, as the value of a variable. -/
def ofNat (n : ℕ) : EnvText where
  bytes := decimal n
  noZero h := by cases isDigit_of_mem_decimal h

/-- **Every setting can be made**, and it is the number that was written. -/
theorem envU32OrDefault_ofNat {n : ℕ} (hn : n < 2 ^ 32) :
    envU32OrDefault (some (ofNat n)) defv = n :=
  envU32OrDefault_of_overrides ⟨_, false, n, rfl, numeral_decimal n, by omega, rfl, hn⟩

/-- `cq_capacity` and `max_wr` of a new `RDMAEndpoint`, which have 16 bits. -/
def capacity (w : Option EnvText) (defv : ℕ) : ℕ := max 16 (min (envU32OrDefault w defv) 65535)

theorem capacity_range : 16 ≤ capacity w defv ∧ capacity w defv < 2 ^ 16 := by
  rw [capacity]
  omega

/-- A capacity in the range is taken as it is written. -/
theorem capacity_ofNat {n : ℕ} (h16 : 16 ≤ n) (hlt : n < 2 ^ 16) :
    capacity (some (ofNat n)) defv = n := by
  rw [capacity, envU32OrDefault_ofNat (by omega)]
  omega

example : envU32OrDefault (some ⟨ascii " +65536", by decide⟩) 16 = 65536 := by decide

example : envU32OrDefault (some ⟨ascii "-18446744073709551615", by decide⟩) 16 = 1 := by decide

example : envU32OrDefault (some ⟨ascii "64k", by decide⟩) 16 = 16 := by decide

end EnvText

end HMC
