import AffineQuant.Binary.Basic
import Mathlib.Data.Nat.Bitwise

/-!
# Bit patterns as words

What is seen of a number by operations on its 32-bit pattern: masking a field, shifting it down to
read it, and putting another exponent field in its place. Rounding and the other operations on
values have no part in this.

## Fields

The pattern of a finite number is the sum of its three fields, each with its weight
(`toBits_finite`), and a field is a quotient followed by a remainder. Masks and shifts are turned
into these once, for an arbitrary word (`exponentField_eq`, `fields_or_halfExponent`), and from
there on everything is division by powers of two. Working with the bits themselves would mean one
case for each of the 32 positions.

The two cases of the encoding, full significands and those at the least exponent, are merged into
`biasedExponent`: the field is zero for the latter, and the tail is `m % 2 ^ 23` for both.

## A new exponent

The new pattern is never written down. Decoding looks at the three fields only, so it is enough to
know what they are: the sign and the tail are the old ones and the exponent field is that of
`1/2` (`ofBits_of_half`). `withHalfExponent_eq` reads the result off as sign, significand and
exponent.
-/

namespace AffineQuant

/-! ## Weights of the fields -/

namespace Format

theorem single_fieldWeight : single.fieldWeight = 2 ^ 23 := rfl

theorem single_topField : single.topField = 255 := rfl

theorem single_signWeight : single.signWeight = 2 ^ 31 := by decide

end Format

namespace Binary

variable {s : Bool} {m : ℕ} {e : ℤ}

/-! ## Fields of a word -/

/-- The bit pattern of a number as a word. -/
def word (x : Single) : BitVec 32 := BitVec.ofNat 32 x.toBits

/-- The bits of the exponent field. -/
def exponentMask : BitVec 32 := 0xff#32 <<< 23

/-- The exponent field of the numbers from `1/2` up to `1`, in its place. -/
def halfExponent : BitVec 32 := 126#32 <<< 23

/-- The exponent field of a number. -/
def exponentField (x : Single) : ℕ := ((x.word &&& exponentMask) >>> 23).toNat

/-- The number with the exponent field of `1/2` in the place of its own. -/
def withHalfExponent (x : Single) : Single :=
  ofBits ((x.word &&& ~~~exponentMask) ||| halfExponent).toNat

theorem toNat_word (x : Single) : x.word.toNat = x.toBits % 2 ^ 32 := BitVec.toNat_ofNat _ _

theorem exponentField_eq (x : Single) : x.exponentField = x.toBits / 2 ^ 23 % 2 ^ 8 := by
  have hmask : exponentMask.toNat / 2 ^ 23 = 2 ^ 8 - 1 := by decide
  rw [exponentField, BitVec.toNat_ushiftRight, BitVec.toNat_and, Nat.shiftRight_eq_div_pow,
    Nat.and_div_two_pow, hmask, Nat.and_two_pow_sub_one_eq_mod, toNat_word]
  omega

/-- The new word has the old sign, the new exponent field and the old tail. -/
theorem fields_or_halfExponent (w : BitVec 32) :
    ((w &&& ~~~exponentMask) ||| halfExponent).toNat / 2 ^ 31 = w.toNat / 2 ^ 31 % 2 ∧
      ((w &&& ~~~exponentMask) ||| halfExponent).toNat / 2 ^ 23 % 2 ^ 8 = 126 ∧
      ((w &&& ~~~exponentMask) ||| halfExponent).toNat % 2 ^ 23 = w.toNat % 2 ^ 23 := by
  rw [BitVec.toNat_or, BitVec.toNat_and]
  refine ⟨?_, ?_, ?_⟩
  · have hkept : (~~~exponentMask).toNat / 2 ^ 31 = 2 ^ 1 - 1 := by decide
    have hnew : halfExponent.toNat / 2 ^ 31 = 0 := by decide
    rw [Nat.or_div_two_pow, Nat.and_div_two_pow, hkept, hnew, Nat.and_two_pow_sub_one_eq_mod,
      Nat.or_zero, pow_one]
  · have hkept : (~~~exponentMask).toNat / 2 ^ 23 % 2 ^ 8 = 0 := by decide
    have hnew : halfExponent.toNat / 2 ^ 23 % 2 ^ 8 = 126 := by decide
    rw [Nat.or_div_two_pow, Nat.or_mod_two_pow, Nat.and_div_two_pow, Nat.and_mod_two_pow, hkept,
      hnew, Nat.and_zero, Nat.zero_or]
  · have hkept : (~~~exponentMask).toNat % 2 ^ 23 = 2 ^ 23 - 1 := by decide
    have hnew : halfExponent.toNat % 2 ^ 23 = 0 := by decide
    rw [Nat.or_mod_two_pow, Nat.and_mod_two_pow, hkept, hnew, Nat.and_two_pow_sub_one_eq_mod,
      Nat.mod_mod, Nat.or_zero]

/-! ## Fields of a number -/

/-- The exponent field of `m * 2 ^ e`, which is zero unless the significand is full. -/
def biasedExponent (m : ℕ) (e : ℤ) : ℕ := if m < 2 ^ 23 then 0 else (e + 150).toNat

theorem biasedExponent_lt (hc : Format.single.Canonical m e) : biasedExponent m e < 255 := by
  have hle : e ≤ 104 := hc.2.2.1
  rw [biasedExponent]
  split <;> omega

theorem biasedExponent_eq_zero_iff (hc : Format.single.Canonical m e) :
    biasedExponent m e = 0 ↔ m < 2 ^ 23 := by
  have hle : -149 ≤ e := hc.2.1
  rw [biasedExponent]
  split <;> omega

theorem toBits_finite (hc : Format.single.Canonical m e) :
    (finite s m e hc).toBits = s.toNat * 2 ^ 31 + biasedExponent m e * 2 ^ 23 + m % 2 ^ 23 := by
  have hm : m < 2 ^ 24 := hc.1
  have hexp : e - Format.single.leastExp + 1 = e + 150 := by
    change e - -149 + 1 = e + 150
    omega
  have hsign : (if s = true then 2 ^ 31 else 0) = s.toNat * 2 ^ 31 := by
    cases s <;> rfl
  rw [toBits, isNegative, Format.single_signWeight, Format.single_fieldWeight, hexp, hsign,
    biasedExponent]
  by_cases hshort : m < 2 ^ 23
  · rw [if_pos hshort, if_pos hshort]
    omega
  · rw [if_neg hshort, if_neg hshort]
    omega

theorem exponentField_finite (hc : Format.single.Canonical m e) :
    (finite s m e hc).exponentField = biasedExponent m e := by
  have hlt := biasedExponent_lt hc
  rw [exponentField_eq, toBits_finite]
  omega

/-- With the exponent field of `1/2`, the significand is the tail with a leading bit in front. -/
theorem ofBits_of_half {n : ℕ} (h : n / 2 ^ 23 % 2 ^ 8 = 126) :
    (ofBits n : Single) = ofParts (n / 2 ^ 31 % 2 == 1) (2 ^ 23 + n % 2 ^ 23) (-24) := by
  have hfield : n / 2 ^ 23 % (255 + 1) = 126 := h
  rw [ofBits, Format.single_signWeight, Format.single_fieldWeight, Format.single_topField, hfield]
  rfl

theorem withHalfExponent_eq (hc : Format.single.Canonical m e) (hfull : 2 ^ 23 ≤ m) :
    (finite s m e hc).withHalfExponent = ofParts s m (-24) := by
  have hm : m < 2 ^ 24 := hc.1
  have hlt := biasedExponent_lt hc
  obtain ⟨hsign, hfield, htail⟩ := fields_or_halfExponent (finite s m e hc).word
  rw [toNat_word, toBits_finite] at hsign htail
  have hs : (s.toNat * 2 ^ 31 + biasedExponent m e * 2 ^ 23 + m % 2 ^ 23) % 2 ^ 32 / 2 ^ 31 % 2
      = s.toNat := by
    have := s.toNat_le
    omega
  have ht : 2 ^ 23 + (s.toNat * 2 ^ 31 + biasedExponent m e * 2 ^ 23 + m % 2 ^ 23) % 2 ^ 32 % 2 ^ 23
      = m := by
    omega
  rw [withHalfExponent, ofBits_of_half hfield, hsign, htail, hs, ht]
  cases s <;> rfl

end Binary

end AffineQuant
