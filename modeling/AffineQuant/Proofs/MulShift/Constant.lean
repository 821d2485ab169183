import AffineQuant.Proofs.MulShift.Encode

/-!
# The integer constant of an encoded pair

The encoder keeps the multiplier strictly below `2 ^ bits`, but the constant of the generated code
is the multiplier rounded, and rounding can carry. This file settles when it does.

## The carry

The constant reaches `2 ^ bits` exactly if the scaled value lies in the last half unit below that
power, and then it is `2 ^ bits` itself, which needs one bit more than the register has
(`Encodes.abs_roundedMultiplier_lt_iff`). It never goes further, since rounding is monotone and
the power is a whole number. The multiplier `255.99998…` in a register of 8 bits is an instance.

With 24 bits or more for the magnitude there is no such value: a number of the 32-bit format that
has a fractional part is below `2 ^ 23`, so a multiplier near the end of the register is whole and
is its own constant.

## The condition on the value

The scaled value depends on the shift that the encoder found. To have a condition on the arguments
alone, `roundedMultiplier_fits_iff` quantifies over all shifts within the budget that stay below
the register. Only the greatest of them matters: any other leaves the value below half of the
register, hence outside of the last half unit.
-/

namespace AffineQuant.MulShift

open Binary

variable {value : Single} {q : ℚ} {bits : ℤ} {width budget : ℕ} {signed : Bool} {p : MulShift}

/-! ## Rounding the multiplier -/

/-- No encoded multiplier comes near the ends of a 64-bit word. -/
theorem Encodes.roundedMultiplier_eq (h : p.Encodes q bits budget) (hbits : bits ≤ 32) :
    p.roundedMultiplier = roundAway (q * (2 : ℚ) ^ p.shift.toInt) := by
  have hlt : |q * (2 : ℚ) ^ p.shift.toInt| < ((2 ^ 33 : ℤ) : ℚ) - 1 / 2 := by
    rw [abs_mul_zpow_two]
    calc |q| * (2 : ℚ) ^ p.shift.toInt < (2 : ℚ) ^ bits := h.scaled_lt
      _ ≤ (2 : ℚ) ^ (32 : ℤ) := zpow_two_le_iff.mpr hbits
      _ ≤ ((2 ^ 33 : ℤ) : ℚ) - 1 / 2 := by norm_num
  have hword := abs_lt.mp (abs_roundAway_lt_iff.mpr hlt)
  refine h.multiplier.roundToWhole.toIntWithin_eq ?_ ?_
  · exact le_trans (by decide) hword.1.le
  · exact hword.2.le.trans (by decide)

theorem natCast_pow_toNat (h : 0 ≤ bits) : (((2 ^ bits.toNat : ℕ) : ℤ) : ℚ) = (2 : ℚ) ^ bits := by
  obtain ⟨n, rfl⟩ := Int.eq_ofNat_of_zero_le h
  push_cast
  rfl

theorem Encodes.abs_roundedMultiplier_lt_iff (h : p.Encodes q bits budget) (hlo : 0 ≤ bits)
    (hhi : bits ≤ 32) :
    |(p.roundedMultiplier : ℚ)| < (2 : ℚ) ^ bits ↔
      |q| * (2 : ℚ) ^ p.shift.toInt < (2 : ℚ) ^ bits - 1 / 2 := by
  have hcarry := abs_roundAway_lt_iff (q := q * (2 : ℚ) ^ p.shift.toInt)
    (n := (2 ^ bits.toNat : ℕ))
  rw [natCast_pow_toNat hlo, abs_mul_zpow_two] at hcarry
  rw [h.roundedMultiplier_eq hhi, ← hcarry, ← natCast_pow_toNat hlo, ← Int.cast_abs, Int.cast_lt]

theorem Encodes.abs_roundedMultiplier_le (h : p.Encodes q bits budget) (hlo : 0 ≤ bits)
    (hhi : bits ≤ 32) : |(p.roundedMultiplier : ℚ)| ≤ (2 : ℚ) ^ bits := by
  have hlt : |q * (2 : ℚ) ^ p.shift.toInt| < (((2 ^ bits.toNat : ℕ) : ℤ) + 1 : ℤ) - 1 / 2 := by
    rw [Int.cast_add, natCast_pow_toNat hlo, abs_mul_zpow_two]
    have := h.scaled_lt
    push_cast
    linarith
  have hle := Int.lt_add_one_iff.mp (abs_roundAway_lt_iff.mpr hlt)
  rw [h.roundedMultiplier_eq hhi, ← natCast_pow_toNat hlo, ← Int.cast_abs, Int.cast_le]
  exact hle

theorem Encodes.abs_roundedMultiplier_lt (h : p.Encodes q bits budget) (hlo : 24 ≤ bits)
    (hhi : bits ≤ 32) : |(p.roundedMultiplier : ℚ)| < (2 : ℚ) ^ bits := by
  have habs := abs_mul_zpow_two q p.shift.toInt
  -- A multiplier with a fractional part is below half the register.
  rcases h.multiplier.holds.whole_or_abs_lt with ⟨n, hn⟩ | hlt
  · rw [h.roundedMultiplier_eq hhi, hn, roundAway_intCast, ← hn, habs]
    exact h.scaled_lt
  · rw [h.abs_roundedMultiplier_lt_iff (by omega) hhi, ← habs]
    have hle : (2 : ℚ) ^ (24 : ℤ) ≤ (2 : ℚ) ^ bits := zpow_two_le_iff.mpr hlo
    have hlt' : |q * (2 : ℚ) ^ p.shift.toInt| < (2 : ℚ) ^ (23 : ℤ) := hlt
    norm_num at hle hlt' ⊢
    linarith

/-! ## The condition on the value -/

/-- **The register of the constant.** The constant of an encoded pair fits the register exactly if
no shift within the budget takes the value into the last half unit below `2 ^ bits`. Otherwise it
is `2 ^ bits` or its negative. -/
theorem roundedMultiplier_fits_iff (h : encode value width budget signed = .ok p) :
    (|(p.roundedMultiplier : ℚ)| < (2 : ℚ) ^ magnitudeBits width signed ↔
      ∀ s : ℕ, s ≤ budget → |value.toRat| * 2 ^ s < (2 : ℚ) ^ magnitudeBits width signed →
        |value.toRat| * 2 ^ s < (2 : ℚ) ^ magnitudeBits width signed - 1 / 2) ∧
      |(p.roundedMultiplier : ℚ)| ≤ (2 : ℚ) ^ magnitudeBits width signed ∧
      (24 ≤ magnitudeBits width signed →
        |(p.roundedMultiplier : ℚ)| < (2 : ℚ) ^ magnitudeBits width signed) := by
  obtain ⟨-, hlo, hhi, -, -, -⟩ := of_encode_eq_ok h
  have hp := encodes_of_encode_eq_ok h
  generalize value.toRat = q at hp ⊢
  generalize magnitudeBits width signed = bits at hlo hhi hp ⊢
  refine ⟨?_, hp.abs_roundedMultiplier_le hlo hhi,
    fun hbits ↦ hp.abs_roundedMultiplier_lt hbits hhi⟩
  rw [hp.abs_roundedMultiplier_lt_iff hlo hhi]
  obtain ⟨n, hn⟩ := Int.eq_ofNat_of_zero_le hp.shift_nonneg
  have hle := hp.shift_le
  have habs := hp.scaled_lt
  rw [hn, zpow_natCast] at habs ⊢
  constructor
  · -- The encoder has taken the greatest admissible shift, and no other comes closer.
    intro hlt s hs hs'
    by_cases hq : q = 0
    · subst hq
      simpa using hlt
    · have hsn : s ≤ n := by
        have := hp.greatest hq s (by omega) (by rwa [zpow_natCast])
        omega
      exact lt_of_le_of_lt (mul_le_mul_of_nonneg_left (pow_le_pow_right₀ one_le_two hsn)
        (abs_nonneg q)) hlt
  · intro hall
    exact hall n (by omega) habs

/-- The greatest number below one, in a register of 8 bits: the multiplier `255.99998…` is below
`256`, and the constant is not. -/
theorem roundedMultiplier_carries_belowOne :
    encode (ofBits 0x3f7fffff) 8 8 false = .ok ⟨ofBits 0x437fffff, 8⟩ ∧
      roundedMultiplier ⟨ofBits 0x437fffff, 8⟩ = 256 ∧
      ¬|(roundedMultiplier ⟨ofBits 0x437fffff, 8⟩ : ℚ)| < (2 : ℚ) ^ magnitudeBits 8 false := by
  have h : roundedMultiplier ⟨ofBits 0x437fffff, 8⟩ = 256 := by decide +kernel
  refine ⟨by decide +kernel, h, ?_⟩
  rw [h]
  decide +kernel

/-- The multiplier `255.49998…` is rounded down, so no shift takes the value into the last half
unit. -/
theorem roundedMultiplier_fits_belowHalf :
    encode (ofBits 0x3f7f7fff) 8 8 false = .ok ⟨ofBits 0x437f7fff, 8⟩ ∧
      roundedMultiplier ⟨ofBits 0x437f7fff, 8⟩ = 255 ∧
      ∀ s : ℕ, s ≤ 8 →
        |(ofBits 0x3f7f7fff : Single).toRat| * 2 ^ s < (2 : ℚ) ^ magnitudeBits 8 false →
        |(ofBits 0x3f7f7fff : Single).toRat| * 2 ^ s < (2 : ℚ) ^ magnitudeBits 8 false - 1 / 2 := by
  have h : encode (ofBits 0x3f7f7fff) 8 8 false = .ok ⟨ofBits 0x437f7fff, 8⟩ := by decide +kernel
  have hconst : roundedMultiplier ⟨ofBits 0x437f7fff, 8⟩ = 255 := by decide +kernel
  refine ⟨h, hconst, (roundedMultiplier_fits_iff h).1.mp ?_⟩
  rw [hconst]
  decide +kernel

end AffineQuant.MulShift
