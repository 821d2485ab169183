import AffineQuant.Proofs.MulShift.Output

/-!
# Pairs of any origin

A pair that was read or put together by hand may have any multiplier and any shift: nothing that
an encoder promises is left. What the hardware does with it is still exact, and this file says so
without a hypothesis on the pair.

## The constant

The integer constant is a 64-bit integer whatever the multiplier is, since the conversion
saturates: past the ends it is the nearest end, and NaN counts as zero. The conversion is preceded
by a rounding to a whole number, whose result is again one of the 32-bit format. That costs
nothing, because the whole number nearest to a 32-bit number is a 32-bit number itself, and so the
constant is the multiplier rounded once (`roundedMultiplier_eq`).

## The wide word

The product with an input is far from the ends of a 128-bit word, in which it is formed and shifted
without a loss (`toInt_sshiftRight_wideProduct`). An arithmetic shift of the word is the floor of
the quotient also where the product is negative, and a shift that is not negative is less than 128,
as it is an 8-bit integer. Only the last step can fail, where the quotient has to be a 64-bit
integer again.
-/

namespace AffineQuant.MulShift

open Binary

variable {p : MulShift} {input : Int32}

/-! ## The constant -/

/-- The multiplier rounded, halves away from zero, as a 64-bit integer. Past the ends it is the
nearest one, and NaN counts as zero. -/
def saturated : Single → ℤ
  | .nan => 0
  | .inf negative => if negative then leastInt 64 else greatestInt 64
  | .finite negative m e h =>
    max (leastInt 64) (min (greatestInt 64) (roundAway (Binary.finite negative m e h).toRat))

theorem roundedMultiplier_eq (p : MulShift) : p.roundedMultiplier = saturated p.multiplier := by
  obtain ⟨multiplier, shift⟩ := p
  cases multiplier with
  | nan => rfl
  | inf negative => rfl
  | finite s m e hc =>
    have hwhole := (denotes_toRat (x := (.finite s m e hc : Single)) rfl).roundToWhole
    exact hwhole.toIntWithin _ _

theorem saturated_mem (x : Single) : leastInt 64 ≤ saturated x ∧ saturated x ≤ greatestInt 64 := by
  have hends : leastInt 64 ≤ greatestInt 64 := by decide
  rcases x with _ | ⟨_ | _⟩ | ⟨s, m, e, hc⟩
  · decide
  · exact ⟨hends, le_rfl⟩
  · exact ⟨le_rfl, hends⟩
  · exact ⟨le_max_left _ _, max_le hends (min_le_left _ _)⟩

/-! ## The product in a wide word -/

/-- The product as it is formed, in a word of 128 bits. -/
def wideProduct (p : MulShift) (input : Int32) : BitVec 128 :=
  BitVec.ofInt 128 input.toInt * BitVec.ofInt 128 p.roundedMultiplier

theorem product_mem (p : MulShift) (input : Int32) :
    leastInt 128 ≤ p.product input ∧ p.product input ≤ greatestInt 128 := by
  have hconstant : |p.roundedMultiplier| ≤ 2 ^ 63 := by
    obtain ⟨hlo, hhi⟩ := saturated_mem p.multiplier
    rw [roundedMultiplier_eq]
    exact abs_le.mpr ⟨hlo, hhi.trans (by decide)⟩
  obtain ⟨hlo, hhi⟩ := abs_le.mp (abs_product_le_mul hconstant input)
  exact ⟨le_trans (by decide) hlo, hhi.trans (by decide)⟩

theorem toInt_wideProduct (p : MulShift) (input : Int32) :
    (p.wideProduct input).toInt = p.product input := by
  obtain ⟨hlo, hhi⟩ := p.product_mem input
  rw [wideProduct, ← BitVec.ofInt_mul]
  refine BitVec.toInt_ofInt_eq_self (by decide) hlo ?_
  exact Int.lt_of_le_sub_one hhi

/-- An arithmetic shift of the word rounds the quotient down, whatever its sign. -/
theorem toInt_sshiftRight_wideProduct (p : MulShift) (input : Int32) (k : ℕ) :
    ((p.wideProduct input).sshiftRight k).toInt = ⌊(p.product input : ℚ) / 2 ^ k⌋ := by
  rw [BitVec.toInt_sshiftRight, toInt_wideProduct, Int.shiftRight_eq_div_pow, ← fdiv_pow2_eq_floor,
    Int.fdiv_eq_ediv_of_nonneg _ (Int.natCast_nonneg _), pow2_eq]

/-! ## The result -/

/-- The product with the constant, divided by the power of the shift and rounded down. -/
def quotient (p : MulShift) (input : Int32) : ℤ :=
  ⌊(input.toInt * p.roundedMultiplier : ℚ) / (2 : ℚ) ^ p.shift.toInt⌋

theorem quotient_eq (h : 0 ≤ p.shift.toInt) :
    p.quotient input = ⌊(p.product input : ℚ) / 2 ^ p.shift.toInt.toNat⌋ := by
  rw [quotient, product, Int.cast_mul, ← zpow_natCast, Int.toNat_of_nonneg h]

theorem output?_eq_ite (p : MulShift) (input : Int32) :
    p.output? input =
      if 0 ≤ p.shift.toInt ∧ leastInt 64 ≤ p.quotient input ∧ p.quotient input ≤ greatestInt 64 then
        some (p.quotient input)
      else none := by
  rw [output?_eq]
  by_cases h : 0 ≤ p.shift.toInt
  · rw [if_neg h.not_gt, ← quotient_eq h]
    simp only [h, true_and]
  · rw [if_pos (not_le.mp h), if_neg fun hall ↦ h hall.1]

/-- **The result of any pair.** The constant is the multiplier rounded and saturated. Its product
with an input is formed and shifted in 128 bits without a loss, since the shift is less than the
width of the word and an arithmetic one. The result is the quotient rounded down if the shift is not
negative and the quotient is a 64-bit integer; otherwise there is none. -/
theorem output_outcome (p : MulShift) (input : Int32) :
    p.roundedMultiplier = saturated p.multiplier ∧
    (leastInt 128 ≤ p.product input ∧ p.product input ≤ greatestInt 128) ∧
    (p.wideProduct input).toInt = p.product input ∧
    (0 ≤ p.shift.toInt → p.shift.toInt < 128 ∧
      ((p.wideProduct input).sshiftRight p.shift.toInt.toNat).toInt = p.quotient input) ∧
    p.output? input =
      if 0 ≤ p.shift.toInt ∧ leastInt 64 ≤ p.quotient input ∧ p.quotient input ≤ greatestInt 64 then
        some (p.quotient input)
      else none := by
  refine ⟨p.roundedMultiplier_eq, p.product_mem input, p.toInt_wideProduct input, ?_,
    p.output?_eq_ite input⟩
  intro h
  rw [quotient_eq h]
  exact ⟨p.shift.toInt_lt, p.toInt_sshiftRight_wideProduct input _⟩

-- The greatest multiplier saturates, and twice the constant is no longer a 64-bit integer unless it
-- is shifted.
example : output? ⟨ofBits 0x7f7fffff, 0⟩ 2 = none ∧
    output? ⟨ofBits 0x7f7fffff, 1⟩ (-2) = some (1 - 2 ^ 63) := by decide +kernel

end AffineQuant.MulShift
