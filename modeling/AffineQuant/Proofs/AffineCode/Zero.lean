import AffineQuant.Proofs.AffineCode.Ends
import AffineQuant.Proofs.AffineCode.Saturation

/-!
# The code of zero

Bounds are widened to hold zero so that zero gets a code of its own, the bias. For this to be of
any use the bias has to be a code: coding moves everything into the range of codes, and a bias
past the greatest one would not come back. For a code that was derived it is one, and coding and
decoding zero are then exact.

## The clamp

With many bits the rounding of the scale can push the position of zero many steps past the last
code, which is why the bias is clamped. The clamp has no price at the lower end. Its position is
then below all codes, and it is moved to the first one, where it belongs in any case
(`quantize_min_eq`).

## Exactness

That zero is exact uses nothing of the derivation but that the bias is a code and the scale finite
and positive. Coding either zero is an exact product, NaN is coded like zero by its own branch,
and decoding the bias divides the positive zero by the scale, which keeps it as it is, sign
included.
-/

namespace AffineQuant.AffineCode

open Binary

variable {b : Bounds} {c : AffineCode} {s : ℚ} {bits : ℕ}

theorem max_min_bias (h : 0 ≤ c.bias.toInt ∧ c.bias.toInt ≤ topCode bits) :
    max 0 (min (topCode bits : ℤ) c.bias.toInt) = c.bias.toInt := by
  rw [min_eq_right h.2, max_eq_right h.1]

theorem quantize_zero (hbits : 1 ≤ bits ∧ bits ≤ 31) (hs : c.scale.Denotes s)
    (hbias : 0 ≤ c.bias.toInt ∧ c.bias.toInt ≤ topCode bits) (negative : Bool) :
    c.quantize (.zero negative) bits = .ok c.bias.toInt := by
  rw [quantize_eq hbits hs (denotes_zero negative), zero_mul, roundAway_zero, zero_add,
    max_min_bias hbias]

/-- So is NaN, whatever the scale is. -/
theorem quantize_nan (hbits : 1 ≤ bits ∧ bits ≤ 31)
    (hbias : 0 ≤ c.bias.toInt ∧ c.bias.toInt ≤ topCode bits) :
    c.quantize .nan bits = .ok c.bias.toInt := by
  rw [quantize_eq_of_mul_eq_nan hbits rfl, max_min_bias hbias]

example : ([.zero true, .nan].map fun x ↦ quantize ⟨102, 51⟩ x 8) = [.ok 102, .ok 102] := by
  decide +kernel

theorem dequantize_bias (hs : c.scale.Denotes s) (hpos : 0 < s) :
    c.dequantize c.bias.toInt = 0 := by
  rw [dequantize, sub_self]
  exact zero_div_of_pos hs hpos

/-- **Zero is exact.** The bias of a derived code is the rounded position of zero, or the greatest
code where that is less. In either case the two zeros and NaN have the bias for their code, decoding
it gives the positive zero, and the lower end of the bounds, widened to hold zero, has the code
`0`. -/
theorem zero_exact (h : derive b bits = .ok c) :
    c.bias.toInt =
      min (roundAway (-b.includingZero.min.toRat * c.scale.toRat)) (2 ^ bits - 1) ∧
    (∀ negative, c.quantize (.zero negative) bits = .ok c.bias.toInt) ∧
    c.quantize .nan bits = .ok c.bias.toInt ∧
    c.dequantize c.bias.toInt = 0 ∧
    c.quantize b.includingZero.min bits = .ok 0 := by
  have hbits := (isCodable_of_derive_eq_ok h).1
  obtain ⟨lo, hi, hwide, hscale, hbias⟩ := of_derive_eq_ok h
  have hmem := biasValue_mem hwide hbits
  rw [← hbias] at hmem
  refine ⟨?_, quantize_zero hbits hscale hmem, quantize_nan hbits hmem, ?_, ?_⟩
  · rw [hbias, biasValue, hwide.min.toRat_eq, hscale.toRat_eq, natCast_topCode]
  · exact dequantize_bias hscale (scaleOf_denotes hwide hbits).2
  · exact quantize_min_eq hwide hbits hscale hbias

/-- Bounds below zero with the greatest width. The position of zero is 85 steps past the last code,
all of which the clamp takes away. -/
theorem zero_exact_clamped :
    derive ⟨ofBits 0xbb449ba6, ofBits 0xba83126f⟩ 31 = .ok ⟨2147483647, ofBits 0x5326aaab⟩ ∧
      roundAway (-(ofBits 0xbb449ba6 : Single).toRat * (ofBits 0x5326aaab : Single).toRat) =
        topCode 31 + 85 ∧
      quantize ⟨2147483647, ofBits 0x5326aaab⟩ (.zero true) 31 = .ok 2147483647 ∧
      quantize ⟨2147483647, ofBits 0x5326aaab⟩ .nan 31 = .ok 2147483647 ∧
      dequantize ⟨2147483647, ofBits 0x5326aaab⟩ 2147483647 = 0 ∧
      quantize ⟨2147483647, ofBits 0x5326aaab⟩ (ofBits 0xbb449ba6) 31 = .ok 0 := by
  have hderive : derive ⟨ofBits 0xbb449ba6, ofBits 0xba83126f⟩ 31 =
      .ok ⟨2147483647, ofBits 0x5326aaab⟩ := by decide +kernel
  have hends : Bounds.includingZero ⟨ofBits 0xbb449ba6, ofBits 0xba83126f⟩ =
      ⟨ofBits 0xbb449ba6, 0⟩ := by decide +kernel
  obtain ⟨-, hzero, hnan, hdecode, hlower⟩ := zero_exact hderive
  rw [hends] at hlower
  exact ⟨hderive, by decide +kernel, hzero true, hnan, hdecode, hlower⟩

end AffineQuant.AffineCode
