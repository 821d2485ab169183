import AffineQuant.Proofs.Binary.Infinite
import AffineQuant.Proofs.Binary.Midpoint

/-!
# Overflow of the 32-bit format

When a rounding to 32 bits gives an infinity. The greatest 32-bit number is
`(2 ^ 24 - 1) * 2 ^ 104`. What exceeds it by less than half a unit in the last place is rounded
down to it, and from the midpoint on, where the tie goes up, the result is an infinity. So a
single rational decides it, the midpoint itself (`isFinite_round_iff`).

## The bound

`overflowBound` lies strictly between the greatest number and the threshold `2 ^ 128` of the
format. The threshold is a bound on what is *held*, and a rational below it may still overflow;
the greatest number is a bound on the result, and a rational above it may still be rounded down.
Conditions on exact results have to be put with the bound in between. That the midpoint is on the
overflowing side is the one tie that matters here, and it is computed (`nearest_overflowBound`).

## Two operations

A difference that is divided by a positive number overflows at the first operation or at the
second. The second works on the rounded difference, and that is how the condition is stated
(`sub_div_outcome`): an infinity at the first stays one at the second, so both conditions
together are necessary as well as sufficient.
-/

namespace AffineQuant

/-- The least magnitude that is rounded past the greatest 32-bit number. -/
def overflowBound : ℚ := 2 ^ 128 - 2 ^ 103

namespace Format

theorem single_threshold : single.threshold = 2 ^ 128 := by
  rw [threshold]
  norm_num [single]

theorem canonical_greatest : single.Canonical (pow2 24 - 1) 104 := by decide

theorem midpoint_greatest : midpoint (pow2 24 - 1) 104 = overflowBound := by
  rw [midpoint, overflowBound, pow2_eq]
  norm_num

theorem nearest_overflowBound : single.nearest overflowBound = 2 ^ 128 := by
  decide +kernel

theorem abs_nearest_le_greatest {q : ℚ} (h : |q| < overflowBound) :
    |single.nearest q| ≤ (pow2 24 - 1 : ℕ) * (2 : ℚ) ^ (104 : ℤ) := by
  rw [abs_nearest]
  rw [← midpoint_greatest] at h
  exact canonical_greatest.nearest_le_of_lt_midpoint h

theorem Holds.abs_lt_overflowBound {q : ℚ} (h : single.Holds q) : |q| < overflowBound := by
  have hle : |q| ≤ ((2 : ℚ) ^ (24 : ℤ) - 1) * (2 : ℚ) ^ (104 : ℤ) := h.abs_le_greatest
  refine hle.trans_lt ?_
  rw [overflowBound]
  norm_num

theorem abs_nearest_lt_iff {q : ℚ} :
    |single.nearest q| < single.threshold ↔ |q| < overflowBound := by
  constructor
  · intro h
    by_contra hle
    have hmono := nearest_mono (f := single) (not_lt.mp hle)
    rw [nearest_overflowBound, ← single_threshold, ← abs_nearest] at hmono
    exact absurd h (not_lt.mpr hmono)
  · intro h
    exact (abs_nearest_le_greatest h).trans_lt ((le_abs_self _).trans_lt canonical_greatest.holds.1)

end Format

namespace Binary

variable {x y : Single} {q r : ℚ}

theorem isFinite_round_iff (z : Bool) (q : ℚ) :
    (round z q : Single).isFinite = true ↔ |q| < overflowBound := by
  rw [← Format.abs_nearest_lt_iff]
  rcases round_nearest (f := .single) z q with ⟨hlt, hdenotes⟩ | ⟨hle, hinf⟩
  · exact iff_of_true hdenotes.isFinite_eq hlt
  · rw [hinf]
    exact iff_of_false Bool.false_ne_true (not_lt.mpr hle)

theorem Denotes.isFinite_div_iff (hx : x.Denotes q) (hy : y.Denotes r) (hr : 0 < r) :
    (x / y).isFinite = true ↔ |q| < overflowBound * r := by
  obtain ⟨z, hz⟩ := hx.exists_div_eq hy hr.ne'
  rw [hz, isFinite_round_iff, abs_div, abs_of_pos hr, div_lt_iff₀ hr]

/-- A difference that is divided by a positive number is finite if neither the difference nor the
quotient overflows, and in any case not NaN. -/
theorem sub_div_outcome {d : Single} {σ : ℚ} (hx : x.Denotes q) (hy : y.Denotes r)
    (hd : d.Denotes σ) (hσ : 0 < σ) :
    ((x - y) / d).isNaN = false ∧
      (((x - y) / d).isFinite = true ↔
        |q - r| < overflowBound ∧ |Format.single.nearest (q - r)| < overflowBound * σ) := by
  obtain ⟨z, hz⟩ := hx.exists_sub_eq hy
  rw [hz]
  rcases round_nearest (f := .single) z (q - r) with ⟨hlt, hdiff⟩ | ⟨hle, hinf⟩
  · obtain ⟨z', hquot⟩ := hdiff.exists_div_eq hd hσ.ne'
    refine ⟨by rw [hquot]; exact isNaN_round _ _, ?_⟩
    rw [hdiff.isFinite_div_iff hd hσ]
    exact (and_iff_right (Format.abs_nearest_lt_iff.mp hlt)).symm
  · rw [hinf, inf_div_of_pos _ hd hσ]
    refine ⟨rfl, iff_of_false Bool.false_ne_true ?_⟩
    rintro ⟨hlt, -⟩
    exact absurd (Format.abs_nearest_lt_iff.mpr hlt) (not_lt.mpr hle)

end Binary

end AffineQuant
