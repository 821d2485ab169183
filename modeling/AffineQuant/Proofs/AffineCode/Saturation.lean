import AffineQuant.Proofs.AffineCode.Accuracy
import AffineQuant.Proofs.Binary.Order

/-!
# The codes of all numbers

Coding as a function on the whole format: with any scale and any bias, and at every number,
infinity and NaN. Accuracy is a question about derived codes and is treated elsewhere; here it is
about what the code of a number is at all, and in which order codes come.

## Finite numbers

The position of a number is computed in the 64-bit format, where the product with the scale is
exact and the sum with the bias need not be. Among finite numbers nothing of that is seen in the
code: a sum that has to be rounded lies far outside the range of codes, into which it is moved
(`quantize_eq`).

## Everything else

What is left are the products that are no finite number. They are NaN, which is coded like zero,
or an infinity, which has the code of its end, so every number has a code in the range, whatever
the scale is (`exists_quantize_eq`).

For a positive scale the code of a finite number is a monotone function of its value, also if the
scale is infinite and the code is one of three (`exists_monotone_quantize_eq`). The infinities
have the end codes, which are below and above all others, and hence coding is monotone on the
extended line. Monotonicity could not be taken from rounding in this generality, since with an
infinite scale the product with zero is NaN.
-/

namespace AffineQuant.AffineCode

open Binary

variable {c : AffineCode} {x y : Single} {r : ℚ} {bits : ℕ}

/-! ## Products that are not finite -/

theorem quantize_eq_of_mul_eq_nan (hbits : 1 ≤ bits ∧ bits ≤ 31)
    (h : x.widen * c.scale.widen = nan) :
    c.quantize x bits = .ok (max 0 (min (topCode bits) c.bias.toInt)) := by
  rw [quantize_eq_ite hbits, h]
  rfl

theorem quantize_eq_of_mul_eq_inf (hbits : 1 ≤ bits ∧ bits ≤ 31) {s : Bool}
    (h : x.widen * c.scale.widen = inf s) :
    c.quantize x bits = .ok (if s = true then 0 else topCode bits) := by
  have hzero : (0 : Double).Denotes ((0 : ℤ) : ℚ) := by
    rw [Int.cast_zero]
    exact denotes_zero false
  have htop : (Binary.ofInt (topCode bits) : Double).Denotes ((topCode bits : ℤ) : ℚ) := by
    rw [Int.cast_natCast]
    exact denotes_topCode hbits.2
  have hround : (inf s : Double).roundToWhole = inf s := rfl
  have hnan : ¬(inf s : Double).isNaN = true := Bool.false_ne_true
  rw [quantize_eq_ite hbits, h, hround, if_neg hnan, inf_add s (denotes_bias c).isFinite_eq,
    clamp_inf s hzero.isFinite_eq htop.isFinite_eq]
  congr 1
  cases s with
  | false =>
    exact htop.toIntWithin_eq (le_trans (by decide) (Int.natCast_nonneg _))
      (topCode_le_greatestInt hbits.2)
  | true => exact hzero.toIntWithin_eq (by decide) (by decide)

/-! ## The range -/

theorem clamp_mem (k : ℤ) (top : ℕ) : 0 ≤ max 0 (min (top : ℤ) k) ∧ max 0 (min (top : ℤ) k) ≤ top :=
  ⟨le_max_left _ _, max_le (Int.natCast_nonneg top) (min_le_left _ _)⟩

theorem exists_quantize_eq (hbits : 1 ≤ bits ∧ bits ≤ 31) (c : AffineCode) (x : Single) :
    ∃ q : ℤ, c.quantize x bits = .ok q ∧ 0 ≤ q ∧ q ≤ topCode bits := by
  by_cases hfin : x.isFinite = true ∧ c.scale.isFinite = true
  · exact ⟨_, quantize_eq hbits (denotes_toRat hfin.2) (denotes_toRat hfin.1), clamp_mem _ _⟩
  · rw [← isFinite_widen x, ← isFinite_widen c.scale] at hfin
    rcases mul_eq_nan_or_inf hfin with hnan | ⟨s, hinf⟩
    · exact ⟨_, quantize_eq_of_mul_eq_nan hbits hnan, clamp_mem _ _⟩
    · refine ⟨_, quantize_eq_of_mul_eq_inf hbits hinf, ?_⟩
      cases s with
      | false => exact ⟨Int.natCast_nonneg _, le_rfl⟩
      | true => exact ⟨le_rfl, Int.natCast_nonneg _⟩

/-! ## Positive scales -/

theorem quantize_inf (hbits : 1 ≤ bits ∧ bits ≤ 31) (hscale : 0 < c.scale) (s : Bool) :
    c.quantize (inf s) bits = .ok (if s = true then 0 else topCode bits) := by
  refine quantize_eq_of_mul_eq_inf hbits ?_
  rcases eq_inf_or_denotes_of_pos hscale with hinf | ⟨σ, hσ, hdenotes⟩
  · rw [hinf]
    cases s <;> rfl
  · exact inf_mul_of_pos s hdenotes.widen hσ

/-- With an infinite scale there are three codes only, for the two signs and for zero. -/
theorem quantize_eq_of_scale_eq_inf (hbits : 1 ≤ bits ∧ bits ≤ 31) (hscale : c.scale = inf false)
    (hx : x.Denotes r) :
    c.quantize x bits = .ok (if r < 0 then 0 else if 0 < r then (topCode bits : ℤ) else
      max 0 (min (topCode bits) c.bias.toInt)) := by
  have hwiden : c.scale.widen = inf false := by
    rw [hscale]
    rfl
  have hmul := hx.widen.mul_inf
  rw [← hwiden] at hmul
  rcases lt_trichotomy r 0 with hr | hr | hr
  · rw [if_neg hr.ne, decide_eq_true hr] at hmul
    rw [quantize_eq_of_mul_eq_inf hbits hmul, if_pos rfl, if_pos hr]
  · rw [if_pos hr] at hmul
    rw [quantize_eq_of_mul_eq_nan hbits hmul, if_neg hr.not_lt, if_neg hr.symm.not_lt]
  · rw [if_neg hr.ne', decide_eq_false hr.not_gt] at hmul
    rw [quantize_eq_of_mul_eq_inf hbits hmul, if_neg Bool.false_ne_true, if_neg hr.not_gt,
      if_pos hr]

example : ([-1, 0, 1].map fun x ↦ quantize ⟨7, .inf false⟩ x 8) = [.ok 0, .ok 7, .ok 255] := by
  decide +kernel

theorem exists_monotone_quantize_eq (hbits : 1 ≤ bits ∧ bits ≤ 31) (hscale : 0 < c.scale) :
    ∃ code : ℚ → ℤ, (∀ r r' : ℚ, r ≤ r' → code r ≤ code r') ∧
      ∀ (x : Single) (r : ℚ), x.Denotes r → c.quantize x bits = .ok (code r) := by
  rcases eq_inf_or_denotes_of_pos hscale with hinf | ⟨σ, hσ, hdenotes⟩
  · refine ⟨_, ?_, fun x r hx ↦ quantize_eq_of_scale_eq_inf hbits hinf hx⟩
    intro r r' hle
    have := clamp_mem c.bias.toInt (topCode bits)
    split_ifs <;> first | omega | (exfalso; linarith)
  · refine ⟨_, ?_, fun x r hx ↦ quantize_eq hbits hdenotes hx⟩
    intro r r' hle
    have := roundAway_mono (mul_le_mul_of_nonneg_right hle hσ.le)
    omega

theorem quantize_mono (hbits : 1 ≤ bits ∧ bits ≤ 31) (hscale : 0 < c.scale) (hxy : x ≤ y) :
    ∃ p q : ℤ, c.quantize x bits = .ok p ∧ c.quantize y bits = .ok q ∧ p ≤ q := by
  obtain ⟨p, hp, hp₀, hp₁⟩ := exists_quantize_eq hbits c x
  obtain ⟨q, hq, hq₀, hq₁⟩ := exists_quantize_eq hbits c y
  refine ⟨p, q, hp, hq, ?_⟩
  rcases isFinite_of_le hxy with rfl | rfl | ⟨hx, hy⟩
  · rw [quantize_inf hbits hscale] at hp
    exact (Except.ok.inj hp).symm.trans_le hq₀
  · rw [quantize_inf hbits hscale] at hq
    exact hp₁.trans_eq (Except.ok.inj hq)
  obtain ⟨code, hmono, hcode⟩ := exists_monotone_quantize_eq hbits hscale
  rw [hcode x _ (denotes_toRat hx)] at hp
  rw [hcode y _ (denotes_toRat hy)] at hq
  rw [← Except.ok.inj hp, ← Except.ok.inj hq]
  exact hmono _ _ (((denotes_toRat hx).le_iff (denotes_toRat hy)).mp hxy)

/-! ## The outcome -/

/-- **Coding.** With a finite scale, the code of a finite number is what exact arithmetic gives:
the product rounded to the nearest integer, a half going away from zero, plus the bias, moved into
the range of codes. With a positive scale coding is monotone and the infinities have the end codes.
With any scale at all, the code of any number is in the range. -/
theorem quantize_outcome (hbits : 1 ≤ bits ∧ bits ≤ 31) (c : AffineCode) :
    (c.scale.isFinite = true → ∀ x : Single, x.isFinite = true →
      c.quantize x bits = .ok (max 0 (min (2 ^ bits - 1)
        (roundAway (x.toRat * c.scale.toRat) + c.bias.toInt)))) ∧
    (0 < c.scale →
      c.quantize (.inf true) bits = .ok 0 ∧ c.quantize (.inf false) bits = .ok (2 ^ bits - 1) ∧
        ∀ x y : Single, x ≤ y →
          ∃ p q : ℤ, c.quantize x bits = .ok p ∧ c.quantize y bits = .ok q ∧ p ≤ q) ∧
    ∀ x : Single, ∃ q : ℤ, c.quantize x bits = .ok q ∧ 0 ≤ q ∧ q ≤ 2 ^ bits - 1 := by
  rw [← natCast_topCode]
  refine ⟨?_, ?_, exists_quantize_eq hbits c⟩
  · intro hscale x hx
    exact quantize_eq hbits (denotes_toRat hscale) (denotes_toRat hx)
  · intro hscale
    refine ⟨quantize_inf hbits hscale true, quantize_inf hbits hscale false, ?_⟩
    intro x y hxy
    exact quantize_mono hbits hscale hxy

/-- A position of 55 bits: the 64-bit sum `2 ^ 54 - 2 ^ 31 + 64 - 1` has to be rounded, and the code
is the one of exact arithmetic. -/
theorem quantize_outcome_inexactSum :
    quantize ⟨-1, ofBits 0x4b7fffff⟩ (ofBits 0x4e7fffff) 31 = .ok (max 0 (min (2 ^ 31 - 1)
      (roundAway ((ofBits 0x4e7fffff : Single).toRat * (ofBits 0x4b7fffff : Single).toRat) +
        (-1 : Int32).toInt))) ∧
      quantize ⟨-1, ofBits 0x4b7fffff⟩ (.inf true) 31 = .ok 0 ∧
      ∃ q : ℤ, quantize ⟨-1, ofBits 0x4b7fffff⟩ .nan 31 = .ok q ∧ 0 ≤ q ∧ q ≤ 2 ^ 31 - 1 := by
  obtain ⟨hexact, hpos, hrange⟩ := quantize_outcome (show 1 ≤ 31 ∧ 31 ≤ 31 by decide)
    ⟨-1, ofBits 0x4b7fffff⟩
  exact ⟨hexact (by decide +kernel) _ (by decide +kernel), (hpos (by decide +kernel)).1, hrange _⟩

end AffineQuant.AffineCode
