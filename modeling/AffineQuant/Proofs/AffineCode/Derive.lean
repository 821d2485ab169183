import AffineQuant.AffineCode
import AffineQuant.Proofs.Binary.Infinite
import AffineQuant.Proofs.Binary.Nearest

/-!
# Deriving a code

For which bounds a code can be derived, and what it is. Everything else about codes starts from
here: `derive_eq_ok` says what scale and bias are as functions of two rationals, and none of the
files on accuracy, ends and decoding opens the derivation again.

## Usable bounds

Widened to hold zero, usable bounds are two numbers `lo ≤ 0 ≤ hi` (`Bounds.IsCodable`,
`Bounds.Widened`). Being usable is less than being finite: widening takes away an infinity on the
inner side of zero, so bounds that are upside down can have a code. Everything else leaves an
infinite or undefined span, and with it a scale that the last check refuses. That check looks at
the scale and the bias and not at the bounds, so this direction is proved from the span onwards
(`codedSpan_of_not_isCodable`).

## Four roundings

Between the bounds and the code lie four roundings, of the span, of the quotient, of the scale
and of the bias. Each of them stays between two powers of two that the format holds, so nothing
overflows and the scale never vanishes (`scaleValue_mem`). No relative error is needed for that,
and none would do, because the least scales are subnormal numbers.

The bias is exact up to the last rounding, because the 64-bit format holds products of 32-bit
numbers, and it is exact even where the code of zero is past the last code: the clamp is part of
`biasValue`.
-/

namespace AffineQuant

open Binary

/-! ## Usable bounds -/

namespace Bounds

variable {b : Bounds} {lo hi : ℚ}

/-- Neither bound is NaN, and neither is infinite to its own side. -/
def IsCodable (b : Bounds) : Prop :=
  b.min.isNaN = false ∧ b.max.isNaN = false ∧ b.min ≠ .inf true ∧ b.max ≠ .inf false

instance (b : Bounds) : Decidable b.IsCodable := inferInstanceAs (Decidable (_ ∧ _))

theorem isCodable_of_isFinite (hmin : b.min.isFinite = true) (hmax : b.max.isFinite = true) :
    b.IsCodable := by
  obtain ⟨s, m, e, hc, hlo⟩ := exists_eq_finite hmin
  obtain ⟨t, n, d, hd, hhi⟩ := exists_eq_finite hmax
  rw [IsCodable, hlo, hhi]
  exact ⟨rfl, rfl, nofun, nofun⟩

/-- The widened bounds are the ends of an interval that holds zero. -/
structure Widened (b : Bounds) (lo hi : ℚ) : Prop where
  min : b.includingZero.min.Denotes lo
  max : b.includingZero.max.Denotes hi
  nonpos : lo ≤ 0
  nonneg : 0 ≤ hi

theorem denotes_includingZero_min (hnan : b.min.isNaN = false) (hinf : b.min ≠ .inf true) :
    ∃ lo ≤ 0, b.includingZero.min.Denotes lo := by
  have hzero : (0 : Single).Denotes 0 := denotes_zero false
  rw [includingZero]
  dsimp only
  split
  · exact ⟨0, le_rfl, hzero⟩
  · next h =>
    rcases hmin : b.min with _ | ⟨_ | _⟩ | ⟨s, m, e, hc⟩ <;> rw [hmin] at hnan hinf h
    · exact absurd hnan (by decide)
    · exact absurd rfl h
    · exact absurd rfl hinf
    · have hx := denotes_toRat (x := finite s m e hc) rfl
      exact ⟨_, not_lt.mp (mt (hzero.lt_iff hx).mpr h), hx⟩

theorem denotes_includingZero_max (hnan : b.max.isNaN = false) (hinf : b.max ≠ .inf false) :
    ∃ hi ≥ 0, b.includingZero.max.Denotes hi := by
  have hzero : (0 : Single).Denotes 0 := denotes_zero false
  rw [includingZero]
  dsimp only
  split
  · exact ⟨0, le_rfl, hzero⟩
  · next h =>
    rcases hmax : b.max with _ | ⟨_ | _⟩ | ⟨s, m, e, hc⟩ <;> rw [hmax] at hnan hinf h
    · exact absurd hnan (by decide)
    · exact absurd rfl hinf
    · exact absurd rfl h
    · have hx := denotes_toRat (x := finite s m e hc) rfl
      exact ⟨_, not_lt.mp (mt (hx.lt_iff hzero).mpr h), hx⟩

theorem IsCodable.exists_widened (h : b.IsCodable) : ∃ lo hi, b.Widened lo hi := by
  obtain ⟨lo, hlo, hmin⟩ := denotes_includingZero_min h.1 h.2.2.1
  obtain ⟨hi, hhi, hmax⟩ := denotes_includingZero_max h.2.1 h.2.2.2
  exact ⟨lo, hi, hmin, hmax, hlo, hhi⟩

end Bounds

namespace AffineCode

open Bounds

variable {b : Bounds} {lo hi s : ℚ} {bits : ℕ}

/-! ## Codes -/

theorem topCode_lt (h : bits ≤ 31) : topCode bits < pow2 31 :=
  (Nat.sub_lt (Nat.two_pow_pos bits) one_pos).trans_le (Nat.pow_le_pow_right two_pos h)

theorem one_le_topCode (h : 1 ≤ bits) : 1 ≤ topCode bits :=
  Nat.le_sub_of_add_le (Nat.pow_le_pow_right two_pos h)

theorem topCode_mono {bits' : ℕ} (h : bits ≤ bits') : topCode bits ≤ topCode bits' :=
  Nat.sub_le_sub_right (Nat.pow_le_pow_right two_pos h) 1

theorem topCode_le (bits : ℕ) : (topCode bits : ℚ) ≤ (2 : ℚ) ^ (bits : ℤ) := by
  rw [← cast_pow2]
  exact_mod_cast Nat.sub_le _ _

theorem natCast_topCode (bits : ℕ) : ((topCode bits : ℕ) : ℤ) = 2 ^ bits - 1 :=
  (Int.natCast_pred_of_pos (Nat.two_pow_pos bits)).trans (by rw [Nat.cast_pow, Nat.cast_ofNat])

theorem denotes_topCode (h : bits ≤ 31) :
    (Binary.ofInt (topCode bits) : Double).Denotes (topCode bits) :=
  denotes_ofInt (n := topCode bits) ((topCode_lt h).trans (by decide))

/-! ## Unusable bounds -/

theorem codedSpan_eq {x : Double}
    (hspan : b.includingZero.max.widen - b.includingZero.min.widen = x)
    (hx : ¬x < leastSpan.widen) : codedSpan b = x := by
  rw [codedSpan]
  simp only [hspan, if_neg hx]

theorem codedSpan_of_not_isCodable (h : ¬b.IsCodable) :
    codedSpan b = .nan ∨ codedSpan b = .inf false := by
  by_cases hmin : b.min.isNaN = true
  · left
    refine codedSpan_eq ?_ (not_nan_lt _)
    rw [includingZero, eq_nan_of_isNaN hmin, if_neg (not_lt_nan _)]
    exact sub_nan _
  by_cases hmax : b.max.isNaN = true
  · left
    refine codedSpan_eq ?_ (not_nan_lt _)
    rw [includingZero, eq_nan_of_isNaN hmax, if_neg (not_nan_lt _)]
    rfl
  rw [Bool.not_eq_true] at hmin hmax
  right
  refine codedSpan_eq ?_ (by decide +kernel)
  -- Of the two ends at least one is infinite, and an end that is not is finite.
  by_cases hlo : b.min = .inf true
  · have hlo' : b.includingZero.min = .inf true := by
      rw [includingZero, hlo]
      rfl
    rw [hlo']
    by_cases hhi : b.max = .inf false
    · rw [includingZero, hhi]
      rfl
    · obtain ⟨hi, -, hi'⟩ := denotes_includingZero_max hmax hhi
      exact sub_inf true hi'.widen.isFinite_eq
  · by_cases hhi : b.max = .inf false
    · obtain ⟨lo, -, hlo'⟩ := denotes_includingZero_min hmin hlo
      have hhi' : b.includingZero.max = .inf false := by
        rw [includingZero, hhi]
        rfl
      rw [hhi']
      exact inf_sub false hlo'.widen.isFinite_eq
    · exact absurd ⟨hmin, hmax, hlo, hhi⟩ h

theorem not_pos_scaleOf (h : ¬b.IsCodable) (hbits : bits ≤ 31) :
    ¬(0 : Single) < scaleOf b bits := by
  have hzero : (0 : Single).Denotes 0 := denotes_zero false
  rw [scaleOf]
  rcases codedSpan_of_not_isCodable h with hspan | hspan <;> rw [hspan]
  · rw [div_nan]
    exact not_lt_nan _
  · obtain ⟨s, m, e, hc, htop, -⟩ := (denotes_topCode hbits).exists_eq_finite
    have hdiv : (Binary.ofInt (topCode bits) / inf false : Double).Denotes 0 := by
      rw [htop]
      exact denotes_zero _
    rw [hzero.lt_iff (hdiv.narrow (Format.holds_zero _))]
    exact lt_irrefl 0

/-! ## Usable bounds -/

/-- The span that is coded for the ends of an interval. -/
def spanValue (lo hi : ℚ) : ℚ :=
  max (Format.double.nearest (hi - lo)) (Format.single.nearest (1 / 1000))

/-- The number of codes per unit. -/
def scaleValue (lo hi : ℚ) (bits : ℕ) : ℚ :=
  Format.single.nearest (Format.double.nearest (topCode bits / spanValue lo hi))

/-- The code of zero. -/
def biasValue (lo hi : ℚ) (bits : ℕ) : ℤ :=
  min (roundAway (-lo * scaleValue lo hi bits)) (topCode bits)

theorem leastSpan_bounds : (2 : ℚ) ^ (-10 : ℤ) ≤ Format.single.nearest (1 / 1000) ∧
    Format.single.nearest (1 / 1000) ≤ (2 : ℚ) ^ (-9 : ℤ) := by
  have hpow : ∀ k : ℤ, -149 ≤ k → k < 128 → Format.single.Grid ((2 : ℚ) ^ k) := fun k hlo hhi ↦
    (Format.holds_zpow hlo hhi).grid
  exact ⟨(hpow _ (by decide) (by decide)).le_nearest (by norm_num),
    (hpow _ (by decide) (by decide)).nearest_le (by norm_num)⟩

theorem leastSpan_denotes : leastSpan.Denotes (Format.single.nearest (1 / 1000)) :=
  denotes_round_nearest false <|
    (Format.holds_zpow (k := 0) (by decide) (by decide)).abs_nearest_lt (by norm_num)

theorem Widened.sub_mem (h : b.Widened lo hi) : 0 ≤ hi - lo ∧ hi - lo ≤ (2 : ℚ) ^ (129 : ℤ) := by
  have hlo := abs_lt.mp h.min.holds.1
  have hhi := abs_lt.mp h.max.holds.1
  have := h.nonpos
  have := h.nonneg
  have hthreshold : Format.single.threshold = (2 : ℚ) ^ (128 : ℤ) := rfl
  have htwo : (2 : ℚ) ^ (129 : ℤ) = 2 ^ (128 : ℤ) * 2 := by norm_num
  rw [hthreshold] at hlo hhi
  constructor <;> linarith

theorem codedSpan_denotes (h : b.Widened lo hi) : (codedSpan b).Denotes (spanValue lo hi) := by
  obtain ⟨hnonneg, hle⟩ := Widened.sub_mem h
  have hspan : (b.includingZero.max.widen - b.includingZero.min.widen).Denotes
      (Format.double.nearest (hi - lo)) :=
    h.max.widen.sub_nearest h.min.widen <|
      Format.abs_nearest_double_lt (k := 129) (by decide) (by decide)
        (by rwa [abs_of_nonneg hnonneg])
  have hlt := hspan.lt_iff leastSpan_denotes.widen
  rw [codedSpan, spanValue]
  simp only [hlt]
  split
  · next h => rw [max_eq_right h.le]; exact leastSpan_denotes.widen
  · next h => rw [max_eq_left (not_lt.mp h)]; exact hspan

theorem spanValue_pos (lo hi : ℚ) : 0 < spanValue lo hi :=
  (zpow_two_pos _).trans_le (leastSpan_bounds.1.trans (le_max_right _ _))

theorem spanValue_mem (h : b.Widened lo hi) :
    (2 : ℚ) ^ (-10 : ℤ) ≤ spanValue lo hi ∧ spanValue lo hi ≤ (2 : ℚ) ^ (129 : ℤ) := by
  refine ⟨leastSpan_bounds.1.trans (le_max_right _ _), max_le ?_ ?_⟩
  · exact (Format.holds_zpow (k := 129) (by decide) (by decide)).grid.nearest_le
      (Widened.sub_mem h).2
  · exact leastSpan_bounds.2.trans (zpow_two_le_iff.mpr (by decide))

theorem quotient_mem (h : b.Widened lo hi) (hbits : 1 ≤ bits ∧ bits ≤ 31) :
    (2 : ℚ) ^ (-129 : ℤ) ≤ topCode bits / spanValue lo hi ∧
      topCode bits / spanValue lo hi ≤ (2 : ℚ) ^ (41 : ℤ) := by
  obtain ⟨hlo, hhi⟩ := spanValue_mem h
  have hpos := spanValue_pos lo hi
  have hone : (1 : ℚ) ≤ topCode bits := by exact_mod_cast one_le_topCode hbits.1
  have htop : (topCode bits : ℚ) ≤ (2 : ℚ) ^ (31 : ℤ) :=
    (natCast_lt_zpow_iff.mpr (topCode_lt hbits.2)).le
  constructor
  · rw [le_div_iff₀ hpos]
    calc (2 : ℚ) ^ (-129 : ℤ) * spanValue lo hi
        ≤ (2 : ℚ) ^ (-129 : ℤ) * (2 : ℚ) ^ (129 : ℤ) :=
          mul_le_mul_of_nonneg_left hhi (zpow_two_pos _).le
      _ = 1 := by rw [← zpow_add_two]; rfl
      _ ≤ topCode bits := hone
  · rw [div_le_iff₀ hpos]
    calc (topCode bits : ℚ) ≤ (2 : ℚ) ^ (31 : ℤ) := htop
      _ = (2 : ℚ) ^ (41 : ℤ) * (2 : ℚ) ^ (-10 : ℤ) := by rw [← zpow_add_two]; rfl
      _ ≤ (2 : ℚ) ^ (41 : ℤ) * spanValue lo hi :=
          mul_le_mul_of_nonneg_left hlo (zpow_two_pos _).le

theorem nearest_quotient_mem (h : b.Widened lo hi) (hbits : 1 ≤ bits ∧ bits ≤ 31) :
    (2 : ℚ) ^ (-129 : ℤ) ≤ Format.double.nearest (topCode bits / spanValue lo hi) ∧
      Format.double.nearest (topCode bits / spanValue lo hi) ≤ (2 : ℚ) ^ (41 : ℤ) := by
  obtain ⟨hlo, hhi⟩ := quotient_mem h hbits
  exact ⟨(Format.holds_zpow (k := -129) (by decide) (by decide)).grid.le_nearest hlo,
    (Format.holds_zpow (k := 41) (by decide) (by decide)).grid.nearest_le hhi⟩

theorem scaleValue_mem (h : b.Widened lo hi) (hbits : 1 ≤ bits ∧ bits ≤ 31) :
    (2 : ℚ) ^ (-129 : ℤ) ≤ scaleValue lo hi bits ∧ scaleValue lo hi bits ≤ (2 : ℚ) ^ (41 : ℤ) := by
  obtain ⟨hlo, hhi⟩ := nearest_quotient_mem h hbits
  exact ⟨(Format.holds_zpow (k := -129) (by decide) (by decide)).grid.le_nearest hlo,
    (Format.holds_zpow (k := 41) (by decide) (by decide)).grid.nearest_le hhi⟩

theorem scaleOf_denotes (h : b.Widened lo hi) (hbits : 1 ≤ bits ∧ bits ≤ 31) :
    (scaleOf b bits).Denotes (scaleValue lo hi bits) ∧ 0 < scaleValue lo hi bits := by
  obtain ⟨hlo, hhi⟩ := quotient_mem h hbits
  have hspan := (spanValue_pos lo hi).ne'
  have hpos : 0 < topCode bits / spanValue lo hi := (zpow_two_pos _).trans_le hlo
  have hquotient := (denotes_topCode hbits.2).div_nearest (codedSpan_denotes h) hspan <|
    Format.abs_nearest_double_lt (k := 41) (by decide) (by decide) (by rwa [abs_of_pos hpos])
  obtain ⟨hlo', hhi'⟩ := nearest_quotient_mem h hbits
  refine ⟨hquotient.convert_nearest ?_, (zpow_two_pos _).trans_le (scaleValue_mem h hbits).1⟩
  refine (Format.holds_zpow (k := 41) (by decide) (by decide)).abs_nearest_lt ?_
  rwa [abs_of_nonneg ((zpow_two_pos _).le.trans hlo')]

theorem biasValue_mem (h : b.Widened lo hi) (hbits : 1 ≤ bits ∧ bits ≤ 31) :
    0 ≤ biasValue lo hi bits ∧ biasValue lo hi bits ≤ topCode bits := by
  refine ⟨le_min ?_ (Int.natCast_nonneg _), min_le_right _ _⟩
  have hnonneg : (0 : ℚ) ≤ -lo * scaleValue lo hi bits :=
    mul_nonneg (neg_nonneg.mpr h.nonpos) (scaleOf_denotes h hbits).2.le
  have := roundAway_mono hnonneg
  rwa [← Int.cast_zero, roundAway_intCast] at this

/-- The product is exact, so the bias is the exact code of zero, rounded once. -/
theorem biasOf_denotes (h : b.Widened lo hi) (hbits : 1 ≤ bits ∧ bits ≤ 31) :
    (biasOf b bits).Denotes (biasValue lo hi bits) := by
  have hscale := (scaleOf_denotes h hbits).1
  have htop := denotes_topCode hbits.2
  have hbias := (h.min.widen.neg.mul hscale.widen (h.min.holds.neg.mul hscale.holds)).roundToWhole
  have hlt := htop.lt_iff hbias
  rw [biasOf, biasValue]
  simp only [hlt]
  rw [Int.cast_min, Int.cast_natCast]
  split
  · next hlt => rw [min_eq_right (by exact_mod_cast hlt.le)]; exact htop
  · next hlt => rw [min_eq_left (not_lt.mp hlt)]; exact hbias

/-! ## The outcome -/

theorem derive_eq (b : Bounds) (bits : ℕ) :
    derive b bits =
      if ¬(1 ≤ bits ∧ bits ≤ 31) then .error (.bitWidth bits 1 31)
      else if (scaleOf b bits).isFinite = true ∧ 0 < scaleOf b bits ∧ 0 ≤ biasOf b bits ∧
          (biasOf b bits).isFinite = true then
        .ok ⟨Int32.ofInt ((biasOf b bits).toIntWithin (leastInt 32) (greatestInt 32)),
          scaleOf b bits⟩
      else .error (.degenerateCode b bits (scaleOf b bits) (biasOf b bits).narrow) := by
  rw [derive, checkBits]
  by_cases hbits : 1 ≤ bits ∧ bits ≤ 31
  · rw [if_neg (by rw [maxCodeBits]; omega), if_neg (not_not.mpr hbits)]
    rfl
  · rw [if_pos (by rw [maxCodeBits]; omega), if_pos hbits]
    rfl

theorem derive_eq_ok (h : b.Widened lo hi) (hbits : 1 ≤ bits ∧ bits ≤ 31) :
    ∃ c, derive b bits = .ok c ∧ c.scale.Denotes (scaleValue lo hi bits) ∧
      c.bias.toInt = biasValue lo hi bits := by
  obtain ⟨hscale, hpos⟩ := scaleOf_denotes h hbits
  have hbias := biasOf_denotes h hbits
  obtain ⟨hnonneg, hle⟩ := biasValue_mem h hbits
  have hlt : biasValue lo hi bits < 2 ^ 31 :=
    hle.trans_lt (by exact_mod_cast topCode_lt hbits.2)
  have hpos' : (0 : Single) < scaleOf b bits := ((denotes_zero false).lt_iff hscale).mpr hpos
  have hnonneg' : (0 : Double) ≤ biasOf b bits :=
    ((denotes_zero false).le_iff hbias).mpr (by exact_mod_cast hnonneg)
  have hword : (biasOf b bits).toIntWithin (leastInt 32) (greatestInt 32) = biasValue lo hi bits :=
    hbias.toIntWithin_eq (le_trans (by decide) hnonneg) (Int.le_sub_one_of_lt hlt)
  have hok : derive b bits = .ok ⟨Int32.ofInt (biasValue lo hi bits), scaleOf b bits⟩ := by
    rw [derive_eq, if_neg (not_not.mpr hbits),
      if_pos ⟨hscale.isFinite_eq, hpos', hnonneg', hbias.isFinite_eq⟩, hword]
  exact ⟨_, hok, hscale, Int32.toInt_ofInt_of_le (le_trans (by decide) hnonneg) hlt⟩

theorem exists_derive_eq (h : b.IsCodable) (hbits : 1 ≤ bits ∧ bits ≤ 31) :
    ∃ c, derive b bits = .ok c := by
  obtain ⟨lo, hi, hwide⟩ := h.exists_widened
  obtain ⟨c, hc, -, -⟩ := derive_eq_ok hwide hbits
  exact ⟨c, hc⟩

theorem derive_eq_degenerateCode (h : ¬b.IsCodable) (hbits : 1 ≤ bits ∧ bits ≤ 31) :
    derive b bits = .error (.degenerateCode b bits (scaleOf b bits) (biasOf b bits).narrow) := by
  rw [derive_eq, if_neg (not_not.mpr hbits), if_neg]
  rintro ⟨-, hpos, -⟩
  exact not_pos_scaleOf h hbits.2 hpos

theorem isCodable_of_derive_eq_ok {c : AffineCode} (h : derive b bits = .ok c) :
    (1 ≤ bits ∧ bits ≤ 31) ∧ b.IsCodable := by
  by_cases hbits : 1 ≤ bits ∧ bits ≤ 31
  · refine ⟨hbits, ?_⟩
    by_contra hb
    rw [derive_eq_degenerateCode hb hbits] at h
    cases h
  · rw [derive_eq, if_pos hbits] at h
    cases h

theorem of_derive_eq_ok {c : AffineCode} (h : derive b bits = .ok c) :
    ∃ lo hi, b.Widened lo hi ∧
      c.scale.Denotes (scaleValue lo hi bits) ∧ c.bias.toInt = biasValue lo hi bits := by
  obtain ⟨hbits, hb⟩ := isCodable_of_derive_eq_ok h
  obtain ⟨lo, hi, hwide⟩ := hb.exists_widened
  obtain ⟨c', hc', hscale, hbias⟩ := derive_eq_ok hwide hbits
  obtain rfl := Except.ok.inj (hc'.symm.trans h)
  exact ⟨lo, hi, hwide, hscale, hbias⟩

/-- **Derivation.** Each outcome of the derivation with the arguments that lead to it; the three
exclude each other and leave no other. Every derived code has a finite, positive scale, and the
code of zero is a code. -/
theorem derive_outcome (b : Bounds) (bits : ℕ) :
    (derive b bits = .error (.bitWidth bits 1 31) ↔ ¬(1 ≤ bits ∧ bits ≤ 31)) ∧
    ((∃ c, derive b bits = .ok c) ↔ (1 ≤ bits ∧ bits ≤ 31) ∧ b.IsCodable) ∧
    ((∃ scale bias, derive b bits = .error (.degenerateCode b bits scale bias)) ↔
      (1 ≤ bits ∧ bits ≤ 31) ∧ ¬b.IsCodable) ∧
    (∀ c, derive b bits = .ok c →
      c.scale.isFinite = true ∧ 0 < c.scale.toRat ∧
        0 ≤ c.bias.toInt ∧ c.bias.toInt ≤ 2 ^ bits - 1) ∧
    (b.min.isFinite = true ∧ b.max.isFinite = true → b.IsCodable) := by
  rw [← and_assoc, ← and_assoc, ← and_assoc]
  refine ⟨?_, fun h ↦ isCodable_of_isFinite h.1 h.2⟩
  by_cases hbits : 1 ≤ bits ∧ bits ≤ 31
  swap
  · rw [derive_eq, if_pos hbits]
    simp [hbits]
  by_cases hb : b.IsCodable
  · obtain ⟨lo, hi, hwide⟩ := hb.exists_widened
    obtain ⟨c, hc, hscale, hbias⟩ := derive_eq_ok hwide hbits
    obtain ⟨hnonneg, hle⟩ := biasValue_mem hwide hbits
    have hpos := (scaleOf_denotes hwide hbits).2
    have htop : ((topCode bits : ℕ) : ℤ) = 2 ^ bits - 1 :=
      (Int.natCast_pred_of_pos (Nat.two_pow_pos bits)).trans (by rw [Nat.cast_pow, Nat.cast_ofNat])
    rw [← hbias] at hnonneg hle
    rw [← hscale.toRat_eq] at hpos
    rw [hc]
    refine ⟨⟨⟨by simp [hbits], by simp [hbits, hb]⟩, by simp [hbits, hb]⟩, ?_⟩
    rintro c' hc'
    obtain rfl := Except.ok.inj hc'
    exact ⟨hscale.isFinite_eq, hpos, hnonneg, hle.trans_eq htop⟩
  · rw [derive_eq, if_neg (not_not.mpr hbits), if_neg fun hok ↦ not_pos_scaleOf hb hbits.2 hok.2.1]
    simp [hbits, hb]

/-- The widest finite bounds with a single bit: the scale is a subnormal number. -/
theorem derive_outcome_widest :
    (derive ⟨ofBits 0xff7fffff, ofBits 0x7f7fffff⟩ 1 = .ok ⟨0, ofBits 0x00100000⟩) ∧
      (ofBits 0x00100000 : Single).isFinite = true ∧ 0 < (ofBits 0x00100000 : Single).toRat ∧
      0 ≤ (0 : Int32).toInt ∧ (0 : Int32).toInt ≤ 2 ^ 1 - 1 := by
  have h : derive ⟨ofBits 0xff7fffff, ofBits 0x7f7fffff⟩ 1 = .ok ⟨0, ofBits 0x00100000⟩ := by
    decide +kernel
  exact ⟨h, (derive_outcome _ _).2.2.2.1 _ h⟩

-- Bounds that are one number span from zero to it, and those of zero have the least span.
example : derive ⟨5, 5⟩ 8 = .ok ⟨0, 51⟩ ∧ derive ⟨0, 0⟩ 8 = .ok ⟨0, ofBits 0x487905ff⟩ := by
  decide +kernel

end AffineCode

end AffineQuant
