import AffineQuant.Proofs.AffineCode.Accuracy

/-!
# The codes of the ends

Whether the ends of the bounds get the first and the last code. The lower end, widened to hold
zero, always has the code `0`: its position is the negative of the position that was rounded to
the bias, and `roundAway` is odd. For the upper end there is no such symmetry.

## Two positions

Two positions are rounded on their own, that of the upper end and that of zero, and together they
may fall short of the greatest code, because the scale has been rounded as well: the ends `-7` and
`7` have the codes `0` and `254` with eight bits. Each rounding loses less than half a step, since
a half goes up, and both together less than one. With an exact scale that costs no code, and with
a scale rounded down by the least amount it can cost one.

The exact condition is on the two rounded positions (`code_max_eq_iff`). It is exact but says
little about the bounds, so there are sufficient conditions beside it: the scale was not rounded
down, or zero is one of the ends and only one position is rounded (`code_max_bounds`).

## The shortfall

How far the upper end falls short follows from how far the positions of the ends may be too close
to each other (`le_span_mul_scale`). With fewer than 24 bits it is at most one code, and none at
all if zero is one of the ends; with more, the codes outnumber the numbers that the scale can tell
apart, and `2 ^ bits / 2 ^ 24` more may be lost.
-/

namespace AffineQuant.AffineCode

open Binary

variable {b : Bounds} {bits : ℕ} {lo hi p p₀ : ℚ} {top : ℕ}

/-! ## Two positions -/

theorem sub_half_lt_roundAway {q : ℚ} (hq : 0 ≤ q) : q - 1 / 2 < roundAway q := by
  have hlt : q + 1 / 2 < (q + 1 / 2).floor + 1 := by exact_mod_cast Rat.lt_floor_add_one (q + 1 / 2)
  rw [roundAway, if_neg hq.not_gt]
  linarith

private theorem roundAway_nonneg {q : ℚ} (hq : 0 ≤ q) : 0 ≤ roundAway q := by
  have hmono := roundAway_mono hq
  rwa [← Int.cast_zero, roundAway_intCast] at hmono

/-- The lower end is at the negative of the position of zero. -/
theorem code_min_eq (hp₀ : 0 ≤ p₀) :
    max 0 (min (top : ℤ) (roundAway (-p₀) + min (roundAway p₀) top)) = 0 := by
  have := roundAway_nonneg hp₀
  rw [roundAway_neg]
  omega

theorem code_max_eq_iff (hp : 0 ≤ p) (hp₀ : 0 ≤ p₀) :
    max 0 (min (top : ℤ) (roundAway p + min (roundAway p₀) top)) = top ↔
      (top : ℤ) ≤ roundAway p + roundAway p₀ := by
  have := roundAway_nonneg hp
  have := roundAway_nonneg hp₀
  omega

/-- How the code of the upper end follows from the distance of the positions before they are
rounded: together they lose less than one step, and half a step where one of them is zero. -/
theorem code_max_bounds {q : ℤ} {δ : ℚ} (hp : 0 ≤ p) (hp₀ : 0 ≤ p₀)
    (hcodes : top - δ ≤ p + p₀)
    (hq : q = max 0 (min (top : ℤ) (roundAway p + min (roundAway p₀) top))) :
    (top ≤ p + p₀ → q = top) ∧ (p₀ = 0 ∨ p = 0 → δ < 1 / 2 → q = top) ∧
      ∀ n : ℕ, δ < 1 + n → (top : ℤ) ≤ q + 1 + n := by
  have hn := roundAway_nonneg hp
  have hn₀ := roundAway_nonneg hp₀
  have hlt := sub_half_lt_roundAway hp
  have hlt₀ := sub_half_lt_roundAway hp₀
  have hreach : (top : ℤ) ≤ roundAway p + roundAway p₀ → q = top :=
    fun hle ↦ hq.trans ((code_max_eq_iff hp hp₀).mpr hle)
  refine ⟨fun hle ↦ hreach ?_, fun hzero hδ ↦ hreach ?_, fun n hδ ↦ ?_⟩
  · have : (top : ℚ) < (roundAway p + roundAway p₀ : ℤ) + 1 := by
      push_cast
      linarith
    exact Int.lt_add_one_iff.mp (by exact_mod_cast this)
  · have : (top : ℚ) < (roundAway p + roundAway p₀ : ℤ) + 1 := by
      rcases hzero with rfl | rfl <;> rw [roundAway_zero] <;> push_cast <;> linarith
    exact Int.lt_add_one_iff.mp (by exact_mod_cast this)
  · have : (top : ℚ) < (roundAway p + roundAway p₀ : ℤ) + 1 + n + 1 := by
      push_cast
      linarith
    have : (top : ℤ) < roundAway p + roundAway p₀ + 1 + n + 1 := by exact_mod_cast this
    omega

/-! ## The span in codes -/

/-- What the roundings of the scale may take from the codes between the ends. -/
def shortfall (bits : ℕ) : ℚ :=
  max (topCode bits * ((2 : ℚ) ^ (-24 : ℤ) + (2 : ℚ) ^ (-50 : ℤ))) ((2 : ℚ) ^ (-20 : ℤ))

theorem le_span_mul_quotient (h : b.Widened lo hi) (hbits : 1 ≤ bits ∧ bits ≤ 31)
    (hspan : Format.single.nearest (1 / 1000) ≤ hi - lo) :
    topCode bits * (1 - (2 : ℚ) ^ (-52 : ℤ)) ≤
      (hi - lo) * Format.double.nearest (topCode bits / spanValue lo hi) := by
  have hleast : (2 : ℚ) ^ (-10 : ℤ) ≤ hi - lo := leastSpan_bounds.1.trans hspan
  have hpos : 0 < hi - lo := (zpow_two_pos _).trans_le hleast
  have hvalue : spanValue lo hi = Format.double.nearest (hi - lo) :=
    max_eq_left (leastSpan_denotes.holds.widen.grid.le_nearest hspan)
  have hquotient := (quotient_mem h hbits).1
  have hq : 0 < topCode bits / spanValue lo hi := (zpow_two_pos _).trans_le hquotient
  have hspanPos := spanValue_pos lo hi
  have hcancel : topCode bits / spanValue lo hi * spanValue lo hi = topCode bits :=
    div_mul_cancel₀ _ hspanPos.ne'
  -- Both roundings of the 64-bit format have a small relative error.
  have hround : spanValue lo hi ≤ (hi - lo) * (1 + (2 : ℚ) ^ (-53 : ℤ)) := by
    have herror := Format.abs_sub_nearest_double_le ((zpow_two_le_iff.mpr (by decide)).trans hleast)
    rw [← hvalue, abs_sub_comm] at herror
    have hle := (abs_le.mp herror).2
    linarith
  have hbelow : (1 - (2 : ℚ) ^ (-53 : ℤ)) * (topCode bits / spanValue lo hi) ≤
      Format.double.nearest (topCode bits / spanValue lo hi) := by
    have herror :=
      Format.abs_sub_nearest_double_le ((zpow_two_le_iff.mpr (by decide)).trans hquotient)
    have hle := (abs_le.mp herror).2
    linarith
  generalize topCode bits / spanValue lo hi = q at hq hcancel hbelow ⊢
  have hcodes : topCode bits ≤ (hi - lo) * q * (1 + (2 : ℚ) ^ (-53 : ℤ)) := by
    calc (topCode bits : ℚ) = q * spanValue lo hi := hcancel.symm
      _ ≤ q * ((hi - lo) * (1 + (2 : ℚ) ^ (-53 : ℤ))) := mul_le_mul_of_nonneg_left hround hq.le
      _ = (hi - lo) * q * (1 + (2 : ℚ) ^ (-53 : ℤ)) := by ring
  have hprod : 0 < (hi - lo) * q := mul_pos hpos hq
  calc topCode bits * (1 - (2 : ℚ) ^ (-52 : ℤ))
      ≤ (hi - lo) * q * (1 + (2 : ℚ) ^ (-53 : ℤ)) * (1 - (2 : ℚ) ^ (-52 : ℤ)) :=
        mul_le_mul_of_nonneg_right hcodes (by norm_num)
    _ ≤ (hi - lo) * q * (1 - (2 : ℚ) ^ (-53 : ℤ)) := by
        rw [mul_assoc]
        exact mul_le_mul_of_nonneg_left (by norm_num) hprod.le
    _ = (hi - lo) * ((1 - (2 : ℚ) ^ (-53 : ℤ)) * q) := by ring
    _ ≤ (hi - lo) * Format.double.nearest q := mul_le_mul_of_nonneg_left hbelow hpos.le

theorem le_span_mul_scale (h : b.Widened lo hi) (hbits : 1 ≤ bits ∧ bits ≤ 31)
    (hspan : Format.single.nearest (1 / 1000) ≤ hi - lo) :
    topCode bits - shortfall bits ≤ (hi - lo) * scaleValue lo hi bits := by
  obtain ⟨hnonneg, hwidest⟩ := Widened.sub_mem h
  have hlower := le_span_mul_quotient h hbits hspan
  have hupper := span_mul_quotient_le h hbits
  have hpos : 0 ≤ Format.double.nearest (topCode bits / spanValue lo hi) :=
    Format.nearest_nonneg ((zpow_two_pos _).le.trans (quotient_mem h hbits).1)
  rw [scaleValue]
  generalize Format.double.nearest (topCode bits / spanValue lo hi) = u at hlower hupper hpos ⊢
  have herror := Format.single.abs_sub_nearest_le_max u
  rw [abs_of_nonneg hpos] at herror
  have hbelow := sub_le_comm.mp ((le_abs_self _).trans herror)
  have hmul := mul_le_mul_of_nonneg_left hbelow hnonneg
  have htop : (topCode bits : ℚ) ≤ (2 : ℚ) ^ (31 : ℤ) :=
    (natCast_lt_zpow_iff.mpr (topCode_lt hbits.2)).le
  have hleft : topCode bits * ((2 : ℚ) ^ (-24 : ℤ) + (2 : ℚ) ^ (-50 : ℤ)) ≤ shortfall bits :=
    le_max_left _ _
  have hright : (2 : ℚ) ^ (-20 : ℤ) ≤ shortfall bits := le_max_right _ _
  generalize shortfall bits = δ at hleft hright ⊢
  generalize (topCode bits : ℚ) = t at hlower hupper htop hleft ⊢
  -- The error is absolute if the scale is a subnormal number, and relative otherwise.
  rcases max_choice ((2 : ℚ) ^ (Format.single.leastExp - 1))
    (u * (2 : ℚ) ^ (-(Format.single.precision : ℤ))) with hmax | hmax <;> rw [hmax] at hmul
  · have hmul' : (hi - lo) * (u - (2 : ℚ) ^ (-150 : ℤ)) ≤ (hi - lo) * Format.single.nearest u :=
      hmul
    norm_num at hlower hwidest hmul' htop hright ⊢
    linarith
  · have hmul' : (hi - lo) * (u - u * (2 : ℚ) ^ (-24 : ℤ)) ≤
        (hi - lo) * Format.single.nearest u := hmul
    norm_num at hlower hupper hmul' hleft ⊢
    linarith

theorem shortfall_lt_half (h : bits ≤ 23) : shortfall bits < 1 / 2 := by
  have htop : (topCode bits : ℚ) ≤ 2 ^ 23 - 1 := by
    have : topCode bits ≤ pow2 23 - 1 := topCode_mono h
    have hcast : ((pow2 23 - 1 : ℕ) : ℚ) = 2 ^ 23 - 1 := by norm_num [pow2]
    rw [← hcast]
    exact_mod_cast this
  rw [shortfall]
  generalize (topCode bits : ℚ) = t at htop ⊢
  refine max_lt ?_ (by norm_num)
  norm_num at htop ⊢
  linarith

theorem shortfall_lt (hbits : bits ≤ 31) : shortfall bits < 1 + (2 ^ bits / 2 ^ 24 : ℕ) := by
  rcases le_or_gt bits 23 with h | h
  · have hhalf := shortfall_lt_half h
    have : (0 : ℚ) ≤ (2 ^ bits / 2 ^ 24 : ℕ) := Nat.cast_nonneg _
    linarith
  · obtain ⟨k, rfl⟩ : ∃ k, bits = 24 + k := Nat.exists_eq_add_of_le h
    have hdiv : 2 ^ (24 + k) / 2 ^ 24 = 2 ^ k := by
      rw [pow_add, Nat.mul_div_cancel_left _ (by norm_num)]
    have htop : (topCode (24 + k) : ℚ) ≤ 2 ^ 24 * 2 ^ k := by
      rw [← pow_add]
      exact_mod_cast Nat.sub_le _ _
    have hlt : (topCode (24 + k) : ℚ) ≤ 2 ^ 31 := by exact_mod_cast (topCode_lt hbits).le
    have hone : (1 : ℚ) ≤ 2 ^ k := one_le_pow₀ (by norm_num)
    rw [hdiv, shortfall]
    push_cast
    generalize (topCode (24 + k) : ℚ) = t at htop hlt ⊢
    refine max_lt ?_ (by norm_num; linarith)
    norm_num at htop hlt ⊢
    linarith

/-! ## The ends -/

theorem quantize_min_eq {c : AffineCode} (h : b.Widened lo hi) (hbits : 1 ≤ bits ∧ bits ≤ 31)
    (hscale : c.scale.Denotes (scaleValue lo hi bits))
    (hbias : c.bias.toInt = biasValue lo hi bits) :
    c.quantize b.includingZero.min bits = .ok 0 := by
  have hpos : 0 ≤ -lo * scaleValue lo hi bits :=
    mul_nonneg (neg_nonneg.mpr h.nonpos) (scaleOf_denotes h hbits).2.le
  rw [quantize_eq hbits hscale h.min, hbias, biasValue, ← neg_neg (lo * _), ← neg_mul,
    code_min_eq hpos]

/-- **The codes of the ends.** The lower end has the code `0`. The upper end has the greatest code
exactly if the rounded positions of the upper end and of zero make it up; it does if the scale was
not rounded down, and if zero is an end and there are fewer than 24 bits. In any case it falls short
by one code at most, with fewer than 24 bits, and by as many more as the 32-bit scale cannot tell
apart. -/
theorem quantize_ends (hmin : b.min.isFinite = true) (hmax : b.max.isFinite = true)
    (hbits : 1 ≤ bits ∧ bits ≤ 31)
    (hspan : leastSpan.toRat ≤ b.includingZero.max.toRat - b.includingZero.min.toRat) :
    ∃ c, derive b bits = .ok c ∧ c.quantize b.includingZero.min bits = .ok 0 ∧
      ∃ q : ℤ, c.quantize b.includingZero.max bits = .ok q ∧ q ≤ topCode bits ∧
        (q = topCode bits ↔ (topCode bits : ℤ) ≤
          roundAway (b.includingZero.max.toRat * c.scale.toRat) +
            roundAway (-b.includingZero.min.toRat * c.scale.toRat)) ∧
        (topCode bits ≤ (b.includingZero.max.toRat - b.includingZero.min.toRat) * c.scale.toRat →
          q = topCode bits) ∧
        (b.includingZero.min.toRat = 0 ∨ b.includingZero.max.toRat = 0 → bits < 24 →
          q = topCode bits) ∧
        (topCode bits : ℤ) ≤ q + 1 + (2 ^ bits / 2 ^ 24 : ℕ) := by
  obtain ⟨lo, hi, hwide⟩ := (Bounds.isCodable_of_isFinite hmin hmax).exists_widened
  obtain ⟨c, hc, hscale, hbias⟩ := derive_eq_ok hwide hbits
  have hpos := (scaleOf_denotes hwide hbits).2
  rw [leastSpan_denotes.toRat_eq, hwide.min.toRat_eq, hwide.max.toRat_eq] at hspan
  have hcodes := le_span_mul_scale hwide hbits hspan
  have hmaxPos : 0 ≤ hi * scaleValue lo hi bits := mul_nonneg hwide.nonneg hpos.le
  have hminPos : 0 ≤ -lo * scaleValue lo hi bits := mul_nonneg (neg_nonneg.mpr hwide.nonpos) hpos.le
  have hlower := quantize_min_eq hwide hbits hscale hbias
  have hupper := quantize_eq hbits hscale hwide.max
  rw [hbias, biasValue] at hupper
  have hsum : (hi - lo) * scaleValue lo hi bits =
      hi * scaleValue lo hi bits + -lo * scaleValue lo hi bits := by ring
  rw [hsum] at hcodes
  obtain ⟨hreach, hzero, hloss⟩ := code_max_bounds hmaxPos hminPos hcodes rfl
  refine ⟨c, hc, hlower, _, hupper, by omega, ?_⟩
  rw [hwide.min.toRat_eq, hwide.max.toRat_eq, hscale.toRat_eq, hsum]
  refine ⟨code_max_eq_iff hmaxPos hminPos, hreach, ?_, hloss _ (shortfall_lt hbits.2)⟩
  rintro hend hlt
  refine hzero (hend.imp ?_ ?_) (shortfall_lt_half (Nat.le_of_lt_succ hlt))
  · rintro rfl
    rw [neg_zero, zero_mul]
  · rintro rfl
    rw [zero_mul]

/-- The scale of `-2` and `3` is `51`, without an error, so both ends have the codes that they
should have. -/
theorem quantize_ends_exactScale :
    derive ⟨-2, 3⟩ 8 = .ok ⟨102, 51⟩ ∧ quantize ⟨102, 51⟩ (-2) 8 = .ok 0 ∧
      quantize ⟨102, 51⟩ 3 8 = .ok (topCode 8) := by
  have hderive : derive ⟨-2, 3⟩ 8 = .ok ⟨102, 51⟩ := by decide +kernel
  have hends : Bounds.includingZero ⟨-2, 3⟩ = ⟨-2, 3⟩ := by decide +kernel
  obtain ⟨c, hc, hlower, q, hupper, -, -, hreach, -⟩ := quantize_ends (b := ⟨-2, 3⟩)
    (by decide +kernel) (by decide +kernel) (show 1 ≤ 8 ∧ 8 ≤ 31 by decide) (by decide +kernel)
  rw [hends] at hlower hupper hreach
  obtain rfl := Except.ok.inj (hderive.symm.trans hc)
  obtain rfl := hreach (by decide +kernel)
  exact ⟨hderive, hlower, hupper⟩

/-- With eight bits, `-7` and `7` have the codes `0` and `254`: the scale was rounded down, so both
rounded positions are below `127.5`. -/
theorem quantize_ends_seven :
    derive ⟨-7, 7⟩ 8 = .ok ⟨127, ofBits 0x4191b6db⟩ ∧
      quantize ⟨127, ofBits 0x4191b6db⟩ 7 8 = .ok 254 ∧ topCode 8 = 255 := by
  decide +kernel

end AffineQuant.AffineCode
