import AffineQuant.Proofs.AffineCode.Ends
import AffineQuant.Proofs.AffineCode.Saturation
import AffineQuant.Proofs.Binary.Overflow

/-!
# Decoding

A code stands for its distance from the code of zero, in steps, divided by the scale. The distance
is a number of the 32-bit format up to 24 bits, and the quotient is rounded once more. Two
questions are answered about it: whether it overflows, and whether coding it gives the code back.

## How far the codes reach

Both questions turn on how far the codes reach (`biasValue_le`, `sub_biasValue_le`). Because zero
has a code of its own, the outermost codes stand for reals up to half a step past the ends of the
bounds. So a code derived from finite bounds may stand for a real beyond the greatest number, and
with fewer than 24 bits only the outermost two can: a code further in is a whole step nearer,
which is more than what roundings may add.

With more bits the distance is rounded too, and that can move it by more than a step. The result
is still monotone in the distance, and so the two ends decide for all codes in between
(`abs_nearest_sub_lt`).

## There and back

A quotient that does not overflow has a relative error of `2 ^ (-24)`, and of fewer than `2 ^ 23`
steps that is less than half of one; it has a full significand, since no scale exceeds `2 ^ 41`.
Coding what did overflow gives the same code back for another reason. It was the first or the last
code (`eq_end_of_overflow`), and an infinity has the code of its end.
-/

namespace AffineQuant.AffineCode

open Binary

variable {b : Bounds} {c : AffineCode} {bits : ℕ} {lo hi s : ℚ} {n q : ℤ}

/-! ## The quotient -/

theorem abs_sub_nearest_intCast_le (n : ℤ) :
    |(n : ℚ) - Format.single.nearest n| ≤ |(n : ℚ)| * (2 : ℚ) ^ (-24 : ℤ) := by
  rcases eq_or_ne n 0 with rfl | hn
  · simp
  · have hone : (1 : ℚ) ≤ |(n : ℚ)| := by exact_mod_cast Int.one_le_abs hn
    exact Format.abs_sub_nearest_le_mul (f := .single) (le_trans (by norm_num [Format.single]) hone)

theorem abs_nearest_intCast_le (n : ℤ) :
    |Format.single.nearest n| ≤ |(n : ℚ)| * (1 + (2 : ℚ) ^ (-24 : ℤ)) := by
  have hround := abs_sub_nearest_intCast_le n
  have := abs_sub_abs_le_abs_sub (Format.single.nearest n) n
  rw [abs_sub_comm] at this
  linarith

theorem abs_nearest_intCast_mono {k : ℤ} (h : |n| ≤ |k|) :
    |Format.single.nearest n| ≤ |Format.single.nearest k| := by
  rw [Format.abs_nearest, Format.abs_nearest]
  exact Format.nearest_mono (by exact_mod_cast h)

theorem denotes_ofInt_nearest (h : |(n : ℚ)| ≤ (2 : ℚ) ^ (32 : ℤ)) :
    (Binary.ofInt n : Single).Denotes (Format.single.nearest n) :=
  denotes_round_nearest false <|
    (Format.holds_zpow (k := 32) (by decide) (by decide)).abs_nearest_lt h

theorem exists_dequantize_eq (hs : c.scale.Denotes s) (hpos : 0 < s)
    (hn : |((q - c.bias.toInt : ℤ) : ℚ)| ≤ (2 : ℚ) ^ (32 : ℤ)) :
    ∃ z, c.dequantize q = round z (Format.single.nearest ((q - c.bias.toInt : ℤ) : ℚ) / s) :=
  (denotes_ofInt_nearest hn).exists_div_eq hs hpos.ne'

theorem dequantize_isFinite_iff (hs : c.scale.Denotes s) (hpos : 0 < s)
    (hn : |((q - c.bias.toInt : ℤ) : ℚ)| ≤ (2 : ℚ) ^ (32 : ℤ)) :
    (c.dequantize q).isFinite = true ↔
      |Format.single.nearest ((q - c.bias.toInt : ℤ) : ℚ)| < overflowBound * s :=
  (denotes_ofInt_nearest hn).isFinite_div_iff hs hpos

/-! ## How far the codes reach -/

theorem abs_sub_le_topCode {bias : ℤ} (hq : 0 ≤ q ∧ q ≤ topCode bits)
    (hbias : 0 ≤ bias ∧ bias ≤ topCode bits) : |((q - bias : ℤ) : ℚ)| ≤ topCode bits := by
  have hle : |q - bias| ≤ (topCode bits : ℤ) := abs_le.mpr ⟨by omega, by omega⟩
  exact_mod_cast hle

theorem nearest_distance {bias : ℤ} (hbits : bits ≤ 23) (hq : 0 ≤ q ∧ q ≤ topCode bits)
    (hbias : 0 ≤ bias ∧ bias ≤ topCode bits) :
    Format.single.nearest ((q - bias : ℤ) : ℚ) = (q - bias : ℤ) := by
  have htop : topCode bits ≤ pow2 23 - 1 :=
    Nat.sub_le_sub_right (Nat.pow_le_pow_right two_pos hbits) 1
  have hlt : (q - bias).natAbs < pow2 24 :=
    lt_of_le_of_lt (b := pow2 23 - 1) (by omega) (by decide)
  exact (Format.holds_intCast (f := .single) hlt).grid.nearest_eq

theorem topCode_le_zpow (h : bits ≤ 31) : (topCode bits : ℚ) ≤ (2 : ℚ) ^ (32 : ℤ) :=
  (natCast_lt_zpow_iff.mpr (topCode_lt h)).le.trans (zpow_two_le_iff.mpr (by decide))

theorem biasValue_le (lo hi : ℚ) (bits : ℕ) :
    (biasValue lo hi bits : ℚ) ≤ -lo * scaleValue lo hi bits + 1 / 2 := by
  have hround := (abs_le.mp (abs_sub_roundAway_le (-lo * scaleValue lo hi bits))).1
  have hmin : ((biasValue lo hi bits : ℤ) : ℚ) ≤ roundAway (-lo * scaleValue lo hi bits) := by
    exact_mod_cast min_le_left _ _
  linarith

/-- Above the code of zero the greatest code is at most half a step past the upper end, and what the
scale has lost; each code below it is a step nearer. -/
theorem sub_biasValue_le (h : b.Widened lo hi) (hbits : 1 ≤ bits ∧ bits ≤ 31)
    (hspan : Format.single.nearest (1 / 1000) ≤ hi - lo) (hq : q ≤ topCode bits) :
    q ≤ biasValue lo hi bits ∨ ((q - biasValue lo hi bits : ℤ) : ℚ) ≤
      hi * scaleValue lo hi bits + (1 / 2 + shortfall bits) - (topCode bits - q) := by
  have hcodes := le_span_mul_scale h hbits hspan
  have hround := (abs_le.mp (abs_sub_roundAway_le (-lo * scaleValue lo hi bits))).2
  rcases le_total (roundAway (-lo * scaleValue lo hi bits)) (topCode bits) with hle | hle
  · right
    rw [biasValue, min_eq_left hle]
    push_cast
    linarith
  · left
    rwa [biasValue, min_eq_right hle]

theorem quotient_le_two_mul_scale (h : b.Widened lo hi) (hbits : 1 ≤ bits ∧ bits ≤ 31) :
    topCode bits / spanValue lo hi ≤ 2 * scaleValue lo hi bits := by
  have hquotient := (quotient_mem h hbits).1
  have hnearest := (nearest_quotient_mem h hbits).1
  rw [scaleValue]
  generalize topCode bits / spanValue lo hi = p at hquotient hnearest ⊢
  have hdouble := (abs_le.mp (Format.abs_sub_nearest_double_le
    ((zpow_two_le_iff.mpr (by decide)).trans hquotient))).2
  generalize Format.double.nearest p = u at hnearest hdouble ⊢
  have hu : 0 < u := (zpow_two_pos _).trans_le hnearest
  have hsingle := (abs_le.mp (Format.single.abs_sub_nearest_le_max u)).2
  rw [abs_of_pos hu] at hsingle
  have hmax : max ((2 : ℚ) ^ (Format.single.leastExp - 1))
      (u * (2 : ℚ) ^ (-(Format.single.precision : ℤ))) ≤ u * (2 : ℚ) ^ (-21 : ℤ) :=
    max_le (zpow_add_le_mul hnearest (-21))
      (mul_le_mul_of_nonneg_left (zpow_two_le_iff.mpr (by decide)) hu.le)
  have hp : 0 < p := (zpow_two_pos _).trans_le hquotient
  have hsingle' := hsingle.trans hmax
  norm_num at hdouble hsingle' ⊢
  linarith

theorem topCode_le_scale_mul (h : b.Widened lo hi) (hbits : 1 ≤ bits ∧ bits ≤ 31)
    (hspan : hi - lo < Format.single.nearest (1 / 1000)) :
    topCode bits ≤ scaleValue lo hi bits * (2 : ℚ) ^ (-8 : ℤ) := by
  have hvalue : spanValue lo hi = Format.single.nearest (1 / 1000) :=
    max_eq_right (leastSpan_denotes.holds.widen.grid.nearest_le hspan.le)
  have hspanPos := spanValue_pos lo hi
  have hscale := (scaleOf_denotes h hbits).2
  calc (topCode bits : ℚ) = topCode bits / spanValue lo hi * spanValue lo hi :=
        (div_mul_cancel₀ _ hspanPos.ne').symm
    _ ≤ 2 * scaleValue lo hi bits * (2 : ℚ) ^ (-9 : ℤ) :=
        mul_le_mul (quotient_le_two_mul_scale h hbits) (hvalue.trans_le leastSpan_bounds.2)
          hspanPos.le (mul_nonneg two_pos.le hscale.le)
    _ = scaleValue lo hi bits * (2 : ℚ) ^ (-8 : ℤ) := by
        norm_num
        ring

/-! ## Overflow -/

theorem abs_sub_biasValue_lt (h : b.Widened lo hi) (hbits : 1 ≤ bits ∧ bits ≤ 23)
    (hq : 0 < q ∧ q < topCode bits) :
    |((q - biasValue lo hi bits : ℤ) : ℚ)| < overflowBound * scaleValue lo hi bits := by
  have hbits' : 1 ≤ bits ∧ bits ≤ 31 := ⟨hbits.1, hbits.2.trans (by decide)⟩
  have hscale := (scaleOf_denotes h hbits').2
  rcases lt_or_ge (hi - lo) (Format.single.nearest (1 / 1000)) with hspan | hspan
  · have hbound : (2 : ℚ) ^ (-8 : ℤ) < overflowBound := by
      rw [overflowBound]
      norm_num
    calc |((q - biasValue lo hi bits : ℤ) : ℚ)| ≤ topCode bits :=
          abs_sub_le_topCode ⟨hq.1.le, hq.2.le⟩ (biasValue_mem h hbits')
      _ ≤ scaleValue lo hi bits * (2 : ℚ) ^ (-8 : ℤ) := topCode_le_scale_mul h hbits' hspan
      _ < scaleValue lo hi bits * overflowBound := mul_lt_mul_of_pos_left hbound hscale
      _ = overflowBound * scaleValue lo hi bits := mul_comm _ _
  · have hlo := mul_lt_mul_of_pos_right (abs_lt.mp h.min.holds.abs_lt_overflowBound).1 hscale
    have hhi := mul_lt_mul_of_pos_right (abs_lt.mp h.max.holds.abs_lt_overflowBound).2 hscale
    have hbias := biasValue_le lo hi bits
    have hfirst : (1 : ℚ) ≤ q := by exact_mod_cast hq.1
    have hlast : (q : ℚ) + 1 ≤ topCode bits := by exact_mod_cast hq.2
    have hhalf := shortfall_lt_half hbits.2
    rw [abs_lt]
    refine ⟨by push_cast; linarith, ?_⟩
    rcases sub_biasValue_le h hbits' hspan hq.2.le with hle | hle
    · have hle' : ((q - biasValue lo hi bits : ℤ) : ℚ) ≤ 0 := by exact_mod_cast sub_nonpos.mpr hle
      have hpos : 0 < overflowBound := (abs_nonneg lo).trans_lt h.min.holds.abs_lt_overflowBound
      exact hle'.trans_lt (mul_pos hpos hscale)
    · linarith

theorem shortfall_le (bits : ℕ) :
    shortfall bits ≤ (2 : ℚ) ^ ((bits : ℤ) - 23) + (2 : ℚ) ^ (-20 : ℤ) := by
  have hpos := zpow_two_pos ((bits : ℤ) - 23)
  have hcodes := topCode_le bits
  have hpow : (2 : ℚ) ^ (bits : ℤ) = (2 : ℚ) ^ ((bits : ℤ) - 23) * (2 : ℚ) ^ (23 : ℤ) := by
    rw [← zpow_add_two, sub_add_cancel]
  rw [hpow] at hcodes
  rw [shortfall]
  generalize (2 : ℚ) ^ ((bits : ℤ) - 23) = w at hpos hcodes ⊢
  generalize (topCode bits : ℚ) = t at hcodes ⊢
  refine max_le ?_ (by linarith)
  norm_num at hcodes ⊢
  linarith

theorem abs_nearest_lt_of_le (h : b.Widened lo hi) (hbits : 1 ≤ bits ∧ bits ≤ 31) {p limit : ℚ}
    (hp : p ≤ (hi - lo) * scaleValue lo hi bits)
    (hn : |(n : ℚ)| ≤ p + (1 / 2 + shortfall bits))
    (hslack : p + (1 + (2 : ℚ) ^ ((bits : ℤ) - 22)) ≤ limit) :
    |Format.single.nearest n| < limit := by
  have hround := abs_nearest_intCast_le n
  have hcodes := span_mul_scale_le h hbits
  have htop := topCode_le bits
  have hshort := shortfall_le bits
  have hpos := zpow_two_pos ((bits : ℤ) - 23)
  have hpow : (2 : ℚ) ^ (bits : ℤ) = (2 : ℚ) ^ ((bits : ℤ) - 23) * (2 : ℚ) ^ (23 : ℤ) := by
    rw [← zpow_add_two, sub_add_cancel]
  have htwice : (2 : ℚ) ^ ((bits : ℤ) - 22) = (2 : ℚ) ^ ((bits : ℤ) - 23) * 2 := by
    rw [← zpow_add_one₀ two_ne_zero]
    congr 1
    ring
  rw [hpow] at htop
  rw [htwice] at hslack hcodes
  generalize (2 : ℚ) ^ ((bits : ℤ) - 23) = w at hpos htop hslack hcodes hshort
  generalize shortfall bits = δ at hn hshort
  norm_num at hround hcodes htop hshort
  linarith

theorem abs_nearest_sub_biasValue_lt (h : b.Widened lo hi) (hbits : 1 ≤ bits ∧ bits ≤ 31)
    (hq : 0 ≤ q ∧ q ≤ topCode bits)
    (hlo : -lo * scaleValue lo hi bits + (1 + (2 : ℚ) ^ ((bits : ℤ) - 22)) ≤
      overflowBound * scaleValue lo hi bits)
    (hhi : hi * scaleValue lo hi bits + (1 + (2 : ℚ) ^ ((bits : ℤ) - 22)) ≤
      overflowBound * scaleValue lo hi bits) :
    |Format.single.nearest ((q - biasValue lo hi bits : ℤ) : ℚ)| <
      overflowBound * scaleValue lo hi bits := by
  have hscale := (scaleOf_denotes h hbits).2
  have hshort : 0 ≤ shortfall bits := (zpow_two_pos _).le.trans (le_max_right _ _)
  have hnonpos := h.nonpos
  have hnonneg := h.nonneg
  rcases lt_or_ge (hi - lo) (Format.single.nearest (1 / 1000)) with hspan | hspan
  · have hle := abs_sub_le_topCode hq (biasValue_mem h hbits)
    have htop := topCode_le_scale_mul h hbits hspan
    generalize q - biasValue lo hi bits = n at hle ⊢
    have hround := abs_nearest_intCast_le n
    rw [overflowBound]
    norm_num at htop hround ⊢
    linarith
  · rcases le_total q (biasValue lo hi bits) with hle | hle
    · refine abs_nearest_lt_of_le h hbits (p := -lo * scaleValue lo hi bits)
        (mul_le_mul_of_nonneg_right (by linarith) hscale.le) ?_ hlo
      have hbias := biasValue_le lo hi bits
      have hcode : (0 : ℚ) ≤ q := by exact_mod_cast hq.1
      rw [abs_of_nonpos (by exact_mod_cast sub_nonpos.mpr hle)]
      push_cast
      linarith
    · refine abs_nearest_lt_of_le h hbits (p := hi * scaleValue lo hi bits)
        (mul_le_mul_of_nonneg_right (by linarith) hscale.le) ?_ hhi
      have hcode : (q : ℚ) ≤ topCode bits := by exact_mod_cast hq.2
      have hhiPos : 0 ≤ hi * scaleValue lo hi bits := mul_nonneg hnonneg hscale.le
      rw [abs_of_nonneg (by exact_mod_cast sub_nonneg.mpr hle)]
      rcases sub_biasValue_le h hbits hspan hq.2 with hle' | hle'
      · rw [le_antisymm hle' hle, sub_self, Int.cast_zero]
        linarith
      · linarith

/-- Rounding is monotone, so no distance in between overflows before that of an end. -/
theorem abs_nearest_sub_lt {bias : ℤ} {limit : ℚ} (hq : 0 ≤ q ∧ q ≤ topCode bits)
    (hfirst : |Format.single.nearest ((0 - bias : ℤ) : ℚ)| < limit)
    (hlast : |Format.single.nearest ((topCode bits - bias : ℤ) : ℚ)| < limit) :
    |Format.single.nearest ((q - bias : ℤ) : ℚ)| < limit := by
  rcases le_total q bias with hle | hle
  · refine (abs_nearest_intCast_mono ?_).trans_lt hfirst
    exact abs_le_abs_of_nonpos (sub_nonpos.mpr hle) (sub_le_sub_right hq.1 bias)
  · refine (abs_nearest_intCast_mono ?_).trans_lt hlast
    exact abs_le_abs_of_nonneg (sub_nonneg.mpr hle) (sub_le_sub_right hq.2 bias)

/-- **Decoding.** A code of a derived parameter is never decoded to NaN, and to an infinity exactly
if its distance from the code of zero, rounded to 24 bits, reaches the overflow bound in steps. All
codes have finite reals if the first and the last one do, and with fewer than 24 bits no other code
can fail to. None fails if both ends of the bounds, widened to hold zero, stay one step and
`2 ^ (bits - 22)` more away from the overflow bound. -/
theorem dequantize_finite_outcome (hmin : b.min.isFinite = true) (hmax : b.max.isFinite = true)
    (hbits : 1 ≤ bits ∧ bits ≤ 31) :
    ∃ c, derive b bits = .ok c ∧
      (∀ q : ℤ, 0 ≤ q ∧ q ≤ topCode bits →
        (c.dequantize q).isNaN = false ∧
          ((c.dequantize q).isFinite = true ↔
            |Format.single.nearest ((q - c.bias.toInt : ℤ) : ℚ)| <
              overflowBound * c.scale.toRat)) ∧
      ((∀ q : ℤ, 0 ≤ q ∧ q ≤ topCode bits → (c.dequantize q).isFinite = true) ↔
        (c.dequantize 0).isFinite = true ∧ (c.dequantize (topCode bits)).isFinite = true) ∧
      (bits < 24 → ∀ q : ℤ, 0 < q ∧ q < topCode bits → (c.dequantize q).isFinite = true) ∧
      (-b.includingZero.min.toRat + (1 + (2 : ℚ) ^ ((bits : ℤ) - 22)) / c.scale.toRat ≤
          overflowBound →
        b.includingZero.max.toRat + (1 + (2 : ℚ) ^ ((bits : ℤ) - 22)) / c.scale.toRat ≤
          overflowBound →
        ∀ q : ℤ, 0 ≤ q ∧ q ≤ topCode bits → (c.dequantize q).isFinite = true) := by
  obtain ⟨lo, hi, hwide⟩ := (Bounds.isCodable_of_isFinite hmin hmax).exists_widened
  obtain ⟨c, hc, hscale, hbias⟩ := derive_eq_ok hwide hbits
  have hpos := (scaleOf_denotes hwide hbits).2
  have hmem := biasValue_mem hwide hbits
  rw [← hbias] at hmem
  have hdistance : ∀ q : ℤ, 0 ≤ q ∧ q ≤ topCode bits →
      |((q - c.bias.toInt : ℤ) : ℚ)| ≤ (2 : ℚ) ^ (32 : ℤ) := by
    intro q hq
    exact (abs_sub_le_topCode hq hmem).trans (topCode_le_zpow hbits.2)
  have hfinite : ∀ q : ℤ, 0 ≤ q ∧ q ≤ topCode bits → ((c.dequantize q).isFinite = true ↔
      |Format.single.nearest ((q - c.bias.toInt : ℤ) : ℚ)| <
        overflowBound * scaleValue lo hi bits) := by
    intro q hq
    exact dequantize_isFinite_iff hscale hpos (hdistance q hq)
  refine ⟨c, hc, ?_, ?_, ?_, ?_⟩
  · intro q hq
    obtain ⟨z, hz⟩ := exists_dequantize_eq hscale hpos (hdistance q hq)
    rw [hscale.toRat_eq]
    exact ⟨by rw [hz]; exact isNaN_round _ _, hfinite q hq⟩
  · constructor
    · intro hall
      exact ⟨hall 0 ⟨le_rfl, Int.natCast_nonneg _⟩, hall _ ⟨Int.natCast_nonneg _, le_rfl⟩⟩
    · rintro ⟨hfirst, hlast⟩ q hq
      rw [hfinite 0 ⟨le_rfl, Int.natCast_nonneg _⟩] at hfirst
      rw [hfinite _ ⟨Int.natCast_nonneg _, le_rfl⟩] at hlast
      rw [hfinite q hq]
      exact abs_nearest_sub_lt hq hfirst hlast
  · intro hlt q hq
    have hbits' : 1 ≤ bits ∧ bits ≤ 23 := ⟨hbits.1, Nat.le_of_lt_succ hlt⟩
    have hlt := abs_sub_biasValue_lt hwide hbits' hq
    have hexact := nearest_distance hbits'.2 ⟨hq.1.le, hq.2.le⟩ hmem
    rwa [hfinite q ⟨hq.1.le, hq.2.le⟩, hexact, hbias]
  · intro hlo hhi q hq
    rw [hwide.min.toRat_eq, hscale.toRat_eq] at hlo
    rw [hwide.max.toRat_eq, hscale.toRat_eq] at hhi
    have hlo' := mul_le_mul_of_nonneg_right hlo hpos.le
    have hhi' := mul_le_mul_of_nonneg_right hhi hpos.le
    rw [add_mul, div_mul_cancel₀ _ hpos.ne'] at hlo' hhi'
    rw [hfinite q hq, hbias]
    exact abs_nearest_sub_biasValue_lt hwide hbits hq hlo' hhi'

/-- The ends `-3e38` and `3e38` stay a step away from the overflow bound, so all 256 codes have
finite reals. -/
theorem dequantize_finite_outcome_wide :
    derive ⟨ofBits 0xff61b1e6, ofBits 0x7f61b1e6⟩ 8 = .ok ⟨128, ofBits 0x03109eb9⟩ ∧
      ∀ q : ℤ, 0 ≤ q ∧ q ≤ topCode 8 →
        (dequantize ⟨128, ofBits 0x03109eb9⟩ q).isFinite = true := by
  have hderive : derive ⟨ofBits 0xff61b1e6, ofBits 0x7f61b1e6⟩ 8 =
      .ok ⟨128, ofBits 0x03109eb9⟩ := by decide +kernel
  obtain ⟨c, hc, -, -, -, hslack⟩ :=
    dequantize_finite_outcome (b := ⟨ofBits 0xff61b1e6, ofBits 0x7f61b1e6⟩) (by decide +kernel)
      (by decide +kernel) (show 1 ≤ 8 ∧ 8 ≤ 31 by decide)
  obtain rfl := Except.ok.inj (hderive.symm.trans hc)
  exact ⟨hderive, hslack (by decide +kernel) (by decide +kernel)⟩

/-- The widest finite bounds with 16 bits: zero has the code `32768`, so the code `0`, which the
lower end has, stands for a real half a step below that end, and is decoded to an infinity. -/
theorem dequantize_overflows_widest :
    derive ⟨ofBits 0xff7fffff, ofBits 0x7f7fffff⟩ 16 = .ok ⟨32768, ofBits 0x06ffff01⟩ ∧
      quantize ⟨32768, ofBits 0x06ffff01⟩ (ofBits 0xff7fffff) 16 = .ok 0 ∧
      dequantize ⟨32768, ofBits 0x06ffff01⟩ 0 = .inf true := by
  decide +kernel

/-! ## Coding what was decoded -/

theorem roundAway_nearest_div_mul (hpos : 0 < s) (hs : s ≤ (2 : ℚ) ^ (41 : ℤ))
    (hn : |(n : ℚ)| < (2 : ℚ) ^ (23 : ℤ)) :
    roundAway (Format.single.nearest (n / s) * s) = n := by
  rcases eq_or_ne n 0 with rfl | hne
  · rw [Int.cast_zero, zero_div, Format.nearest_zero, zero_mul, roundAway_zero]
  refine roundAway_eq_of_abs_sub_lt ?_
  have hone : (1 : ℚ) ≤ |(n : ℚ)| := by exact_mod_cast Int.one_le_abs hne
  have hquotient : (2 : ℚ) ^ (-126 : ℤ) ≤ |(n : ℚ) / s| := by
    rw [abs_div, abs_of_pos hpos, le_div_iff₀ hpos]
    calc (2 : ℚ) ^ (-126 : ℤ) * s ≤ (2 : ℚ) ^ (-126 : ℤ) * (2 : ℚ) ^ (41 : ℤ) :=
          mul_le_mul_of_nonneg_left hs (zpow_two_pos _).le
      _ ≤ 1 := by
          rw [← zpow_add_two]
          exact zpow_le_one_of_nonpos₀ one_le_two (by decide)
      _ ≤ |(n : ℚ)| := hone
  have hround : |n / s - Format.single.nearest (n / s)| ≤ |(n : ℚ) / s| * (2 : ℚ) ^ (-24 : ℤ) :=
    Format.abs_sub_nearest_le_mul hquotient
  calc |Format.single.nearest (n / s) * s - n|
      = |n / s - Format.single.nearest (n / s)| * s := by
        rw [← abs_of_pos hpos, ← abs_mul, abs_of_pos hpos, sub_mul, div_mul_cancel₀ _ hpos.ne',
          abs_sub_comm]
    _ ≤ |(n : ℚ) / s| * (2 : ℚ) ^ (-24 : ℤ) * s := mul_le_mul_of_nonneg_right hround hpos.le
    _ = |(n : ℚ)| * (2 : ℚ) ^ (-24 : ℤ) := by
        rw [abs_div, abs_of_pos hpos]
        field_simp
    _ < (2 : ℚ) ^ (23 : ℤ) * (2 : ℚ) ^ (-24 : ℤ) := mul_lt_mul_of_pos_right hn (zpow_two_pos _)
    _ = 1 / 2 := by norm_num

theorem eq_end_of_overflow (h : b.Widened lo hi) (hbits : 1 ≤ bits ∧ bits ≤ 23)
    (hq : 0 ≤ q ∧ q ≤ topCode bits)
    (hover : overflowBound ≤
      |((q - biasValue lo hi bits : ℤ) : ℚ) / scaleValue lo hi bits|) :
    q = if ((q - biasValue lo hi bits : ℤ) : ℚ) / scaleValue lo hi bits < 0 then 0
      else (topCode bits : ℤ) := by
  have hbits' : 1 ≤ bits ∧ bits ≤ 31 := ⟨hbits.1, hbits.2.trans (by decide)⟩
  have hpos := (scaleOf_denotes h hbits').2
  obtain ⟨hbias₀, hbias₁⟩ := biasValue_mem h hbits'
  rw [abs_div, abs_of_pos hpos, le_div_iff₀ hpos] at hover
  have hbound : 0 < overflowBound := (abs_nonneg lo).trans_lt h.min.holds.abs_lt_overflowBound
  have hne : q ≠ biasValue lo hi bits := by
    intro heq
    rw [heq, sub_self, Int.cast_zero, abs_zero] at hover
    exact absurd (mul_pos hbound hpos) hover.not_gt
  have hends : q = 0 ∨ q = topCode bits := by
    by_contra hinner
    push Not at hinner
    exact absurd (abs_sub_biasValue_lt h hbits
      ⟨lt_of_le_of_ne hq.1 hinner.1.symm, lt_of_le_of_ne hq.2 hinner.2⟩) hover.not_gt
  rcases hends with hfirst | hlast
  · rw [if_pos, hfirst]
    have hlt : q < biasValue lo hi bits := lt_of_le_of_ne (hfirst.trans_le hbias₀) hne
    exact div_neg_of_neg_of_pos (Int.cast_lt_zero.mpr (sub_neg.mpr hlt)) hpos
  · rw [if_neg, hlast]
    have hle : biasValue lo hi bits ≤ q := hbias₁.trans_eq hlast.symm
    exact (div_nonneg (Int.cast_nonneg (sub_nonneg.mpr hle)) hpos.le).not_gt

/-- **Codes are not lost.** With fewer than 24 bits, decoding a code of a derived parameter and
coding the result gives the code back, also where decoding overflows: that happens to the first and
the last code only, and these are the codes of the infinities. -/
theorem quantize_dequantize (hmin : b.min.isFinite = true) (hmax : b.max.isFinite = true)
    (hbits : 1 ≤ bits ∧ bits ≤ 23) :
    ∃ c, derive b bits = .ok c ∧
      ∀ q : ℤ, 0 ≤ q ∧ q ≤ topCode bits → c.quantize (c.dequantize q) bits = .ok q := by
  have hbits' : 1 ≤ bits ∧ bits ≤ 31 := ⟨hbits.1, hbits.2.trans (by decide)⟩
  obtain ⟨lo, hi, hwide⟩ := (Bounds.isCodable_of_isFinite hmin hmax).exists_widened
  obtain ⟨c, hc, hscale, hbias⟩ := derive_eq_ok hwide hbits'
  have hpos := (scaleOf_denotes hwide hbits').2
  have hmem := biasValue_mem hwide hbits'
  refine ⟨c, hc, ?_⟩
  intro q hq
  have hdistance := abs_sub_le_topCode hq hmem
  have hexact := nearest_distance hbits.2 hq hmem
  have hends := eq_end_of_overflow hwide hbits hq
  rw [← hbias] at hdistance hexact hends
  obtain ⟨z, hz⟩ :=
    exists_dequantize_eq hscale hpos (hdistance.trans (topCode_le_zpow hbits'.2))
  rw [hexact] at hz
  rcases round_nearest (f := .single) z (((q - c.bias.toInt : ℤ) : ℚ) / scaleValue lo hi bits) with
    ⟨-, hdenotes⟩ | ⟨hle, hinf⟩
  · rw [← hz] at hdenotes
    have hlt : |((q - c.bias.toInt : ℤ) : ℚ)| < (2 : ℚ) ^ (23 : ℤ) :=
      hdistance.trans_lt (natCast_lt_zpow_iff.mpr
        (Nat.sub_one_lt_of_le (Nat.two_pow_pos bits) (Nat.pow_le_pow_right two_pos hbits.2)))
    rw [quantize_eq hbits' hscale hdenotes,
      roundAway_nearest_div_mul hpos (scaleValue_mem hwide hbits').2 hlt, sub_add_cancel,
      min_eq_right hq.2, max_eq_right hq.1]
  · have hscalePos : 0 < c.scale := ((denotes_zero false).lt_iff hscale).mpr hpos
    have hover := not_lt.mp (mt Format.abs_nearest_lt_iff.mpr hle.not_gt)
    rw [hz, hinf, quantize_inf hbits' hscalePos]
    simp only [decide_eq_true_eq]
    exact congrArg _ (hends hover).symm

/-- With 16 bits on the widest finite bounds the first code is decoded to an infinity, and coded
again all the same. -/
theorem quantize_dequantize_widest :
    dequantize ⟨32768, ofBits 0x06ffff01⟩ 0 = .inf true ∧
      ∀ q : ℤ, 0 ≤ q ∧ q ≤ topCode 16 →
        quantize ⟨32768, ofBits 0x06ffff01⟩ (dequantize ⟨32768, ofBits 0x06ffff01⟩ q) 16 =
          .ok q := by
  have hderive : derive ⟨ofBits 0xff7fffff, ofBits 0x7f7fffff⟩ 16 =
      .ok ⟨32768, ofBits 0x06ffff01⟩ := by
    decide +kernel
  obtain ⟨c, hc, hcodes⟩ :=
    quantize_dequantize (b := ⟨ofBits 0xff7fffff, ofBits 0x7f7fffff⟩) (by decide +kernel)
      (by decide +kernel) (show 1 ≤ 16 ∧ 16 ≤ 23 by decide)
  obtain rfl := Except.ok.inj (hderive.symm.trans hc)
  exact ⟨by decide +kernel, hcodes⟩

end AffineQuant.AffineCode
