import AffineQuant.Proofs.AffineCode.Derive

/-!
# Accuracy of derived codes

A code is the exact position `x * scale + bias`, rounded to an integer and moved into the range of
codes. Rounding costs half a step. Within the bounds that a code was derived from, moving it costs
next to nothing, because the codes span the bounds almost exactly.

## The position is exact

The product of two 32-bit numbers is exact in 64 bits, but its sum with the bias may not be. That
does not matter for the code: where the sum has to be rounded it lies far outside the range, whose
ends are numbers of the format, and rounding does not carry it across them (`max_min_nearest`).
So the code is an expression over the integers and one `roundAway` (`quantize_eq`), with no
rounding of the format left in it.

## The span

What the scale has gained by its roundings is at most `2 ^ (bits - 22)` codes over the whole span
(`span_mul_scale_le`). The bound is attained up to a relative `2 ^ (-23)` where it is weakest, for
the widest bounds and a single bit: there the scale is a subnormal number with three bits less
than the others. This is why the error of the scale is estimated in two cases.

A clamped bias needs an argument of its own. Positions near the lower end then fall below the
first code and are moved up, but by no more than the clamp took away: no position within the
bounds is rounded to less than that of the lower end, which is the negative of the bias before the
clamp (`abs_sub_code_le`).
-/

namespace AffineQuant

open Binary

namespace Binary

variable {f : Format} {x lo hi : Binary f} {q a b : ℚ}

theorem Denotes.clamp (hx : x.Denotes q) (hlo : lo.Denotes a) (hhi : hi.Denotes b) (hab : a ≤ b) :
    (x.clamp lo hi).Denotes (max a (min b q)) := by
  rw [Binary.clamp]
  simp only [hx.lt_iff hlo, hhi.lt_iff hx]
  split_ifs with hlt hgt
  · rw [max_eq_left ((min_le_right b q).trans hlt.le)]
    exact hlo
  · rw [min_eq_left hgt.le, max_eq_right hab]
    exact hhi
  · rw [min_eq_right (not_lt.mp hgt), max_eq_right (not_lt.mp hlt)]
    exact hx

theorem exists_denotes_of_mem (hlo : lo.Denotes a) (hhi : hi.Denotes b) (h : lo ≤ x) (h' : x ≤ hi) :
    ∃ r, x.Denotes r := by
  obtain ⟨s, m, e, hc, rfl, -⟩ := hlo.exists_eq_finite
  obtain ⟨t, n, d, hd, rfl, -⟩ := hhi.exists_eq_finite
  rcases x with _ | ⟨_ | _⟩ | ⟨u, k, g, hk⟩
  · exact absurd h' Bool.false_ne_true
  · exact absurd h' Bool.false_ne_true
  · exact absurd h Bool.false_ne_true
  · exact ⟨_, denotes_toRat rfl⟩

end Binary

namespace AffineCode

variable {b : Bounds} {c : AffineCode} {x : Single} {lo hi r s : ℚ} {bits : ℕ}

/-! ## Coding -/

theorem max_min_nearest {f : Format} [f.Proper] (k : ℤ) {top : ℤ} (h : 0 ≤ top)
    (hlt : top.natAbs < pow2 f.precision) :
    max 0 (min (top : ℚ) (f.nearest k)) = max 0 (min top k : ℤ) := by
  have hgrid : ∀ n : ℤ, n.natAbs < pow2 f.precision → f.Grid n := fun n hn ↦
    (Format.holds_intCast hn).grid
  push_cast
  rcases lt_or_ge k 0 with hk | hk
  · have hneg : f.nearest k ≤ 0 :=
      (Format.holds_zero f).grid.nearest_le (by exact_mod_cast hk.le)
    rw [max_eq_left ((min_le_right _ _).trans hneg),
      max_eq_left ((min_le_right _ _).trans (by exact_mod_cast hk.le))]
  rcases le_or_gt k top with hk' | hk'
  · rw [(hgrid k (by omega)).nearest_eq]
  · have hle : (top : ℚ) ≤ f.nearest k := (hgrid top hlt).le_nearest (by exact_mod_cast hk'.le)
    rw [min_eq_left hle, min_eq_left (by exact_mod_cast hk'.le)]

theorem abs_position_le (hr : Format.single.Holds r) (hs : Format.single.Holds s) (bias : Int32) :
    |((roundAway (r * s) + bias.toInt : ℤ) : ℚ)| ≤ (2 : ℚ) ^ (257 : ℤ) := by
  have hprod : |r * s| < (2 : ℚ) ^ (128 + 128 : ℤ) := by
    rw [abs_mul, zpow_add_two]
    exact mul_lt_mul'' hr.1 hs.1 (abs_nonneg _) (abs_nonneg _)
  have hsteps := abs_sub_abs_le_abs_sub (roundAway (r * s) : ℚ) (r * s)
  rw [abs_sub_comm] at hsteps
  have hhalf := abs_sub_roundAway_le (r * s)
  have hbias : |(bias.toInt : ℚ)| ≤ (2 : ℚ) ^ (31 : ℤ) := by
    have hlo := bias.le_toInt
    have hhi := bias.toInt_lt
    exact_mod_cast abs_le.mpr ⟨hlo, hhi.le⟩
  have hsum := abs_add_le (roundAway (r * s) : ℚ) bias.toInt
  have hsmall : (2 : ℚ) ^ (31 : ℤ) + 1 / 2 ≤ (2 : ℚ) ^ (128 + 128 : ℤ) :=
    le_trans (by norm_num) (zpow_two_le_iff.mpr (by decide : (32 : ℤ) ≤ 128 + 128))
  have htwice : (2 : ℚ) ^ (257 : ℤ) = (2 : ℚ) ^ (128 + 128 : ℤ) * 2 := by
    rw [← zpow_add_one₀ two_ne_zero]
    rfl
  rw [Int.cast_add, htwice]
  generalize (2 : ℚ) ^ (128 + 128 : ℤ) = n at hprod hsmall ⊢
  linarith

theorem denotes_bias (c : AffineCode) :
    (Binary.ofInt c.bias.toInt : Double).Denotes c.bias.toInt := by
  have hlo := c.bias.le_toInt
  have hhi := c.bias.toInt_lt
  exact denotes_ofInt (lt_of_le_of_lt (b := 2 ^ 31) (by omega) (by decide))

theorem quantize_eq_ite (hbits : 1 ≤ bits ∧ bits ≤ 31) (c : AffineCode) (x : Single) :
    c.quantize x bits =
      if (x.widen * c.scale.widen).roundToWhole.isNaN = true then
        .ok (max 0 (min (topCode bits) c.bias.toInt))
      else
        .ok ((((x.widen * c.scale.widen).roundToWhole + Binary.ofInt c.bias.toInt).clamp 0
          (Binary.ofInt (topCode bits))).toIntWithin (leastInt 64) (greatestInt 64)) := by
  rw [quantize, checkBits, if_neg (by rw [maxCodeBits]; omega)]
  rfl

theorem topCode_le_greatestInt (h : bits ≤ 31) : ((topCode bits : ℕ) : ℤ) ≤ greatestInt 64 :=
  le_trans (by exact_mod_cast (topCode_lt h).le)
    (by decide : ((pow2 31 : ℕ) : ℤ) ≤ greatestInt 64)

theorem quantize_eq (hbits : 1 ≤ bits ∧ bits ≤ 31) (hs : c.scale.Denotes s) (hx : x.Denotes r) :
    c.quantize x bits =
      .ok (max 0 (min (topCode bits) (roundAway (r * s) + c.bias.toInt))) := by
  have hsteps := (hx.widen.mul hs.widen (hx.holds.mul hs.holds)).roundToWhole
  have hsum := hsteps.add_nearest (denotes_bias c) <| by
    rw [← Int.cast_add]
    exact Format.abs_nearest_double_lt (by decide) (by decide)
      (abs_position_le hx.holds hs.holds c.bias)
  have hcode := hsum.clamp (denotes_zero false) (denotes_topCode hbits.2) (Nat.cast_nonneg _)
  have htop : ((topCode bits : ℕ) : ℤ).natAbs < pow2 53 := (topCode_lt hbits.2).trans (by decide)
  rw [← Int.cast_add, ← Int.cast_natCast (R := ℚ) (topCode bits),
    max_min_nearest _ (Int.natCast_nonneg _) htop] at hcode
  have hleast : leastInt 64 ≤ 0 := by decide
  have hword := hcode.toIntWithin_eq (hleast.trans (le_max_left _ _))
    (max_le (by decide) ((min_le_left _ _).trans (topCode_le_greatestInt hbits.2)))
  rw [quantize_eq_ite hbits, hsteps.isNaN_eq, if_neg Bool.false_ne_true]
  exact congrArg Except.ok hword

/-! ## The span in codes -/

/-- The span loses at most its last bit, unless it is floored, when it grows. -/
theorem span_mul_le (lo hi : ℚ) : (hi - lo) * (1 - (2 : ℚ) ^ (-53 : ℤ)) ≤ spanValue lo hi := by
  rcases le_or_gt (hi - lo) ((2 : ℚ) ^ (-10 : ℤ)) with hle | hgt
  · have hfloor : (2 : ℚ) ^ (-10 : ℤ) ≤ spanValue lo hi :=
      leastSpan_bounds.1.trans (le_max_right _ _)
    norm_num at hle hfloor ⊢
    linarith
  · have herror :=
      Format.abs_sub_nearest_double_le ((zpow_two_le_iff.mpr (by decide)).trans hgt.le)
    have hbelow := (abs_le.mp herror).2
    calc (hi - lo) * (1 - (2 : ℚ) ^ (-53 : ℤ))
        = hi - lo - (hi - lo) * (2 : ℚ) ^ (-53 : ℤ) := by ring
      _ ≤ Format.double.nearest (hi - lo) := by
        rw [sub_le_comm]
        exact hbelow
      _ ≤ spanValue lo hi := le_max_left _ _

theorem span_mul_quotient_le (h : b.Widened lo hi) (hbits : 1 ≤ bits ∧ bits ≤ 31) :
    (hi - lo) * Format.double.nearest (topCode bits / spanValue lo hi) ≤
      topCode bits * (1 + (2 : ℚ) ^ (-51 : ℤ)) := by
  obtain ⟨hnonneg, -⟩ := Widened.sub_mem h
  have hquotient := (quotient_mem h hbits).1
  have hspan := spanValue_pos lo hi
  have hcancel : topCode bits / spanValue lo hi * spanValue lo hi = topCode bits :=
    div_mul_cancel₀ _ hspan.ne'
  generalize topCode bits / spanValue lo hi = q at hquotient hcancel ⊢
  have hq : 0 < q := (zpow_two_pos _).trans_le hquotient
  have herror :=
    Format.abs_sub_nearest_double_le ((zpow_two_le_iff.mpr (by decide)).trans hquotient)
  rw [abs_sub_comm] at herror
  have habove : Format.double.nearest q ≤ q + q * (2 : ℚ) ^ (-53 : ℤ) :=
    sub_le_iff_le_add'.mp (abs_le.mp herror).2
  have hcodes : (hi - lo) * q * (1 - (2 : ℚ) ^ (-53 : ℤ)) ≤ topCode bits := by
    rw [mul_right_comm, ← hcancel, mul_comm q]
    exact mul_le_mul_of_nonneg_right (span_mul_le lo hi) hq.le
  have htop : (0 : ℚ) ≤ topCode bits := Nat.cast_nonneg _
  calc (hi - lo) * Format.double.nearest q
      ≤ (hi - lo) * (q + q * (2 : ℚ) ^ (-53 : ℤ)) := mul_le_mul_of_nonneg_left habove hnonneg
    _ = (hi - lo) * q * (1 + (2 : ℚ) ^ (-53 : ℤ)) := by ring
    _ ≤ topCode bits * (1 + (2 : ℚ) ^ (-51 : ℤ)) := by
      norm_num at hcodes ⊢
      linarith

theorem span_mul_scale_le (h : b.Widened lo hi) (hbits : 1 ≤ bits ∧ bits ≤ 31) :
    (hi - lo) * scaleValue lo hi bits ≤ topCode bits + (2 : ℚ) ^ ((bits : ℤ) - 22) := by
  obtain ⟨hnonneg, -⟩ := Widened.sub_mem h
  have hquotient := span_mul_quotient_le h hbits
  have hpos : 0 ≤ Format.double.nearest (topCode bits / spanValue lo hi) :=
    Format.nearest_nonneg ((zpow_two_pos _).le.trans (quotient_mem h hbits).1)
  rw [scaleValue]
  generalize Format.double.nearest (topCode bits / spanValue lo hi) = u at hquotient hpos ⊢
  have herror := Format.single.abs_sub_nearest_le_max u
  rw [abs_of_nonneg hpos, abs_sub_comm] at herror
  have habove := sub_le_iff_le_add'.mp ((le_abs_self _).trans herror)
  have hcodes := topCode_le bits
  have htwo : (2 : ℚ) ≤ (2 : ℚ) ^ (bits : ℤ) := by
    exact_mod_cast Nat.pow_le_pow_right two_pos hbits.1
  have hwidest : hi - lo ≤ ((2 : ℚ) ^ (24 : ℤ) - 1) * (2 : ℚ) ^ (104 : ℤ) * 2 := by
    have hlo : -(((2 : ℚ) ^ (24 : ℤ) - 1) * (2 : ℚ) ^ (104 : ℤ)) ≤ lo :=
      (abs_le.mp h.min.holds.abs_le_greatest).1
    have hhi : hi ≤ ((2 : ℚ) ^ (24 : ℤ) - 1) * (2 : ℚ) ^ (104 : ℤ) :=
      (abs_le.mp h.max.holds.abs_le_greatest).2
    linarith
  have hmul := mul_le_mul_of_nonneg_left habove hnonneg
  rw [sub_eq_add_neg (bits : ℤ), zpow_add_two]
  generalize (2 : ℚ) ^ (bits : ℤ) = n at hcodes htwo ⊢
  -- The error is absolute if the scale is a subnormal number, and relative otherwise.
  rcases max_choice ((2 : ℚ) ^ (Format.single.leastExp - 1))
    (u * (2 : ℚ) ^ (-(Format.single.precision : ℤ))) with hmax | hmax <;> rw [hmax] at hmul
  · have hmul' : (hi - lo) * Format.single.nearest u ≤
        (hi - lo) * (u + (2 : ℚ) ^ (-150 : ℤ)) := hmul
    norm_num at hquotient hwidest hmul' ⊢
    linarith
  · have hmul' : (hi - lo) * Format.single.nearest u ≤ (hi - lo) * (u + u * (2 : ℚ) ^ (-24 : ℤ)) :=
      hmul
    norm_num at hquotient hmul' ⊢
    linarith

/-! ## Accuracy -/

/-- Positions between the codes of the two ends lose at most half a step and the amount by which the
ends are further apart than the codes. The bias is the rounded position `p₀` of zero, unless that is
past the last code. -/
theorem abs_sub_code_le {top : ℕ} {p p₀ m δ : ℚ} (hlo : -p₀ ≤ p) (hhi : p ≤ m) (hm : 0 ≤ m)
    (hδ : 0 ≤ δ) (hspan : m + p₀ ≤ top + δ) :
    |p - ((max 0 (min (top : ℤ) (roundAway p + min (roundAway p₀) top)) : ℤ) -
      (min (roundAway p₀) top : ℤ))| ≤ 1 / 2 + δ := by
  have hp := abs_le.mp (abs_sub_roundAway_le p)
  have hp₀ := abs_le.mp (abs_sub_roundAway_le p₀)
  have hmono := roundAway_mono hlo
  rw [roundAway_neg] at hmono
  generalize roundAway p = n at hp hmono ⊢
  generalize roundAway p₀ = n₀ at hp₀ hmono ⊢
  have hbias : ((min n₀ top : ℤ) : ℚ) ≤ n₀ := by exact_mod_cast min_le_left n₀ (top : ℤ)
  have hclamped : -n₀ ≤ n → n + min n₀ (top : ℤ) < 0 → min n₀ (top : ℤ) = top := by omega
  generalize min n₀ (top : ℤ) = bias at hbias hclamped ⊢
  rw [abs_le]
  rcases lt_or_ge (n + bias) 0 with hneg | hnonneg
  · -- Only past the last code, where the bias is less than the position of zero.
    obtain rfl := hclamped hmono hneg
    have hneg' : (n : ℚ) + top < 0 := by exact_mod_cast hneg
    rw [max_eq_left (by omega)]
    push_cast
    constructor <;> linarith
  rcases le_or_gt (n + bias) top with hle | hgt
  · rw [min_eq_right hle, max_eq_right hnonneg]
    push_cast
    constructor <;> linarith
  · have hgt' : (top : ℚ) + 1 ≤ n + bias := by exact_mod_cast hgt
    rw [min_eq_left hgt.le, max_eq_right (Int.natCast_nonneg top)]
    push_cast
    constructor <;> linarith

/-- **Half-step accuracy.** A number within the bounds, widened to hold zero, is coded with an error
of half a step and what the roundings of the scale may add over the whole span. -/
theorem quantize_error_le (hmin : b.min.isFinite = true) (hmax : b.max.isFinite = true)
    (hbits : 1 ≤ bits ∧ bits ≤ 31) :
    ∃ c, derive b bits = .ok c ∧
      ∀ x : Single, b.includingZero.min ≤ x → x ≤ b.includingZero.max →
        ∃ q, c.quantize x bits = .ok q ∧
          |x.toRat * c.scale.toRat - (q - c.bias.toInt)| ≤ 1 / 2 + (2 : ℚ) ^ ((bits : ℤ) - 22) := by
  obtain ⟨lo, hi, hwide⟩ := (Bounds.isCodable_of_isFinite hmin hmax).exists_widened
  obtain ⟨c, hc, hscale, hbias⟩ := derive_eq_ok hwide hbits
  have hpos := (scaleOf_denotes hwide hbits).2
  refine ⟨c, hc, fun x hlo hhi ↦ ?_⟩
  obtain ⟨r, hx⟩ := exists_denotes_of_mem hwide.min hwide.max hlo hhi
  have hlo' := (hwide.min.le_iff hx).mp hlo
  have hhi' := (hx.le_iff hwide.max).mp hhi
  refine ⟨_, quantize_eq hbits hscale hx, ?_⟩
  rw [hx.toRat_eq, hscale.toRat_eq, hbias, biasValue]
  refine abs_sub_code_le (m := hi * scaleValue lo hi bits) ?_ ?_ ?_ (zpow_two_pos _).le ?_
  · rw [neg_mul, neg_neg]
    exact mul_le_mul_of_nonneg_right hlo' hpos.le
  · exact mul_le_mul_of_nonneg_right hhi' hpos.le
  · exact mul_nonneg hwide.nonneg hpos.le
  · rw [← add_mul, ← sub_eq_add_neg]
    exact span_mul_scale_le hwide hbits

/-- Bounds below zero at the greatest width: the rounded position of zero is past the last code, so
the bias is clamped, and the lower end still gets the code `0`. -/
theorem quantize_error_le_clamped :
    (derive ⟨ofBits 0xbb449ba6, ofBits 0xba83126f⟩ 31 = .ok ⟨2147483647, ofBits 0x5326aaab⟩) ∧
      quantize ⟨2147483647, ofBits 0x5326aaab⟩ (ofBits 0xbb449ba6) 31 = .ok 0 ∧
      |(ofBits 0xbb449ba6 : Single).toRat * (ofBits 0x5326aaab : Single).toRat -
        ((0 : ℤ) - (2147483647 : Int32).toInt)| ≤ 1 / 2 + (2 : ℚ) ^ (((31 : ℕ) : ℤ) - 22) := by
  have hderive : derive ⟨ofBits 0xbb449ba6, ofBits 0xba83126f⟩ 31 =
      .ok ⟨2147483647, ofBits 0x5326aaab⟩ := by decide +kernel
  have hcode : quantize ⟨2147483647, ofBits 0x5326aaab⟩ (ofBits 0xbb449ba6) 31 = .ok 0 := by
    decide +kernel
  have hbits : 1 ≤ 31 ∧ 31 ≤ 31 := by decide
  obtain ⟨c, hc, herror⟩ := quantize_error_le (b := ⟨ofBits 0xbb449ba6, ofBits 0xba83126f⟩)
    (by decide +kernel) (by decide +kernel) hbits
  obtain rfl := Except.ok.inj (hderive.symm.trans hc)
  obtain ⟨q, hq, hle⟩ := herror (ofBits 0xbb449ba6) (by decide +kernel) (by decide +kernel)
  obtain rfl := Except.ok.inj (hcode.symm.trans hq)
  exact ⟨hderive, hcode, hle⟩

end AffineCode

end AffineQuant
