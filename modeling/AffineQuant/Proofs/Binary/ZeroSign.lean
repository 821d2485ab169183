import AffineQuant.Proofs.Binary.Infinite
import AffineQuant.Proofs.Binary.Order

/-!
# The sign of a zero

The least and the greatest of a set of numbers are settled but for the sign of a zero, which
depends on the order in which they are found. What is computed from them inherits that and nothing
more: operands that agree up to the sign of a zero lead to results that do.

## The congruence

Agreement is equality of `unsigned`, so that it composes by rewriting and needs no relation of its
own. An operation has to be examined on zeros only, where its results have to denote one value or
be one infinity or NaN (`unsigned_congr`); operands that are not zeros and agree are the same.
One lemma for each operation follows from this, and for the binary ones there is a lemma for each
operand.

Comparisons, finiteness and whole parts do not see the sign at all, so for them the agreement of
the operands gives equal results.

## What is left out

Division is not among these operations. A zero divisor hands its sign on to an infinity, and the
two infinities do not agree. The lemma is not missed: where a span of bounds becomes a divisor, it
has been raised to a positive floor before.
-/

namespace AffineQuant.Binary

variable {f : Format} {x y z : Binary f} {q : ℚ}

/-! ## Zeros -/

theorem denotes_zero_of_isZero (h : x.isZero = true) : x.Denotes 0 := by
  cases x with
  | nan => exact absurd h Bool.false_ne_true
  | inf s => exact absurd h Bool.false_ne_true
  | finite s m e hc =>
    obtain rfl : m = 0 := eq_of_beq h
    exact ⟨rfl, toRat_of_significand_eq_zero s hc⟩

theorem Denotes.zero_mul_eq_nan (hx : x.Denotes 0) (hz : ¬z.isFinite = true) : x * z = nan := by
  obtain ⟨s, m, e, hc, rfl, hm⟩ := hx.exists_eq_finite
  have hm : m = 0 := of_not_not fun hne ↦ (sign_toRat s hc hne).1 hm.symm
  cases z with
  | nan => rfl
  | inf t => exact if_pos hm
  | finite t n d hd => exact absurd rfl hz

variable [f.Proper]

theorem Denotes.unsigned_eq (hx : x.Denotes q) (hy : y.Denotes q) : x.unsigned = y.unsigned :=
  position_eq_iff.mp (hx.position_eq.trans hy.position_eq.symm)

/-- Numbers that agree up to the sign of a zero are the same or zeros. -/
theorem eq_or_denotes_zero (h : x.unsigned = y.unsigned) :
    x = y ∨ x.Denotes 0 ∧ y.Denotes 0 := by
  rw [unsigned, unsigned] at h
  by_cases hx : x.isZero = true
  · rw [if_pos hx] at h
    refine Or.inr ⟨denotes_zero_of_isZero hx, ?_⟩
    by_cases hy : y.isZero = true
    · exact denotes_zero_of_isZero hy
    · rw [if_neg hy] at h
      exact h ▸ denotes_zero false
  · rw [if_neg hx] at h
    by_cases hy : y.isZero = true
    · rw [if_pos hy] at h
      exact Or.inr ⟨h ▸ denotes_zero false, denotes_zero_of_isZero hy⟩
    · rw [if_neg hy] at h
      exact Or.inl h

theorem unsigned_congr {k : Format} {g : Binary f → Binary k}
    (hg : ∀ u v, u.Denotes 0 → v.Denotes 0 → (g u).unsigned = (g v).unsigned)
    (h : x.unsigned = y.unsigned) : (g x).unsigned = (g y).unsigned := by
  rcases eq_or_denotes_zero h with rfl | ⟨hx, hy⟩
  · rfl
  · exact hg x y hx hy

/-! ## Operations -/

theorem unsigned_neg_congr (h : x.unsigned = y.unsigned) : (-x).unsigned = (-y).unsigned :=
  unsigned_congr (fun _ _ hu hv ↦ hu.neg.unsigned_eq hv.neg) h

theorem unsigned_roundToWhole_congr (h : x.unsigned = y.unsigned) :
    x.roundToWhole.unsigned = y.roundToWhole.unsigned :=
  unsigned_congr (fun _ _ hu hv ↦ hu.roundToWhole.unsigned_eq hv.roundToWhole) h

theorem unsigned_convert_congr {g : Format} [g.Proper] (h : x.unsigned = y.unsigned) :
    (x.convert g).unsigned = (y.convert g).unsigned :=
  unsigned_congr (fun _ _ hu hv ↦
    (hu.convert (Format.holds_zero g)).unsigned_eq (hv.convert (Format.holds_zero g))) h

theorem unsigned_mul_congr (h : x.unsigned = y.unsigned) (z : Binary f) :
    (x * z).unsigned = (y * z).unsigned := by
  refine unsigned_congr (g := fun u ↦ u * z) (fun u v hu hv ↦ ?_) h
  by_cases hz : z.isFinite = true
  · have hholds : f.Holds (0 * z.toRat) := by
      rw [zero_mul]
      exact Format.holds_zero f
    exact (hu.mul (denotes_toRat hz) hholds).unsigned_eq (hv.mul (denotes_toRat hz) hholds)
  · rw [hu.zero_mul_eq_nan hz, hv.zero_mul_eq_nan hz]

theorem unsigned_sub_congr_left (h : x.unsigned = y.unsigned) (z : Binary f) :
    (x - z).unsigned = (y - z).unsigned := by
  refine unsigned_congr (g := fun u ↦ u - z) (fun u v hu hv ↦ ?_) h
  cases z with
  | nan => rw [sub_nan, sub_nan]
  | inf s => rw [sub_inf s hu.isFinite_eq, sub_inf s hv.isFinite_eq]
  | finite s m e hc =>
    have hz : (finite s m e hc).Denotes (finite s m e hc).toRat := denotes_toRat rfl
    have hholds : f.Holds (0 - (finite s m e hc).toRat) := by
      rw [zero_sub]
      exact hz.holds.neg
    exact (hu.sub hz hholds).unsigned_eq (hv.sub hz hholds)

theorem unsigned_sub_congr_right (h : x.unsigned = y.unsigned) (z : Binary f) :
    (z - x).unsigned = (z - y).unsigned := by
  refine unsigned_congr (g := fun u ↦ z - u) (fun u v hu hv ↦ ?_) h
  cases z with
  | nan => rfl
  | inf s => rw [inf_sub s hu.isFinite_eq, inf_sub s hv.isFinite_eq]
  | finite s m e hc =>
    have hz : (finite s m e hc).Denotes (finite s m e hc).toRat := denotes_toRat rfl
    have hholds : f.Holds ((finite s m e hc).toRat - 0) := by
      rw [sub_zero]
      exact hz.holds
    exact (hz.sub hu hholds).unsigned_eq (hz.sub hv hholds)

/-! ## Comparisons and whole parts -/

theorem lt_congr_left (h : x.unsigned = y.unsigned) (z : Binary f) : x < z ↔ y < z := by
  rw [lt_iff_position_lt, lt_iff_position_lt, position_eq_iff.mpr h]

theorem lt_congr_right (h : x.unsigned = y.unsigned) (z : Binary f) : z < x ↔ z < y := by
  rw [lt_iff_position_lt, lt_iff_position_lt, position_eq_iff.mpr h]

theorem isFinite_congr (h : x.unsigned = y.unsigned) : x.isFinite = y.isFinite := by
  rcases eq_or_denotes_zero h with rfl | ⟨hx, hy⟩
  · rfl
  · rw [hx.isFinite_eq, hy.isFinite_eq]

theorem le_congr_right (h : x.unsigned = y.unsigned) (z : Binary f) : z ≤ x ↔ z ≤ y := by
  rcases eq_or_denotes_zero h with rfl | ⟨hx, hy⟩
  · rfl
  · have hlt : lt x z = lt y z := Bool.eq_iff_iff.mpr (lt_congr_left h z)
    change (!z.isNaN && !x.isNaN && !lt x z) = true ↔ (!z.isNaN && !y.isNaN && !lt y z) = true
    rw [hx.isNaN_eq, hy.isNaN_eq, hlt]

theorem toIntWithin_congr (h : x.unsigned = y.unsigned) (lo hi : ℤ) :
    x.toIntWithin lo hi = y.toIntWithin lo hi := by
  rcases eq_or_denotes_zero h with rfl | ⟨hx, hy⟩
  · rfl
  · rw [← Int.cast_zero] at hx hy
    rw [hx.toIntWithin, hy.toIntWithin]

end AffineQuant.Binary
