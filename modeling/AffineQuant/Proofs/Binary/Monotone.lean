import AffineQuant.Proofs.Binary.Infinite
import AffineQuant.Proofs.Binary.Nearest
import AffineQuant.Proofs.Binary.Order

/-!
# Monotone operations

Rounding is monotone beyond the finite numbers: what overflows is rounded to the infinity on its
side (`round_mono`). So an operation is monotone on all numbers if it rounds a monotone function
of the value and leaves the infinities where they are (`IsMonotone.of_round`). Differences to a
finite number are of this kind, and quotients by a positive one, and compositions of the two.

## Why NaN is part of it

`IsMonotone` also says that an operation neither makes a NaN nor removes one. The order is no help
there, since NaN is related to nothing: an operation could send a sample to NaN and still keep the
order of all that can be compared. Extremes ignore NaN, so with this clause, and not without it,
an operation may be applied to samples before or after their extremes are taken.

## Zeros

The two zeros are equal in the order, and `round` takes the sign of an exact zero as an argument
that two calls may well give differently. `round_mono` holds however these signs are chosen, and
nothing here depends on them.
-/

namespace AffineQuant.Binary

variable {f : Format} {x y : Binary f} {q r : ℚ}

/-! ## Rounding -/

theorem round_cases [f.Proper] (z : Bool) (q : ℚ) :
    (f.nearest q ≤ -f.threshold ∧ (round z q : Binary f) = .inf true) ∨
      (|f.nearest q| < f.threshold ∧ (round z q : Binary f).Denotes (f.nearest q)) ∨
      (f.threshold ≤ f.nearest q ∧ (round z q : Binary f) = .inf false) := by
  rcases round_nearest (f := f) z q with hfin | ⟨hle, hinf⟩
  · exact Or.inr (Or.inl hfin)
  rcases lt_or_ge q 0 with hq | hq
  · rw [decide_eq_true hq] at hinf
    have hneg : 0 ≤ -f.nearest q := by
      rw [← Format.nearest_neg]
      exact Format.nearest_nonneg (neg_nonneg.mpr hq.le)
    rw [abs_of_nonpos (neg_nonneg.mp hneg)] at hle
    exact Or.inl ⟨le_neg_of_le_neg hle, hinf⟩
  · rw [decide_eq_false hq.not_gt] at hinf
    rw [abs_of_nonneg (Format.nearest_nonneg hq)] at hle
    exact Or.inr (Or.inr ⟨hle, hinf⟩)

theorem inf_le (h : y.isNaN = false) : inf true ≤ y := by
  rcases y with _ | ⟨_ | _⟩ | ⟨s, m, e, hc⟩
  · exact absurd h.symm Bool.false_ne_true
  · rfl
  · rfl
  · rfl

theorem le_inf (h : x.isNaN = false) : x ≤ inf false := by
  rcases x with _ | ⟨_ | _⟩ | ⟨s, m, e, hc⟩
  · exact absurd h.symm Bool.false_ne_true
  · rfl
  · rfl
  · rfl

/-- Rounding is monotone, however a zero is signed. -/
theorem round_mono [f.Proper] (z z' : Bool) (h : q ≤ r) :
    (round z q : Binary f) ≤ round z' r := by
  have hmono := Format.nearest_mono (f := f) h
  rcases round_cases (f := f) z q with ⟨-, hq⟩ | ⟨hq, hdenotes⟩ | ⟨hq, hinf⟩
  · rw [hq]
    exact inf_le (isNaN_round z' r)
  · rcases round_cases (f := f) z' r with ⟨hr, -⟩ | ⟨-, hdenotes'⟩ | ⟨-, hr⟩
    · exact absurd (abs_lt.mp hq).1 (not_lt.mpr (hmono.trans hr))
    · exact (hdenotes.le_iff hdenotes').mpr hmono
    · rw [hr]
      exact le_inf (isNaN_round z q)
  · rcases round_cases (f := f) z' r with ⟨hr, -⟩ | ⟨hr, -⟩ | ⟨-, hr⟩
    · have hpos := f.threshold_pos
      linarith
    · exact absurd (abs_lt.mp hr).2 (not_lt.mpr (hq.trans hmono))
    · rw [hinf, hr]
      rfl

/-! ## Operations -/

/-- The operation keeps the order of numbers, and NaN is its value for NaN and nothing else. -/
structure IsMonotone (g : Binary f → Binary f) : Prop where
  isNaN_eq : ∀ x, (g x).isNaN = x.isNaN
  le : ∀ x y, x ≤ y → g x ≤ g y

namespace IsMonotone

variable {g h : Binary f → Binary f}

theorem comp (hg : IsMonotone g) (hh : IsMonotone h) : IsMonotone fun x ↦ g (h x) where
  isNaN_eq x := (hg.isNaN_eq _).trans (hh.isNaN_eq x)
  le _ _ hxy := hg.le _ _ (hh.le _ _ hxy)

theorem of_round [f.Proper] {G : ℚ → ℚ} (hG : Monotone G) (hnan : g nan = nan)
    (hinf : ∀ s, g (inf s) = inf s) (hround : ∀ x q, x.Denotes q → ∃ z, g x = round z (G q)) :
    IsMonotone g := by
  have hisNaN : ∀ x, (g x).isNaN = x.isNaN := by
    rintro (_ | s | ⟨s, m, e, hc⟩)
    · rw [hnan]
    · rw [hinf]
    · obtain ⟨z, hz⟩ := hround _ _ (denotes_toRat (x := finite s m e hc) rfl)
      rw [hz, isNaN_round]
      rfl
  refine ⟨hisNaN, fun x y hxy ↦ ?_⟩
  obtain ⟨hx, hy⟩ := isNaN_of_le hxy
  rcases isFinite_of_le hxy with rfl | rfl | ⟨hx', hy'⟩
  · rw [hinf]
    exact inf_le ((hisNaN y).trans hy)
  · rw [hinf]
    exact le_inf ((hisNaN x).trans hx)
  · have hdx := denotes_toRat hx'
    have hdy := denotes_toRat hy'
    obtain ⟨z, hz⟩ := hround x _ hdx
    obtain ⟨z', hz'⟩ := hround y _ hdy
    rw [hz, hz']
    exact round_mono z z' (hG ((hdx.le_iff hdy).mp hxy))

end IsMonotone

theorem isMonotone_sub [f.Proper] (hy : y.isFinite = true) :
    IsMonotone fun x : Binary f ↦ x - y := by
  refine .of_round (G := fun q ↦ q - y.toRat) ?_ rfl (fun s ↦ inf_sub s hy) fun x q hx ↦ ?_
  · exact fun q r hqr ↦ sub_le_sub_right hqr _
  · exact hx.exists_sub_eq (denotes_toRat hy)

theorem isMonotone_div [f.Proper] (hy : y.Denotes r) (hr : 0 < r) :
    IsMonotone fun x : Binary f ↦ x / y := by
  refine .of_round (G := fun q ↦ q / r) ?_ rfl (fun s ↦ inf_div_of_pos s hy hr) fun x q hx ↦ ?_
  · exact fun q q' hqq' ↦ div_le_div_of_nonneg_right hqq' hr.le
  · exact hx.exists_div_eq hy hr.ne'

end AffineQuant.Binary
