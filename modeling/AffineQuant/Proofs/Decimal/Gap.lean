import AffineQuant.Proofs.Binary.Exact

/-!
# Decimals near midpoints

A decimal of few digits can lie between two binary numbers and yet, computed with a small error,
turn out on the wrong side of their midpoint. How near it can come to a midpoint without being one
is a question about the ratio of a power of ten to a power of two: if `c * 10 ^ k` is close to
`M * 2 ^ E`, then `M / c` approximates that ratio.

## Approximations

If `p / q` approximates the ratio too, and much better than the sizes of `M` and `q` would lead one
to expect, then `M / c` and `q / p` cannot be different (`mul_eq_mul_of_near`): the products
`M * p` and `q * c` are whole numbers, and both approximations together bring them nearer than one.
So the decimal is a multiple of a known one, and its distance is known.

The convergents of the ratio are such approximations, and Euclid's algorithm finds them. Nothing
depends on how they are found: `Separates` is a decidable condition on the pair `p`, `q`, and it is
checked for every exponent that a midpoint of the 32-bit format can have.

## One grid for each exponent

The decimals in question stand on grids coarser than the distance between neighbouring numbers.
All these grids lie within the finest of them, so one power of ten for each exponent is enough
(`gridExp`). For small exponents the ratio is a fraction of small numbers, and a decimal may be
the midpoint itself; otherwise there is a gap. Two exponents have one exceptional significand,
where the decimal is nearer than the errors allow for.
-/

namespace AffineQuant

/-! ## Approximations of a ratio -/

/-- The approximation `p / q` of `d / n` separates the multiples of `n` from those of `d`. The
bounds are those of the significands of midpoints and of a relative error of two and a half units
of the 64-bit format. -/
structure Separates (n d p q : ℕ) : Prop where
  close : 2 ^ 54 * |(q * d - p * n : ℤ)| + 5 * (q * d) < 2 ^ 29 * n
  coprime : Nat.Coprime q p

variable {n d p q c M : ℕ}

instance (n d p q : ℕ) : Decidable (Separates n d p q) :=
  decidable_of_iff (_ ∧ _) ⟨fun h ↦ ⟨h.1, h.2⟩, fun h ↦ ⟨h.close, h.coprime⟩⟩

/-- Significands of nearby numbers stand in the approximated ratio. -/
theorem mul_eq_mul_of_near (h : Separates n d p q) (hM : M < 2 ^ 25) (hc : c * n ≤ 2 ^ 25 * d)
    (hnear : 2 ^ 54 * |(M * d - c * n : ℤ)| ≤ 5 * (c * n)) : M * p = q * c := by
  by_contra hne
  -- Products that differ are at least one apart, which both distances together do not reach.
  have hone : 1 ≤ |((M * p : ℕ) - (q * c : ℕ) : ℤ)| := Int.one_le_abs (by omega)
  have hkey : (n : ℤ) * ((M * p : ℕ) - (q * c : ℕ)) =
      q * (M * d - c * n) - M * (q * d - p * n) := by
    push_cast
    ring
  have hbound : (n : ℤ) ≤ q * |(M * d - c * n : ℤ)| + M * |(q * d - p * n : ℤ)| :=
    calc (n : ℤ) = n * 1 := (mul_one _).symm
      _ ≤ n * |((M * p : ℕ) - (q * c : ℕ) : ℤ)| := by gcongr
      _ = |(q * (M * d - c * n) - M * (q * d - p * n) : ℤ)| := by
          rw [← hkey, abs_mul, Nat.abs_cast]
      _ ≤ _ := by
          refine (abs_sub _ _).trans ?_
          rw [abs_mul, abs_mul, Nat.abs_cast, Nat.abs_cast]
  have hleft : (q : ℤ) * (2 ^ 54 * |(M * d - c * n : ℤ)|) ≤ q * (5 * (2 ^ 25 * d)) :=
    mul_le_mul_of_nonneg_left (hnear.trans (by exact_mod_cast Nat.mul_le_mul_left 5 hc))
      (Nat.cast_nonneg q)
  have hright : (M : ℤ) * |(q * d - p * n : ℤ)| ≤ 2 ^ 25 * |(q * d - p * n : ℤ)| :=
    mul_le_mul_of_nonneg_right (by exact_mod_cast hM.le) (abs_nonneg _)
  have := h.close
  linarith

theorem exists_multiple_of_near (h : Separates n d p q) (hq : 0 < q) (hM : M < 2 ^ 25)
    (hc : c * n ≤ 2 ^ 25 * d) (hnear : 2 ^ 54 * |(M * d - c * n : ℤ)| ≤ 5 * (c * n)) :
    ∃ t, M = q * t ∧ c = p * t := by
  have hmul := mul_eq_mul_of_near h hM hc hnear
  obtain ⟨t, rfl⟩ := h.coprime.dvd_of_dvd_mul_right (Dvd.intro _ hmul.symm)
  refine ⟨t, rfl, ?_⟩
  rw [mul_assoc] at hmul
  rw [← Nat.eq_of_mul_eq_mul_left hq hmul, mul_comm]

/-! ## The ratios of powers of ten and of two -/

/-- The exponent of the least power of ten past `5 / 4 * 2 ^ E`. -/
def gridExp (E : ℤ) : ℤ := (E * 30103 + 9691) / 100000 + 1

/-- The numerator of `10 ^ gridExp E / 2 ^ E`. -/
def gridNum (E : ℤ) : ℕ := Nat.pow 10 (gridExp E).toNat * Nat.pow 2 (-E).toNat

/-- The denominator of `10 ^ gridExp E / 2 ^ E`. -/
def gridDen (E : ℤ) : ℕ := Nat.pow 10 (-gridExp E).toNat * Nat.pow 2 E.toNat

private theorem pow_toNat_eq {a : ℚ} (ha : a ≠ 0) (k : ℤ) :
    a ^ k.toNat = a ^ k * a ^ (-k).toNat := by
  rw [← zpow_natCast, ← zpow_natCast, ← zpow_add₀ ha]
  congr 1
  omega

theorem gridNum_mul (E : ℤ) : (gridNum E : ℚ) * (2 : ℚ) ^ E = (10 : ℚ) ^ gridExp E * gridDen E := by
  have htwo := pow_toNat_eq (two_ne_zero : (2 : ℚ) ≠ 0) E
  have hten := pow_toNat_eq (by norm_num : (10 : ℚ) ≠ 0) (gridExp E)
  have hnum : (gridNum E : ℚ) = (10 : ℚ) ^ (gridExp E).toNat * (2 : ℚ) ^ (-E).toNat := by
    exact_mod_cast rfl
  have hden : (gridDen E : ℚ) = (10 : ℚ) ^ (-gridExp E).toNat * (2 : ℚ) ^ E.toNat := by
    exact_mod_cast rfl
  rw [hnum, hden, hten, htwo]
  ring

theorem gridDen_pos (E : ℤ) : 0 < gridDen E :=
  Nat.mul_pos (Nat.pow_pos (by decide)) (Nat.pow_pos (by decide))

/-- The last denominator of a convergent up to `2 ^ 26`, by Euclid's algorithm: `a` and `b` are
the last two remainders, `q₀` and `q` the last two denominators. -/
def convergent : ℕ → ℕ → ℕ → ℕ → ℕ → ℕ
  | 0, _, _, _, q => q
  | steps + 1, a, b, q₀, q =>
    if b = 0 ∨ 2 ^ 26 < a / b * q + q₀ then q else convergent steps b (a % b) q (a / b * q + q₀)

/-- The denominator of an approximation of `gridDen E / gridNum E`. -/
def approxDen (E : ℤ) : ℕ := convergent 30 (gridNum E) (gridDen E) 0 1

/-- The numerator of an approximation of `gridDen E / gridNum E`. -/
def approxNum (E : ℤ) : ℕ :=
  (2 * (approxDen E * gridDen E) + gridNum E) / (2 * gridNum E)

/-- The midpoints that are excepted from the gap. -/
def IsExcepted (M : ℕ) (E : ℤ) : Prop := M = 22841339 ∧ (E = -108 ∨ E = -107)

instance (M : ℕ) (E : ℤ) : Decidable (IsExcepted M E) := inferInstanceAs (Decidable (_ ∧ _))

/-- What is known of the approximation: it is exact, or its own error is not small, or it is of no
use because of its size, or it is excepted. -/
structure IsGridRatio (E : ℤ) : Prop where
  least : 2 * gridNum E ≤ 25 * gridDen E
  pos : 0 < approxDen E
  separates : Separates (gridNum E) (gridDen E) (approxNum E) (approxDen E)
  gap : (approxDen E * gridDen E = approxNum E * gridNum E ∧ -37 ≤ E ∧ E ≤ 36) ∨
    2 ^ 25 ≤ approxDen E ∨
    5 * (approxNum E * gridNum E : ℤ) <
      2 ^ 54 * |(approxDen E * gridDen E - approxNum E * gridNum E : ℤ)| ∨
    IsExcepted (approxDen E) E

instance (E : ℤ) : Decidable (IsGridRatio E) :=
  decidable_of_iff (_ ∧ _ ∧ _ ∧ _)
    ⟨fun h ↦ ⟨h.1, h.2.1, h.2.2.1, h.2.2.2⟩, fun h ↦ ⟨h.least, h.pos, h.separates, h.gap⟩⟩

private theorem isGridRatio_sub : ∀ i : ℕ, i < 254 → IsGridRatio ((i : ℤ) - 150) := by
  decide +kernel

theorem isGridRatio {E : ℤ} (hlo : -150 ≤ E) (hhi : E ≤ 103) : IsGridRatio E := by
  have h := isGridRatio_sub (E + 150).toNat (by omega)
  rwa [show ((E + 150).toNat : ℤ) - 150 = E by omega] at h

/-! ## Distances -/

/-- On the coarsest grid that comes into question, a decimal near a midpoint is that midpoint, but
for the exception. -/
theorem IsGridRatio.eq_or_exception {E : ℤ} (h : IsGridRatio E) (hc : 0 < c) (hM : M < 2 ^ 25)
    (hle : c * gridNum E ≤ 2 ^ 25 * gridDen E)
    (hnear : 2 ^ 54 * |(M * gridDen E - c * gridNum E : ℤ)| ≤ 5 * (c * gridNum E)) :
    (c * gridNum E = M * gridDen E ∧ -37 ≤ E ∧ E ≤ 36) ∨ IsExcepted M E := by
  obtain ⟨t, rfl, rfl⟩ := exists_multiple_of_near h.separates h.pos hM hle hnear
  have ht : 0 < t := Nat.pos_of_mul_pos_left hc
  rcases h.gap with ⟨heq, hE⟩ | hlarge | hgap | ⟨hM', hE⟩
  · left
    refine ⟨?_, hE⟩
    rw [mul_right_comm, ← heq, mul_right_comm]
  · -- The significand would be a multiple of a number past its own limit.
    exact absurd (hlarge.trans (Nat.le_mul_of_pos_right _ ht)) (not_le.mpr hM)
  · -- A multiple is no nearer, relatively, than the approximation itself.
    have hfactor : ((approxDen E * t : ℕ) * gridDen E - (approxNum E * t : ℕ) * gridNum E : ℤ) =
        t * (approxDen E * gridDen E - approxNum E * gridNum E) := by
      push_cast
      ring
    rw [hfactor, abs_mul, Nat.abs_cast] at hnear
    have := mul_lt_mul_of_pos_left hgap (Int.natCast_pos.mpr ht)
    push_cast at hnear
    linarith
  · right
    rw [hM'] at hM ⊢
    obtain rfl : t = 1 := by omega
    exact ⟨rfl, hE⟩

/-- **The gap between decimals and midpoints.** A decimal on a grid coarser than the distance of a
midpoint from its neighbours is that midpoint, or its distance is not small against it, or the
midpoint is the exceptional one. -/
theorem eq_or_gap_or_exception {E k : ℤ} (hlo : -150 ≤ E) (hhi : E ≤ 103)
    (hk : 5 * (2 : ℚ) ^ E < 4 * (10 : ℚ) ^ k) (hc : 0 < c) (hM : M < 2 ^ 25)
    (hle : c * (10 : ℚ) ^ k ≤ 2 ^ 25 * (2 : ℚ) ^ E) :
    (c * (10 : ℚ) ^ k = M * (2 : ℚ) ^ E ∧ -37 ≤ E ∧ E ≤ 36) ∨
      5 / 2 ^ 54 * (c * (10 : ℚ) ^ k) < |c * (10 : ℚ) ^ k - M * (2 : ℚ) ^ E| ∨
      IsExcepted M E := by
  have h := isGridRatio hlo hhi
  have hd : (0 : ℚ) < gridDen E := Nat.cast_pos.mpr (gridDen_pos E)
  have htwo := zpow_two_pos E
  have hnum := gridNum_mul E
  -- All grids that come into question lie within the one of `gridExp E`.
  have hgrid : gridExp E ≤ k := by
    by_contra hlt
    have hten : (10 : ℚ) ^ k * 10 ≤ (10 : ℚ) ^ gridExp E := by
      rw [← zpow_add_one₀ (by norm_num)]
      exact zpow_le_zpow_right₀ (by norm_num) (by omega)
    have hleast : (2 : ℚ) * gridNum E ≤ 25 * gridDen E := by exact_mod_cast h.least
    have hleast' := mul_le_mul_of_nonneg_right hleast htwo.le
    rw [mul_assoc, hnum, mul_right_comm] at hleast'
    have hcancel : 2 * (10 : ℚ) ^ gridExp E ≤ 25 * (2 : ℚ) ^ E :=
      le_of_mul_le_mul_right (by linarith) hd
    linarith
  obtain ⟨i, hi⟩ := Int.eq_ofNat_of_zero_le (sub_nonneg.mpr hgrid)
  obtain ⟨c', hc', hvalue⟩ : ∃ c' : ℕ, 0 < c' ∧ c * (10 : ℚ) ^ k = c' * (10 : ℚ) ^ gridExp E := by
    refine ⟨c * 10 ^ i, by positivity, ?_⟩
    rw [show k = i + gridExp E by omega, zpow_add₀ (by norm_num), zpow_natCast]
    push_cast
    ring
  rw [hvalue] at hle ⊢
  have hscale : c' * (10 : ℚ) ^ gridExp E * gridDen E = (c' * gridNum E) * (2 : ℚ) ^ E := by
    rw [mul_assoc, ← hnum, ← mul_assoc]
  have hle' : c' * gridNum E ≤ 2 ^ 25 * gridDen E := by
    have := mul_le_mul_of_nonneg_right hle hd.le
    rw [hscale, mul_right_comm (2 ^ 25)] at this
    exact_mod_cast le_of_mul_le_mul_right this htwo
  by_cases hnear : 2 ^ 54 * |(M * gridDen E - c' * gridNum E : ℤ)| ≤ 5 * (c' * gridNum E)
  · refine (h.eq_or_exception hc' hM hle' hnear).imp (fun ⟨heq, hE⟩ ↦ ⟨?_, hE⟩) Or.inr
    have heq' : (c' * gridNum E : ℚ) = M * gridDen E := by exact_mod_cast heq
    refine mul_right_cancel₀ hd.ne' ?_
    rw [hscale, heq', mul_right_comm]
  · right; left
    have hfar : 5 * (c' * gridNum E : ℚ) < 2 ^ 54 * |(M * gridDen E - c' * gridNum E : ℚ)| := by
      exact_mod_cast not_le.mp hnear
    have hdist : |c' * (10 : ℚ) ^ gridExp E - M * (2 : ℚ) ^ E| * gridDen E =
        |(M * gridDen E - c' * gridNum E : ℚ)| * (2 : ℚ) ^ E := by
      rw [← abs_of_pos hd, ← abs_mul, abs_of_pos hd, sub_mul, hscale, abs_sub_comm,
        ← abs_mul_zpow_two, sub_mul, mul_right_comm]
    refine lt_of_mul_lt_mul_right ?_ hd.le
    rw [hdist, mul_assoc, hscale]
    have := mul_lt_mul_of_pos_right hfar htwo
    linarith

end AffineQuant
