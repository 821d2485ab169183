import AffineQuant.MulShift
import AffineQuant.Proofs.Binary.Exact

/-!
# Fractions, exponents and scaling

`Binary.split` takes a number apart and `Binary.scaleByPowerOfTwo` puts one together. Both are
exact, and the encoder of multiply–shift pairs uses no other operation on its value, so this is
all it needs to know about numbers.

## Splitting

`IsSplit` says what a split is without mentioning the procedure: the exponent names the binade of
the rational and the number is its fraction. It is a statement about a rational, not about a
number, because subnormal numbers are split after a scaling, and the rational that was split is
then a multiple of the one in question (`IsSplit.of_mul_zpow`). The scaling is by `2 ^ 25`, which
is exact and makes every subnormal number but zero a normal one (`normalize_subnormal`).

## Scaling

A scaled number is the exact product whenever the 32-bit format holds that product. Nothing is
assumed of the exponent beyond this, because two numbers of the format differ by fewer than `277`
binades (`natAbs_lt_of_holds_mul_zpow`), far less than the range of the 64-bit format in which the
product is formed. A product that the 32-bit format does not hold is rounded by the narrowing, and
about that nothing is said here.
-/

namespace AffineQuant.Binary

variable {x m : Single} {q : ℚ} {e : ℤ}

/-! ## Fraction and exponent -/

/-- The exponent names the binade of the rational, and the number is its fraction. -/
structure IsSplit (m : Single) (e : ℤ) (q : ℚ) : Prop where
  denotes : m.Denotes (q * (2 : ℚ) ^ (-e))
  zpow_le : (2 : ℚ) ^ (e - 1) ≤ |q|
  lt_zpow : |q| < (2 : ℚ) ^ e

/-- The exponent of a scaled rational is moved, and the fraction stays. -/
theorem IsSplit.of_mul_zpow {k : ℤ} (h : IsSplit m e (q * (2 : ℚ) ^ k)) : IsSplit m (e - k) q := by
  have habs : |q * (2 : ℚ) ^ k| * (2 : ℚ) ^ (-k) = |q| := by
    rw [abs_mul_zpow_two, mul_zpow_two_cancel]
  obtain ⟨hm, hlo, hhi⟩ := h
  refine ⟨?_, ?_, ?_⟩
  · rwa [neg_sub, sub_eq_add_neg, zpow_add_two, ← mul_assoc]
  · rw [← habs, sub_right_comm, sub_eq_add_neg _ k]
    exact zpow_add_le_mul hlo (-k)
  · rw [← habs, sub_eq_add_neg]
    exact mul_lt_zpow_add hhi (-k)

theorem splitNormal_isSplit (hx : x.Denotes q) (hnormal : x.isSubnormal = false) :
    IsSplit (splitNormal x).1 (splitNormal x).2 q := by
  obtain ⟨s, n, e, hc, rfl, rfl⟩ := hx.exists_eq_finite
  have hfull : pow2 23 ≤ n := not_lt.mp (of_decide_eq_false hnormal)
  have hc' : Format.single.Canonical n (-24) := ⟨hc.1, by decide, by decide, Or.inl hfull⟩
  have hlo : (2 : ℚ) ^ (23 : ℤ) ≤ n := zpow_le_natCast_iff.mpr hfull
  have hhi : (n : ℚ) < (2 : ℚ) ^ (24 : ℤ) := natCast_lt_zpow_iff.mpr hc.1
  have habs : |(finite s n e hc).toRat| = n * (2 : ℚ) ^ e := hx.abs.toRat_eq.symm
  rw [splitNormal, ofParts, dif_pos hc']
  refine ⟨⟨rfl, ?_⟩, ?_, ?_⟩
  · have hvalue : (n : ℚ) * (2 : ℚ) ^ e * (2 : ℚ) ^ (-(e + 24)) = n * (2 : ℚ) ^ (-24 : ℤ) := by
      rw [mul_assoc, ← zpow_add_two]
      congr 2
      ring
    cases s with
    | false => exact hvalue.symm
    | true => simpa [toRat] using hvalue.symm
  · rw [habs, show e + 24 - 1 = 23 + e by ring]
    exact zpow_add_le_mul hlo e
  · rw [habs, show e + 24 = 24 + e by ring]
    exact mul_lt_zpow_add hhi e

theorem isSubnormal_eq_true_iff (hx : x.Denotes q) :
    x.isSubnormal = true ↔ |q| < (2 : ℚ) ^ (-126 : ℤ) := by
  obtain ⟨s, n, e, hc, rfl, rfl⟩ := hx.exists_eq_finite
  have habs : |(finite s n e hc).toRat| = n * (2 : ℚ) ^ e := hx.abs.toRat_eq.symm
  rw [isSubnormal, decide_eq_true_iff, habs]
  obtain ⟨-, hlo, -, hfull⟩ := hc
  constructor
  · intro hn
    obtain rfl : e = -149 := hfull.resolve_left (not_le.mpr hn)
    have hcast : (n : ℚ) < (2 : ℚ) ^ (23 : ℤ) := natCast_lt_zpow_iff.mpr hn
    exact mul_lt_zpow_add hcast (-149)
  · intro hlt
    by_contra hn
    have hcast : (2 : ℚ) ^ (23 : ℤ) ≤ n := zpow_le_natCast_iff.mpr (not_lt.mp hn)
    have hexp : (-149 : ℤ) ≤ e := hlo
    have hle : (2 : ℚ) ^ (-126 : ℤ) ≤ n * (2 : ℚ) ^ e :=
      (zpow_two_le_iff.mpr (by omega)).trans (zpow_add_le_mul hcast e)
    exact absurd hlt (not_lt.mpr hle)

theorem isZero_eq_true_iff {f : Format} {x : Binary f} {q : ℚ} (hx : x.Denotes q) :
    x.isZero = true ↔ q = 0 := by
  obtain ⟨s, n, e, hc, rfl, rfl⟩ := hx.exists_eq_finite
  have hne : (2 : ℚ) ^ e ≠ 0 := (zpow_two_pos e).ne'
  cases s with
  | false => simp [isZero, toRat, hne]
  | true => simp [isZero, toRat, hne]

theorem normalize_subnormal (hx : x.Denotes q) (hq : q ≠ 0) (hsub : x.isSubnormal = true) :
    (x * ofInt (pow2 25)).Denotes (q * (2 : ℚ) ^ (25 : ℤ)) ∧
      (x * ofInt (pow2 25)).isSubnormal = false := by
  have hlt : |q| < (2 : ℚ) ^ (-126 : ℤ) := (isSubnormal_eq_true_iff hx).mp hsub
  have hle : (2 : ℚ) ^ (-149 : ℤ) ≤ |q| := hx.holds.zpow_leastExp_le hq
  have hpow : (ofInt (pow2 25) : Single).Denotes ((2 : ℚ) ^ (25 : ℤ)) := by
    have hcast : (((pow2 25 : ℕ) : ℤ) : ℚ) = (2 : ℚ) ^ (25 : ℤ) := by
      rw [Int.cast_natCast, cast_pow2, Nat.cast_ofNat]
    rw [← hcast]
    refine denotes_round false ?_
    rw [hcast]
    exact Format.holds_zpow (by decide) (by decide)
  have habs : |q * (2 : ℚ) ^ (25 : ℤ)| = |q| * (2 : ℚ) ^ (25 : ℤ) := abs_mul_zpow_two q 25
  have hprod : (x * ofInt (pow2 25)).Denotes (q * (2 : ℚ) ^ (25 : ℤ)) := by
    refine hx.mul hpow (hx.holds.mul_zpow (by decide) ?_)
    rw [habs]
    exact (mul_lt_zpow_add hlt 25).trans_le (zpow_two_le_iff.mpr (by decide))
  refine ⟨hprod, ?_⟩
  rw [Bool.eq_false_iff, ne_eq, isSubnormal_eq_true_iff hprod, habs, not_lt]
  exact (zpow_two_le_iff.mpr (by decide)).trans (zpow_add_le_mul hle 25)

theorem not_isZero_or_not_isFinite_iff :
    ¬(x.isZero = true ∨ (!x.isFinite) = true) ↔ x.isFinite = true ∧ x.toRat ≠ 0 := by
  cases hfin : x.isFinite with
  | false => simp
  | true => simp [← isZero_eq_true_iff (denotes_toRat hfin)]

/-- Splitting is exact for every number but zero, and a subnormal number is split like any
other. -/
theorem split_isSplit (hx : x.Denotes q) (hq : q ≠ 0) : IsSplit x.split.1 x.split.2 q := by
  have hguard : x.toRat ≠ 0 := by
    rwa [hx.toRat_eq]
  rw [split, if_neg (not_isZero_or_not_isFinite_iff.mpr ⟨hx.isFinite_eq, hguard⟩)]
  cases hsub : x.isSubnormal with
  | false =>
    rw [if_neg Bool.false_ne_true]
    exact splitNormal_isSplit hx hsub
  | true =>
    obtain ⟨hprod, hnormal⟩ := normalize_subnormal hx hq hsub
    rw [if_pos rfl]
    exact (splitNormal_isSplit hprod hnormal).of_mul_zpow

/-! ## Scaling -/

theorem natAbs_lt_of_holds_mul_zpow {k : ℤ} (h : Format.single.Holds q)
    (hk : Format.single.Holds (q * (2 : ℚ) ^ k)) (hq : q ≠ 0) : k.natAbs < 277 := by
  have hlo := h.zpow_leastExp_le hq
  have hhi := h.1
  have hlo' := hk.zpow_leastExp_le (mul_ne_zero hq (zpow_two_pos k).ne')
  have hhi' := hk.1
  rw [abs_mul_zpow_two] at hlo' hhi'
  have hup : (-149 : ℤ) + k < 128 := zpow_two_lt_iff.mp ((zpow_add_le_mul hlo k).trans_lt hhi')
  have hdown : (-149 : ℤ) < 128 + k := zpow_two_lt_iff.mp (hlo'.trans_lt (mul_lt_zpow_add hhi k))
  omega

theorem Denotes.scaleByPowerOfTwo {k : ℤ} (hx : x.Denotes q) (hq : q ≠ 0)
    (hk : Format.single.Holds (q * (2 : ℚ) ^ k)) :
    (x.scaleByPowerOfTwo k).Denotes (q * (2 : ℚ) ^ k) := by
  have hnear := natAbs_lt_of_holds_mul_zpow hx.holds hk hq
  have hfactor : Format.double.Holds ((2 : ℚ) ^ k) := by
    refine Format.holds_zpow ?_ ?_
    · change -1074 ≤ k
      omega
    · change k < 971 + 53
      omega
  exact (hx.widen.mul (denotes_round false hfactor) hk.widen).narrow hk

end AffineQuant.Binary
