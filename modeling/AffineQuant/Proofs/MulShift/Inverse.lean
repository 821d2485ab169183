import AffineQuant.Proofs.Binary.Encoding
import AffineQuant.Proofs.Binary.Infinite
import AffineQuant.Proofs.Binary.Nearest
import AffineQuant.Proofs.MulShift.Split

/-!
# Splitting and scaling undo each other

The two directions of `Binary.split`, and the form of it that works on bit patterns.

## Uniqueness

Fraction and exponent of a number are unique: the exponent names the binade of the number, and the
fraction is the number divided by a power of two (`IsSplit.unique`). So scaling the fraction by
the exponent gives the number back, and whatever else has this form is what splitting finds. Both
are equalities of numbers and not only of values, since only a zero can lose its sign.

## Bit fields

On bit patterns the fraction is the number with another exponent field, and the exponent is the
field itself without its bias. A subnormal number has an empty field, and there the procedure
scales the number by `2 ^ 25` and starts over. So it is recursive, and it calls itself with a number
that is greater, not less. That this comes to an end has to be part of what is proved.

`splitCall` is one call with its recursion handed in, and `splitWithin` is the procedure with a
bound on the calls inside the first one; it has no value if the bound is too small. A scaled
number is not subnormal any more, so the second call is the last one (`splitWithin_succ`): the
procedure ends, and from a bound of one on it is `split`.
-/

namespace AffineQuant.Binary

variable {x y m n : Single} {q : ℚ} {e d k : ℤ}

/-! ## Splitting by bit fields -/

/-- One call of the splitting procedure. A number with an empty exponent field is scaled by `2 ^ 25`
and goes through another call. -/
def splitCall (again : Single → Option (Single × ℤ)) (x : Single) : Option (Single × ℤ) :=
  if x.isZero ∨ !x.isFinite then some (x, 0)
  else if x.exponentField = 0 then
    (again (x * ofInt (pow2 25))).map fun p ↦ (p.1, p.2 - 25)
  else some (x.withHalfExponent, (x.exponentField : ℤ) - 126)

/-- The procedure with at most `depth` calls inside the first one, and `none` if it takes more. -/
def splitWithin : ℕ → Single → Option (Single × ℤ)
  | 0 => splitCall fun _ ↦ none
  | depth + 1 => splitCall (splitWithin depth)

theorem exponentField_eq_zero_iff (hx : x.isFinite = true) :
    x.exponentField = 0 ↔ x.isSubnormal = true := by
  obtain ⟨s, n, e, hc, rfl⟩ := exists_eq_finite hx
  rw [exponentField_finite, biasedExponent_eq_zero_iff hc]
  exact decide_eq_true_iff.symm

/-- The fields are those of the significand read as a fraction. -/
theorem splitNormal_eq_fields (hx : x.isFinite = true) (hnormal : x.isSubnormal = false) :
    splitNormal x = (x.withHalfExponent, (x.exponentField : ℤ) - 126) := by
  obtain ⟨s, n, e, hc, rfl⟩ := exists_eq_finite hx
  have hfull : 2 ^ 23 ≤ n := not_lt.mp (of_decide_eq_false hnormal)
  have hle : -149 ≤ e := hc.2.1
  rw [splitNormal, withHalfExponent_eq hc hfull, exponentField_finite, biasedExponent,
    if_neg hfull.not_gt]
  congr 1
  omega

theorem splitCall_eq (again : Single → Option (Single × ℤ)) (x : Single) :
    splitCall again x =
      if x.isZero = true ∨ (!x.isFinite) = true then some (x, 0)
      else if x.isSubnormal = true then
        (again (x * ofInt (pow2 25))).map fun p ↦ (p.1, p.2 - 25)
      else some (splitNormal x) := by
  rw [splitCall]
  by_cases hguard : x.isZero = true ∨ (!x.isFinite) = true
  · rw [if_pos hguard, if_pos hguard]
  · have hfin := (not_isZero_or_not_isFinite_iff.mp hguard).1
    rw [if_neg hguard, if_neg hguard]
    simp only [exponentField_eq_zero_iff hfin]
    cases hsub : x.isSubnormal with
    | false => rw [splitNormal_eq_fields hfin hsub]
    | true => rfl

theorem splitWithin_of_not_subnormal (hfin : x.isFinite = true) (hne : x.toRat ≠ 0)
    (hnormal : x.isSubnormal = false) (depth : ℕ) :
    splitWithin depth x = some (splitNormal x) := by
  have hcall : ∀ again, splitCall again x = some (splitNormal x) := by
    intro again
    rw [splitCall_eq, if_neg (not_isZero_or_not_isFinite_iff.mpr ⟨hfin, hne⟩), hnormal,
      if_neg Bool.false_ne_true]
  cases depth with
  | zero => exact hcall _
  | succ depth => exact hcall _

/-- One further call is always enough. -/
theorem splitWithin_succ (depth : ℕ) (x : Single) : splitWithin (depth + 1) x = some x.split := by
  rw [splitWithin, splitCall_eq, split]
  by_cases hguard : x.isZero = true ∨ (!x.isFinite) = true
  · rw [if_pos hguard, if_pos hguard]
  · rw [if_neg hguard, if_neg hguard]
    cases hsub : x.isSubnormal with
    | false => rfl
    | true =>
      obtain ⟨hfin, hne⟩ := not_isZero_or_not_isFinite_iff.mp hguard
      obtain ⟨hprod, hnormal⟩ := normalize_subnormal (denotes_toRat hfin) hne hsub
      have hprod_ne : (x * ofInt (pow2 25)).toRat ≠ 0 := by
        rw [hprod.toRat_eq]
        exact mul_ne_zero hne (zpow_two_pos 25).ne'
      rw [if_pos rfl, if_pos rfl,
        splitWithin_of_not_subnormal hprod.isFinite_eq hprod_ne hnormal]
      rfl

/-! ## Fractions and exponents -/

theorem IsSplit.mul_zpow (h : IsSplit m e q) : m.toRat * (2 : ℚ) ^ e = q := by
  have hback := mul_zpow_two_cancel q (-e)
  rwa [neg_neg, ← h.denotes.toRat_eq] at hback

theorem IsSplit.abs_mem (h : IsSplit m e q) : 1 / 2 ≤ |m.toRat| ∧ |m.toRat| < 1 := by
  have hlo := zpow_add_le_mul h.zpow_le (-e)
  have hhi := mul_lt_zpow_add h.lt_zpow (-e)
  rw [← abs_mul_zpow_two, ← h.denotes.toRat_eq] at hlo hhi
  rw [show e - 1 + -e = -1 by ring, zpow_neg_one, ← one_div] at hlo
  rw [add_neg_cancel, zpow_zero] at hhi
  exact ⟨hlo, hhi⟩

theorem isSplit_of_abs_mem (hlo : 1 / 2 ≤ |m.toRat|) (hhi : |m.toRat| < 1) (e : ℤ) :
    IsSplit m e (m.toRat * (2 : ℚ) ^ e) := by
  have hfin : m.isFinite = true := by
    cases m with
    | nan => exact absurd hlo (by norm_num [toRat])
    | inf s => exact absurd hlo (by norm_num [toRat])
    | finite s n e hc => rfl
  refine ⟨?_, ?_, ?_⟩
  · rw [mul_zpow_two_cancel]
    exact denotes_toRat hfin
  · rw [one_div, ← zpow_neg_one] at hlo
    rw [abs_mul_zpow_two, sub_eq_neg_add]
    exact zpow_add_le_mul hlo e
  · rw [← zpow_zero (2 : ℚ)] at hhi
    have hlt := mul_lt_zpow_add hhi e
    rwa [zero_add, ← abs_mul_zpow_two] at hlt

theorem IsSplit.isNegative_eq (h : IsSplit m e q) (hx : x.Denotes q) (hq : q ≠ 0) :
    m.isNegative = x.isNegative := by
  have hpos : 0 < (2 : ℚ) ^ (-e) := zpow_two_pos (-e)
  rw [h.denotes.isNegative_eq (mul_ne_zero hq hpos.ne'), hx.isNegative_eq hq, decide_eq_decide,
    ← mul_lt_mul_iff_left₀ hpos (b := q), zero_mul]

theorem IsSplit.exponent_mem (h : IsSplit m e q) (hq : Format.single.Holds q) (hne : q ≠ 0) :
    -148 ≤ e ∧ e ≤ 128 := by
  have hlo : (-149 : ℤ) < e := zpow_two_lt_iff.mp ((hq.zpow_leastExp_le hne).trans_lt h.lt_zpow)
  have hhi : e - 1 < 128 := zpow_two_lt_iff.mp (h.zpow_le.trans_lt hq.1)
  omega

theorem IsSplit.unique (h : IsSplit m e q) (h' : IsSplit n d q) (hq : q ≠ 0) : (m, e) = (n, d) := by
  have hle : e - 1 < d := zpow_two_lt_iff.mp (h.zpow_le.trans_lt h'.lt_zpow)
  have hge : d - 1 < e := zpow_two_lt_iff.mp (h'.zpow_le.trans_lt h.lt_zpow)
  obtain rfl : e = d := by omega
  rw [h.denotes.unique h'.denotes (mul_ne_zero hq (zpow_two_pos (-e)).ne')]

/-! ## Scaling -/

theorem Denotes.scaleByPowerOfTwo_eq (hx : x.Denotes q) (hq : q ≠ 0)
    (hy : y.Denotes (q * (2 : ℚ) ^ k)) : x.scaleByPowerOfTwo k = y :=
  (hx.scaleByPowerOfTwo hq hy.holds).unique hy (mul_ne_zero hq (zpow_two_pos k).ne')

/-- **Splitting and scaling are inverse.** A finite number other than zero, subnormal or not, is
split exactly into a fraction of its own sign and an exponent, with one further call at most, and
has no other fraction and exponent. Scaling the fraction by the exponent gives back the number, and
scaling by any other power is exact whenever there is a number with the scaled value. -/
theorem split_inverse (hfin : x.isFinite = true) (hzero : x.isZero = false) :
    (1 / 2 ≤ |x.split.1.toRat| ∧ |x.split.1.toRat| < 1) ∧
    x.split.1.isNegative = x.isNegative ∧
    x.split.1.toRat * (2 : ℚ) ^ x.split.2 = x.toRat ∧
    (-148 ≤ x.split.2 ∧ x.split.2 ≤ 128) ∧
    splitWithin 1 x = some x.split ∧
    (∀ (m : Single) (e : ℤ), 1 / 2 ≤ |m.toRat| → |m.toRat| < 1 →
      m.toRat * (2 : ℚ) ^ e = x.toRat → x.split = (m, e)) ∧
    x.split.1.scaleByPowerOfTwo x.split.2 = x ∧
    ∀ (k : ℤ) (y : Single), y.Denotes (x.toRat * (2 : ℚ) ^ k) → x.scaleByPowerOfTwo k = y := by
  have hx : x.Denotes x.toRat := denotes_toRat hfin
  have hq : x.toRat ≠ 0 := by
    rw [ne_eq, ← isZero_eq_true_iff hx, hzero]
    exact Bool.false_ne_true
  have hsplit := split_isSplit hx hq
  have hfraction : x.split.1.toRat ≠ 0 := by
    intro h
    exact hq (by rw [← hsplit.mul_zpow, h, zero_mul])
  refine ⟨hsplit.abs_mem, hsplit.isNegative_eq hx hq, hsplit.mul_zpow,
    hsplit.exponent_mem hx.holds hq, splitWithin_succ 0 x, ?_, ?_, ?_⟩
  · intro m e hlo hhi hvalue
    have hother := isSplit_of_abs_mem hlo hhi e
    rw [hvalue] at hother
    exact hsplit.unique hother hq
  · refine (denotes_toRat hsplit.denotes.isFinite_eq).scaleByPowerOfTwo_eq hfraction ?_
    rwa [hsplit.mul_zpow]
  · intro k y hy
    exact hx.scaleByPowerOfTwo_eq hq hy

/-- The negative number closest to zero has an empty exponent field, so a first call alone does not
split it. By the 276th power of two it is scaled into the topmost binade. -/
theorem split_inverse_leastNegative :
    ((ofBits 0x80000001 : Single).isFinite = true ∧ (ofBits 0x80000001 : Single).isZero = false) ∧
      splitWithin 0 (ofBits 0x80000001) = none ∧
      splitWithin 1 (ofBits 0x80000001) = some (ofBits 0xbf000000, -148) ∧
      (ofBits 0xbf000000 : Single).scaleByPowerOfTwo (-148) = ofBits 0x80000001 ∧
      (ofBits 0x80000001 : Single).scaleByPowerOfTwo 276 = ofBits 0xff000000 := by
  have hfin : (ofBits 0x80000001 : Single).isFinite = true := by decide +kernel
  have hzero : (ofBits 0x80000001 : Single).isZero = false := by decide +kernel
  have hsplit : (ofBits 0x80000001 : Single).split = (ofBits 0xbf000000, -148) := by
    decide +kernel
  obtain ⟨-, -, -, -, hcalls, -, hback, hscale⟩ := split_inverse hfin hzero
  rw [hsplit] at hcalls hback
  exact ⟨⟨hfin, hzero⟩, by decide +kernel, hcalls, hback,
    hscale 276 _ ⟨by decide +kernel, by decide +kernel⟩⟩

end AffineQuant.Binary
