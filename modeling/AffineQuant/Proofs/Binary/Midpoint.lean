import AffineQuant.Proofs.Binary.Nearest

/-!
# Midpoints

Which rationals round to a given number of a format. `Format.nearest` is a function of the
rational, and this file describes its fibres: the fibre of a number reaches from the midpoint
after its predecessor to its own midpoint (`Canonical.nearest_eq`, `Canonical.le_midpoint`,
`Canonical.midpoint_le`). What happens at the two midpoints depends on the parity of the
significand and is left open; a caller that needs it computes it for the number in question.

## Successors

The canonical pair `m`, `e` stands for the number `m * 2 ^ e`, and the next point of the grid is
`(m + 1) * 2 ^ e`, also where the exponent changes. The successor is kept in this form, which need
not be canonical, because then it is always one unit away and the midpoint is a formula in `m` and
`e`. That no point lies in between is the hinge (`Canonical.le_or_le`): with it a nearest point
that lies on one side of the midpoint is forced.

The predecessor has no such formula. At a power of two it has the exponent below, and the gap
before the number is half of that after it (`Canonical.exists_pred`). So an interval around a
number that has one width on both sides can only have that of the lesser gap
(`Canonical.nearest_eq_of_abs_sub_lt`).
-/

namespace AffineQuant.Format

variable {f : Format} {m n : ℕ} {e d : ℤ} {g v : ℚ}

/-- The point half way between `m * 2 ^ e` and its successor. -/
def midpoint (m : ℕ) (e : ℤ) : ℚ := (2 * m + 1 : ℕ) * (2 : ℚ) ^ (e - 1)

theorem midpoint_eq_add (m : ℕ) (e : ℤ) :
    midpoint m e = m * (2 : ℚ) ^ e + (2 : ℚ) ^ (e - 1) := by
  rw [midpoint, zpow_sub_one₀ two_ne_zero]
  push_cast
  ring

theorem midpoint_eq_sub (m : ℕ) (e : ℤ) :
    midpoint m e = (m + 1) * (2 : ℚ) ^ e - (2 : ℚ) ^ (e - 1) := by
  rw [midpoint, zpow_sub_one₀ two_ne_zero]
  push_cast
  ring

theorem Canonical.le_or_le (hc : f.Canonical m e) (hg : f.Grid g) :
    g ≤ m * (2 : ℚ) ^ e ∨ (m + 1) * (2 : ℚ) ^ e ≤ g := by
  obtain ⟨k, d, hk, hd, rfl⟩ := hg
  rcases le_or_gt e d with hle | hlt
  · -- Both are multiples of the same unit.
    obtain ⟨i, hi⟩ := Int.eq_ofNat_of_zero_le (sub_nonneg.mpr hle)
    have hvalue : (k : ℚ) * (2 : ℚ) ^ d = ((k * 2 ^ i : ℤ) : ℚ) * (2 : ℚ) ^ e := by
      rw [show d = i + e by omega, zpow_add_two, zpow_natCast, ← mul_assoc]
      push_cast
      rfl
    rw [hvalue, mul_le_mul_iff_left₀ (zpow_two_pos e), mul_le_mul_iff_left₀ (zpow_two_pos e)]
    exact_mod_cast (le_or_gt (k * 2 ^ i) (m : ℤ)).imp_right Int.add_one_le_of_lt
  · -- The significand of the number is full, which the other one has to reach.
    left
    have hfull : pow2 (f.precision - 1) ≤ m := hc.2.2.2.resolve_right (hd.trans_lt hlt).ne'
    calc (k : ℚ) * (2 : ℚ) ^ d ≤ |(k : ℚ)| * (2 : ℚ) ^ d :=
          mul_le_mul_of_nonneg_right (le_abs_self _) (zpow_two_pos d).le
      _ ≤ (2 : ℚ) ^ ((f.precision : ℤ) + d) :=
          (mul_lt_zpow_add (abs_intCast_lt_zpow_iff.mpr hk) d).le
      _ ≤ (2 : ℚ) ^ (((f.precision - 1 : ℕ) : ℤ) + e) := zpow_two_le_iff.mpr (by omega)
      _ ≤ m * (2 : ℚ) ^ e := zpow_add_le_mul (zpow_le_natCast_iff.mpr hfull) e

theorem Canonical.unique (hc : f.Canonical m e) (hd : f.Canonical n d) (hm : m ≠ 0) (hn : n ≠ 0)
    (h : m * (2 : ℚ) ^ e = n * (2 : ℚ) ^ d) : m = n ∧ e = d := by
  obtain rfl : e = d := by rw [← hc.quantumExp_eq hm, h, hd.quantumExp_eq hn]
  exact ⟨by exact_mod_cast mul_right_cancel₀ (zpow_two_pos e).ne' h, rfl⟩

theorem Canonical.grid_succ [Proper f] (hc : f.Canonical m e) :
    f.Grid ((m + 1) * (2 : ℚ) ^ e) := by
  have h := grid_of_natAbs_le (f := f) (m := m + 1) (e := e) (by exact_mod_cast hc.1) hc.2.1
  rwa [Int.cast_add, Int.cast_natCast, Int.cast_one] at h

theorem Canonical.le_nearest_of_midpoint_lt [Proper f] (hc : f.Canonical m e)
    (h : midpoint m e < v) : (m + 1) * (2 : ℚ) ^ e ≤ f.nearest v := by
  refine (hc.le_or_le (f.grid_nearest v)).resolve_left fun hle ↦ ?_
  have hdist := abs_sub_nearest_le_abs_sub hc.grid_succ v
  rw [midpoint, zpow_sub_one₀ two_ne_zero] at h
  push_cast at h
  have := le_abs_self (v - f.nearest v)
  have hpos := zpow_two_pos e
  rcases abs_cases (v - (m + 1) * (2 : ℚ) ^ e) with habs | habs <;> linarith

theorem Canonical.nearest_le_of_lt_midpoint [Proper f] (hc : f.Canonical m e)
    (h : v < midpoint m e) : f.nearest v ≤ m * (2 : ℚ) ^ e := by
  refine (hc.le_or_le (f.grid_nearest v)).resolve_right fun hle ↦ ?_
  have hdist := abs_sub_nearest_le_abs_sub hc.holds.grid v
  rw [midpoint, zpow_sub_one₀ two_ne_zero] at h
  push_cast at h
  have := neg_le_abs (v - f.nearest v)
  have hpos := zpow_two_pos e
  rcases abs_cases (v - m * (2 : ℚ) ^ e) with habs | habs <;> linarith

/-- A number other than zero has a predecessor, with the same exponent or, at a power of two, with
the one below. -/
theorem Canonical.exists_pred [Proper f] (hc : f.Canonical m e) (hm : m ≠ 0) :
    ∃ n d, f.Canonical n d ∧ (n + 1) * (2 : ℚ) ^ d = m * (2 : ℚ) ^ e ∧
      (n + 1 = m ∧ d = e ∨ n + 1 = 2 * m ∧ m = pow2 (f.precision - 1) ∧ d = e - 1) := by
  obtain ⟨hlt, hlo, hhi, hfull⟩ := hc
  by_cases h : pow2 (f.precision - 1) ≤ m - 1 ∨ e = f.leastExp
  · refine ⟨m - 1, e, ⟨by omega, hlo, hhi, h⟩, ?_, Or.inl ⟨by omega, rfl⟩⟩
    rw [Nat.cast_pred (Nat.pos_of_ne_zero hm), sub_add_cancel]
  · -- A full significand that cannot be lowered is the least full one.
    rw [not_or] at h
    obtain ⟨p, hp⟩ : ∃ p, f.precision = p + 1 :=
      Nat.exists_eq_add_of_le' (Proper.precision_pos (f := f))
    have hm' := hfull.resolve_right h.2
    have hpow : pow2 f.precision = 2 * pow2 (f.precision - 1) := by
      rw [hp, pow2_eq, pow2_eq, pow_succ, Nat.add_sub_cancel, mul_comm]
    refine ⟨2 * m - 1, e - 1, ⟨by omega, by omega, by omega, Or.inl (by omega)⟩, ?_,
      Or.inr ⟨by omega, by omega, rfl⟩⟩
    rw [Nat.cast_pred (by omega), sub_add_cancel, zpow_sub_one₀ two_ne_zero]
    push_cast
    ring

/-- **The interval of a number.** What lies between the midpoints on either side rounds to the
number, and nothing beyond them does. -/
theorem Canonical.nearest_eq [Proper f] (hc : f.Canonical m e) (hd : f.Canonical n d)
    (hpred : (n + 1) * (2 : ℚ) ^ d = m * (2 : ℚ) ^ e) (hlo : midpoint n d < v)
    (hhi : v < midpoint m e) : f.nearest v = m * (2 : ℚ) ^ e :=
  le_antisymm (hc.nearest_le_of_lt_midpoint hhi)
    (hpred.symm.trans_le (hd.le_nearest_of_midpoint_lt hlo))

/-- What is nearer than half of the least distance to a neighbour rounds to the number. -/
theorem Canonical.nearest_eq_of_abs_sub_lt [Proper f] (hc : f.Canonical m e) (hm : m ≠ 0)
    (h : |v - m * (2 : ℚ) ^ e| < (2 : ℚ) ^ (e - 2)) : f.nearest v = m * (2 : ℚ) ^ e := by
  obtain ⟨n, d, hd, hpred, hexp⟩ := hc.exists_pred hm
  have hupper : (2 : ℚ) ^ (e - 2) ≤ (2 : ℚ) ^ (e - 1) := zpow_two_le_iff.mpr (by omega)
  have hlower : (2 : ℚ) ^ (e - 2) ≤ (2 : ℚ) ^ (d - 1) := zpow_two_le_iff.mpr (by omega)
  rw [abs_lt] at h
  refine hc.nearest_eq hd hpred ?_ ?_
  · rw [midpoint_eq_sub, hpred]
    linarith
  · rw [midpoint_eq_add]
    linarith

theorem Canonical.le_midpoint [Proper f] (hc : f.Canonical m e)
    (h : f.nearest v = m * (2 : ℚ) ^ e) : v ≤ midpoint m e := by
  by_contra hlt
  have := hc.le_nearest_of_midpoint_lt (not_le.mp hlt)
  rw [h, mul_le_mul_iff_left₀ (zpow_two_pos e)] at this
  linarith

theorem Canonical.midpoint_le [Proper f] (hd : f.Canonical n d)
    (h : f.nearest v = (n + 1) * (2 : ℚ) ^ d) : midpoint n d ≤ v := by
  by_contra hlt
  have := hd.nearest_le_of_lt_midpoint (not_le.mp hlt)
  rw [h, mul_le_mul_iff_left₀ (zpow_two_pos d)] at this
  linarith

end AffineQuant.Format
