import AffineQuant.Proofs.Binary.Exact

/-!
# Rounding to nearest

What a rounding does to a rational that the format does not hold. `Format.nearest` is the rounding
without an overflow, a function from rationals to rationals, and `round_nearest` ties the numbers
of the format to it. Chains of roundings are then estimated over the rationals, and overflow is
excluded at each step by a bound on the exact result.

## Nearness

About `nearest` there is one fact from which the others follow: no point of the grid of the format
is nearer to the argument (`abs_sub_nearest_le_abs_sub`). Hence it fixes the points of the grid,
is monotone, and stays between any two points of the grid that enclose its argument. Monotonicity
cannot be had from that of `roundEven`, because the quantum changes from one binade to the next:
it is the midpoint argument of `nearest_mono` that crosses binades.

Nearness itself is not immediate either. The grid near zero is finer than the multiples of the
quantum among which `nearest` chooses, and `Grid.exists_quanta` is what excludes its other points:
between such a point and the argument there is always a multiple of the quantum.

## Errors

The error is half a unit in the last place. For the numbers with full significands that is a
relative error of `2 ^ (-precision)`, and for the others an absolute one
(`abs_sub_nearest_le_max`). The reverse question, what rounds to a given number, is put as an
equation about `nearest` (`Binary.round_eq_iff`).
-/

namespace AffineQuant

/-! ## The nearest integer -/

theorem abs_sub_roundEven_le (q : ℚ) : |q - roundEven q| ≤ 1 / 2 := by
  have hlo : (q.floor : ℚ) ≤ q := Rat.floor_le q
  have hhi : q < q.floor + 1 := by exact_mod_cast Rat.lt_floor_add_one q
  simp only [roundEven]
  split_ifs <;> push_cast <;> rw [abs_le] <;> constructor <;> linarith

theorem abs_sub_le_of_abs_sub_le_half {q : ℚ} {n : ℤ} (h : |q - n| ≤ 1 / 2) (k : ℤ) :
    |q - n| ≤ |q - k| := by
  by_cases hk : n = k
  · rw [hk]
  · have hone : (1 : ℚ) ≤ |(n : ℚ) - k| := by
      exact_mod_cast Int.one_le_abs (sub_ne_zero.mpr hk)
    have htriangle := abs_sub_le (n : ℚ) q k
    rw [abs_sub_comm (n : ℚ) q] at htriangle
    linarith

theorem abs_sub_roundEven_le_abs_sub (q : ℚ) (k : ℤ) : |q - roundEven q| ≤ |q - k| :=
  abs_sub_le_of_abs_sub_le_half (abs_sub_roundEven_le q) k

@[simp] theorem roundEven_neg (q : ℚ) : roundEven (-q) = -roundEven q := by
  have hlo : (q.floor : ℚ) ≤ q := Rat.floor_le q
  have hhi : q < q.floor + 1 := by exact_mod_cast Rat.lt_floor_add_one q
  rcases hlo.eq_or_lt with h | h
  · rw [← h, ← Int.cast_neg, roundEven_intCast, roundEven_intCast]
  · have hfloor : (-q).floor = -q.floor - 1 :=
      le_antisymm (Int.lt_add_one_iff.mp (Rat.floor_lt_iff.mpr (by push_cast; linarith)))
        (Rat.le_floor_iff.mpr (by push_cast; linarith))
    rw [roundEven, roundEven]
    simp only [hfloor]
    push_cast
    -- A fractional part above a half becomes one below, and of two neighbours one is even.
    split_ifs <;> first | omega | (exfalso; linarith)

theorem abs_sub_roundAway_le (q : ℚ) : |q - roundAway q| ≤ 1 / 2 := by
  wlog hq : 0 ≤ q generalizing q
  · have := this (-q) (by linarith)
    rwa [roundAway_neg, Int.cast_neg, neg_sub_neg, abs_sub_comm] at this
  · have hlo : ((q + 1 / 2).floor : ℚ) ≤ q + 1 / 2 := Rat.floor_le _
    have hhi : q + 1 / 2 < (q + 1 / 2).floor + 1 := by
      exact_mod_cast Rat.lt_floor_add_one (q + 1 / 2)
    rw [roundAway, if_neg hq.not_gt, abs_le]
    constructor <;> linarith

theorem roundAway_eq_of_abs_sub_lt {q : ℚ} {n : ℤ} (h : |q - n| < 1 / 2) : roundAway q = n := by
  have hround := abs_sub_roundAway_le q
  rw [abs_sub_comm] at hround
  have htriangle := abs_sub_le (roundAway q : ℚ) q n
  have hlt : |(roundAway q : ℚ) - n| < 1 := by linarith
  have hzero : |roundAway q - n| < 1 := by exact_mod_cast hlt
  exact sub_eq_zero.mp (Int.abs_lt_one_iff.mp hzero)

theorem roundAway_mono {q r : ℚ} (h : q ≤ r) : roundAway q ≤ roundAway r := by
  have hfloor : ∀ {a b : ℚ}, a ≤ b → a.floor ≤ b.floor := fun hab ↦
    Rat.le_floor_iff.mpr ((Rat.floor_le _).trans hab)
  have hnonneg : ∀ {a : ℚ}, 0 ≤ a → 0 ≤ (a + 1 / 2).floor := fun ha ↦
    Rat.le_floor_iff.mpr (by push_cast; linarith)
  rw [roundAway, roundAway]
  split_ifs with hq hr hr
  · exact neg_le_neg (hfloor (by linarith))
  · exact (neg_nonpos.mpr (hnonneg (by linarith))).trans (hnonneg (not_lt.mp hr))
  · linarith
  · exact hfloor (by linarith)

/-! ## The grid of a format -/

namespace Format

variable {f : Format} {q r g : ℚ}

/-- The rational is a multiple of a power of two by few bits, however large it may be. -/
def Grid (f : Format) (q : ℚ) : Prop :=
  ∃ m e : ℤ, m.natAbs < pow2 f.precision ∧ f.leastExp ≤ e ∧ q = m * (2 : ℚ) ^ e

theorem Holds.grid (h : f.Holds q) : f.Grid q := h.2

theorem Grid.neg (h : f.Grid q) : f.Grid (-q) := by
  obtain ⟨m, e, hm, he, rfl⟩ := h
  exact ⟨-m, e, by rwa [Int.natAbs_neg], he, by push_cast; ring⟩

/-- A significand of the next power of two is one of a single bit. -/
theorem grid_of_natAbs_le [Proper f] {m e : ℤ} (hm : m.natAbs ≤ pow2 f.precision)
    (he : f.leastExp ≤ e) : f.Grid (m * (2 : ℚ) ^ e) := by
  rcases hm.lt_or_eq with hlt | heq
  · exact ⟨m, e, hlt, he, rfl⟩
  · obtain ⟨p, hp⟩ : ∃ p, f.precision = p + 1 :=
      Nat.exists_eq_add_of_le' (Proper.precision_pos (f := f))
    rw [pow2_eq, hp, pow_succ] at heq
    refine ⟨m / 2, e + 1, ?_, by omega, ?_⟩
    · rw [pow2_eq, hp, pow_succ]
      have := Nat.two_pow_pos p
      omega
    · obtain ⟨k, rfl⟩ : ∃ k, m = 2 * k := ⟨m / 2, by omega⟩
      rw [Int.mul_ediv_cancel_left _ two_ne_zero, zpow_add_one₀ two_ne_zero]
      push_cast
      ring

/-! ## The quantum -/

/-- The unit in the last place of the numbers around `q`. -/
def quantum (f : Format) (q : ℚ) : ℚ := (2 : ℚ) ^ f.quantumExp |q|

theorem quantum_pos (f : Format) (q : ℚ) : 0 < f.quantum q := zpow_two_pos _

@[simp] theorem quantum_neg (f : Format) (q : ℚ) : f.quantum (-q) = f.quantum q := by
  rw [quantum, quantum, abs_neg]

theorem leastExp_le_quantumExp (f : Format) (q : ℚ) : f.leastExp ≤ f.quantumExp q :=
  le_max_left _ _

theorem abs_lt_mul_quantum (f : Format) (q : ℚ) :
    |q| < (2 : ℚ) ^ (f.precision : ℤ) * f.quantum q := by
  rw [quantum, ← zpow_add_two]
  rcases eq_or_ne q 0 with rfl | hq
  · rw [abs_zero]
    exact zpow_two_pos _
  · refine (zpow_ilog2_le_and_lt (abs_pos.mpr hq)).2.trans_le (zpow_two_le_iff.mpr ?_)
    have := le_max_right f.leastExp (ilog2 |q| - (f.precision - 1))
    rw [quantumExp]
    omega

/-- Above the least exponent, at least as many quanta as a full significand counts. -/
theorem mul_quantum_le_abs (hq : q ≠ 0) (h : f.leastExp < f.quantumExp |q|) :
    (2 : ℚ) ^ ((f.precision : ℤ) - 1) * f.quantum q ≤ |q| := by
  rw [quantum, ← zpow_add_two]
  refine le_trans (zpow_two_le_iff.mpr ?_) (zpow_ilog2_le_and_lt (abs_pos.mpr hq)).1
  rw [quantumExp] at h ⊢
  omega

theorem quantum_le_max (hq : q ≠ 0) :
    f.quantum q ≤ max ((2 : ℚ) ^ f.leastExp) (|q| * (2 : ℚ) ^ (1 - (f.precision : ℤ))) := by
  rcases (f.leastExp_le_quantumExp |q|).eq_or_lt with h | h
  · rw [quantum, ← h]
    exact le_max_left _ _
  · have hle := mul_le_mul_of_nonneg_right (mul_quantum_le_abs hq h)
      (zpow_two_pos (1 - (f.precision : ℤ))).le
    rw [mul_right_comm, ← zpow_add_two, sub_add_sub_cancel, sub_self, zpow_zero, one_mul] at hle
    exact hle.trans (le_max_right _ _)

/-! ## The nearest point -/

/-- The point of the grid nearest to a rational, ties to the even significand. -/
def nearest (f : Format) (q : ℚ) : ℚ := roundEven (q / f.quantum q) * f.quantum q

@[simp] theorem nearest_zero (f : Format) : f.nearest 0 = 0 := by
  rw [nearest, zero_div, ← Int.cast_zero, roundEven_intCast, Int.cast_zero, zero_mul]

@[simp] theorem nearest_neg (f : Format) (q : ℚ) : f.nearest (-q) = -f.nearest q := by
  rw [nearest, nearest, quantum_neg, neg_div, roundEven_neg, Int.cast_neg, neg_mul]

theorem abs_sub_mul_quantum (f : Format) (q : ℚ) (n : ℤ) :
    |q - n * f.quantum q| = |q / f.quantum q - n| * f.quantum q := by
  have hpos := f.quantum_pos q
  rw [← abs_of_pos hpos, ← abs_mul, abs_of_pos hpos, sub_mul, div_mul_cancel₀ _ hpos.ne']

theorem abs_sub_nearest_le (f : Format) (q : ℚ) : |q - f.nearest q| ≤ f.quantum q / 2 := by
  rw [nearest, abs_sub_mul_quantum]
  calc |q / f.quantum q - roundEven (q / f.quantum q)| * f.quantum q
      ≤ 1 / 2 * f.quantum q :=
        mul_le_mul_of_nonneg_right (abs_sub_roundEven_le _) (f.quantum_pos q).le
    _ = f.quantum q / 2 := by ring

theorem abs_sub_nearest_le_max (f : Format) (q : ℚ) :
    |q - f.nearest q| ≤
      max ((2 : ℚ) ^ (f.leastExp - 1)) (|q| * (2 : ℚ) ^ (-(f.precision : ℤ))) := by
  rcases eq_or_ne q 0 with rfl | hq
  · rw [nearest_zero, sub_zero, abs_zero]
    exact (zpow_two_pos _).le.trans (le_max_left _ _)
  · have h := (f.abs_sub_nearest_le q).trans
      (div_le_div_of_nonneg_right (quantum_le_max hq) two_pos.le)
    rwa [← max_div_div_right two_pos.le, mul_div_assoc, div_eq_mul_inv, div_eq_mul_inv,
      ← zpow_sub_one₀ two_ne_zero, ← zpow_sub_one₀ two_ne_zero, sub_sub_cancel_left] at h

theorem abs_sub_nearest_le_mul (h : (2 : ℚ) ^ (f.leastExp + f.precision - 1) ≤ |q|) :
    |q - f.nearest q| ≤ |q| * (2 : ℚ) ^ (-(f.precision : ℤ)) := by
  refine (f.abs_sub_nearest_le_max q).trans (max_le ?_ le_rfl)
  have := zpow_add_le_mul h (-(f.precision : ℤ))
  rwa [show f.leastExp + f.precision - 1 + -(f.precision : ℤ) = f.leastExp - 1 by ring] at this

theorem abs_sub_nearest_double_le (h : (2 : ℚ) ^ (-1022 : ℤ) ≤ q) :
    |q - double.nearest q| ≤ q * (2 : ℚ) ^ (-53 : ℤ) := by
  have hq : |q| = q := abs_of_pos ((zpow_two_pos _).trans_le h)
  have herror := abs_sub_nearest_le_mul (f := .double) (q := q) (by rwa [hq])
  rwa [hq] at herror

theorem natAbs_roundEven_le (f : Format) (q : ℚ) :
    (roundEven (q / f.quantum q)).natAbs ≤ pow2 f.precision := by
  have hlt : |q / f.quantum q| < (2 : ℚ) ^ (f.precision : ℤ) := by
    rw [abs_div, abs_of_pos (f.quantum_pos q), div_lt_iff₀ (f.quantum_pos q)]
    exact f.abs_lt_mul_quantum q
  have hhalf := abs_sub_roundEven_le (q / f.quantum q)
  generalize roundEven (q / f.quantum q) = n at hhalf ⊢
  have htriangle := abs_sub_abs_le_abs_sub (n : ℚ) (q / f.quantum q)
  rw [abs_sub_comm] at htriangle
  have hcast : ((n.natAbs : ℕ) : ℚ) < (pow2 f.precision + 1 : ℕ) := by
    rw [Nat.cast_natAbs, Int.cast_abs, Nat.cast_succ, cast_pow2]
    linarith
  exact Nat.lt_succ_iff.mp (Nat.cast_lt.mp hcast)

theorem grid_nearest [Proper f] (q : ℚ) : f.Grid (f.nearest q) :=
  grid_of_natAbs_le (f.natAbs_roundEven_le q) (f.leastExp_le_quantumExp _)

/-- A point of the grid is a multiple of the quantum of `q`, or there is such a multiple between
the point and `q`. -/
theorem Grid.exists_quanta [Proper f] (hg : f.Grid g) (hq : 0 < q) :
    (∃ n : ℤ, g = n * f.quantum q) ∨ ∃ n : ℤ, g < n * f.quantum q ∧ n * f.quantum q ≤ q := by
  obtain ⟨m, e, hm, he, rfl⟩ := hg
  rcases le_or_gt (f.quantumExp |q|) e with hle | hlt
  · left
    obtain ⟨k, hk⟩ := Int.eq_ofNat_of_zero_le (sub_nonneg.mpr hle)
    refine ⟨m * 2 ^ k, ?_⟩
    rw [quantum, show e = k + f.quantumExp |q| by omega, zpow_add_two, zpow_natCast, ← mul_assoc]
    push_cast
    rfl
  · -- The quantum is not the least one, so a full significand of quanta fits below `q`.
    right
    have hfull := mul_quantum_le_abs hq.ne' (he.trans_lt hlt)
    have hcast : (((2 ^ (f.precision - 1) : ℕ) : ℤ) : ℚ) = (2 : ℚ) ^ ((f.precision : ℤ) - 1) := by
      have hp := Proper.precision_pos (f := f)
      rw [Int.cast_natCast, Nat.cast_pow, Nat.cast_ofNat, ← zpow_natCast]
      congr 1
      omega
    rw [abs_of_pos hq, ← hcast] at hfull
    refine ⟨_, ?_, hfull⟩
    calc (m : ℚ) * (2 : ℚ) ^ e ≤ |(m : ℚ)| * (2 : ℚ) ^ e :=
          mul_le_mul_of_nonneg_right (le_abs_self _) (zpow_two_pos e).le
      _ < (2 : ℚ) ^ ((f.precision : ℤ) + e) :=
          mul_lt_zpow_add (abs_intCast_lt_zpow_iff.mpr hm) e
      _ ≤ (2 : ℚ) ^ ((f.precision : ℤ) - 1 + f.quantumExp |q|) := zpow_two_le_iff.mpr (by omega)
      _ = _ := by rw [hcast, quantum, zpow_add_two]

/-- **Nearness.** No point of the grid is nearer than the nearest. -/
theorem abs_sub_nearest_le_abs_sub [Proper f] (hg : f.Grid g) (q : ℚ) :
    |q - f.nearest q| ≤ |q - g| := by
  have hquanta : ∀ (q : ℚ) (n : ℤ), |q - f.nearest q| ≤ |q - n * f.quantum q| := fun q n ↦ by
    rw [nearest, abs_sub_mul_quantum, abs_sub_mul_quantum]
    exact mul_le_mul_of_nonneg_right (abs_sub_roundEven_le_abs_sub _ n) (f.quantum_pos q).le
  wlog hq : 0 < q generalizing q g
  · rcases (not_lt.mp hq).eq_or_lt with rfl | hneg
    · rw [nearest_zero, sub_zero, abs_zero]
      exact abs_nonneg _
    · have := this hg.neg (-q) (neg_pos.mpr hneg)
      rwa [nearest_neg, neg_sub_neg, neg_sub_neg, abs_sub_comm, abs_sub_comm g] at this
  rcases hg.exists_quanta hq with ⟨n, rfl⟩ | ⟨n, hgn, hnq⟩
  · exact hquanta q n
  · calc |q - f.nearest q| ≤ |q - n * f.quantum q| := hquanta q n
      _ = q - n * f.quantum q := abs_of_nonneg (sub_nonneg.mpr hnq)
      _ ≤ q - g := by linarith
      _ ≤ |q - g| := le_abs_self _

theorem Grid.nearest_eq [Proper f] (hg : f.Grid g) : f.nearest g = g := by
  have h := abs_sub_nearest_le_abs_sub hg g
  rw [sub_self, abs_zero, abs_nonpos_iff, sub_eq_zero] at h
  exact h.symm

private theorem add_le_two_mul {a b : ℚ} (hab : b < a) (h : |q - a| ≤ |q - b|) :
    a + b ≤ 2 * q := by
  rw [← sq_le_sq] at h
  by_contra hlt
  have := mul_pos (sub_pos.mpr hab) (sub_pos.mpr (not_le.mp hlt))
  linarith

theorem nearest_mono [Proper f] (h : q ≤ r) : f.nearest q ≤ f.nearest r := by
  rcases h.eq_or_lt with rfl | hlt
  · rfl
  · -- Were the results in the wrong order, both arguments would have to be at their midpoint.
    by_contra hgt
    rw [not_le] at hgt
    have hq := add_le_two_mul hgt (abs_sub_nearest_le_abs_sub (f.grid_nearest r) q)
    have hr := add_le_two_mul (neg_lt_neg hgt) (q := -r) (by
      rw [neg_sub_neg, neg_sub_neg, abs_sub_comm, abs_sub_comm (f.nearest q)]
      exact abs_sub_nearest_le_abs_sub (f.grid_nearest q) r)
    linarith

theorem Grid.le_nearest [Proper f] (hg : f.Grid g) (h : g ≤ q) : g ≤ f.nearest q :=
  hg.nearest_eq.symm.trans_le (nearest_mono h)

theorem Grid.nearest_le [Proper f] (hg : f.Grid g) (h : q ≤ g) : f.nearest q ≤ g :=
  (nearest_mono h).trans_eq hg.nearest_eq

theorem nearest_nonneg [Proper f] (h : 0 ≤ q) : 0 ≤ f.nearest q :=
  (holds_zero f).grid.le_nearest h

theorem abs_nearest (f : Format) [Proper f] (q : ℚ) : |f.nearest q| = f.nearest |q| := by
  rcases le_total 0 q with h | h
  · rw [abs_of_nonneg h, abs_of_nonneg (nearest_nonneg h)]
  · have hneg := nearest_nonneg (f := f) (neg_nonneg.mpr h)
    rw [abs_of_nonpos h, nearest_neg] at *
    rw [abs_of_nonpos (neg_nonneg.mp hneg)]

/-- What is enclosed by points of the format does not overflow. -/
theorem Holds.abs_nearest_lt [Proper f] (hg : f.Holds g) (h : |q| ≤ g) :
    |f.nearest q| < f.threshold := by
  rw [abs_nearest]
  exact (hg.grid.nearest_le h).trans_lt ((le_abs_self g).trans_lt hg.1)

theorem abs_nearest_double_lt {k : ℤ} (hlo : -1074 ≤ k) (hhi : k < 1024)
    (h : |q| ≤ (2 : ℚ) ^ k) : |double.nearest q| < double.threshold :=
  (holds_zpow hlo hhi).abs_nearest_lt h

/-- What `Canonical` asks of the greatest exponent is that the threshold is not reached. -/
theorem canonical_iff_lt_threshold [Proper f] {m : ℕ} {e : ℤ} (hm : m < pow2 f.precision)
    (he : f.leastExp ≤ e) (hfull : pow2 (f.precision - 1) ≤ m ∨ e = f.leastExp) :
    f.Canonical m e ↔ m * (2 : ℚ) ^ e < f.threshold := by
  constructor
  · intro hc
    exact (le_abs_self _).trans_lt hc.holds.1
  · intro hlt
    refine ⟨hm, he, ?_, hfull⟩
    rcases hfull with hfull | rfl
    · exact le_greatestExp_of_lt_threshold hfull hlt
    · exact Proper.leastExp_nonpos.trans Proper.greatestExp_nonneg

/-- The nearest point has a form that is canonical but for the greatest exponent. -/
theorem exists_nearest_eq [Proper f] (hq : 0 < q) :
    ∃ m : ℕ, roundEven (q / f.quantum q) = m ∧ f.nearest q = m * (2 : ℚ) ^ f.quantumExp q ∧
      m ≤ pow2 f.precision ∧ (pow2 (f.precision - 1) ≤ m ∨ f.quantumExp q = f.leastExp) := by
  have hpos := f.quantum_pos q
  have hnonneg : 0 ≤ roundEven (q / f.quantum q) := by
    have := nearest_nonneg (f := f) hq.le
    rw [nearest, mul_nonneg_iff_of_pos_right hpos] at this
    exact_mod_cast this
  obtain ⟨m, hm⟩ := Int.eq_ofNat_of_zero_le hnonneg
  have hle := f.natAbs_roundEven_le q
  have hvalue : f.nearest q = m * f.quantum q := by rw [nearest, hm, Int.cast_natCast]
  have hquantum : f.quantum q = (2 : ℚ) ^ f.quantumExp q := by rw [quantum, abs_of_pos hq]
  rw [hm, Int.natAbs_natCast] at hle
  refine ⟨m, hm, by rw [hvalue, hquantum], hle, ?_⟩
  rcases (f.leastExp_le_quantumExp q).eq_or_lt with h | h
  · exact Or.inr h.symm
  · left
    -- A full significand of quanta is a point below `q`, hence below the nearest one.
    have hfull := mul_quantum_le_abs hq.ne' (f := f) (by rwa [abs_of_pos hq])
    rw [abs_of_pos hq] at hfull
    have hp := Proper.precision_pos (f := f)
    have hone : ((1 : ℤ) : ℚ) * (2 : ℚ) ^ ((f.precision : ℤ) - 1 + f.quantumExp q) =
        (2 : ℚ) ^ ((f.precision : ℤ) - 1) * f.quantum q := by
      rw [Int.cast_one, one_mul, zpow_add_two, hquantum]
    have hgrid := grid_of_natAbs_le (f := f) (m := 1) (e := (f.precision : ℤ) - 1 + f.quantumExp q)
      (Nat.one_le_two_pow) (by omega)
    rw [hone] at hgrid
    have hbelow := hgrid.le_nearest hfull
    rw [hvalue, mul_le_mul_iff_left₀ hpos] at hbelow
    rw [← zpow_le_natCast_iff, Nat.cast_sub hp]
    exact hbelow

end Format

/-! ## Rounding what is not held -/

theorem magnitude_eq_abs (q : ℚ) : magnitude q = |q| := by
  rw [magnitude]
  split
  · next h => exact (abs_of_neg h).symm
  · next h => exact (abs_of_nonneg (not_lt.mp h)).symm

namespace Binary

variable {f : Format} {x y : Binary f} {q r : ℚ}

theorem roundMagnitude_eq_ofParts [f.Proper] (hq : 0 < q) : ∃ (m : ℕ) (e : ℤ),
    (∀ s, roundMagnitude s q = (ofParts s m e : Binary f)) ∧ f.nearest q = m * (2 : ℚ) ^ e ∧
      (f.Canonical m e ↔ f.nearest q < f.threshold) := by
  obtain ⟨m, hm, hvalue, hle, hfull⟩ := Format.exists_nearest_eq (f := f) hq
  have hleast := f.leastExp_le_quantumExp q
  have hround : ∀ s, (roundMagnitude s q : Binary f) = if m = pow2 f.precision then
      ofParts s (pow2 (f.precision - 1)) (f.quantumExp q + 1)
        else ofParts s m (f.quantumExp q) := by
    intro s
    rw [Format.quantum, abs_of_pos hq] at hm
    simp only [roundMagnitude, hm, Int.toNat_natCast]
  rcases hle.lt_or_eq with hlt | heq
  · refine ⟨m, f.quantumExp q, fun s ↦ by rw [hround, if_neg hlt.ne], hvalue, ?_⟩
    rw [hvalue, Format.canonical_iff_lt_threshold hlt hleast hfull]
  · have hp := Format.Proper.precision_pos (f := f)
    have hvalue' : f.nearest q
        = (pow2 (f.precision - 1) : ℕ) * (2 : ℚ) ^ (f.quantumExp q + 1) := by
      rw [hvalue, heq, cast_pow2, cast_pow2, ← zpow_add_two, ← zpow_add_two]
      congr 1
      omega
    refine ⟨_, _, fun s ↦ by rw [hround, if_pos heq], hvalue', ?_⟩
    rw [hvalue', Format.canonical_iff_lt_threshold _ (by omega) (Or.inl le_rfl)]
    exact Nat.pow_lt_pow_right one_lt_two (by omega)

/-- Rounding finds the nearest point of the grid, or overflows if the format does not reach so
far. -/
theorem round_nearest [f.Proper] (z : Bool) (q : ℚ) :
    (|f.nearest q| < f.threshold ∧ (round z q : Binary f).Denotes (f.nearest q)) ∨
      (f.threshold ≤ |f.nearest q| ∧ (round z q : Binary f) = .inf (decide (q < 0))) := by
  rcases eq_or_ne q 0 with rfl | hq
  · rw [Format.nearest_zero, abs_zero, round, if_pos rfl]
    exact Or.inl ⟨f.threshold_pos, denotes_zero z⟩
  obtain ⟨m, e, hround, hvalue, hcanonical⟩ :=
    roundMagnitude_eq_ofParts (f := f) (abs_pos.mpr hq)
  rw [round, if_neg hq, magnitude_eq_abs, hround, ofParts, Format.abs_nearest]
  by_cases hc : f.Canonical m e
  · rw [dif_pos hc]
    refine Or.inl ⟨hcanonical.mp hc, rfl, ?_⟩
    by_cases hneg : q < 0
    · rw [toRat, if_pos (decide_eq_true hneg), ← hvalue, abs_of_neg hneg, Format.nearest_neg,
        neg_neg]
    · rw [toRat, if_neg (by simpa using hneg), ← hvalue, abs_of_nonneg (not_lt.mp hneg)]
  · rw [dif_neg hc]
    exact Or.inr ⟨not_lt.mp (mt hcanonical.mpr hc), rfl⟩

theorem denotes_round_nearest [f.Proper] (z : Bool) (h : |f.nearest q| < f.threshold) :
    (round z q : Binary f).Denotes (f.nearest q) := by
  rcases round_nearest (f := f) z q with hround | hround
  · exact hround.2
  · exact absurd h (not_lt.mpr hround.1)

theorem isNaN_round [f.Proper] (z : Bool) (q : ℚ) : (round z q : Binary f).isNaN = false := by
  rcases round_nearest (f := f) z q with ⟨-, hdenotes⟩ | ⟨-, hinf⟩
  · exact hdenotes.isNaN_eq
  · rw [hinf]
    rfl

theorem toRat_round_eq [f.Proper] {z : Bool} (h : (round z q : Binary f).isFinite = true) :
    (round z q : Binary f).toRat = f.nearest q := by
  rcases round_nearest (f := f) z q with hround | hround
  · exact hround.2.toRat_eq
  · rw [hround.2] at h
    exact absurd h Bool.false_ne_true

/-- A number is found from its value, unless that is zero. -/
theorem Denotes.round_eq (hx : x.Denotes q) (hq : q ≠ 0) (z : Bool) : round z q = x := by
  obtain ⟨s, m, e, hc, rfl, rfl⟩ := hx.exists_eq_finite
  rw [round_toRat, if_neg]
  rintro rfl
  exact hq (toRat_of_significand_eq_zero s hc)

theorem Denotes.unique (hx : x.Denotes q) (hy : y.Denotes q) (hq : q ≠ 0) : x = y :=
  (hx.round_eq hq false).symm.trans (hy.round_eq hq false)

theorem round_eq_iff [f.Proper] (hx : x.Denotes q) (hq : q ≠ 0) (z : Bool) :
    round z r = x ↔ f.nearest r = q := by
  constructor
  · rintro rfl
    rw [← hx.toRat_eq, toRat_round_eq hx.isFinite_eq]
  · intro h
    have hr := denotes_round_nearest (f := f) (q := r) z (by rw [h]; exact hx.holds.1)
    rw [h] at hr
    exact hr.unique hx hq

/-! ## Rounded arithmetic -/

theorem Denotes.add_nearest [f.Proper] (hx : x.Denotes q) (hy : y.Denotes r)
    (h : |f.nearest (q + r)| < f.threshold) : (x + y).Denotes (f.nearest (q + r)) := by
  obtain ⟨s, m, e, hc, rfl, rfl⟩ := hx.exists_eq_finite
  obtain ⟨t, n, d, hd, rfl, rfl⟩ := hy.exists_eq_finite
  exact denotes_round_nearest (s && t) h

theorem Denotes.exists_sub_eq (hx : x.Denotes q) (hy : y.Denotes r) :
    ∃ z, x - y = round z (q - r) := by
  have hneg := hy.neg.toRat_eq
  obtain ⟨s, m, e, hc, rfl, rfl⟩ := hx.exists_eq_finite
  obtain ⟨t, n, d, hd, rfl, rfl⟩ := hy.exists_eq_finite
  rw [sub_eq_add_neg, ← hneg]
  exact ⟨s && !t, rfl⟩

theorem Denotes.sub_nearest [f.Proper] (hx : x.Denotes q) (hy : y.Denotes r)
    (h : |f.nearest (q - r)| < f.threshold) : (x - y).Denotes (f.nearest (q - r)) := by
  rw [sub_eq_add_neg] at h ⊢
  exact hx.add_nearest hy.neg h

theorem Denotes.mul_nearest [f.Proper] (hx : x.Denotes q) (hy : y.Denotes r)
    (h : |f.nearest (q * r)| < f.threshold) : (x * y).Denotes (f.nearest (q * r)) := by
  obtain ⟨s, m, e, hc, rfl, rfl⟩ := hx.exists_eq_finite
  obtain ⟨t, n, d, hd, rfl, rfl⟩ := hy.exists_eq_finite
  exact denotes_round_nearest (s != t) h

theorem Denotes.exists_div_eq (hx : x.Denotes q) (hy : y.Denotes r) (hr : r ≠ 0) :
    ∃ z, x / y = round z (q / r) := by
  obtain ⟨s, m, e, hc, rfl, rfl⟩ := hx.exists_eq_finite
  obtain ⟨t, n, d, hd, rfl, rfl⟩ := hy.exists_eq_finite
  have hn : n ≠ 0 := by
    rintro rfl
    exact hr (toRat_of_significand_eq_zero t hd)
  exact ⟨s != t, if_neg hn⟩

theorem Denotes.div_nearest [f.Proper] (hx : x.Denotes q) (hy : y.Denotes r) (hr : r ≠ 0)
    (h : |f.nearest (q / r)| < f.threshold) : (x / y).Denotes (f.nearest (q / r)) := by
  obtain ⟨z, hz⟩ := hx.exists_div_eq hy hr
  rw [hz]
  exact denotes_round_nearest z h

theorem Denotes.convert_nearest {g : Format} [g.Proper] (hx : x.Denotes q)
    (h : |g.nearest q| < g.threshold) : (x.convert g).Denotes (g.nearest q) := by
  obtain ⟨s, m, e, hc, rfl, rfl⟩ := hx.exists_eq_finite
  exact denotes_round_nearest s h

end Binary

end AffineQuant
