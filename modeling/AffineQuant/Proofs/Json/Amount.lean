import AffineQuant.Json.Amount
import AffineQuant.Proofs.Binary.Nearest
import AffineQuant.Proofs.Decimal.Digits

/-!
# The error of reading a number

A JSON number with a fraction or an exponent is computed in the 64-bit format from its significand
and a power of ten. Up to three roundings are made on the way, so the result need not be the
nearest number, and no better statement than a bound on its error can be made in general.

## Relative errors

`Within ε a t` is a relative error of `a` as an approximation of `t`, in a form that composes:
under transitivity, products and inverses the bounds add up with a small excess
(`Within.trans`, `Within.mul`, `Within.inv`). One rounding contributes `2 ^ (-53)`, provided that
its argument has a full significand.

## Two accuracies

A significand of 64 bits is rounded itself, and together with the power of ten and the product
this stays within `2 ^ (-51)`. One below `2 ^ 53` is exact and the error is less than two thirds of
that, `5 / 2 ^ 54`. If the power of ten is exact too, up to the 22nd, and the format holds the
result, there is no error at all. All three are parts of `exists_real?_eq`, since a caller does
not know beforehand which of them applies.

The bounds on significand and scale keep the computation to one step of scaling. Everything that
is written for a 32-bit number stays within them.
-/

namespace AffineQuant

open Binary Digit

/-! ## Relative errors -/

/-- The relative error of `a` as an approximation of the positive number `t` is at most `ε`. -/
def Within (ε a t : ℚ) : Prop := |a - t| ≤ ε * t

namespace Within

variable {ε η a b s t : ℚ}

theorem trans (h : Within ε a t) (h' : Within η t s) (hε : 0 ≤ ε) :
    Within (ε + η + ε * η) a s := by
  have hts := (abs_le.mp h').2
  have htriangle := abs_sub_le a t s
  have := mul_le_mul_of_nonneg_left hts hε
  unfold Within at h h' ⊢
  linarith

theorem mul (h : Within ε a s) (h' : Within η b t) (hε : 0 ≤ ε) (hs : 0 ≤ s) (hb : 0 ≤ b) :
    Within (ε + η + ε * η) (a * b) (s * t) := by
  have hleft : Within ε (a * b) (s * b) := by
    unfold Within at h ⊢
    rw [← sub_mul, abs_mul, abs_of_nonneg hb, ← mul_assoc]
    exact mul_le_mul_of_nonneg_right h hb
  have hright : Within η (s * b) (s * t) := by
    unfold Within at h' ⊢
    rw [← mul_sub, abs_mul, abs_of_nonneg hs, mul_left_comm]
    exact mul_le_mul_of_nonneg_left h' hs
  exact hleft.trans hright hε

theorem inv (h : Within η b t) (ht : 0 < t) (hη : η < 1) : Within (η / (1 - η)) b⁻¹ t⁻¹ := by
  have hpos : 0 < 1 - η := sub_pos.mpr hη
  have hle : (1 - η) * t ≤ b := by
    have := (abs_le.mp h).1
    linarith
  have hb : 0 < b := (mul_pos hpos ht).trans_le hle
  unfold Within at h ⊢
  rw [inv_sub_inv hb.ne' ht.ne', abs_div, abs_sub_comm, abs_of_pos (mul_pos hb ht),
    div_mul_eq_mul_div, div_le_div_iff₀ (mul_pos hb ht) hpos]
  calc |b - t| * (1 - η) ≤ η * t * (1 - η) := mul_le_mul_of_nonneg_right h hpos.le
    _ = η * ((1 - η) * t) := by ring
    _ ≤ η * b := mul_le_mul_of_nonneg_left hle (by
        have := (abs_nonneg _).trans h
        exact nonneg_of_mul_nonneg_left this ht)
    _ = η * t⁻¹ * (b * t) := by field_simp

theorem mono (h : Within ε a t) (hle : ε ≤ η) (ht : 0 ≤ t) : Within η a t :=
  le_trans h (mul_le_mul_of_nonneg_right hle ht)

end Within

theorem within_nearest {q : ℚ} (h : (2 : ℚ) ^ (-1022 : ℤ) ≤ q) :
    Within (1 / 2 ^ 53) (Format.double.nearest q) q := by
  have herror := Format.abs_sub_nearest_double_le h
  have hexp : (2 : ℚ) ^ (-53 : ℤ) = 1 / 2 ^ 53 := by
    rw [one_div, ← zpow_natCast, ← zpow_neg]
    rfl
  rwa [abs_sub_comm, mul_comm, hexp] at herror

/-! ## Scaling -/

namespace Amount

theorem denotes_powerOfTen {k : ℕ} (hk : k ≤ 64) :
    (powerOfTen k).Denotes (Format.double.nearest ((10 : ℚ) ^ k)) ∧
      Within (1 / 2 ^ 53) (Format.double.nearest ((10 : ℚ) ^ k)) ((10 : ℚ) ^ k) ∧
      (k ≤ 22 → Format.double.nearest ((10 : ℚ) ^ k) = (10 : ℚ) ^ k) := by
  have hone : (2 : ℚ) ^ (0 : ℤ) ≤ 10 ^ k := (zpow_zero _).trans_le (one_le_pow₀ (by norm_num))
  have hle : (10 : ℚ) ^ k ≤ (2 : ℚ) ^ (213 : ℤ) :=
    (pow_le_pow_right₀ (by norm_num) hk).trans (by norm_num)
  have hsize : |(10 : ℚ) ^ k| ≤ (2 : ℚ) ^ (213 : ℤ) := by rwa [abs_of_pos (by positivity)]
  have hfin := Format.abs_nearest_double_lt (by decide) (by decide) hsize
  refine ⟨?_, within_nearest ((zpow_two_le_iff.mpr (by decide)).trans hone), fun h ↦
    Format.Grid.nearest_eq ?_⟩
  · exact denotes_round_nearest false hfin
  · -- The odd part of the power is a significand.
    refine ⟨5 ^ k, k, ?_, Format.Proper.leastExp_nonpos.trans (Int.natCast_nonneg k), ?_⟩
    · rw [Int.natAbs_pow]
      exact (Nat.pow_le_pow_right (by decide) h).trans_lt (by decide)
    · push_cast
      rw [zpow_natCast, ← mul_pow]
      norm_num

theorem nearest_ten_pow_bounds {k : ℕ} (hk : k ≤ 64) :
    1 / 2 ≤ Format.double.nearest ((10 : ℚ) ^ k) ∧
      Format.double.nearest ((10 : ℚ) ^ k) ≤ 2 ^ 214 := by
  have hone : (1 : ℚ) ≤ 10 ^ k := one_le_pow₀ (by norm_num)
  have hle : (10 : ℚ) ^ k ≤ 2 ^ 213 := (pow_le_pow_right₀ (by norm_num) hk).trans (by norm_num)
  obtain ⟨hlo, hhi⟩ := abs_le.mp (denotes_powerOfTen hk).2.1
  exact ⟨by linarith, by linarith⟩

private theorem within_nearest_mul {a b p : ℚ} (h : Within (1 / (2 ^ 53 - 1)) b p) (ha : 1 ≤ a)
    (hb : (2 : ℚ) ^ (-1022 : ℤ) ≤ b) (hp : 0 < p) :
    Within (5 / 2 ^ 54) (Format.double.nearest (a * b)) (a * p) := by
  have hbpos : 0 < b := (zpow_two_pos _).trans_le hb
  have hround := within_nearest (hb.trans (le_mul_of_one_le_left hbpos.le ha))
  have hexact : Within 0 a a := by rw [Within, sub_self, abs_zero, zero_mul]
  have hmul := hexact.mul h le_rfl (by linarith) hbpos.le
  exact (hround.trans hmul (by norm_num)).mono (by norm_num)
    (mul_nonneg (by linarith) hp.le)

section Operation

variable {x : Double} {a : ℚ} {k : ℕ} (hx : x.Denotes a) (hlo : 1 ≤ a) (hhi : a ≤ 2 ^ 64)
  (hk : k ≤ 64)

include hx hlo hhi hk

theorem exists_mul_powerOfTen : ∃ v, (x * powerOfTen k).Denotes v ∧
    Within (5 / 2 ^ 54) v (a * (10 : ℚ) ^ k) ∧
      (k ≤ 22 → Format.double.Grid (a * (10 : ℚ) ^ k) → v = a * (10 : ℚ) ^ k) := by
  obtain ⟨hpow, hwithin, hexact⟩ := denotes_powerOfTen hk
  obtain ⟨hleast, hgreatest⟩ := nearest_ten_pow_bounds hk
  generalize Format.double.nearest ((10 : ℚ) ^ k) = b at *
  have hb : 0 < b := one_half_pos.trans_le hleast
  have hsize : |a * b| ≤ (2 : ℚ) ^ (64 + 214 : ℤ) := by
    rw [abs_of_pos (by positivity), zpow_add_two]
    exact mul_le_mul (by exact_mod_cast hhi) (by exact_mod_cast hgreatest) hb.le (by norm_num)
  have hfin := Format.abs_nearest_double_lt (by decide) (by decide) hsize
  have hhalf : (2 : ℚ) ^ (-1022 : ℤ) ≤ b :=
    calc (2 : ℚ) ^ (-1022 : ℤ) ≤ (2 : ℚ) ^ (-1 : ℤ) := zpow_two_le_iff.mpr (by decide)
      _ = 1 / 2 := by norm_num
      _ ≤ b := hleast
  refine ⟨_, hx.mul_nearest hpow hfin, ?_, fun h hgrid ↦ ?_⟩
  · exact within_nearest_mul (hwithin.mono (by norm_num) (by positivity)) hlo hhalf (by positivity)
  · rw [hexact h]
    exact hgrid.nearest_eq

theorem exists_div_powerOfTen : ∃ v, (x / powerOfTen k).Denotes v ∧
    Within (5 / 2 ^ 54) v (a * ((10 : ℚ) ^ k)⁻¹) ∧
      (k ≤ 22 → Format.double.Grid (a * ((10 : ℚ) ^ k)⁻¹) → v = a * ((10 : ℚ) ^ k)⁻¹) := by
  obtain ⟨hpow, hwithin, hexact⟩ := denotes_powerOfTen hk
  obtain ⟨hleast, hgreatest⟩ := nearest_ten_pow_bounds hk
  generalize Format.double.nearest ((10 : ℚ) ^ k) = b at *
  have hb : 0 < b := one_half_pos.trans_le hleast
  have hsize : |a * b⁻¹| ≤ (2 : ℚ) ^ (65 : ℤ) := by
    have : b⁻¹ ≤ 2 := inv_le_of_inv_le₀ two_pos (by linarith)
    rw [abs_of_pos (by positivity)]
    calc a * b⁻¹ ≤ 2 ^ 64 * 2 := mul_le_mul hhi this (by positivity) (by norm_num)
      _ = (2 : ℚ) ^ (65 : ℤ) := by norm_num
  have hfin := Format.abs_nearest_double_lt (by decide) (by decide) hsize
  have hinv : (2 : ℚ) ^ (-1022 : ℤ) ≤ b⁻¹ :=
    calc (2 : ℚ) ^ (-1022 : ℤ) ≤ (2 : ℚ) ^ (-214 : ℤ) := zpow_two_le_iff.mpr (by decide)
      _ = (2 ^ 214)⁻¹ := by rw [zpow_neg, zpow_ofNat]
      _ ≤ b⁻¹ := inv_anti₀ hb hgreatest
  rw [← div_eq_mul_inv] at hfin
  have hy := hx.div_nearest hpow hb.ne' hfin
  rw [div_eq_mul_inv] at hy
  refine ⟨_, hy, ?_, fun h hgrid ↦ ?_⟩
  · exact within_nearest_mul
      ((hwithin.inv (by positivity) (by norm_num)).mono (by norm_num) (by positivity)) hlo hinv
      (by positivity)
  · rw [hexact h]
    exact hgrid.nearest_eq

end Operation

theorem exists_scaleByPowerOfTen_eq {x : Double} {a : ℚ} {j : ℤ} (hx : x.Denotes a) (hlo : 1 ≤ a)
    (hhi : a ≤ 2 ^ 64) (hj : j.natAbs ≤ 64) (steps : ℕ) :
    ∃ y v, scaleByPowerOfTen (steps + 1) x j = some y ∧ y.Denotes v ∧
      Within (5 / 2 ^ 54) v (a * (10 : ℚ) ^ j) ∧
      (j.natAbs ≤ 22 → Format.double.Grid (a * (10 : ℚ) ^ j) → v = a * (10 : ℚ) ^ j) := by
  rw [scaleByPowerOfTen, if_pos (hj.trans (by decide))]
  rcases le_or_gt 0 j with hnonneg | hneg
  · obtain ⟨k, rfl⟩ := Int.eq_ofNat_of_zero_le hnonneg
    rw [Int.natAbs_natCast] at hj ⊢
    rw [if_pos hnonneg, Int.toNat_natCast, zpow_natCast]
    obtain ⟨v, hv, hwithin, hexact⟩ := exists_mul_powerOfTen hx hlo hhi hj
    exact ⟨_, v, if_pos hv.isFinite_eq, hv, hwithin, hexact⟩
  · obtain ⟨k, rfl⟩ : ∃ k : ℕ, j = -k := ⟨j.natAbs, by omega⟩
    rw [Int.natAbs_neg, Int.natAbs_natCast] at hj ⊢
    rw [if_neg (not_le.mpr hneg), neg_neg, Int.toNat_natCast, zpow_neg, zpow_natCast]
    obtain ⟨v, hv, hwithin, hexact⟩ := exists_div_powerOfTen hx hlo hhi hj
    exact ⟨_, v, rfl, hv, hwithin, hexact⟩

/-! ## Reading digits -/

theorem absorb_eq {m : ℕ} {ds : List Digit}
    (h : m * 10 ^ ds.length + value ds < significandLimit) :
    absorb m ds = (m * 10 ^ ds.length + value ds, []) := by
  induction ds generalizing m with
  | nil =>
    rw [absorb]
    simp
  | cons d rest ih =>
    have hvalue : m * 10 ^ (d :: rest).length + value (d :: rest) =
        (10 * m + d.val) * 10 ^ rest.length + value rest := by
      rw [← List.singleton_append, value_append, List.length_append, List.length_singleton, pow_add]
      rw [show value [d] = d.val from Nat.zero_add _]
      ring
    rw [hvalue] at h ⊢
    have hstep : 10 * m + d.val < significandLimit :=
      ((Nat.le_mul_of_pos_right _ (Nat.pow_pos (by decide))).trans
        (Nat.le_add_right _ _)).trans_lt h
    rw [absorb, if_pos hstep, ih h]

/-- A significand that fits is scaled as it stands. -/
theorem real?_eq {n : Numeral} (h : n.significand < significandLimit) :
    real? n = (scaleByPowerOfTen 4 (Binary.ofInt n.significand) n.scale).map
      fun y ↦ if n.negative then -y else y := by
  have hsum : n.significand = value n.whole * 10 ^ n.fraction.length + value n.fraction :=
    value_append _ _
  rw [hsum] at h
  have hwhole : absorb 0 n.whole = (value n.whole, []) := by
    rw [absorb_eq, zero_mul, zero_add]
    rw [zero_mul, zero_add]
    exact ((Nat.le_mul_of_pos_right _ (Nat.pow_pos (by decide))).trans
      (Nat.le_add_right _ _)).trans_lt h
  have hscale : (([] : List Digit).length : ℤ) -
      (n.fraction.length - ([] : List Digit).length : ℕ) + n.exponent.getD 0 = n.scale := by
    rw [Numeral.scale, List.length_nil, Nat.sub_zero]
    push_cast
    ring
  rw [real?, hwhole]
  simp only
  rw [absorb_eq h]
  simp only
  rw [hscale, ← hsum]
  cases scaleByPowerOfTen 4 (Binary.ofInt n.significand) n.scale <;> rfl

/-- What a numeral of moderate size is read as. -/
theorem exists_real?_eq {n : Numeral} (hpos : 0 < n.significand) (hlt : n.significand < 2 ^ 64)
    (hscale : n.scale.natAbs ≤ 64) : ∃ y v, real? n = some (if n.negative then -y else y) ∧
      y.Denotes v ∧ Within (1 / 2 ^ 51) v (n.significand * (10 : ℚ) ^ n.scale) ∧
      (n.significand < 2 ^ 53 → Within (5 / 2 ^ 54) v (n.significand * (10 : ℚ) ^ n.scale) ∧
        (n.scale.natAbs ≤ 22 → Format.double.Grid (n.significand * (10 : ℚ) ^ n.scale) →
          v = n.significand * (10 : ℚ) ^ n.scale)) := by
  rw [real?_eq hlt]
  generalize n.significand = c at hpos hlt
  have hone : ((1 : ℤ) : ℚ) ≤ c := by exact_mod_cast hpos
  have hlim : (c : ℚ) ≤ 2 ^ 64 := by exact_mod_cast hlt.le
  have hten : (0 : ℚ) < (10 : ℚ) ^ n.scale := zpow_pos (by norm_num) _
  rcases lt_or_ge c (2 ^ 53) with hexact | hlarge
  · have hx : (Binary.ofInt c : Double).Denotes c := denotes_ofInt (by rwa [Int.natAbs_natCast])
    obtain ⟨y, v, hy, hdenotes, hwithin, hheld⟩ :=
      exists_scaleByPowerOfTen_eq hx (by exact_mod_cast hone) hlim hscale 3
    rw [hy]
    exact ⟨y, v, rfl, hdenotes, hwithin.mono (by norm_num) (by positivity),
      fun _ ↦ ⟨hwithin, hheld⟩⟩
  · have hlim' : (c : ℚ) ≤ (2 : ℚ) ^ (64 : ℤ) := by exact_mod_cast hlim
    have hone' : (2 : ℚ) ^ (0 : ℤ) ≤ c := by
      rw [zpow_zero]
      exact_mod_cast hpos
    have hsize : |(c : ℚ)| ≤ (2 : ℚ) ^ (64 : ℤ) := by rwa [Nat.abs_cast]
    have hfin := Format.abs_nearest_double_lt (by decide) (by decide) hsize
    have hx : (Binary.ofInt c : Double).Denotes (Format.double.nearest c) :=
      denotes_round_nearest false hfin
    have hround := within_nearest ((zpow_two_le_iff.mpr (by decide)).trans hone')
    have hlo : 1 ≤ Format.double.nearest c := by
      have hgrid := (Format.holds_zpow (f := .double) (k := 0) (by decide) (by decide)).grid
      have := hgrid.le_nearest hone'
      rwa [zpow_zero] at this
    have hhi : Format.double.nearest c ≤ 2 ^ 64 := by
      have hgrid := (Format.holds_zpow (f := .double) (k := 64) (by decide) (by decide)).grid
      have := hgrid.nearest_le hlim'
      exact_mod_cast this
    obtain ⟨y, v, hy, hdenotes, hwithin, -⟩ := exists_scaleByPowerOfTen_eq hx hlo hhi hscale 3
    rw [hy]
    refine ⟨y, v, rfl, hdenotes, ?_, fun h ↦ absurd h (not_lt.mpr hlarge)⟩
    have hscaled : Within (1 / 2 ^ 53) (Format.double.nearest c * (10 : ℚ) ^ n.scale)
        (c * (10 : ℚ) ^ n.scale) := by
      rw [Within, ← sub_mul, abs_mul, abs_of_pos hten, ← mul_assoc]
      exact mul_le_mul_of_nonneg_right hround hten.le
    exact (hwithin.trans hscaled (by norm_num)).mono (by norm_num) (by positivity)

end Amount

end AffineQuant
