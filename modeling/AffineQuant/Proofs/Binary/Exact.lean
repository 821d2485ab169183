import AffineQuant.Binary.Arithmetic
import Mathlib.Algebra.Order.Field.Power
import Mathlib.Tactic.FieldSimp
import Mathlib.Tactic.Linarith
import Mathlib.Tactic.Positivity
import Mathlib.Tactic.Ring

/-!
# Exact operations

Which rationals a format holds, and that rounding leaves those alone. Every operation on finite
numbers is an exact operation followed by one rounding, so an operation is exact as soon as the
format holds its result. That a power of two scales without loss, that products of 32-bit numbers
fit into 64 bits and that whole parts are again numbers of the format are all of this kind.

## What is held

`Format.Holds` asks for a magnitude below the overflow threshold and for *some* way of writing the
rational with few bits and an admissible exponent. It does not ask for the canonical way. The
canonical form is the one that `Binary` stores, but the natural forms of a scaled or multiplied
number are not canonical, and asking for it here would put a normalization into every lemma about
an operation. `Holds.exists_canonical` does it once, and `exists_shift` behind it is the only
place that shifts significands.

The threshold is a clause of its own and is not a bound on the exponent of the form at hand: the
same rational may be written with a large significand and a small exponent or the other way round.

## Numbers and their values

`Binary.Denotes` carries finiteness and value together through chains of operations. With the
value alone nothing could be said, since `toRat` is `0` at an infinity and at NaN as well. The two
zeros have one value, so a number is recovered from its value up to that (`round_toRat`).
-/

namespace AffineQuant

/-! ## Powers of two -/

theorem pow2_eq (n : ℕ) : pow2 n = 2 ^ n := rfl

@[simp] theorem cast_pow2 (n : ℕ) : ((pow2 n : ℕ) : ℚ) = (2 : ℚ) ^ (n : ℤ) := by
  rw [pow2_eq, Nat.cast_pow, zpow_natCast, Nat.cast_ofNat]

theorem zpow_add_two (a b : ℤ) : (2 : ℚ) ^ (a + b) = (2 : ℚ) ^ a * (2 : ℚ) ^ b :=
  zpow_add₀ two_ne_zero a b

theorem zpow_two_lt_iff {a b : ℤ} : (2 : ℚ) ^ a < (2 : ℚ) ^ b ↔ a < b :=
  zpow_lt_zpow_iff_right₀ one_lt_two

theorem zpow_two_le_iff {a b : ℤ} : (2 : ℚ) ^ a ≤ (2 : ℚ) ^ b ↔ a ≤ b :=
  zpow_le_zpow_iff_right₀ one_lt_two

theorem zpow_two_pos (a : ℤ) : (0 : ℚ) < (2 : ℚ) ^ a := zpow_pos two_pos a

theorem abs_mul_zpow_two (q : ℚ) (k : ℤ) : |q * (2 : ℚ) ^ k| = |q| * (2 : ℚ) ^ k := by
  rw [abs_mul, abs_of_pos (zpow_two_pos k)]

theorem mul_zpow_two_cancel (q : ℚ) (k : ℤ) : q * (2 : ℚ) ^ k * (2 : ℚ) ^ (-k) = q := by
  rw [mul_assoc, ← zpow_add_two, add_neg_cancel, zpow_zero, mul_one]

theorem zpow_add_le_mul {a : ℤ} {q : ℚ} (h : (2 : ℚ) ^ a ≤ q) (k : ℤ) :
    (2 : ℚ) ^ (a + k) ≤ q * (2 : ℚ) ^ k := by
  rw [zpow_add_two]
  exact mul_le_mul_of_nonneg_right h (zpow_two_pos k).le

theorem mul_lt_zpow_add {a : ℤ} {q : ℚ} (h : q < (2 : ℚ) ^ a) (k : ℤ) :
    q * (2 : ℚ) ^ k < (2 : ℚ) ^ (a + k) := by
  rw [zpow_add_two]
  exact mul_lt_mul_of_pos_right h (zpow_two_pos k)

theorem zpow_le_natCast_iff {k n : ℕ} : (2 : ℚ) ^ (k : ℤ) ≤ n ↔ pow2 k ≤ n := by
  rw [← cast_pow2, Nat.cast_le]

theorem natCast_lt_zpow_iff {k n : ℕ} : (n : ℚ) < (2 : ℚ) ^ (k : ℤ) ↔ n < pow2 k := by
  rw [← cast_pow2, Nat.cast_lt]

theorem abs_intCast_lt_zpow_iff {k : ℕ} {n : ℤ} :
    |(n : ℚ)| < (2 : ℚ) ^ (k : ℤ) ↔ n.natAbs < pow2 k := by
  rw [← Int.cast_abs, Int.abs_eq_natAbs, Int.cast_natCast, natCast_lt_zpow_iff]

/-! ## The binade of a rational -/

private theorem zpow_log2_le {n : ℕ} (h : n ≠ 0) : (2 : ℚ) ^ (Nat.log2 n : ℤ) ≤ n :=
  zpow_le_natCast_iff.mpr (Nat.log2_self_le h)

private theorem lt_zpow_log2_add_one (n : ℕ) : (n : ℚ) < (2 : ℚ) ^ ((Nat.log2 n : ℤ) + 1) := by
  rw [← Nat.cast_succ, natCast_lt_zpow_iff]
  exact Nat.lt_log2_self

/-- The bit lengths of numerator and denominator determine the binade of a fraction up to one. -/
private theorem zpow_le_div_lt_zpow {a b : ℕ} (ha : a ≠ 0) (hb : b ≠ 0) :
    (2 : ℚ) ^ ((Nat.log2 a : ℤ) - (Nat.log2 b : ℤ) - 1) ≤ (a : ℚ) / b ∧
      (a : ℚ) / b < (2 : ℚ) ^ ((Nat.log2 a : ℤ) - (Nat.log2 b : ℤ) + 1) := by
  have hpos : (0 : ℚ) < b := by exact_mod_cast Nat.pos_of_ne_zero hb
  constructor
  · rw [le_div_iff₀ hpos]
    calc (2 : ℚ) ^ ((Nat.log2 a : ℤ) - (Nat.log2 b : ℤ) - 1) * b
        ≤ (2 : ℚ) ^ ((Nat.log2 a : ℤ) - (Nat.log2 b : ℤ) - 1)
          * (2 : ℚ) ^ ((Nat.log2 b : ℤ) + 1) :=
          mul_le_mul_of_nonneg_left (lt_zpow_log2_add_one b).le (zpow_two_pos _).le
      _ = (2 : ℚ) ^ (Nat.log2 a : ℤ) := by
          rw [← zpow_add_two]
          congr 1
          ring
      _ ≤ a := zpow_log2_le ha
  · rw [div_lt_iff₀ hpos]
    calc (a : ℚ) < (2 : ℚ) ^ ((Nat.log2 a : ℤ) + 1) := lt_zpow_log2_add_one a
      _ = (2 : ℚ) ^ ((Nat.log2 a : ℤ) - (Nat.log2 b : ℤ) + 1) * (2 : ℚ) ^ (Nat.log2 b : ℤ) := by
          rw [← zpow_add_two]
          congr 1
          ring
      _ ≤ (2 : ℚ) ^ ((Nat.log2 a : ℤ) - (Nat.log2 b : ℤ) + 1) * b :=
          mul_le_mul_of_nonneg_left (zpow_log2_le hb) (zpow_two_pos _).le

theorem zpow_ilog2_le_and_lt {q : ℚ} (hq : 0 < q) :
    (2 : ℚ) ^ ilog2 q ≤ q ∧ q < (2 : ℚ) ^ (ilog2 q + 1) := by
  have hnum : q.num.natAbs ≠ 0 := Int.natAbs_ne_zero.mpr (Rat.num_pos.mpr hq).ne'
  have hcast : (q.num.natAbs : ℚ) / q.den = q := by
    have h : ((q.num.natAbs : ℤ) : ℚ) = q.num :=
      congrArg Int.cast (Int.natAbs_of_nonneg (Rat.num_nonneg.mpr hq.le))
    rw [← Int.cast_natCast (R := ℚ), h, Rat.num_div_den]
  have hbinade := zpow_le_div_lt_zpow hnum q.den_nz
  rw [hcast] at hbinade
  obtain ⟨hlo, hhi⟩ := hbinade
  rw [ilog2]
  split
  · next h => exact ⟨h, hhi⟩
  · next h => exact ⟨hlo, by rw [sub_add_cancel]; exact not_le.mp h⟩

theorem ilog2_eq {q : ℚ} {k : ℤ} (hlo : (2 : ℚ) ^ k ≤ q) (hhi : q < (2 : ℚ) ^ (k + 1)) :
    ilog2 q = k := by
  obtain ⟨h, h'⟩ := zpow_ilog2_le_and_lt ((zpow_two_pos k).trans_le hlo)
  have h1 : k < ilog2 q + 1 := zpow_two_lt_iff.mp (hlo.trans_lt h')
  have h2 : ilog2 q < k + 1 := zpow_two_lt_iff.mp (h.trans_lt hhi)
  omega

/-! ## Rounding to integers -/

@[simp] theorem roundEven_intCast (n : ℤ) : roundEven n = n := by
  rw [roundEven, Rat.floor_intCast, sub_self, if_pos (by norm_num)]

@[simp] theorem roundAway_intCast (n : ℤ) : roundAway n = n := by
  have hfloor : ∀ k : ℤ, ((k : ℚ) + 1 / 2).floor = k := fun k ↦
    le_antisymm (Int.lt_add_one_iff.mp (Rat.floor_lt_iff.mpr (by push_cast; linarith)))
      (Rat.le_floor_iff.mpr (by linarith))
  rw [roundAway, hfloor, ← Int.cast_neg, hfloor, neg_neg, ite_self]

@[simp] theorem roundAway_zero : roundAway 0 = 0 := by
  exact_mod_cast roundAway_intCast 0

@[simp] theorem roundAway_neg (q : ℚ) : roundAway (-q) = -roundAway q := by
  rcases lt_trichotomy q 0 with hq | rfl | hq
  · rw [roundAway, roundAway, if_neg (by linarith), if_pos hq, neg_neg]
  · rw [neg_zero, ← Int.cast_zero, roundAway_intCast, neg_zero]
  · rw [roundAway, roundAway, if_pos (by linarith), if_neg hq.not_gt, neg_neg]

/-- The magnitude is rounded by itself, a half going up. -/
theorem abs_roundAway (q : ℚ) : |roundAway q| = (|q| + 1 / 2).floor := by
  wlog hq : 0 ≤ q generalizing q
  · rw [← abs_neg q, ← this (-q) (by linarith), roundAway_neg, abs_neg]
  · rw [abs_of_nonneg hq, roundAway, if_neg hq.not_gt, abs_of_nonneg]
    exact Rat.le_floor_iff.mpr (by push_cast; linarith)

theorem abs_roundAway_lt_iff {q : ℚ} {n : ℤ} : |roundAway q| < n ↔ |q| < n - 1 / 2 := by
  rw [abs_roundAway, Rat.floor_lt_iff, lt_sub_iff_add_lt]

@[simp] theorem truncate_intCast (n : ℤ) : truncate n = n := by
  rw [truncate, ← Int.cast_neg, Rat.floor_intCast, Rat.floor_intCast, neg_neg, ite_self]

/-! ## What a format holds -/

namespace Format

/-- What the formats in use have in common: significands are not empty, and integers of moderate
size have admissible exponents. -/
class Proper (f : Format) : Prop where
  precision_pos : 0 < f.precision
  leastExp_nonpos : f.leastExp ≤ 0
  greatestExp_nonneg : 0 ≤ f.greatestExp

instance : Proper .single := ⟨by decide, by decide, by decide⟩
instance : Proper .double := ⟨by decide, by decide, by decide⟩

/-- The overflow threshold: the least power of two past the numbers of the format. -/
def threshold (f : Format) : ℚ := (2 : ℚ) ^ (f.greatestExp + f.precision)

/-- The format holds the rational exactly. -/
def Holds (f : Format) (q : ℚ) : Prop :=
  |q| < f.threshold ∧
    ∃ (m e : ℤ), m.natAbs < pow2 f.precision ∧ f.leastExp ≤ e ∧ q = m * (2 : ℚ) ^ e

variable {f : Format} {q : ℚ}

theorem threshold_pos (f : Format) : 0 < f.threshold := zpow_two_pos _

theorem holds_zero (f : Format) : f.Holds 0 :=
  ⟨by rw [abs_zero]; exact f.threshold_pos, 0, f.leastExp,
    by rw [Int.natAbs_zero, pow2_eq]; positivity, le_rfl, by rw [Int.cast_zero, zero_mul]⟩

theorem holds_intCast [Proper f] {n : ℤ} (h : n.natAbs < pow2 f.precision) : f.Holds n := by
  refine ⟨?_, n, 0, h, Proper.leastExp_nonpos, by rw [zpow_zero, mul_one]⟩
  have hexp := Proper.greatestExp_nonneg (f := f)
  exact (abs_intCast_lt_zpow_iff.mpr h).trans_le (zpow_two_le_iff.mpr (by omega))

theorem Holds.neg (h : f.Holds q) : f.Holds (-q) := by
  obtain ⟨hlt, m, e, hm, he, rfl⟩ := h
  exact ⟨by rwa [abs_neg], -m, e, by rwa [Int.natAbs_neg], he, by push_cast; ring⟩

theorem Holds.mul_zpow (h : f.Holds q) {k : ℤ} (hk : 0 ≤ k)
    (hlt : |q * (2 : ℚ) ^ k| < f.threshold) : f.Holds (q * (2 : ℚ) ^ k) := by
  obtain ⟨-, m, e, hm, he, rfl⟩ := h
  exact ⟨hlt, m, e + k, hm, by omega, by rw [zpow_add_two, mul_assoc]⟩

theorem holds_zpow [Proper f] {k : ℤ} (hlo : f.leastExp ≤ k)
    (hhi : k < f.greatestExp + f.precision) : f.Holds ((2 : ℚ) ^ k) := by
  have hp : 1 < pow2 f.precision := Nat.one_lt_two_pow Proper.precision_pos.ne'
  refine ⟨?_, 1, k, by simpa using hp, hlo, by push_cast; ring⟩
  rw [abs_of_pos (zpow_two_pos k), threshold, zpow_two_lt_iff]
  exact hhi

theorem Holds.mono {g : Format} (h : f.Holds q) (hp : f.precision ≤ g.precision)
    (hlo : g.leastExp ≤ f.leastExp) (hhi : f.greatestExp ≤ g.greatestExp) : g.Holds q := by
  obtain ⟨hlt, m, e, hm, he, hq⟩ := h
  refine ⟨hlt.trans_le (zpow_two_le_iff.mpr (by omega)), m, e, hm.trans_le ?_, hlo.trans he, hq⟩
  exact Nat.pow_le_pow_right two_pos hp

theorem Holds.widen (h : single.Holds q) : double.Holds q :=
  h.mono (by decide) (by decide) (by decide)

/-- The 64-bit format holds all products of 32-bit numbers. -/
theorem Holds.mul {r : ℚ} (hq : single.Holds q) (hr : single.Holds r) : double.Holds (q * r) := by
  obtain ⟨hqlt, m, e, hm, he, rfl⟩ := hq
  obtain ⟨hrlt, n, d, hn, hd, rfl⟩ := hr
  have hexp : (-1074 : ℤ) ≤ e + d :=
    (by decide : (-1074 : ℤ) ≤ -149 + -149).trans (add_le_add he hd)
  refine ⟨?_, m * n, e + d, ?_, hexp, by rw [zpow_add_two]; push_cast; ring⟩
  · rw [abs_mul]
    calc |(m : ℚ) * (2 : ℚ) ^ e| * |(n : ℚ) * (2 : ℚ) ^ d|
        < single.threshold * single.threshold :=
          mul_lt_mul'' hqlt hrlt (abs_nonneg _) (abs_nonneg _)
      _ = (2 : ℚ) ^ ((104 + 24 : ℤ) + (104 + 24)) := (zpow_add_two _ _).symm
      _ ≤ double.threshold := zpow_two_le_iff.mpr (by decide)
  · rw [Int.natAbs_mul]
    exact (Nat.mul_lt_mul'' hm hn).trans (by decide)

theorem Holds.zpow_leastExp_le (h : f.Holds q) (hq : q ≠ 0) : (2 : ℚ) ^ f.leastExp ≤ |q| := by
  obtain ⟨-, m, e, -, he, rfl⟩ := h
  have hm : m ≠ 0 := by
    rintro rfl
    exact hq (by rw [Int.cast_zero, zero_mul])
  have hone : (1 : ℚ) ≤ |(m : ℚ)| := by exact_mod_cast Int.one_le_abs hm
  rw [abs_mul_zpow_two]
  calc (2 : ℚ) ^ f.leastExp ≤ (2 : ℚ) ^ e := zpow_two_le_iff.mpr he
    _ = 1 * (2 : ℚ) ^ e := (one_mul _).symm
    _ ≤ |(m : ℚ)| * (2 : ℚ) ^ e := mul_le_mul_of_nonneg_right hone (zpow_two_pos e).le

/-- A number with a fractional part has few bits before the point. -/
theorem Holds.whole_or_abs_lt (h : f.Holds q) :
    (∃ n : ℤ, q = n) ∨ |q| < (2 : ℚ) ^ ((f.precision : ℤ) - 1) := by
  obtain ⟨-, m, e, hm, -, rfl⟩ := h
  rcases le_or_gt 0 e with he | he
  · left
    obtain ⟨n, rfl⟩ := Int.eq_ofNat_of_zero_le he
    exact ⟨m * 2 ^ n, by push_cast; rfl⟩
  · right
    rw [abs_mul_zpow_two]
    calc |(m : ℚ)| * (2 : ℚ) ^ e < (2 : ℚ) ^ ((f.precision : ℤ) + e) :=
          mul_lt_zpow_add (abs_intCast_lt_zpow_iff.mpr hm) e
      _ ≤ (2 : ℚ) ^ ((f.precision : ℤ) - 1) := zpow_two_le_iff.mpr (by omega)

theorem Holds.roundAway [Proper f] (h : f.Holds q) : f.Holds (roundAway q) := by
  rcases h.whole_or_abs_lt with ⟨n, rfl⟩ | hlt
  · rwa [roundAway_intCast]
  · refine holds_intCast ?_
    have hhalf : (2 : ℚ) ^ (f.precision : ℤ) = (2 : ℚ) ^ ((f.precision : ℤ) - 1) * 2 := by
      rw [← zpow_add_one₀ two_ne_zero, sub_add_cancel]
    have hone : (1 : ℚ) ≤ (2 : ℚ) ^ ((f.precision : ℤ) - 1) := by
      have hp := Proper.precision_pos (f := f)
      rw [← zpow_zero (2 : ℚ)]
      exact zpow_two_le_iff.mpr (by omega)
    have hbound : |q| < ((pow2 f.precision : ℕ) : ℤ) - 1 / 2 := by
      rw [Int.cast_natCast, cast_pow2, hhalf]
      linarith
    rw [← Int.ofNat_lt, Int.natCast_natAbs]
    exact abs_roundAway_lt_iff.mpr hbound

/-! ## Canonical forms -/

variable {m : ℕ} {e : ℤ}

/-- A significand that is not zero can be shifted up until it is full or its exponent is the least
one. -/
theorem exists_shift [Proper f] (hm : m ≠ 0) (hlt : m < pow2 f.precision) (he : f.leastExp ≤ e) :
    ∃ k : ℕ, m * 2 ^ k < pow2 f.precision ∧ f.leastExp ≤ e - k ∧
      (pow2 (f.precision - 1) ≤ m * 2 ^ k ∨ e - k = f.leastExp) := by
  have hlog : Nat.log2 m < f.precision := (Nat.log2_lt hm).mpr hlt
  refine ⟨min (f.precision - 1 - Nat.log2 m) (e - f.leastExp).toNat, ?_, by omega, ?_⟩
  · calc m * 2 ^ min (f.precision - 1 - Nat.log2 m) (e - f.leastExp).toNat
        < 2 ^ (Nat.log2 m + 1) * 2 ^ min (f.precision - 1 - Nat.log2 m) (e - f.leastExp).toNat :=
          Nat.mul_lt_mul_of_pos_right Nat.lt_log2_self (by positivity)
      _ ≤ 2 ^ (Nat.log2 m + 1) * 2 ^ (f.precision - 1 - Nat.log2 m) :=
          Nat.mul_le_mul_left _ (Nat.pow_le_pow_right two_pos (min_le_left _ _))
      _ = pow2 f.precision := by
          rw [← pow_add, pow2_eq]
          congr 1
          omega
  · rcases Nat.le_total (f.precision - 1 - Nat.log2 m) (e - f.leastExp).toNat with h | h
    · left
      rw [min_eq_left h]
      calc pow2 (f.precision - 1) = 2 ^ Nat.log2 m * 2 ^ (f.precision - 1 - Nat.log2 m) := by
            rw [← pow_add, pow2_eq]
            congr 1
            omega
        _ ≤ m * 2 ^ (f.precision - 1 - Nat.log2 m) :=
            Nat.mul_le_mul_right _ (Nat.log2_self_le hm)
    · right
      omega

/-- A full significand past the greatest exponent would reach the threshold. -/
theorem le_greatestExp_of_lt_threshold [Proper f] (hfull : pow2 (f.precision - 1) ≤ m)
    (hlt : (m : ℚ) * (2 : ℚ) ^ e < f.threshold) : e ≤ f.greatestExp := by
  have hle : (2 : ℚ) ^ (((f.precision - 1 : ℕ) : ℤ)) ≤ m := zpow_le_natCast_iff.mpr hfull
  have hexp := zpow_two_lt_iff.mp ((zpow_add_le_mul hle e).trans_lt hlt)
  have hpos := Proper.precision_pos (f := f)
  omega

theorem Holds.exists_canonical [Proper f] (h : f.Holds q) (hq : 0 < q) :
    ∃ (m : ℕ) (e : ℤ), f.Canonical m e ∧ q = m * (2 : ℚ) ^ e := by
  obtain ⟨hlt, M, E, hM, hE, rfl⟩ := h
  have hMpos : 0 < M := by exact_mod_cast pos_of_mul_pos_left hq (zpow_two_pos E).le
  obtain ⟨n, rfl⟩ := Int.eq_ofNat_of_zero_le hMpos.le
  obtain ⟨k, hup, hlo, hfull⟩ := exists_shift (by omega) hM hE
  have hvalue : ((n : ℤ) : ℚ) * (2 : ℚ) ^ E = ((n * 2 ^ k : ℕ) : ℚ) * (2 : ℚ) ^ (E - k) := by
    rw [zpow_sub₀ two_ne_zero, zpow_natCast]
    push_cast
    field_simp
  rw [abs_of_pos hq, hvalue] at hlt
  refine ⟨n * 2 ^ k, E - k, ⟨hup, hlo, ?_, hfull⟩, hvalue⟩
  rcases hfull with hfull | hleast
  · exact le_greatestExp_of_lt_threshold hfull hlt
  · rw [hleast]
    exact Proper.leastExp_nonpos.trans Proper.greatestExp_nonneg

theorem Canonical.quantumExp_eq (h : f.Canonical m e) (hm : m ≠ 0) :
    f.quantumExp (m * (2 : ℚ) ^ e) = e := by
  obtain ⟨hlt, hlo, -, hfull⟩ := h
  have hlog : Nat.log2 m < f.precision := (Nat.log2_lt hm).mpr hlt
  have hilog : ilog2 (m * (2 : ℚ) ^ e) = Nat.log2 m + e := by
    refine ilog2_eq (zpow_add_le_mul (zpow_log2_le hm) e) ?_
    rw [add_right_comm]
    exact mul_lt_zpow_add (lt_zpow_log2_add_one m) e
  rw [quantumExp, hilog]
  rcases hfull with hfull | rfl
  · have : f.precision - 1 ≤ Nat.log2 m := (Nat.le_log2 hm).mpr hfull
    omega
  · omega

theorem Canonical.holds (h : f.Canonical m e) : f.Holds (m * (2 : ℚ) ^ e) := by
  obtain ⟨hlt, hlo, hhi, -⟩ := h
  refine ⟨?_, m, e, by rwa [Int.natAbs_natCast], hlo, by push_cast; rfl⟩
  rw [abs_of_nonneg (by positivity), threshold]
  calc (m : ℚ) * (2 : ℚ) ^ e < (2 : ℚ) ^ ((f.precision : ℤ) + e) :=
        mul_lt_zpow_add (natCast_lt_zpow_iff.mpr hlt) e
    _ ≤ (2 : ℚ) ^ (f.greatestExp + f.precision) := zpow_two_le_iff.mpr (by omega)

theorem Holds.abs_le_greatest [Proper f] (h : f.Holds q) :
    |q| ≤ ((2 : ℚ) ^ (f.precision : ℤ) - 1) * (2 : ℚ) ^ f.greatestExp := by
  wlog hq : 0 < q generalizing q
  · rcases (not_lt.mp hq).eq_or_lt with rfl | hneg
    · rw [abs_zero]
      exact mul_nonneg (sub_nonneg.mpr (one_le_zpow₀ one_le_two (Int.natCast_nonneg _)))
        (zpow_two_pos _).le
    · rw [← abs_neg]
      exact this h.neg (neg_pos.mpr hneg)
  obtain ⟨m, e, ⟨hm, -, he, -⟩, rfl⟩ := h.exists_canonical hq
  have hle : (m : ℚ) ≤ (2 : ℚ) ^ (f.precision : ℤ) - 1 := by
    rw [← cast_pow2, le_sub_iff_add_le]
    exact_mod_cast hm
  rw [abs_of_pos hq]
  exact mul_le_mul hle (zpow_two_le_iff.mpr he) (zpow_two_pos e).le
    ((Nat.cast_nonneg m).trans hle)

theorem canonical_zero [Proper f] : f.Canonical 0 f.leastExp :=
  ⟨by rw [pow2_eq]; positivity, le_rfl,
    Proper.leastExp_nonpos.trans Proper.greatestExp_nonneg, Or.inr rfl⟩

end Format

/-! ## Rounding what is held -/

namespace Binary

variable {f : Format} {x y : Binary f} {q r : ℚ}

theorem roundMagnitude_canonical {m : ℕ} {e : ℤ} (negative : Bool) (h : f.Canonical m e)
    (hm : m ≠ 0) : roundMagnitude negative (m * (2 : ℚ) ^ e) = .finite negative m e h := by
  have hdiv : (m : ℚ) * (2 : ℚ) ^ e / (2 : ℚ) ^ e = ((m : ℤ) : ℚ) := by
    rw [mul_div_cancel_right₀ _ (zpow_two_pos e).ne', Int.cast_natCast]
  rw [roundMagnitude]
  simp only [h.quantumExp_eq hm, hdiv, roundEven_intCast, Int.toNat_natCast]
  rw [if_neg h.1.ne, ofParts, dif_pos h]

theorem toRat_of_significand_eq_zero (negative : Bool) {e : ℤ} (h : f.Canonical 0 e) :
    (finite negative 0 e h).toRat = 0 := by
  cases negative <;> simp [toRat]

/-- A finite number is recovered from its value, unless that is zero: then the sign is lost. -/
theorem round_toRat (zeroNegative negative : Bool) {m : ℕ} {e : ℤ} (h : f.Canonical m e) :
    round zeroNegative (finite negative m e h).toRat =
      if m = 0 then zero zeroNegative else finite negative m e h := by
  split
  · next hm =>
    subst hm
    rw [round, if_pos (toRat_of_significand_eq_zero negative h)]
  · next hm =>
    have hpos : (0 : ℚ) < m * (2 : ℚ) ^ e :=
      mul_pos (Nat.cast_pos.mpr (Nat.pos_of_ne_zero hm)) (zpow_two_pos e)
    cases negative with
    | false =>
      have hvalue : (finite false m e h).toRat = m * (2 : ℚ) ^ e := rfl
      rw [hvalue, round, if_neg hpos.ne', magnitude, if_neg hpos.not_gt,
        decide_eq_false hpos.not_gt, roundMagnitude_canonical _ h hm]
    | true =>
      have hvalue : (finite true m e h).toRat = -(m * (2 : ℚ) ^ e) := rfl
      have hneg : -(m * (2 : ℚ) ^ e) < 0 := neg_neg_iff_pos.mpr hpos
      rw [hvalue, round, if_neg hneg.ne, magnitude, if_pos hneg, decide_eq_true hneg, neg_neg,
        roundMagnitude_canonical _ h hm]

/-- The number is finite and its value is the rational. -/
structure Denotes (x : Binary f) (q : ℚ) : Prop where
  isFinite_eq : x.isFinite = true
  toRat_eq : x.toRat = q

theorem denotes_toRat (h : x.isFinite = true) : x.Denotes x.toRat := ⟨h, rfl⟩

theorem exists_eq_finite (h : x.isFinite = true) : ∃ s m e hc, x = finite s m e hc := by
  cases x with
  | nan => exact absurd h Bool.false_ne_true
  | inf s => exact absurd h Bool.false_ne_true
  | finite s m e hc => exact ⟨s, m, e, hc, rfl⟩

theorem Denotes.exists_eq_finite (h : x.Denotes q) :
    ∃ s m e hc, x = finite s m e hc ∧ q = (finite s m e hc).toRat := by
  obtain ⟨hx, rfl⟩ := h
  obtain ⟨s, m, e, hc, rfl⟩ := Binary.exists_eq_finite hx
  exact ⟨s, m, e, hc, rfl, rfl⟩

theorem denotes_zero [f.Proper] (negative : Bool) : (zero negative : Binary f).Denotes 0 := by
  rw [zero, ofParts, dif_pos Format.canonical_zero]
  exact ⟨rfl, toRat_of_significand_eq_zero negative _⟩

theorem exists_denotes [f.Proper] (h : f.Holds q) : ∃ x : Binary f, x.Denotes q := by
  rcases lt_trichotomy q 0 with hq | rfl | hq
  · obtain ⟨m, e, hc, hme⟩ := h.neg.exists_canonical (neg_pos.mpr hq)
    exact ⟨finite true m e hc, rfl, by rw [toRat, if_pos rfl, ← hme, neg_neg]⟩
  · exact ⟨zero false, denotes_zero false⟩
  · obtain ⟨m, e, hc, hme⟩ := h.exists_canonical hq
    exact ⟨finite false m e hc, rfl, hme.symm⟩

/-- Rounding leaves alone what the format holds. -/
theorem denotes_round [f.Proper] (zeroNegative : Bool) (h : f.Holds q) :
    (round zeroNegative q : Binary f).Denotes q := by
  obtain ⟨x, hx⟩ := exists_denotes h
  obtain ⟨s, m, e, hc, rfl, rfl⟩ := hx.exists_eq_finite
  rw [round_toRat]
  split
  · next hm =>
    subst hm
    rw [toRat_of_significand_eq_zero]
    exact denotes_zero zeroNegative
  · exact hx

theorem denotes_ofInt [f.Proper] {n : ℤ} (h : n.natAbs < pow2 f.precision) :
    (ofInt n : Binary f).Denotes n :=
  denotes_round false (Format.holds_intCast h)

/-! ## Exact arithmetic -/

theorem Denotes.isNaN_eq (h : x.Denotes q) : x.isNaN = false := by
  obtain ⟨s, m, e, hc, rfl, -⟩ := h.exists_eq_finite
  rfl

theorem Denotes.holds (h : x.Denotes q) : f.Holds q := by
  obtain ⟨s, m, e, hc, rfl, rfl⟩ := h.exists_eq_finite
  cases s with
  | false => exact hc.holds
  | true => exact hc.holds.neg

theorem Denotes.neg (h : x.Denotes q) : (-x).Denotes (-q) := by
  obtain ⟨s, m, e, hc, rfl, rfl⟩ := h.exists_eq_finite
  refine ⟨rfl, ?_⟩
  cases s with
  | false => rfl
  | true => exact (neg_neg ((m : ℚ) * (2 : ℚ) ^ e)).symm

theorem Denotes.abs (h : x.Denotes q) : x.abs.Denotes |q| := by
  obtain ⟨s, m, e, hc, rfl, rfl⟩ := h.exists_eq_finite
  have hnonneg : (0 : ℚ) ≤ m * (2 : ℚ) ^ e := by positivity
  refine ⟨rfl, ?_⟩
  cases s with
  | false => exact (abs_of_nonneg hnonneg).symm
  | true => exact (abs_of_nonneg hnonneg).symm.trans (abs_neg _).symm

theorem Denotes.mul [f.Proper] (hx : x.Denotes q) (hy : y.Denotes r) (h : f.Holds (q * r)) :
    (x * y).Denotes (q * r) := by
  obtain ⟨s, m, e, hc, rfl, rfl⟩ := hx.exists_eq_finite
  obtain ⟨t, n, d, hd, rfl, rfl⟩ := hy.exists_eq_finite
  exact denotes_round (s != t) h

theorem Denotes.sub [f.Proper] (hx : x.Denotes q) (hy : y.Denotes r) (h : f.Holds (q - r)) :
    (x - y).Denotes (q - r) := by
  have hneg := hy.neg.toRat_eq
  obtain ⟨s, m, e, hc, rfl, rfl⟩ := hx.exists_eq_finite
  obtain ⟨t, n, d, hd, rfl, rfl⟩ := hy.exists_eq_finite
  rw [sub_eq_add_neg, ← hneg] at h ⊢
  exact denotes_round (s && !t) h

theorem Denotes.convert {g : Format} [g.Proper] (hx : x.Denotes q) (h : g.Holds q) :
    (x.convert g).Denotes q := by
  obtain ⟨s, m, e, hc, rfl, rfl⟩ := hx.exists_eq_finite
  exact denotes_round s h

theorem Denotes.widen {x : Single} (h : x.Denotes q) : x.widen.Denotes q :=
  h.convert h.holds.widen

theorem Denotes.narrow {x : Double} (h : x.Denotes q) (hq : Format.single.Holds q) :
    x.narrow.Denotes q :=
  h.convert hq

theorem Denotes.roundToWhole [f.Proper] (h : x.Denotes q) :
    x.roundToWhole.Denotes (roundAway q) := by
  have hq := h.holds.roundAway
  obtain ⟨s, m, e, hc, rfl, rfl⟩ := h.exists_eq_finite
  exact denotes_round s hq

theorem Denotes.toIntWithin {n : ℤ} (h : x.Denotes n) (lo hi : ℤ) :
    x.toIntWithin lo hi = max lo (min hi n) := by
  obtain ⟨s, m, e, hc, rfl, hn⟩ := h.exists_eq_finite
  rw [Binary.toIntWithin, ← hn, truncate_intCast]

theorem Denotes.toIntWithin_eq {n lo hi : ℤ} (h : x.Denotes n) (hlo : lo ≤ n) (hhi : n ≤ hi) :
    x.toIntWithin lo hi = n := by
  rw [h.toIntWithin, min_eq_right hhi, max_eq_right hlo]

/-! ## Exact comparison -/

theorem Denotes.lt_iff (hx : x.Denotes q) (hy : y.Denotes r) : x < y ↔ q < r := by
  obtain ⟨s, m, e, hc, rfl, rfl⟩ := hx.exists_eq_finite
  obtain ⟨t, n, d, hd, rfl, rfl⟩ := hy.exists_eq_finite
  exact decide_eq_true_iff

theorem Denotes.le_iff (hx : x.Denotes q) (hy : y.Denotes r) : x ≤ y ↔ q ≤ r := by
  have h : lt y x = true ↔ r < q := hy.lt_iff hx
  change (!x.isNaN && !y.isNaN && !lt y x) = true ↔ q ≤ r
  rw [hx.isNaN_eq, hy.isNaN_eq, ← not_lt, ← h]
  simp

end Binary

end AffineQuant
