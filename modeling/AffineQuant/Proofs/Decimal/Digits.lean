import AffineQuant.Decimal.Shortest
import Mathlib.Algebra.Order.Field.Power
import Mathlib.Algebra.Order.Field.Rat
import Mathlib.Data.List.DropRight
import Mathlib.Data.Nat.Cast.Order.Field
import Mathlib.Tactic.Linarith
import Mathlib.Tactic.Positivity
import Mathlib.Tactic.Ring

/-!
# Rows of digits

What a row of digits denotes when rows are put together, how many digits a number has, and what is
lost with leading and trailing zeros. Numerals are kept as digits and not as numbers, because the
readers and writers look at single digits; whatever is said about the value of a numeral goes
through this file.

## Values and lengths

A row is read from the left, so the recursion of `value` adds digits at the end, and the lemma for
rows put together has a power of ten for the second one (`value_append`). All statements about
zeros at either end are cases of it. The number of digits brackets a number between two powers of
ten (`pow_length_le`, `lt_pow_length`). The lower bound fails for zero, whose one digit is
superfluous in this sense, and for rows with leading zeros.

## The decade

The decade of a rational is the exponent of its first digit. It is counted off from a row: that of
the whole part, and for rationals below one that of the inverse (`zpow_decade_le_and_lt`). The
inverse is counted after it was rounded up and lowered by one, so that an exact power of ten falls
into its own decade and not into the one before.
-/

namespace AffineQuant

namespace Digit

variable {ds : List Digit} {n : ℕ}

/-! ## Values -/

@[simp] theorem value_nil : value [] = 0 := rfl

theorem value_append (ds es : List Digit) :
    value (ds ++ es) = value ds * 10 ^ es.length + value es := by
  induction es using List.reverseRecOn with
  | nil => rw [List.append_nil, List.length_nil, pow_zero, mul_one, value_nil, add_zero]
  | append_singleton es d ih =>
    rw [← List.append_assoc, value_append_singleton, value_append_singleton, ih,
      List.length_append, List.length_singleton, pow_succ]
    ring

theorem value_replicate_zero (n : ℕ) : value (List.replicate n zero) = 0 := by
  induction n with
  | zero => rfl
  | succ n ih => rw [List.replicate_succ', value_append_singleton, ih]; rfl

theorem value_append_zeros (ds : List Digit) (n : ℕ) :
    value (ds ++ List.replicate n zero) = value ds * 10 ^ n := by
  rw [value_append, value_replicate_zero, List.length_replicate, add_zero]

theorem value_zeros_append (n : ℕ) (ds : List Digit) :
    value (List.replicate n zero ++ ds) = value ds := by
  rw [value_append, value_replicate_zero, zero_mul, zero_add]

theorem value_lt (ds : List Digit) : value ds < 10 ^ ds.length := by
  induction ds using List.reverseRecOn with
  | nil => exact Nat.one_pos
  | append_singleton ds d ih =>
    rw [value_append_singleton, List.length_append, List.length_singleton, pow_succ]
    have := d.isLt
    omega

/-! ## The digits of a number -/

theorem ofNat_of_lt (h : n < 10) : ofNat n = [⟨n, h⟩] := by
  rw [ofNat, dif_pos h]

theorem ofNat_of_le (h : 10 ≤ n) :
    ofNat n = ofNat (n / 10) ++ [⟨n % 10, Nat.mod_lt _ (by decide)⟩] := by
  rw [ofNat, dif_neg (not_lt.mpr h)]

theorem ofNat_ne_nil (n : ℕ) : ofNat n ≠ [] := by
  rcases lt_or_ge n 10 with h | h
  · rw [ofNat_of_lt h]
    exact List.cons_ne_nil _ _
  · rw [ofNat_of_le h]
    exact List.append_ne_nil_of_right_ne_nil _ (List.cons_ne_nil _ _)

theorem length_ofNat_pos (n : ℕ) : 0 < (ofNat n).length :=
  List.length_pos_of_ne_nil (ofNat_ne_nil n)

theorem lt_pow_length (n : ℕ) : n < 10 ^ (ofNat n).length := by
  conv_lhs => rw [← value_ofNat n]
  exact value_lt _

/-- There are no superfluous digits. -/
theorem pow_length_le (h : 0 < n) : 10 ^ ((ofNat n).length - 1) ≤ n := by
  induction n using Nat.strongRecOn with
  | ind n ih =>
    rcases lt_or_ge n 10 with hlt | hge
    · rw [ofNat_of_lt hlt]
      exact h
    · have hstep := ih (n / 10) (by omega) (by omega)
      obtain ⟨l, hl⟩ : ∃ l, (ofNat (n / 10)).length = l + 1 :=
        Nat.exists_eq_add_of_le' (length_ofNat_pos _)
      rw [hl, Nat.add_sub_cancel] at hstep
      rw [ofNat_of_le hge, List.length_append, hl, List.length_singleton, Nat.add_sub_cancel,
        pow_succ]
      omega

theorem head?_ofNat_ne (h : 0 < n) : (ofNat n).head? ≠ some zero := by
  induction n using Nat.strongRecOn with
  | ind n ih =>
    rcases lt_or_ge n 10 with hlt | hge
    · rw [ofNat_of_lt hlt, List.head?_cons, zero]
      intro hzero
      simp only [Option.some.injEq, Fin.mk.injEq] at hzero
      omega
    · rw [ofNat_of_le hge, List.head?_append_of_ne_nil _ (ofNat_ne_nil _)]
      exact ih (n / 10) (by omega) (by omega)

/-! ## Leading zeros -/

theorem exists_append_trimLeading (ds : List Digit) :
    ∃ n, ds = List.replicate n zero ++ trimLeading ds := by
  have hzeros : ds.takeWhile (· == zero) =
      List.replicate (ds.takeWhile (· == zero)).length zero :=
    List.eq_replicate_of_mem fun d hd ↦ beq_iff_eq.mp (List.mem_takeWhile_imp (p := (· == zero)) hd)
  refine ⟨(ds.takeWhile (· == zero)).length, ?_⟩
  rw [← hzeros]
  exact List.takeWhile_append_dropWhile.symm

theorem value_trimLeading (ds : List Digit) : value (trimLeading ds) = value ds := by
  obtain ⟨n, hn⟩ := exists_append_trimLeading ds
  conv_rhs => rw [hn, value_zeros_append]

/-- A row that is left without leading zeros has no more digits than its value. -/
theorem pow_length_trimLeading_le (h : 0 < value ds) :
    10 ^ ((trimLeading ds).length - 1) ≤ value ds := by
  rw [← value_trimLeading] at h ⊢
  cases hds : trimLeading ds with
  | nil => exact absurd h (by rw [hds]; exact Nat.lt_irrefl 0)
  | cons d rest =>
    have hd : 0 < d.val := by
      have hne := List.head?_dropWhile_not (· == zero) ds
      rw [← trimLeading, hds, List.head?_cons] at hne
      refine Nat.pos_of_ne_zero fun hzero ↦ ?_
      obtain rfl : d = zero := Fin.ext hzero
      exact absurd hne (by decide)
    rw [← List.singleton_append, value_append, List.length_append, List.length_singleton,
      Nat.add_sub_cancel_left, show value [d] = d.val from Nat.zero_add _]
    exact (Nat.le_mul_of_pos_left _ hd).trans (Nat.le_add_right _ _)

/-! ## Trailing zeros -/

theorem exists_trimTrailing_append (ds : List Digit) :
    ∃ n, ds = trimTrailing ds ++ List.replicate n zero := by
  have hzeros : ds.rtakeWhile (· == zero) =
      List.replicate (ds.rtakeWhile (· == zero)).length zero :=
    List.eq_replicate_of_mem fun d hd ↦
      beq_iff_eq.mp (List.mem_rtakeWhile_imp (p := (· == zero)) hd)
  refine ⟨(ds.rtakeWhile (· == zero)).length, ?_⟩
  rw [← hzeros]
  exact List.rdropWhile_append_rtakeWhile.symm

end Digit

/-! ## The decade of a rational -/

private theorem zpow_length_sub_one_le {n : ℕ} (h : 0 < n) :
    (10 : ℚ) ^ ((Digit.ofNat n).length - 1 : ℤ) ≤ n := by
  have hpow := Digit.pow_length_le h
  rw [← Nat.cast_pred (Digit.length_ofNat_pos n), zpow_natCast]
  exact_mod_cast hpow

private theorem lt_zpow_length (n : ℕ) : (n : ℚ) + 1 ≤ (10 : ℚ) ^ ((Digit.ofNat n).length : ℤ) := by
  rw [zpow_natCast]
  exact_mod_cast Digit.lt_pow_length n

theorem zpow_decade_le_and_lt {q : ℚ} (hq : 0 < q) :
    (10 : ℚ) ^ decade q ≤ q ∧ q < (10 : ℚ) ^ (decade q + 1) := by
  rw [decade]
  split
  · next h =>
    -- The whole part has the digits of the decade.
    have hfloor : 1 ≤ q.floor := Rat.le_floor_iff.mpr (by exact_mod_cast h)
    obtain ⟨n, hn⟩ := Int.eq_ofNat_of_zero_le (zero_le_one.trans hfloor)
    have hle : (n : ℚ) ≤ q := by
      have := Rat.floor_le q
      rwa [hn] at this
    have hlt : q < n + 1 := by
      have := Rat.lt_floor_add_one q
      rw [hn] at this
      exact_mod_cast this
    rw [hn, Int.toNat_natCast, sub_add_cancel]
    exact ⟨(zpow_length_sub_one_le (by omega)).trans hle, hlt.trans_le (lt_zpow_length n)⟩
  · next h =>
    -- So has the inverse, a power of ten counted for the decade below.
    have hinv : 1 < q⁻¹ := one_lt_inv₀ hq |>.mpr (not_le.mp h)
    have hceil : 1 < q⁻¹.ceil := Rat.lt_ceil_iff.mpr (by exact_mod_cast hinv)
    obtain ⟨n, hn⟩ := Int.eq_ofNat_of_zero_le (show 0 ≤ q⁻¹.ceil - 1 by omega)
    have hceil' : q⁻¹.ceil = (n + 1 : ℕ) := by omega
    have hlt : (n : ℚ) < q⁻¹ := by
      have := Rat.ceil_lt (x := q⁻¹)
      rw [hceil'] at this
      push_cast at this
      linarith
    have hle : q⁻¹ ≤ n + 1 := by
      have := Rat.le_ceil (x := q⁻¹)
      rw [hceil'] at this
      exact_mod_cast this
    rw [hceil', Int.toNat_natCast, Nat.add_sub_cancel]
    constructor
    · rw [zpow_neg]
      exact inv_le_of_inv_le₀ hq (hle.trans (lt_zpow_length n))
    · have := (zpow_length_sub_one_le (by omega)).trans_lt hlt
      rw [show -((Digit.ofNat n).length : ℤ) + 1 = -((Digit.ofNat n).length - 1) by ring, zpow_neg]
      exact (lt_inv_comm₀ (by positivity) hq).mp this

end AffineQuant
