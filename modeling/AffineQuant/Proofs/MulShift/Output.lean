import AffineQuant.Proofs.Binary.Nearest
import AffineQuant.Proofs.MulShift.Constant
import Mathlib.Data.Rat.Floor

/-!
# What the hardware computes

An integer times the constant of a pair, shifted right: that there is a result for every encoded
pair and every input, and how far it is from the product that was meant.

## The error

The shift divides by its power of two and rounds down (`fdiv_pow2_eq_floor`), so the result differs
from the exact product `input * value` by two errors only: less than one for the shift, and for the
constant half a unit of the multiplier, which the input multiplies and the shift divides. The pair
itself adds nothing, because it denotes its value exactly. The two errors may have the same sign,
and the bound is their sum.

## The product fits

That there is a result at all hangs on the widest registers. Inputs reach `2 ^ 31` in magnitude,
and a constant of `2 ^ 32` would lead to `2 ^ 63`, one more than a 64-bit integer can be. A carry
of the constant is therefore not harmless here, but it does not happen at this width: the
multiplier of a 32-bit register is whole and is not rounded. With fewer bits the constant may carry
and is small enough all the same (`Encodes.abs_roundedMultiplier_lt_widest`), so the product stays
below `2 ^ 63` in every case (`Encodes.abs_product_lt`).
-/

namespace AffineQuant.MulShift

open Binary

variable {value : Single} {q : ℚ} {bits : ℤ} {width budget : ℕ} {signed : Bool} {p : MulShift}

/-! ## The shift -/

theorem fdiv_pow2_eq_floor (n : ℤ) (k : ℕ) : n.fdiv (pow2 k) = ⌊(n : ℚ) / 2 ^ k⌋ := by
  rw [Int.fdiv_eq_ediv_of_nonneg n (Int.natCast_nonneg _), ← Rat.floor_intCast_div_natCast, pow2_eq,
    Nat.cast_pow, Nat.cast_ofNat]

theorem output?_eq (p : MulShift) (input : Int32) :
    p.output? input =
      if p.shift.toInt < 0 then none
      else if leastInt 64 ≤ ⌊(p.product input : ℚ) / 2 ^ p.shift.toInt.toNat⌋ ∧
          ⌊(p.product input : ℚ) / 2 ^ p.shift.toInt.toNat⌋ ≤ greatestInt 64 then
        some ⌊(p.product input : ℚ) / 2 ^ p.shift.toInt.toNat⌋
      else none := by
  rw [output?, fdiv_pow2_eq_floor]

theorem abs_floor_sub_lt {x r : ℤ} {s : ℕ} (h : |q * 2 ^ s - r| ≤ 1 / 2) :
    |(⌊((x * r : ℤ) : ℚ) / 2 ^ s⌋ : ℚ) - x * q| < 1 + |(x : ℚ)| / 2 ^ (s + 1) := by
  have hpos : (0 : ℚ) < 2 ^ s := pow_pos two_pos s
  have hfloor := Int.floor_le (((x * r : ℤ) : ℚ) / 2 ^ s)
  have hfloor' := Int.lt_floor_add_one (((x * r : ℤ) : ℚ) / 2 ^ s)
  have hconstant : |((x * r : ℤ) : ℚ) / 2 ^ s - x * q| ≤ |(x : ℚ)| / 2 ^ (s + 1) := by
    calc |((x * r : ℤ) : ℚ) / 2 ^ s - x * q| = |(x : ℚ)| * |q * 2 ^ s - r| / 2 ^ s := by
          rw [← abs_mul, ← abs_of_pos hpos, ← abs_div, abs_of_pos hpos, abs_sub_comm]
          congr 1
          push_cast
          field_simp
      _ ≤ |(x : ℚ)| * (1 / 2) / 2 ^ s := by gcongr
      _ = |(x : ℚ)| / 2 ^ (s + 1) := by
          rw [pow_succ]
          field_simp
  generalize (((x * r : ℤ) : ℚ) / 2 ^ s) = exact at hfloor hfloor' hconstant ⊢
  rw [abs_le] at hconstant
  rw [abs_lt]
  constructor <;> linarith

/-! ## The product -/

/-- The constant stays below the widest register, whatever the width is: a carry needs a fractional
part, which there is none of with 32 bits. -/
theorem Encodes.abs_roundedMultiplier_lt_widest (h : p.Encodes q bits budget) (hlo : 0 ≤ bits)
    (hhi : bits ≤ 32) : |p.roundedMultiplier| < 2 ^ 32 := by
  have hlt : |(p.roundedMultiplier : ℚ)| < (2 : ℚ) ^ (32 : ℤ) := by
    rcases hhi.lt_or_eq with hlt | rfl
    · exact (h.abs_roundedMultiplier_le hlo hhi).trans_lt (zpow_two_lt_iff.mpr hlt)
    · exact h.abs_roundedMultiplier_lt (by decide) le_rfl
  exact_mod_cast hlt

theorem abs_product_le_mul {c : ℤ} (h : |p.roundedMultiplier| ≤ c) (input : Int32) :
    |p.product input| ≤ 2 ^ 31 * c := by
  have hinput : |input.toInt| ≤ 2 ^ 31 := by
    have hleast := input.le_toInt
    have hgreatest := input.toInt_lt
    exact abs_le.mpr ⟨hleast, hgreatest.le⟩
  calc |p.product input| = |input.toInt| * |p.roundedMultiplier| := abs_mul _ _
    _ ≤ 2 ^ 31 * c := mul_le_mul hinput h (abs_nonneg _) (by norm_num)

theorem Encodes.abs_product_lt (h : p.Encodes q bits budget) (hlo : 0 ≤ bits) (hhi : bits ≤ 32)
    (input : Int32) : |p.product input| < 2 ^ 63 := by
  have hconstant := Int.le_sub_one_of_lt (h.abs_roundedMultiplier_lt_widest hlo hhi)
  calc |p.product input| ≤ 2 ^ 31 * (2 ^ 32 - 1) := abs_product_le_mul hconstant input
    _ < 2 ^ 63 := by norm_num

theorem floor_div_mem {n : ℤ} (h : |n| < 2 ^ 63) (k : ℕ) :
    leastInt 64 ≤ ⌊(n : ℚ) / 2 ^ k⌋ ∧ ⌊(n : ℚ) / 2 ^ k⌋ ≤ greatestInt 64 := by
  have habs := abs_lt.mp ((Int.abs_ediv_le_abs n (pow2 k)).trans_lt h)
  rw [← fdiv_pow2_eq_floor, Int.fdiv_eq_ediv_of_nonneg n (Int.natCast_nonneg _)]
  exact ⟨habs.1.le, Int.le_sub_one_of_lt habs.2⟩

/-! ## Accuracy -/

/-- **The hardware result.** An encoded pair has a result for every input: the product with the
constant, divided by the power of the shift and rounded down. It differs from the exact product by
less than one for rounding down, and by half a unit of the multiplier for each unit of the input. -/
theorem output_accurate (h : encode value width budget signed = .ok p) (input : Int32) :
    ∃ y : ℤ, p.output? input = some y ∧
      y = ⌊(input.toInt * p.roundedMultiplier : ℚ) / (2 : ℚ) ^ p.shift.toInt⌋ ∧
      |y - input.toInt * value.toRat| <
        1 + |(input.toInt : ℚ)| / (2 : ℚ) ^ (p.shift.toInt + 1) := by
  obtain ⟨-, hlo, hhi, -, -, -⟩ := of_encode_eq_ok h
  have hp := encodes_of_encode_eq_ok h
  generalize value.toRat = q at hp ⊢
  generalize magnitudeBits width signed = bits at hlo hhi hp
  have hword := floor_div_mem (hp.abs_product_lt hlo hhi input) p.shift.toInt.toNat
  have hconstant := abs_sub_roundAway_le (q * (2 : ℚ) ^ p.shift.toInt)
  rw [← hp.roundedMultiplier_eq hhi] at hconstant
  have houtput := p.output?_eq input
  rw [if_neg hp.shift_nonneg.not_gt, if_pos hword, product] at houtput
  obtain ⟨s, hs⟩ := Int.eq_ofNat_of_zero_le hp.shift_nonneg
  rw [hs, zpow_natCast] at hconstant
  rw [hs, Int.toNat_natCast] at houtput
  rw [hs]
  refine ⟨_, houtput, ?_, ?_⟩
  · rw [zpow_natCast, Int.cast_mul]
  · exact_mod_cast abs_floor_sub_lt (x := input.toInt) hconstant

/-- The greatest number of 32 bits, negated, times the least input: the product `2 ^ 63 - 2 ^ 39`
is not reduced by a shift and still is a 64-bit integer. -/
theorem output_accurate_widest :
    encode (ofBits 0xcf7fffff) 32 31 false = .ok ⟨ofBits 0xcf7fffff, 0⟩ ∧
      output? ⟨ofBits 0xcf7fffff, 0⟩ (-2147483648) = some (2 ^ 63 - 2 ^ 39) ∧
      |((2 ^ 63 - 2 ^ 39 : ℤ) : ℚ) - (-2147483648 : Int32).toInt *
        (ofBits 0xcf7fffff : Single).toRat| <
          1 + |((-2147483648 : Int32).toInt : ℚ)| / (2 : ℚ) ^ ((0 : Int8).toInt + 1) := by
  have h : encode (ofBits 0xcf7fffff) 32 31 false = .ok ⟨ofBits 0xcf7fffff, 0⟩ := by decide +kernel
  have houtput : output? ⟨ofBits 0xcf7fffff, 0⟩ (-2147483648) = some (2 ^ 63 - 2 ^ 39) := by
    decide +kernel
  obtain ⟨y, hy, -, herror⟩ := output_accurate h (-2147483648)
  obtain rfl := Option.some.inj (houtput.symm.trans hy)
  exact ⟨h, houtput, herror⟩

-- A negative product is rounded down as well: `-7 * 77 / 256` to `-3`.
example : encode (ofBits 0x3e99999a) 8 8 false = .ok ⟨ofBits 0x4299999a, 8⟩ ∧
    output? ⟨ofBits 0x4299999a, 8⟩ (-7) = some (-3) := by decide +kernel

end AffineQuant.MulShift
