import AffineQuant.Proofs.MulShift.Split
import Mathlib.Order.Bounds.Basic

/-!
# The encoder

Which values the encoder accepts, and what it returns for them.

## The greatest shift

Write `e` for the exponent of a value, so that `2 ^ (e - 1) ≤ |value| < 2 ^ e`, and `bits` for the
bits left for the magnitude. A scaled value `value * 2 ^ s` is below `2 ^ bits` exactly if
`e + s ≤ bits`, so the greatest admissible shift is `min budget (bits - e)` (`isGreatest_min`).
Both branches of the encoder arrive at that shift. They count it from opposite ends, and the
difference between them is one of order of operations only (`pairFor_eq`).

## The multiplier

Both branches also scale without error (`pairFor_denotes`). This is not clear from the scaling
itself, which goes down as well as up and could lose bits of a subnormal result. But the result
is always reached by scaling *up* something that the format holds: the fraction of the value if
the register decides the shift, and the value itself if the budget does.

## The checks

Since the pair is exact, the error that is measured afterwards is zero, and the bounds that are
checked fail in one case only: when the shift is negative, which is when the value is not below
`2 ^ bits` (`withinBounds_pairFor`). `encode_eq` is the encoder as a list of checks on arguments,
and what is accepted and what is returned are both read off it. `Encodes` keeps what the other
files need to know of a pair.
-/

namespace AffineQuant.MulShift

open Binary

variable {value m : Single} {q : ℚ} {e s bits : ℤ} {width budget : ℕ} {signed : Bool}

/-- The bits of a register that are left for the magnitude. -/
def magnitudeBits (width : ℕ) (signed : Bool) : ℤ := width - (if signed then 1 else 0)

theorem magnitudeBits_mem_Icc (signed : Bool) (h : 1 ≤ width ∧ width ≤ 32) :
    0 ≤ magnitudeBits width signed ∧ magnitudeBits width signed ≤ 32 := by
  rw [magnitudeBits]
  split <;> omega

/-! ## The greatest shift -/

theorem abs_mul_zpow_lt_iff (hlo : (2 : ℚ) ^ (e - 1) ≤ |q|) (hhi : |q| < (2 : ℚ) ^ e) :
    |q| * (2 : ℚ) ^ s < (2 : ℚ) ^ bits ↔ e + s ≤ bits := by
  constructor
  · intro h
    have hlt := zpow_two_lt_iff.mp ((zpow_add_le_mul hlo s).trans_lt h)
    omega
  · intro h
    exact (mul_lt_zpow_add hhi s).trans_le (zpow_two_le_iff.mpr h)

theorem isGreatest_min (hlo : (2 : ℚ) ^ (e - 1) ≤ |q|) (hhi : |q| < (2 : ℚ) ^ e) (b bits : ℤ) :
    IsGreatest {s : ℤ | s ≤ b ∧ |q| * (2 : ℚ) ^ s < (2 : ℚ) ^ bits} (min b (bits - e)) := by
  constructor
  · exact ⟨min_le_left _ _, (abs_mul_zpow_lt_iff hlo hhi).mpr (by omega)⟩
  · rintro s ⟨hs, hlt⟩
    have := (abs_mul_zpow_lt_iff hlo hhi).mp hlt
    omega

/-! ## The pair -/

theorem denotes_ofNat {f : Format} [f.Proper] {n : ℕ} (h : n < pow2 f.precision) :
    (OfNat.ofNat n : Binary f).Denotes n :=
  denotes_round false (Format.holds_intCast (n := n) h)

theorem pairFor_zero (h : value.Denotes 0) (bits b : ℤ) : pairFor value bits b = (0, 0) := by
  have hone : ¬(1 : Single) < value.abs := by
    rw [(denotes_ofNat (n := 1) (by decide)).lt_iff h.abs]
    norm_num
  rw [pairFor, if_neg hone, if_pos ((isZero_eq_true_iff h).mpr rfl)]

theorem pairFor_eq (h : value.Denotes q) (hq : q ≠ 0) (bits b : ℤ) :
    pairFor value bits b =
      (value.split.1.scaleByPowerOfTwo (min (b + value.split.2) bits),
        min b (bits - value.split.2)) := by
  have hzero : ¬value.isZero = true := by
    rw [isZero_eq_true_iff h]
    exact hq
  rw [pairFor]
  by_cases hone : 1 < value.abs
  · rw [if_pos hone]
    dsimp only
    congr 2
    omega
  · rw [if_neg hone, if_neg hzero]
    dsimp only
    congr 1
    omega

theorem pairFor_denotes (h : value.Denotes q) (hq : q ≠ 0) {b : ℤ} (hb : 0 ≤ b)
    (hlo : 0 ≤ bits) (hhi : bits ≤ 32) :
    (pairFor value bits b).1.Denotes (q * (2 : ℚ) ^ (pairFor value bits b).2) := by
  obtain ⟨hm, hle, hlt⟩ := split_isSplit h hq
  rw [pairFor_eq h hq]
  generalize value.split = p at hm hle hlt ⊢
  obtain ⟨m, e⟩ := p
  dsimp only at hm hle hlt ⊢
  have hne : q * (2 : ℚ) ^ (-e) ≠ 0 := mul_ne_zero hq (zpow_two_pos _).ne'
  have hshift : q * (2 : ℚ) ^ (-e) * (2 : ℚ) ^ min (b + e) bits
      = q * (2 : ℚ) ^ min b (bits - e) := by
    rw [mul_assoc, ← zpow_add_two]
    congr 2
    omega
  have hbound : |q * (2 : ℚ) ^ min b (bits - e)| < Format.single.threshold := by
    rw [abs_mul_zpow_two, Format.threshold, abs_mul_zpow_lt_iff hle hlt]
    change e + min b (bits - e) ≤ 104 + 24
    omega
  rw [← hshift]
  refine hm.scaleByPowerOfTwo hne ?_
  -- Scaling up is harmless, so the scaling is read as one of a number that is held already: of
  -- the fraction if the register decides the shift, of the value if the budget does.
  rcases le_total bits (b + e) with hle' | hle'
  · rw [← hshift, min_eq_right hle'] at hbound
    rw [min_eq_right hle']
    exact hm.holds.mul_zpow hlo hbound
  · rw [min_eq_left (show b ≤ bits - e by omega)] at hbound
    rw [hshift, min_eq_left (show b ≤ bits - e by omega)]
    exact h.holds.mul_zpow hb hbound

/-! ## The checks -/

theorem denotes_double_zpow {k : ℤ} (hlo : -1074 ≤ k) (hhi : k < 1024) (z : Bool) :
    (round z ((2 : ℚ) ^ k) : Double).Denotes ((2 : ℚ) ^ k) :=
  denotes_round z (Format.holds_zpow hlo hhi)

theorem denotes_mul_zpow_neg (hq : Format.single.Holds q) (hm : m.Denotes (q * (2 : ℚ) ^ s))
    (hs : s.natAbs < 1024) : (m.widen * round false ((2 : ℚ) ^ (-s))).Denotes q := by
  have hback := mul_zpow_two_cancel q s
  have hprod := hm.widen.mul (denotes_double_zpow (k := -s) (by omega) (by omega) false)
    (by rw [hback]; exact hq.widen)
  rwa [hback] at hprod

/-- Of a pair that denotes the value exactly, the precision check never fails. -/
theorem withinBounds_eq_true_iff {b : ℤ} (h : value.Denotes q) (hm : m.Denotes (q * (2 : ℚ) ^ s))
    (hs : s.natAbs < 1024) (hbits : bits.natAbs < 1024) :
    withinBounds value bits b m s = true ↔
      |q| * (2 : ℚ) ^ s < (2 : ℚ) ^ bits ∧ 0 ≤ s ∧ s ≤ b := by
  have hregister := denotes_double_zpow (k := bits) (by omega) (by omega) false
  have herror : (value.widen - m.widen * round false ((2 : ℚ) ^ (-s))).abs ≤
      round false ((2 : ℚ) ^ (-23 : ℤ)) := by
    have hsub := h.widen.sub (denotes_mul_zpow_neg h.holds hm hs)
      (by rw [sub_self]; exact Format.holds_zero _)
    rw [hsub.abs.le_iff (denotes_double_zpow (by decide) (by decide) false), sub_self, abs_zero]
    exact (zpow_two_pos _).le
  rw [withinBounds, Bool.and_eq_true, Bool.and_eq_true, decide_eq_true_iff, decide_eq_true_iff,
    decide_eq_true_iff, hm.widen.abs.lt_iff hregister, abs_mul_zpow_two]
  exact and_iff_left herror

/-! ## The outcome -/

theorem natAbs_pairFor_lt (h : value.Denotes q) {b : ℤ} (hb : 0 ≤ b) (hb' : b ≤ 127)
    (hlo : 0 ≤ bits) (hhi : bits ≤ 32) : (pairFor value bits b).2.natAbs < 256 := by
  by_cases hq : q = 0
  · subst hq
    rw [pairFor_zero h]
    decide
  · obtain ⟨-, hle, -⟩ := split_isSplit h hq
    have hexp : value.split.2 - 1 < 128 := zpow_two_lt_iff.mp (hle.trans_lt h.holds.1)
    rw [pairFor_eq h hq]
    dsimp only
    omega

theorem withinBounds_pairFor (h : value.Denotes q) {b : ℤ} (hb : 0 ≤ b) (hb' : b ≤ 127)
    (hlo : 0 ≤ bits) (hhi : bits ≤ 32) :
    withinBounds value bits b (pairFor value bits b).1 (pairFor value bits b).2 = true ↔
      |q| < (2 : ℚ) ^ bits := by
  have hshift := natAbs_pairFor_lt h hb hb' hlo hhi
  by_cases hq : q = 0
  · subst hq
    have hpair : (pairFor value bits b).1.Denotes (0 * (2 : ℚ) ^ (pairFor value bits b).2) := by
      rw [pairFor_zero h, zero_mul]
      exact denotes_zero false
    rw [withinBounds_eq_true_iff h hpair (by omega) (by omega), pairFor_zero h, abs_zero, zero_mul]
    exact and_iff_left ⟨le_rfl, hb⟩
  · -- The greatest admissible shift is not negative exactly if a shift of zero is admissible.
    obtain ⟨-, hle, hlt⟩ := split_isSplit h hq
    rw [withinBounds_eq_true_iff h (pairFor_denotes h hq hb hlo hhi) (by omega) (by omega),
      abs_mul_zpow_lt_iff hle hlt, ← mul_one |q|, ← zpow_zero (2 : ℚ), abs_mul_zpow_lt_iff hle hlt,
      pairFor_eq h hq]
    dsimp only
    omega

/-- The encoder as a list of checks, the last of which is about the value alone. -/
theorem encode_eq (value : Single) (width budget : ℕ) (signed : Bool) :
    encode value width budget signed =
      if value.isFinite = false then .error (.nonFinite value)
      else if ¬(1 ≤ width ∧ width ≤ 32) then .error (.bitWidth width 1 32)
      else if 127 < budget then .error (.shiftBudget budget 127)
      else if signed = true ∧ value.toRat < 0 then .error (.negativeSigned value)
      else
        let bits := magnitudeBits width signed
        let pair := pairFor value bits budget
        if |value.toRat| < (2 : ℚ) ^ bits then .ok ⟨pair.1, Int8.ofInt pair.2⟩
        else .error (.outOfRegister value bits budget pair.1 pair.2) := by
  -- Each check is decided on both sides before the next one is looked at.
  rw [encode]
  cases hfin : value.isFinite with
  | false => rfl
  | true =>
    have hv := denotes_toRat hfin
    have hneg : value < 0 ↔ value.toRat < 0 := hv.lt_iff (denotes_zero false)
    simp only [Bool.not_true, Bool.false_eq_true, if_false, hneg, maxRegisterBits, shiftLimit]
    by_cases hwidth : 1 ≤ width ∧ width ≤ 32
    swap
    · rw [if_pos (by omega), if_pos hwidth]
      rfl
    rw [if_neg (by omega), if_neg (not_not.mpr hwidth)]
    by_cases hbudget : 127 < budget
    · rw [if_pos hbudget, if_pos hbudget]
      rfl
    rw [if_neg hbudget, if_neg hbudget]
    by_cases hsigned : signed = true ∧ value.toRat < 0
    · rw [if_pos hsigned, if_pos hsigned]
      rfl
    obtain ⟨hlo, hhi⟩ := magnitudeBits_mem_Icc signed hwidth
    have hbounds := withinBounds_pairFor hv (b := budget) (by omega) (by omega) hlo hhi
    rw [if_neg hsigned, if_neg hsigned, ← magnitudeBits]
    simp only [hbounds]
    rfl

/-! ## What is returned -/

variable {p : MulShift}

/-- The pair is the most precise one for the rational in a register with so many bits for the
magnitude, within a shift budget. -/
structure Encodes (p : MulShift) (q : ℚ) (bits : ℤ) (budget : ℕ) : Prop where
  multiplier : p.multiplier.Denotes (q * (2 : ℚ) ^ p.shift.toInt)
  shift_nonneg : 0 ≤ p.shift.toInt
  shift_le : p.shift.toInt ≤ budget
  scaled_lt : |q| * (2 : ℚ) ^ p.shift.toInt < (2 : ℚ) ^ bits
  greatest : q ≠ 0 → ∀ s : ℤ, s ≤ budget → |q| * (2 : ℚ) ^ s < (2 : ℚ) ^ bits → s ≤ p.shift.toInt
  zero : q = 0 → p = ⟨0, 0⟩

theorem of_encode_eq_ok (h : encode value width budget signed = .ok p) :
    value.isFinite = true ∧ 0 ≤ magnitudeBits width signed ∧ magnitudeBits width signed ≤ 32 ∧
      budget ≤ 127 ∧ |value.toRat| < (2 : ℚ) ^ magnitudeBits width signed ∧
      p = ⟨(pairFor value (magnitudeBits width signed) budget).1,
        Int8.ofInt (pairFor value (magnitudeBits width signed) budget).2⟩ := by
  rw [encode_eq] at h
  split at h
  · exact absurd h (by simp)
  split at h
  · exact absurd h (by simp)
  split at h
  · exact absurd h (by simp)
  split at h
  · exact absurd h (by simp)
  dsimp only at h
  split at h
  · next hfin hwidth hbudget _ hlt =>
    obtain ⟨hlo, hhi⟩ := magnitudeBits_mem_Icc signed (not_not.mp hwidth)
    exact ⟨by simpa using hfin, hlo, hhi, by omega, hlt, (Except.ok.inj h).symm⟩
  · exact absurd h (by simp)

theorem encodes_of_encode_eq_ok (h : encode value width budget signed = .ok p) :
    p.Encodes value.toRat (magnitudeBits width signed) budget := by
  obtain ⟨hfin, hlo, hhi, hbudget, hlt, rfl⟩ := of_encode_eq_ok h
  have hv := denotes_toRat hfin
  generalize magnitudeBits width signed = bits at hlo hhi hlt ⊢
  by_cases hq : value.toRat = 0
  · rw [hq] at hv hlt ⊢
    rw [pairFor_zero hv]
    exact ⟨by rw [zero_mul]; exact denotes_zero false, le_rfl, Int.natCast_nonneg budget,
      by rw [abs_zero, zero_mul]; exact zpow_two_pos bits, fun h ↦ absurd rfl h, fun _ ↦ rfl⟩
  · obtain ⟨-, hle, hlt'⟩ := split_isSplit hv hq
    have hpair := pairFor_denotes hv hq (b := budget) (by omega) hlo hhi
    have hnonneg := ((withinBounds_eq_true_iff hv hpair
      ((natAbs_pairFor_lt hv (by omega) (by omega) hlo hhi).trans (by decide)) (by omega)).mp
      ((withinBounds_pairFor hv (by omega) (by omega) hlo hhi).mpr hlt)).2.1
    have hshift : (pairFor value bits budget).2 = min (budget : ℤ) (bits - value.split.2) := by
      rw [pairFor_eq hv hq]
    have hword : (Int8.ofInt (pairFor value bits budget).2).toInt
        = (pairFor value bits budget).2 :=
      Int8.toInt_ofInt_of_le (by omega) (by omega)
    obtain ⟨⟨hleast, habs⟩, hgreatest⟩ := isGreatest_min hle hlt' budget bits
    rw [← hshift] at hleast habs hgreatest
    refine ⟨?_, ?_, ?_, ?_, fun _ s hs hlt ↦ ?_, fun h ↦ absurd h hq⟩ <;> rw [hword]
    · exact hpair
    · exact hnonneg
    · exact hleast
    · exact habs
    · exact hgreatest ⟨hs, hlt⟩

theorem Encodes.isGreatest (h : p.Encodes q bits budget) (hq : q ≠ 0) :
    IsGreatest {s : ℤ | s ≤ budget ∧ |q| * (2 : ℚ) ^ s < (2 : ℚ) ^ bits} p.shift.toInt :=
  ⟨⟨h.shift_le, h.scaled_lt⟩, fun s hs ↦ h.greatest hq s hs.1 hs.2⟩

theorem Encodes.abs_multiplier_lt (h : p.Encodes q bits budget) :
    |p.multiplier.toRat| < (2 : ℚ) ^ bits := by
  rw [h.multiplier.toRat_eq, abs_mul_zpow_two]
  exact h.scaled_lt

theorem Encodes.reconstruct (h : p.Encodes q bits budget) (hq : Format.single.Holds q) :
    p.reconstruct.Denotes q := by
  have hlo := p.shift.le_toInt
  have hhi := p.shift.toInt_lt
  exact denotes_mul_zpow_neg hq h.multiplier (by omega)

/-- **Exactness and precision.** An encoded pair gives its value back without error, fits the
register and the budget, and no greater shift within the budget would fit the register. -/
theorem encode_exact (h : encode value width budget signed = .ok p) :
    p.reconstruct.Denotes value.toRat ∧
      0 ≤ p.shift.toInt ∧ p.shift.toInt ≤ budget ∧
      |p.multiplier.toRat| < (2 : ℚ) ^ magnitudeBits width signed ∧
      (value.toRat ≠ 0 →
        IsGreatest {s : ℤ | s ≤ budget ∧
          |value.toRat| * (2 : ℚ) ^ s < (2 : ℚ) ^ magnitudeBits width signed} p.shift.toInt ∧
        p.multiplier.Denotes (value.toRat * (2 : ℚ) ^ p.shift.toInt)) ∧
      (value.toRat = 0 → p = ⟨0, 0⟩) := by
  have hp := encodes_of_encode_eq_ok h
  have hv := denotes_toRat (of_encode_eq_ok h).1
  exact ⟨hp.reconstruct hv.holds, hp.shift_nonneg, hp.shift_le, hp.abs_multiplier_lt,
    fun hq ↦ ⟨hp.isGreatest hq, hp.multiplier⟩, hp.zero⟩

/-- The least number of the format in a register without bits for the magnitude: the budget of
127 binds, and the multiplier is `2 ^ (-22)`. -/
theorem encode_exact_leastNumber :
    encode (ofBits 1) 1 127 true = .ok ⟨ofBits 0x34800000, 127⟩ ∧
      (reconstruct ⟨ofBits 0x34800000, 127⟩).Denotes (ofBits 1 : Single).toRat ∧
      IsGreatest {s : ℤ | s ≤ (127 : ℕ) ∧
        |(ofBits 1 : Single).toRat| * (2 : ℚ) ^ s < (2 : ℚ) ^ magnitudeBits 1 true} 127 := by
  have h : encode (ofBits 1) 1 127 true = .ok ⟨ofBits 0x34800000, 127⟩ := by decide +kernel
  obtain ⟨hback, -, -, -, hgreatest, -⟩ := encode_exact h
  exact ⟨h, hback, (hgreatest (by decide +kernel)).1⟩

/-! ## What is refused -/

/-- The arguments are let through, whatever the magnitude of the value. -/
def Admissible (value : Single) (width budget : ℕ) (signed : Bool) : Prop :=
  value.isFinite = true ∧ (1 ≤ width ∧ width ≤ 32) ∧ budget ≤ 127 ∧
    ¬(signed = true ∧ value.toRat < 0)

/-- **Acceptance.** Each outcome of the encoder with the arguments that lead to it. A value that
is let through is refused only if it is not below the register, however small the value or the
shift budget may be. -/
theorem encode_outcome (value : Single) (width budget : ℕ) (signed : Bool) :
    (encode value width budget signed = .error (.nonFinite value) ↔ value.isFinite = false) ∧
    (encode value width budget signed = .error (.bitWidth width 1 32) ↔
      value.isFinite = true ∧ ¬(1 ≤ width ∧ width ≤ 32)) ∧
    (encode value width budget signed = .error (.shiftBudget budget 127) ↔
      value.isFinite = true ∧ (1 ≤ width ∧ width ≤ 32) ∧ 127 < budget) ∧
    (encode value width budget signed = .error (.negativeSigned value) ↔
      value.isFinite = true ∧ (1 ≤ width ∧ width ≤ 32) ∧ budget ≤ 127 ∧
        signed = true ∧ value.toRat < 0) ∧
    ((∃ m s, encode value width budget signed =
        .error (.outOfRegister value (magnitudeBits width signed) budget m s)) ↔
      Admissible value width budget signed ∧
        (2 : ℚ) ^ magnitudeBits width signed ≤ |value.toRat|) ∧
    ((∃ p, encode value width budget signed = .ok p) ↔
      Admissible value width budget signed ∧
        |value.toRat| < (2 : ℚ) ^ magnitudeBits width signed) := by
  rw [encode_eq, Admissible]
  by_cases hfin : value.isFinite = true
  swap
  · simp [hfin]
  by_cases hw : 1 ≤ width ∧ width ≤ 32
  swap
  · simp [hfin, hw]
  by_cases hb : budget ≤ 127
  swap
  · simp [hfin, hw, hb, not_le.mp hb]
  by_cases hs : signed = true ∧ value.toRat < 0
  · simp [hfin, hw, hb, not_lt.mpr hb, hs]
  by_cases hlt : |value.toRat| < (2 : ℚ) ^ magnitudeBits width signed
  · simp [hfin, hw, hb, not_lt.mpr hb, hs, hlt]
  · simp [hfin, hw, hb, not_lt.mpr hb, hs, hlt, not_lt.mp hlt]

end AffineQuant.MulShift
