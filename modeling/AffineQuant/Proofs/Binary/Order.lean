import AffineQuant.Proofs.Binary.Exact
import Mathlib.Order.WithBot

/-!
# The order of binary numbers

`least` and `greatest` are programs with a case for NaN and a strict comparison, and as they stand
they have no algebra: with NaN among the operands the comparison is no order. This file gives them
one. Every number gets a place on a line, and the two operations are the minimum and the maximum
of places (`lowPlace_least`, `highPlace_greatest`). Commutativity, associativity and idempotence
then need no proofs of their own: they are those of a linear order.

## Places

Apart from NaN the numbers of a format are compared by their places on the extended line, and only
the two zeros share a place. NaN gives way to everything, and that is what a greatest element does
in a minimum and a least one in a maximum. No single line serves for both, so there are two:
`lowPlace` has NaN on top and `highPlace` has it at the bottom.

## What places forget

Places forget the sign of a zero and nothing else (`position_eq_iff`). This is the right thing to
compare results by, because the sign of a zero does depend on the order of the operands: of two
equal ones the first is taken. `unsigned` is the same comparison as a function, and the results of
the development that hold only up to that sign are stated with it.
-/

namespace AffineQuant.Binary

/-- The extended line. -/
abbrev Line := WithBot (WithTop ℚ)

variable {f : Format} {x y : Binary f} {q : ℚ}

/-- The number, a zero counted as positive. -/
def unsigned (x : Binary f) : Binary f := if x.isZero then zero false else x

/-- The place of a number on the extended line; NaN has none. -/
def position : Binary f → Option Line
  | .nan => none
  | .inf true => some ⊥
  | .inf false => some (⊤ : WithTop ℚ)
  | .finite s m e h => some (((finite s m e h).toRat : WithTop ℚ) : Line)

/-! ## Places -/

theorem position_eq_none_iff : x.position = none ↔ x.isNaN = true := by
  rcases x with _ | ⟨_ | _⟩ | ⟨s, m, e, h⟩ <;> simp [position, isNaN]

theorem Denotes.position_eq (h : x.Denotes q) : x.position = some ((q : WithTop ℚ) : Line) := by
  obtain ⟨s, m, e, hc, rfl, rfl⟩ := h.exists_eq_finite
  rfl

private theorem coe_lt_top (q : ℚ) : ((q : WithTop ℚ) : Line) < ⊤ :=
  WithBot.coe_lt_coe.mpr (WithTop.coe_lt_top q)

theorem lt_iff_position_lt : x < y ↔ ∃ p ∈ x.position, ∃ q ∈ y.position, p < q := by
  change lt x y = true ↔ _
  rcases x with _ | ⟨_ | _⟩ | ⟨s, m, e, h⟩ <;> rcases y with _ | ⟨_ | _⟩ | ⟨t, n, d, k⟩ <;>
    simp [lt, position, coe_lt_top]

theorem position_unsigned [f.Proper] (x : Binary f) : x.unsigned.position = x.position := by
  rw [unsigned]
  split
  · next h =>
    cases x with
    | nan => exact absurd h Bool.false_ne_true
    | inf s => exact absurd h Bool.false_ne_true
    | finite s m e hc =>
      obtain rfl : m = 0 := by simpa [isZero] using h
      rw [(denotes_zero false).position_eq, position, toRat_of_significand_eq_zero]
  · rfl

/-- Two numbers share a place only if they are the same or zeros. -/
theorem position_eq_iff [f.Proper] : x.position = y.position ↔ x.unsigned = y.unsigned := by
  constructor
  · intro h
    rcases x with _ | ⟨_ | _⟩ | ⟨s, m, e, hx⟩ <;> rcases y with _ | ⟨_ | _⟩ | ⟨t, n, d, hy⟩ <;>
      simp [position] at h <;> try rfl
    -- Only two finite numbers of one value are left, and rounding finds both from it.
    have hround := congrArg (round (f := f) false) h
    rw [round_toRat, round_toRat] at hround
    simpa [unsigned, isZero] using hround
  · intro h
    rw [← position_unsigned x, h, position_unsigned]

/-! ## Places of operands -/

/-- The place of an operand of `least`: NaN stands after all others. -/
def lowPlace (x : Binary f) : WithTop Line := x.position.elim ⊤ fun p ↦ p

/-- The place of an operand of `greatest`: NaN stands before all others. -/
def highPlace (x : Binary f) : WithBot Line := x.position.elim ⊥ fun p ↦ p

theorem lowPlace_eq_iff [f.Proper] : x.lowPlace = y.lowPlace ↔ x.unsigned = y.unsigned := by
  rw [← position_eq_iff, lowPlace, lowPlace]
  cases x.position <;> cases y.position <;> simp

theorem highPlace_eq_iff [f.Proper] : x.highPlace = y.highPlace ↔ x.unsigned = y.unsigned := by
  rw [← position_eq_iff, highPlace, highPlace]
  cases x.position <;> cases y.position <;> simp

theorem exists_position (h : ¬x.isNaN = true) : ∃ p, x.position = some p :=
  Option.ne_none_iff_exists'.mp fun hnone ↦ h (position_eq_none_iff.mp hnone)

theorem lt_iff_lowPlace_lt (h : ¬y.isNaN = true) : x < y ↔ x.lowPlace < y.lowPlace := by
  obtain ⟨q, hq⟩ := exists_position h
  rw [lt_iff_position_lt, lowPlace, lowPlace, hq]
  cases x.position <;> simp

theorem lt_iff_highPlace_lt (h : ¬x.isNaN = true) : x < y ↔ x.highPlace < y.highPlace := by
  obtain ⟨p, hp⟩ := exists_position h
  rw [lt_iff_position_lt, highPlace, highPlace, hp]
  cases y.position <;> simp

theorem le_iff_not_lt (hx : x.isNaN = false) (hy : y.isNaN = false) : x ≤ y ↔ ¬y < x := by
  change (!x.isNaN && !y.isNaN && !lt y x) = true ↔ ¬lt y x = true
  simp [hx, hy]

theorem le_iff_lowPlace_le (hx : x.isNaN = false) (hy : y.isNaN = false) :
    x ≤ y ↔ x.lowPlace ≤ y.lowPlace := by
  rw [le_iff_not_lt hx hy, lt_iff_lowPlace_lt (Bool.not_eq_true _ ▸ hx), not_lt]

theorem le_iff_highPlace_le (hx : x.isNaN = false) (hy : y.isNaN = false) :
    x ≤ y ↔ x.highPlace ≤ y.highPlace := by
  rw [le_iff_not_lt hx hy, lt_iff_highPlace_lt (Bool.not_eq_true _ ▸ hy), not_lt]

theorem lowPlace_eq_top_iff : x.lowPlace = ⊤ ↔ x.isNaN = true := by
  rw [← position_eq_none_iff, lowPlace]
  cases x.position <;> simp

theorem highPlace_eq_bot_iff : x.highPlace = ⊥ ↔ x.isNaN = true := by
  rw [← position_eq_none_iff, highPlace]
  cases x.position <;> simp

theorem isNaN_of_le (h : x ≤ y) : x.isNaN = false ∧ y.isNaN = false := by
  change (!x.isNaN && !y.isNaN && !lt y x) = true at h
  simp only [Bool.and_eq_true, Bool.not_eq_true'] at h
  exact h.1

theorem le_or_isNaN_iff_lowPlace : (y.isNaN = false → x ≤ y) ↔ x.lowPlace ≤ y.lowPlace := by
  constructor
  · intro h
    cases hy : y.isNaN with
    | true => exact le_top.trans_eq (lowPlace_eq_top_iff.mpr hy).symm
    | false => exact (le_iff_lowPlace_le (isNaN_of_le (h hy)).1 hy).mp (h hy)
  · intro h hy
    have hx : x.isNaN = false := by
      rw [← Bool.not_eq_true, ← lowPlace_eq_top_iff]
      intro htop
      rw [htop, top_le_iff, lowPlace_eq_top_iff, hy] at h
      exact Bool.false_ne_true h
    exact (le_iff_lowPlace_le hx hy).mpr h

theorem ge_or_isNaN_iff_highPlace : (y.isNaN = false → y ≤ x) ↔ y.highPlace ≤ x.highPlace := by
  constructor
  · intro h
    cases hy : y.isNaN with
    | true => exact (highPlace_eq_bot_iff.mpr hy).trans_le bot_le
    | false => exact (le_iff_highPlace_le hy (isNaN_of_le (h hy)).2).mp (h hy)
  · intro h hy
    have hx : x.isNaN = false := by
      rw [← Bool.not_eq_true, ← highPlace_eq_bot_iff]
      intro hbot
      rw [hbot, le_bot_iff, highPlace_eq_bot_iff, hy] at h
      exact Bool.false_ne_true h
    exact (le_iff_highPlace_le hy hx).mpr h

/-! ## Least and greatest -/

/-- `least` takes the minimum of the places, whatever the operands are. -/
theorem lowPlace_least (x y : Binary f) : (x.least y).lowPlace = x.lowPlace ⊓ y.lowPlace := by
  rw [least]
  split
  · next hx =>
    have htop : x.lowPlace = ⊤ := by rw [lowPlace, position_eq_none_iff.mpr hx, Option.elim_none]
    rw [htop, top_inf_eq]
  · next hx =>
    have hlt : y < x ↔ y.lowPlace < x.lowPlace := lt_iff_lowPlace_lt hx
    split
    · next h => exact (inf_eq_right.mpr (hlt.mp h).le).symm
    · next h => exact (inf_eq_left.mpr (not_lt.mp (mt hlt.mpr h))).symm

-- Of two zeros the first is taken: the place does not depend on the order, but the sign does.
example : (zero false : Single).least (zero true) = zero false := by decide +kernel
example : (zero true : Single).least (zero false) = zero true := by decide +kernel

/-- `greatest` takes the maximum of the places, whatever the operands are. -/
theorem highPlace_greatest (x y : Binary f) :
    (x.greatest y).highPlace = x.highPlace ⊔ y.highPlace := by
  rw [greatest]
  split
  · next hx =>
    have hbot : x.highPlace = ⊥ := by
      rw [highPlace, position_eq_none_iff.mpr hx, Option.elim_none]
    rw [hbot, bot_sup_eq]
  · next hx =>
    have hlt : x < y ↔ x.highPlace < y.highPlace := lt_iff_highPlace_lt hx
    split
    · next h => exact (sup_eq_right.mpr (hlt.mp h).le).symm
    · next h => exact (sup_eq_left.mpr (not_lt.mp (mt hlt.mpr h))).symm

theorem least_eq_or (x y : Binary f) : x.least y = x ∨ x.least y = y := by
  rw [least]
  split_ifs
  · exact Or.inr rfl
  · exact Or.inr rfl
  · exact Or.inl rfl

theorem greatest_eq_or (x y : Binary f) : x.greatest y = x ∨ x.greatest y = y := by
  rw [greatest]
  split_ifs
  · exact Or.inr rfl
  · exact Or.inr rfl
  · exact Or.inl rfl

/-! ## Finite numbers -/

theorem isFinite_of_le_of_le {z : Binary f} (hx : x.isFinite = true) (hz : z.isFinite = true)
    (hxy : x ≤ y) (hyz : y ≤ z) : y.isFinite = true := by
  obtain ⟨s, m, e, hc, rfl⟩ := exists_eq_finite hx
  obtain ⟨t, n, d, hd, rfl⟩ := exists_eq_finite hz
  cases y with
  | nan => exact absurd hyz Bool.false_ne_true
  | inf negative =>
    cases negative with
    | false => exact absurd hyz Bool.false_ne_true
    | true => exact absurd hxy Bool.false_ne_true
  | finite => rfl

theorem eq_inf_of_inf_le (h : inf false ≤ x) : x = inf false := by
  cases x with
  | nan => exact absurd h Bool.false_ne_true
  | inf negative =>
    cases negative with
    | false => rfl
    | true => exact absurd h Bool.false_ne_true
  | finite => exact absurd h Bool.false_ne_true

theorem eq_inf_of_le_inf (h : x ≤ inf true) : x = inf true := by
  cases x with
  | nan => exact absurd h Bool.false_ne_true
  | inf negative =>
    cases negative with
    | false => exact absurd h Bool.false_ne_true
    | true => rfl
  | finite => exact absurd h Bool.false_ne_true

theorem isFinite_of_ne_inf (hx : x.isNaN = false) (h : ∀ negative, x ≠ .inf negative) :
    x.isFinite = true := by
  cases x with
  | nan => exact hx.symm
  | inf negative => exact absurd rfl (h negative)
  | finite => rfl

/-- Comparable numbers are finite, unless the lesser or the greater one is at the end on its
side. -/
theorem isFinite_of_le (h : x ≤ y) :
    x = inf true ∨ y = inf false ∨ x.isFinite = true ∧ y.isFinite = true := by
  obtain ⟨hx, hy⟩ := isNaN_of_le h
  by_cases hlow : x = inf true
  · exact Or.inl hlow
  by_cases hhigh : y = inf false
  · exact Or.inr (Or.inl hhigh)
  -- Of the infinities only those are left that would have to be below or above a finite number.
  refine Or.inr (Or.inr ⟨isFinite_of_ne_inf hx ?_, isFinite_of_ne_inf hy ?_⟩)
  · rintro (_ | _) rfl
    · exact hhigh (eq_inf_of_inf_le h)
    · exact hlow rfl
  · rintro (_ | _) rfl
    · exact hhigh rfl
    · exact hlow (eq_inf_of_le_inf h)

end AffineQuant.Binary
