import AffineQuant.Failure

/-!
# Multiply–shift pairs

Hardware without fractions multiplies by a constant `v` as `(x * multiplier) >> shift`. For a
register of `bits` bits the encoder takes the greatest shift within the budget for which
`v * 2 ^ shift` stays below `2 ^ bits`.

## Exactness

Scaling by a power of two is exact as long as the result is a number of the format, so the pair
denotes `v` without error; the remaining precision is lost only when the multiplier is rounded to
the integer constant of the generated code (`roundedMultiplier`).

## Two ranges of values

The value is split into a fraction in `[1/2, 1)` and an exponent, which is the number of bits in
front of its binary point. Above one, that exponent is what the value takes of the register, and
what is left of the register or the budget, whichever is less, is the shift. From one downward
the fraction is scaled by the width of the register at most; the shift is that scaling less the
exponent, and it is this difference that the budget limits. Zero has no exponent and gets the
pair of zeros.

The encoder checks its own result (`withinBounds`), and what does not fit fails as internal. That
is how values too large for the register are refused.
-/

namespace AffineQuant

/-! ## Fraction and exponent -/

namespace Binary

/-- The number times `2 ^ k`, computed in the 64-bit format and then narrowed. -/
def scaleByPowerOfTwo (x : Single) (k : Int) : Single :=
  (x.widen * round false (2 ^ k)).narrow

/-- Fraction and exponent of a number with a full significand: the significand is read as a
fraction in `[1/2, 1)`. -/
def splitNormal : Single → Single × Int
  | .finite s m e _ => (ofParts s m (-24), e + 24)
  | x => (x, 0)

/-- The finite number has less than a full significand. -/
def isSubnormal : Single → Bool
  | .finite _ m _ _ => decide (m < pow2 23)
  | _ => false

/-- Fraction in `[1/2, 1)` and exponent of a number; numbers with less than a full significand
are scaled by `2 ^ 25` first. Zero, infinities and NaN are their own fractions. -/
def split (x : Single) : Single × Int :=
  if x.isZero ∨ !x.isFinite then (x, 0)
  else if x.isSubnormal then
    let (m, e) := splitNormal (x * ofInt (pow2 25))
    (m, e - 25)
  else splitNormal x

end Binary

/-! ## Pairs -/

/-- A multiplier and the right shift that follows it. -/
structure MulShift where
  multiplier : Single
  shift : Int8
deriving DecidableEq

namespace MulShift

/-- The pair of a value with at most the given shift, for a register of `bits` bits. Above one the
exponent limits the shift directly; from one downward the budget is counted from the exponent of
the value. -/
def pairFor (value : Single) (bits budget : Int) : Single × Int :=
  if 1 < value.abs then
    let (m, e) := value.split
    let shift := min budget (bits - e)
    (m.scaleByPowerOfTwo (shift + e), shift)
  else if value.isZero then (0, 0)
  else
    let (m, e) := value.split
    let shift := min (budget + e) bits
    (m.scaleByPowerOfTwo shift, shift - e)

/-- The multiplier fits the register, the shift the budget, and the pair denotes the value up
to one unit in the last place of `1`. -/
def withinBounds (value : Single) (bits budget : Int) (multiplier : Single) (shift : Int) : Bool :=
  decide (multiplier.widen.abs < Binary.round false (2 ^ bits)) &&
    decide (0 ≤ shift ∧ shift ≤ budget) &&
    decide ((value.widen - multiplier.widen * Binary.round false (2 ^ (-shift))).abs ≤
      Binary.round false (2 ^ (-23 : Int)))

/-- The most precise pair for a value, given the register width, the shift budget, and whether
one bit of the register is reserved for the sign. -/
def encode (value : Single) (width budget : Nat) (signed : Bool) : Except Failure MulShift := do
  if !value.isFinite then throw (.nonFinite value)
  if width = 0 ∨ maxRegisterBits < width then throw (.bitWidth width 1 maxRegisterBits)
  if shiftLimit < budget then throw (.shiftBudget budget shiftLimit)
  if signed ∧ value < 0 then throw (.negativeSigned value)
  let bits : Int := width - (if signed then 1 else 0)
  let (multiplier, shift) := pairFor value bits budget
  if withinBounds value bits budget multiplier shift then pure ⟨multiplier, Int8.ofInt shift⟩
  else throw (.outOfRegister value bits budget multiplier shift)

/-- The value that a pair denotes. -/
def reconstruct (p : MulShift) : Double :=
  p.multiplier.widen * Binary.round false (2 ^ (-p.shift.toInt))

/-- The integer constant of the generated code. -/
def roundedMultiplier (p : MulShift) : Int :=
  p.multiplier.roundToWhole.toIntWithin (leastInt 64) (greatestInt 64)

/-- The product of an input with the integer constant. -/
def product (p : MulShift) (input : Int32) : Int := input.toInt * p.roundedMultiplier

/-- What the hardware computes: the product shifted right, rounding toward minus infinity, if
the shift is not negative and the result is a 64-bit integer. -/
def output? (p : MulShift) (input : Int32) : Option Int :=
  if p.shift.toInt < 0 then none
  else
    let y := Int.fdiv (p.product input) (pow2 p.shift.toInt.toNat)
    if leastInt 64 ≤ y ∧ y ≤ greatestInt 64 then some y else none

end MulShift

end AffineQuant
