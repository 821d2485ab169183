import AffineQuant.Json.Value

/-!
# The amount of a JSON number

A number without fraction and exponent that fits a 64-bit integer is exact. Any other is computed
in the 64-bit format, fast but not correctly rounded.

## The computation

* The significand is a 64-bit integer. It takes digits as long as they fit; later digits of the
  whole part count only as a power of ten, and later digits of the fraction not at all.
* The significand is rounded once to a number of the format.
* That number is multiplied or divided by the rounded power of ten, and rounded again. Where the
  format cannot hold the power to divide by, the division is made in steps.

With so many roundings the result is not always the nearest number; it is as soon as the
significand and the power of ten are both exact, for then only the last rounding is one.

## Narrowing

`toSingle` takes an amount to the 32-bit format. It is a further rounding, of the 64-bit result
and not of the number in the text, unless the amount is an integer.
-/

namespace AffineQuant

/-- What a JSON number amounts to. -/
inductive Amount where
  | integer (n : Int)
  | real (x : Double)
deriving DecidableEq

namespace Amount

/-- Significands are less than this. -/
def significandLimit : Nat := pow2 64

/-- Appends digits to a significand while it stays within its limit; the digits that are left
over follow. -/
def absorb : Nat → List Digit → Nat × List Digit
  | m, [] => (m, [])
  | m, d :: rest =>
    if 10 * m + d.val < significandLimit then absorb (10 * m + d.val) rest else (m, d :: rest)

/-- The greatest exponent for which the power of ten is a number. -/
def greatestPower : Nat := 308

/-- The power of ten, rounded. -/
def powerOfTen (k : Nat) : Double := .round false (10 ^ k)

/-- Scales by a power of ten, in several steps where the power is less than the format can divide
by at once. Two such steps take any significand to zero, which ends them, so that four steps
always suffice. An infinite result is none. -/
def scaleByPowerOfTen : Nat → Double → Int → Option Double
  | 0, x, _ => some x
  | steps + 1, x, k =>
    if k.natAbs ≤ greatestPower then
      if 0 ≤ k then
        let y := x * powerOfTen k.toNat
        if y.isFinite then some y else none
      else some (x / powerOfTen (-k).toNat)
    else if x.isZero then some x
    else if 0 ≤ k then none
    else scaleByPowerOfTen steps (x / powerOfTen greatestPower) (k + greatestPower)

/-- The real amount of a number: none if it is too large for the 64-bit format. -/
def real? (x : Numeral) : Option Double := do
  let (m, restOfWhole) := absorb 0 x.whole
  let (m, restOfFraction) := absorb m x.fraction
  let k : Int := restOfWhole.length - (x.fraction.length - restOfFraction.length : Nat)
  let y ← scaleByPowerOfTen 4 (Binary.ofInt m) (k + x.exponent.getD 0)
  some (if x.negative then -y else y)

/-- The amount of a number. Minus zero is a real amount: no integer is signed and zero. -/
def of? (x : Numeral) : Option Amount :=
  let m := Digit.value x.whole
  if x.fraction.isEmpty ∧ x.exponent.isNone ∧
      (if x.negative then 1 ≤ m ∧ m ≤ pow2 63 else m < pow2 64) then
    some (.integer (if x.negative then -m else m))
  else (real? x).map .real

/-- The 32-bit number nearest to an amount. -/
def toSingle : Amount → Single
  | .integer n => Binary.ofInt n
  | .real x => x.narrow

end Amount

end AffineQuant
