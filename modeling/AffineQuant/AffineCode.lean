import AffineQuant.Failure

/-!
# Affine integer codes

A real `x` is coded as the integer nearest to `x * scale` plus a bias, clamped to the codes
`0 … 2 ^ bits - 1`. `derive` chooses scale and bias so that the bounds of a tensor span all codes
and zero is coded without error; `quantize` and `dequantize` go from reals to codes and back.

## From bounds to a code

* The bounds are widened to hold zero, so that the code of zero, which is the bias, lies in the
  range of the codes.
* A span narrower than `leastSpan` counts as this wide, so that a tensor of zeros gets a finite
  scale.
* The scale is the greatest code divided by the span, computed in the 64-bit format, where no
  pair of finite bounds overflows, and then narrowed to the 32-bit one.
* The bias is the number of steps from the lower end to zero, rounded. The scale was rounded
  before, and rounding it up can carry the bias of bounds below zero past the greatest code, which
  is then taken instead.

Only an unusable result fails, and the failure counts as internal. For finite bounds it does not
occur.

## Clamping

The code of a real is clamped as a 64-bit number and converted afterwards, so that infinities
and products out of the range of integers are coded like the nearer end. NaN is coded like zero.
-/

namespace AffineQuant

/-- The parameters of an affine code: the code of zero, and the number of codes per unit. -/
structure AffineCode where
  bias : Int32
  scale : Single
deriving DecidableEq

namespace AffineCode

/-- The least span that is coded: narrower bounds are treated as if they were this wide. -/
def leastSpan : Single := .round false (1 / 1000)

/-- The greatest code of a width. -/
def topCode (bits : Nat) : Nat := pow2 bits - 1

/-- The widths that codes may have. -/
def checkBits (bits : Nat) : Except Failure Unit :=
  if bits = 0 ∨ maxCodeBits < bits then .error (.bitWidth bits 1 maxCodeBits) else .ok ()

/-- The span of the widened bounds, not less than `leastSpan`. -/
def codedSpan (b : Bounds) : Double :=
  let c := b.includingZero
  let span := c.max.widen - c.min.widen
  if span < leastSpan.widen then leastSpan.widen else span

/-- The number of codes per unit. -/
def scaleOf (b : Bounds) (bits : Nat) : Single :=
  (Binary.ofInt (topCode bits) / codedSpan b).narrow

/-- The code of zero before it is stored as an integer. Rounding the scale can push the code of
bounds below zero past the greatest, which is then taken instead. -/
def biasOf (b : Bounds) (bits : Nat) : Double :=
  let top : Double := Binary.ofInt (topCode bits)
  let bias := (-b.includingZero.min.widen * (scaleOf b bits).widen).roundToWhole
  if top < bias then top else bias

/-- The code that spans the bounds with the given number of bits. -/
def derive (b : Bounds) (bits : Nat) : Except Failure AffineCode := do
  checkBits bits
  let scale := scaleOf b bits
  let bias := biasOf b bits
  if scale.isFinite ∧ 0 < scale ∧ 0 ≤ bias ∧ bias.isFinite then
    pure ⟨Int32.ofInt (bias.toIntWithin (leastInt 32) (greatestInt 32)), scale⟩
  else throw (.degenerateCode b bits scale bias.narrow)

/-- The code of a real; NaN is coded like zero. -/
def quantize (c : AffineCode) (x : Single) (bits : Nat) : Except Failure Int := do
  checkBits bits
  let steps := (x.widen * c.scale.widen).roundToWhole
  if steps.isNaN then pure (max 0 (min (topCode bits) c.bias.toInt))
  else
    let code := (steps + Binary.ofInt c.bias.toInt).clamp 0 (Binary.ofInt (topCode bits))
    pure (code.toIntWithin (leastInt 64) (greatestInt 64))

/-- The real that a code stands for. -/
def dequantize (c : AffineCode) (code : Int) : Single :=
  Binary.ofInt (code - c.bias.toInt) / c.scale

/-- The distance of neighbouring codes. -/
def step (c : AffineCode) : Single := 1 / c.scale

end AffineCode

/-- The code that spans a sample set with the given number of bits. -/
def AffineCode.ofSamples (samples : List Single) (bits : Nat) : Except Failure AffineCode :=
  match Bounds.ofSamples? samples with
  | none => .error (.noSamples samples.length)
  | some b => AffineCode.derive b bits

end AffineQuant
