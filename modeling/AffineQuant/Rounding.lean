/-!
# Rounding exact rationals

Every inexact step of the library is an exact rational followed by one of the roundings of this
file, so that a statement about machine arithmetic is a statement about `Rat`.

## Three roundings

The two to the nearest integer differ in what becomes of a half: `roundEven` takes the even
neighbour and serves the significands of the binary formats, `roundAway` goes away from zero and
serves the integer codes. `truncate` drops the fraction and serves the conversion to machine
integers. The last two round a negative number like its magnitude.

## Binades

`ilog2` finds the binade of a positive rational without logarithms: the bit lengths of numerator
and denominator determine it up to one, and a single comparison with a power of two decides.
-/

namespace AffineQuant

/-- The nearest integer, a half going to the even neighbour. -/
def roundEven (q : Rat) : Int :=
  let n := q.floor
  let r := q - n
  if r < 1 / 2 then n else if 1 / 2 < r then n + 1 else if n % 2 = 0 then n else n + 1

/-- The nearest integer, a half going away from zero. -/
def roundAway (q : Rat) : Int :=
  if q < 0 then -(-q + 1 / 2).floor else (q + 1 / 2).floor

/-- The nearest integer toward zero. -/
def truncate (q : Rat) : Int :=
  if q < 0 then -(-q).floor else q.floor

/-- The magnitude of a rational. -/
def magnitude (q : Rat) : Rat := if q < 0 then -q else q

/-- The exponent of the binade of `q`, that is the greatest `k` with `2 ^ k ≤ q`, for positive
`q`. The bit lengths of numerator and denominator leave two candidates. -/
def ilog2 (q : Rat) : Int :=
  let k : Int := (Nat.log2 q.num.natAbs : Int) - (Nat.log2 q.den : Int)
  if (2 : Rat) ^ k ≤ q then k else k - 1

end AffineQuant
