import AffineQuant.Power
import AffineQuant.Rounding

/-!
# Binary floating-point numbers

The numbers of a binary format, given by the width of its significand and the range of its
exponents. The library uses two: bounds, samples and scales are stored in `Format.single`, and
spans and codes are computed in `Format.double`. Everything here is stated for both at once.

## Representation

A finite number is kept as its sign, significand and exponent, together with a proof that the
pair is in the one normal form that the format allows (`Format.Canonical`): a full significand,
or the least exponent. So a number outside the format cannot be written down, equality of numbers
is decidable, and equal encodings are equal terms. The two zeros are different terms, as their
encodings differ. There is one NaN: no operation of the library can tell two of them apart, and
`toBits` writes the quiet one without a sign.

## Rounding

All inexact arithmetic goes through `round`, which takes an exact rational to the nearest number
of the format, ties to the even significand. The quantum of a magnitude is found from its binade;
the only case in which the rounded significand does not fit is a carry into the next power of
two, which moves to the next exponent, and past the greatest exponent to an infinity. The sign of
a zero cannot be read off a rational, and is an argument.
-/

namespace AffineQuant

/-- A binary format: the number of significant bits, and the exponents of the unit in the last
place of its smallest and of its largest numbers. -/
structure Format where
  precision : Nat
  leastExp : Int
  greatestExp : Int
deriving DecidableEq

namespace Format

/-- The 32-bit format. -/
def single : Format := ⟨24, -149, 104⟩

/-- The 64-bit format. -/
def double : Format := ⟨53, -1074, 971⟩

/-- The pair stands for `m * 2 ^ e` in its only admissible form: a full significand, or the
least exponent. -/
def Canonical (f : Format) (m : Nat) (e : Int) : Prop :=
  m < pow2 f.precision ∧ f.leastExp ≤ e ∧ e ≤ f.greatestExp ∧
    (pow2 (f.precision - 1) ≤ m ∨ e = f.leastExp)

instance (f : Format) (m : Nat) (e : Int) : Decidable (f.Canonical m e) :=
  inferInstanceAs (Decidable (_ ∧ _))

/-- The exponent field of infinities and NaN: one more than that of the largest numbers. -/
def topField (f : Format) : Nat := (f.greatestExp - f.leastExp + 2).toNat

/-- The weight of the lowest bit of the exponent field. -/
def fieldWeight (f : Format) : Nat := pow2 (f.precision - 1)

/-- The weight of the sign bit. -/
def signWeight (f : Format) : Nat := (f.topField + 1) * f.fieldWeight

/-- The exponent of the quantum to which the magnitude `q` is rounded. -/
def quantumExp (f : Format) (q : Rat) : Int :=
  max f.leastExp (ilog2 q - (f.precision - 1))

end Format

/-- A number of the format, an infinity, or NaN. -/
inductive Binary (f : Format) where
  | nan
  | inf (negative : Bool)
  | finite (negative : Bool) (m : Nat) (e : Int) (canonical : f.Canonical m e)
deriving DecidableEq

/-- The 32-bit numbers, in which ranges, samples and scales are stored. -/
abbrev Single := Binary .single

/-- The 64-bit numbers, in which spans and codes are computed. -/
abbrev Double := Binary .double

namespace Binary

variable {f : Format}

/-- The number `m * 2 ^ e` if the pair is canonical, and otherwise an infinity: among the pairs
that `round` forms, only those past the greatest exponent are not canonical. -/
def ofParts (negative : Bool) (m : Nat) (e : Int) : Binary f :=
  if h : f.Canonical m e then .finite negative m e h else .inf negative

/-- The zero of the given sign. -/
def zero (negative : Bool) : Binary f := ofParts negative 0 f.leastExp

instance : Inhabited (Binary f) := ⟨zero false⟩

/-- A positive magnitude to the nearest number of the format; a significand rounded up to the
next power of two moves to the next exponent. -/
def roundMagnitude (negative : Bool) (q : Rat) : Binary f :=
  let e := f.quantumExp q
  let m := (roundEven (q / 2 ^ e)).toNat
  if m = pow2 f.precision then ofParts negative (pow2 (f.precision - 1)) (e + 1)
  else ofParts negative m e

/-- A rational to the nearest number of the format, ties to the even significand, past the
largest number to an infinity. The sign argument is that of an exact zero. -/
def round (zeroNegative : Bool) (q : Rat) : Binary f :=
  if q = 0 then zero zeroNegative else roundMagnitude (decide (q < 0)) (magnitude q)

/-- An integer, rounded once. -/
def ofInt (n : Int) : Binary f := round false n

instance (n : Nat) : OfNat (Binary f) n := ⟨ofInt n⟩

/-! ## Views -/

/-- The exact value of a finite number; `0` for the others. -/
def toRat : Binary f → Rat
  | .finite negative m e _ => if negative then -(m * 2 ^ e : Rat) else m * 2 ^ e
  | _ => 0

def isNaN : Binary f → Bool
  | .nan => true
  | _ => false

def isFinite : Binary f → Bool
  | .finite .. => true
  | _ => false

/-- The sign bit; NaN counts as positive. -/
def isNegative : Binary f → Bool
  | .nan => false
  | .inf negative => negative
  | .finite negative .. => negative

def isZero : Binary f → Bool
  | .finite _ m _ _ => m == 0
  | _ => false

/-! ## Bit patterns -/

/-- The number that a bit pattern encodes: sign, exponent field, trailing significand. -/
def ofBits (n : Nat) : Binary f :=
  let negative := n / f.signWeight % 2 == 1
  let field := n / f.fieldWeight % (f.topField + 1)
  let tail := n % f.fieldWeight
  if field = f.topField then if tail = 0 then .inf negative else .nan
  else if field = 0 then ofParts negative tail f.leastExp
  else ofParts negative (f.fieldWeight + tail) (f.leastExp + field - 1)

/-- The bit pattern of a number; for NaN the quiet pattern without a sign. -/
def toBits (x : Binary f) : Nat :=
  let sign := if x.isNegative then f.signWeight else 0
  match x with
  | .nan => f.topField * f.fieldWeight + f.fieldWeight / 2
  | .inf _ => sign + f.topField * f.fieldWeight
  | .finite _ m e _ =>
    if m < f.fieldWeight then sign + m
    else sign + (e - f.leastExp + 1).toNat * f.fieldWeight + (m - f.fieldWeight)

end Binary

end AffineQuant
