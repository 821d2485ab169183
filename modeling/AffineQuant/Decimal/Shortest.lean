import AffineQuant.Decimal.Numeral

/-!
# The shortest decimals that read back

A number is written with the fewest digits that identify it, and with the digits nearest to it
among those. A reader that rounds to the nearest number then finds the same number again.

## The search

Starting at the decade of the number, the grids of multiples of `10 ^ k` are tried from the
coarsest on. On each grid the number has two neighbours; the first grid is taken on which one of
them rounds back to the number, and of two such neighbours the nearer one. No list of powers and
no error bound is needed for it, since the test is the rounding itself. Seventeen digits suffice
for the formats of the library, and the search ends there.

## Styles

What remains to be chosen, and differs between the text formats, is a `NumberStyle`: the side
taken at an exact tie, where positional notation ends, and whether a whole number gets a point.
Messages are written in one style (`NumberStyle.message`) and data files in another
(`NumberStyle.data`).
-/

namespace AffineQuant

/-- Which of two equally near neighbours is taken. -/
inductive Tie where
  | up
  | even
deriving DecidableEq

/-- A positive decimal `d₀.d₁d₂… * 10 ^ exponent`. -/
structure Decimal where
  digits : List Digit
  exponent : Int
deriving DecidableEq

/-- The exponent of the decade of `q`, that is the greatest `k` with `10 ^ k ≤ q`, for positive
`q`, from the digit counts of the whole part of `q` or of its inverse. -/
def decade (q : Rat) : Int :=
  if 1 ≤ q then (Digit.ofNat q.floor.toNat).length - 1
  else -((Digit.ofNat (q⁻¹.ceil.toNat - 1)).length : Int)

namespace Decimal

/-- The decimal `c * 10 ^ k` with its superfluous zeros dropped. -/
def ofScaled (c : Nat) (k : Int) : Decimal :=
  let ds := Digit.ofNat c
  ⟨Digit.trimTrailing ds, k + ds.length - 1⟩

/-- The neighbour of `x` on the grid of multiples of `10 ^ k` that rounds back to `x`, if there
is one; of two the nearer. -/
def onGrid? {f : Format} (tie : Tie) (x : Binary f) (k : Int) : Option Decimal :=
  let step : Rat := 10 ^ k
  let q := x.toRat / step
  let c := q.floor
  let readsBack (n : Int) : Bool := Binary.round false (n * step) == x
  match readsBack c, readsBack (c + 1) with
  | false, false => none
  | true, false => some (ofScaled c.toNat k)
  | false, true => some (ofScaled (c + 1).toNat k)
  | true, true =>
    let down := q - c < 1 / 2 ∨ (q - c = 1 / 2 ∧ tie = .even ∧ c % 2 = 0)
    some (ofScaled (if down then c else c + 1).toNat k)

/-- The shortest decimal that reads back as the positive number `x`: seventeen digits suffice
for every format of the library. -/
def shortest {f : Format} (tie : Tie) (x : Binary f) : Decimal :=
  let top := decade x.toRat
  ((List.range 17).findSome? fun n : Nat ↦ onGrid? tie x (top - n)).getD ⟨[.zero], 0⟩

end Decimal

/-- How a text format spells numbers. -/
structure NumberStyle where
  /-- The side taken when two shortest decimals are equally near. -/
  tie : Tie
  /-- Whether a number whose first digit has this exponent is written without one. -/
  positional : Int → Bool
  /-- Whether whole numbers in positional notation get a fraction of one zero. -/
  pointed : Bool

namespace Numeral

/-- The numeral without an exponent. -/
def positional (negative pointed : Bool) (d : Decimal) : Numeral :=
  let places := (d.exponent + 1).toNat
  let whole := d.digits.take places ++ List.replicate (places - d.digits.length) .zero
  let fraction := List.replicate (-(d.exponent + 1)).toNat .zero ++ d.digits.drop places
  { negative
    whole := if whole.isEmpty then [.zero] else whole
    fraction := if fraction.isEmpty && pointed then [.zero] else fraction
    exponent := none }

/-- The numeral with one digit before the point and an exponent. -/
def scientific (negative : Bool) (d : Decimal) : Numeral :=
  { negative, whole := d.digits.take 1, fraction := d.digits.drop 1, exponent := some d.exponent }

/-- The numeral by which a style spells a finite number. -/
def ofBinary {f : Format} (style : NumberStyle) (x : Binary f) : Numeral :=
  let d := if x.isZero then ⟨[.zero], 0⟩ else Decimal.shortest style.tie x.abs
  if style.positional d.exponent then positional x.isNegative style.pointed d
  else scientific x.isNegative d

end Numeral

/-- Messages to people never use an exponent and write whole numbers without a point. -/
def NumberStyle.message : NumberStyle := ⟨.up, fun _ ↦ true, false⟩

/-- Data files keep a point in every positional number, and use positional notation from a
millionth up to thirteen digits. -/
def NumberStyle.data : NumberStyle := ⟨.even, fun e ↦ decide (-6 ≤ e ∧ e ≤ 12), true⟩

/-- A number as it appears in messages. -/
def Binary.message {f : Format} (x : Binary f) : String :=
  match x with
  | .nan => "NaN"
  | .inf s => if s then "-inf" else "inf"
  | .finite .. => String.ofList ((Numeral.ofBinary .message x).write false)

end AffineQuant
