import AffineQuant.Binary.Arithmetic

/-!
# Decimal numerals

A numeral is kept as its digits, the way the text formats spell it: sign, whole part, fraction
and exponent. The readers and writers of all text formats share this one type, so that what is
written and what is read back are compared digit by digit, before anything is rounded.

## Value and spelling

A numeral has an exact rational value (`toRat`): its significand, which is the number of whole
part and fraction together, times a power of ten. `Numeral.write` is its spelling. Different
numerals may have one value; a format decides which of them it writes.

## Reading numbers

`toDouble` rounds the exact value once. Exponents are unbounded in a text, and computing the
power of ten for all of them would not end in reasonable time; magnitudes that the count of
digits alone puts out of the range of the format are settled without it.
-/

namespace AffineQuant

/-- A decimal digit. -/
abbrev Digit := Fin 10

namespace Digit

def zero : Digit := ⟨0, by decide⟩

def toChar (d : Digit) : Char := Char.ofNat (48 + d.val)

def ofChar? (c : Char) : Option Digit :=
  if h : 48 ≤ c.toNat ∧ c.toNat < 58 then some ⟨c.toNat - 48, by omega⟩ else none

/-- The number that a row of digits denotes. -/
def value (ds : List Digit) : Nat := ds.foldl (fun n d ↦ 10 * n + d.val) 0

/-- The digits of a number, without leading zeros; one digit for zero. -/
def ofNat (n : Nat) : List Digit :=
  if h : n < 10 then [⟨n, h⟩] else ofNat (n / 10) ++ [⟨n % 10, Nat.mod_lt _ (by decide)⟩]
termination_by n

theorem ofChar?_toChar (d : Digit) : ofChar? d.toChar = some d := by
  revert d
  decide

theorem value_append_singleton (ds : List Digit) (d : Digit) :
    value (ds ++ [d]) = 10 * value ds + d.val := by
  rw [value, List.foldl_append]
  rfl

/-- The digits of a number denote it. -/
theorem value_ofNat (n : Nat) : value (ofNat n) = n := by
  rw [ofNat]
  split
  · exact Nat.zero_add n
  · next h =>
    rw [value_append_singleton, value_ofNat (n / 10)]
    exact Nat.div_add_mod n 10
termination_by n
decreasing_by omega

/-- The leading digits of a text, and what follows them. -/
def scan : List Char → List Digit × List Char
  | [] => ([], [])
  | c :: rest =>
    match ofChar? c with
    | some d => let (ds, tail) := scan rest; (d :: ds, tail)
    | none => ([], c :: rest)

/-- The row without its leading zeros. -/
def trimLeading (ds : List Digit) : List Digit := ds.dropWhile (· == zero)

/-- The row without its trailing zeros. -/
def trimTrailing (ds : List Digit) : List Digit := (ds.reverse.dropWhile (· == zero)).reverse

end Digit

/-- The spelling of an integer in decimal. -/
def writeInt (n : Int) : List Char :=
  (if n < 0 then ['-'] else []) ++ (Digit.ofNat n.natAbs).map Digit.toChar

/-- A decimal numeral. An empty fraction is written without a point. -/
structure Numeral where
  negative : Bool
  whole : List Digit
  fraction : List Digit
  exponent : Option Int
deriving DecidableEq, Repr

namespace Numeral

/-- The digits of whole part and fraction read as one number. -/
def significand (x : Numeral) : Nat := Digit.value (x.whole ++ x.fraction)

/-- The power of ten by which the significand is scaled. -/
def scale (x : Numeral) : Int := x.exponent.getD 0 - x.fraction.length

/-- The spelling; `plus` writes the sign of an exponent that is not negative. -/
def write (plus : Bool) (x : Numeral) : List Char :=
  (if x.negative then ['-'] else []) ++ x.whole.map Digit.toChar ++
    (if x.fraction.isEmpty then [] else '.' :: x.fraction.map Digit.toChar) ++
    match x.exponent with
    | none => []
    | some e => 'e' :: (if plus && 0 ≤ e then ['+'] else []) ++ writeInt e

/-- The exact value. -/
def toRat (x : Numeral) : Rat :=
  let q : Rat := x.significand * 10 ^ x.scale
  if x.negative then -q else q

/-- The nearest 64-bit number. Magnitudes that the count of digits alone puts past `10 ^ 310`
or below `10 ^ (-330)` round to infinity or zero whatever their digits are. -/
def toDouble (x : Numeral) : Double :=
  let ds := Digit.trimLeading (x.whole ++ x.fraction)
  if ds.isEmpty then .zero x.negative
  else if 310 < x.scale + ds.length - 1 then .inf x.negative
  else if x.scale + ds.length < -330 then .zero x.negative
  else .round x.negative x.toRat

end Numeral

end AffineQuant
