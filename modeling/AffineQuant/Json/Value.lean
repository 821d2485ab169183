import AffineQuant.Decimal.Numeral

/-!
# JSON values

The tree of a JSON text. Numbers keep their digits and strings their code units, because what
they mean depends on who asks: a number may be too large for the type that is wanted, and an
escape may name half of a surrogate pair, which is well formed but denotes no text. Where a
value is ignored neither matters.

## Strings

A string literal is a list of units: characters, and halves of surrogate pairs that were given by
escapes. `TextUnit.decode?` finds its text: a first half followed at once by a second one is one
character beyond the basic plane, and any other half has no text.

## Depth

`depth` counts the brackets around the innermost part of a value. Like all functions on the tree
it recurses with one function each for values, items and members.
-/

namespace AffineQuant

/-- A unit of a string literal: a character, or one half of a surrogate pair given by an escape,
counted from `U+D800`. -/
inductive TextUnit where
  | char (c : Char)
  | surrogate (k : Fin 2048)
deriving DecidableEq

namespace TextUnit

/-- The character beyond the basic plane that a pair of surrogates stands for. -/
def pair (high low : Fin 2048) : Char := Char.ofNat (0x10000 + 1024 * high.val + (low.val - 1024))

/-- The text of a literal; a surrogate that is not the first or second half of a pair has none. -/
def decode? : List TextUnit → Option (List Char)
  | [] => some []
  | .char c :: rest => (c :: ·) <$> decode? rest
  | .surrogate high :: .surrogate low :: rest =>
    if high.val < 1024 ∧ 1024 ≤ low.val then (pair high low :: ·) <$> decode? rest else none
  | .surrogate _ :: _ => none

end TextUnit

inductive Json where
  | null
  | bool (b : Bool)
  | number (x : Numeral)
  | string (units : List TextUnit)
  | array (items : List Json)
  | object (members : List (List TextUnit × Json))

namespace Json

/-- The units of a text. -/
def unitsOf (text : String) : List TextUnit := text.toList.map .char

/-- The string of a text. -/
def ofText (text : String) : Json := .string (unitsOf text)

/-- The numeral of an integer. -/
def ofInt (n : Int) : Json := .number ⟨decide (n < 0), Digit.ofNat n.natAbs, [], none⟩

/-- An object with the given texts as keys. -/
def record (members : List (String × Json)) : Json :=
  .object (members.map fun m ↦ (unitsOf m.1, m.2))

mutual

/-- The greatest number of brackets around a part of the value. -/
def depth : Json → Nat
  | .array items => depthOfItems items + 1
  | .object members => depthOfMembers members + 1
  | _ => 0

def depthOfItems : List Json → Nat
  | [] => 0
  | v :: rest => max v.depth (depthOfItems rest)

def depthOfMembers : List (List TextUnit × Json) → Nat
  | [] => 0
  | (_, v) :: rest => max v.depth (depthOfMembers rest)

end

end Json

end AffineQuant
