import AffineQuant.Json.Amount

/-!
# Reading typed fields of JSON values

A value is read as the type that is asked for, or not at all: integers are numbers without
fraction and exponent that lie within the type of the field, strings have to denote a text, and
`null` stands for nothing.

## Records

A record is an object, in which unknown keys are ignored and a known key may occur once, or an
array of its fields in order, of which trailing ones may be missing. `fields?` finds the values
of the named fields in either form, each of them possibly missing. Whether a missing field has a
default is up to the record: `required` and `orElse` read the two kinds.

## Values that are kept

A record that is read before its keys are known keeps all its values for a while, and a kept
value has to mean something even if it turns out to be ignored: numbers need an amount and
strings a text (`isDefinite`).
-/

namespace AffineQuant.Json

/-! ## Single values -/

/-- The text of a string literal, if it has one. -/
def text? : Json → Option String
  | .string us => (TextUnit.decode? us).map String.ofList
  | _ => none

def bool? : Json → Option Bool
  | .bool b => some b
  | _ => none

/-- The integer of a number within the given bounds. -/
def int? (least greatest : Int) : Json → Option Int
  | .number x =>
    match Amount.of? x with
    | some (.integer n) => if least ≤ n ∧ n ≤ greatest then some n else none
    | _ => none
  | _ => none

/-- The number of a word of the given width. -/
def word? (width : Nat) (v : Json) : Option Nat := (v.int? 0 (pow2 width - 1 : Nat)).map Int.toNat

/-- The nearest 32-bit number. -/
def single? : Json → Option Single
  | .number x => (Amount.of? x).map Amount.toSingle
  | _ => none

/-! ## Records -/

/-- The members of an object by the texts of their keys; none if a key has no text. -/
def named? (members : List (List TextUnit × Json)) : Option (List (String × Json)) :=
  members.mapM fun m ↦ (TextUnit.decode? m.1).map fun cs ↦ (String.ofList cs, m.2)

/-- The value of a key that occurs at most once. -/
def member? (key : String) (members : List (String × Json)) : Option (Option Json) :=
  match members.filter fun m ↦ m.1 == key with
  | [] => some none
  | [m] => some (some m.2)
  | _ => none

/-- The values of the named fields of a record, in their order. -/
def fields? (names : List String) : Json → Option (List (Option Json))
  | .object members => do
    let members ← named? members
    names.mapM fun name ↦ member? name members
  | .array items =>
    if items.length ≤ names.length then
      some (items.map some ++ List.replicate (names.length - items.length) none)
    else none
  | _ => none

/-- The value of a field that has to be there. -/
def required {α : Type} (read : Json → Option α) (v : Option Json) : Option α := v.bind read

/-- The value of a field, or its default. -/
def orElse {α : Type} (default : α) (read : Json → Option α) : Option Json → Option α
  | none => some default
  | some v => read v

/-! ## Values that are kept -/

mutual

/-- Every number has an amount and every string a text, keys included. -/
def isDefinite : Json → Bool
  | .number x => (Amount.of? x).isSome
  | .string us => (TextUnit.decode? us).isSome
  | .array items => areItemsDefinite items
  | .object members => areMembersDefinite members
  | _ => true

def areItemsDefinite : List Json → Bool
  | [] => true
  | v :: rest => v.isDefinite && areItemsDefinite rest

def areMembersDefinite : List (List TextUnit × Json) → Bool
  | [] => true
  | (key, v) :: rest => (TextUnit.decode? key).isSome && v.isDefinite && areMembersDefinite rest

end

end AffineQuant.Json
