import AffineQuant.Decimal.Numeral
import AffineQuant.Hex
import AffineQuant.Yaml.Node

/-!
# What scalars denote

A scalar has a type only where one is asked for. Integers, numbers and truth values have to be
plain, or literal with the tag of the type; as a text every scalar will do, whatever its style.

## Integers and numbers

Integers may be hexadecimal, octal or binary, and a decimal one has no superfluous zero in front.
Numbers are decimal, with digits on at least one side of the point, or one of the spellings of
infinity and NaN. A decimal number that the 64-bit format cannot hold denotes nothing, not an
infinity.

A number is read to the nearest 64-bit number first and narrowed then (`Scalar.single?`). These
are two roundings, and a decimal close to the middle between two 32-bit numbers may end on the
wrong side.

## Words

The words for truth values and for nothing are recognized in three spellings each, and `~` besides.
-/

namespace AffineQuant.Yaml

/-- What precedes the names of the standard tags. -/
def tagStem : List Char := "tag:yaml.org,2002:".toList

/-- The text without a sign in front, if it is a plus. -/
def withoutPlus (cs : List Char) : List Char :=
  match cs with
  | '+' :: rest => rest
  | _ => cs

/-- The number of a row of digits in a base of at most sixteen. -/
def ofDigits? (base : Nat) (cs : List Char) : Option Nat :=
  if cs.isEmpty then none
  else
    cs.foldlM (fun n c ↦ do
      let d ← hexDigit? c
      if d < base then some (base * n + d) else none) 0

/-- The digits of a decimal number have a zero in front that is not needed. -/
def hasIdleZero (cs : List Char) : Bool :=
  let cs :=
    match cs with
    | '+' :: rest => rest
    | '-' :: rest => rest
    | _ => cs
  match cs with
  | '0' :: rest => !rest.isEmpty && rest.all Char.isDigit
  | _ => false

/-- The integer that a text denotes, without a minus sign and less than a limit. -/
def natOf? (limit : Nat) (cs : List Char) : Option Nat := do
  let n ←
    match withoutPlus cs with
    | '0' :: 'x' :: rest => ofDigits? 16 rest
    | '0' :: 'o' :: rest => ofDigits? 8 rest
    | '0' :: 'b' :: rest => ofDigits? 2 rest
    | rest => if hasIdleZero cs then none else ofDigits? 10 rest
  if n < limit then some n else none

/-- The exponent of a decimal number, with its mark. -/
def exponentOf? : List Char → Option (Option Int)
  | [] => some none
  | c :: rest =>
    if c = 'e' ∨ c = 'E' then
      let (negative, rest) :=
        match rest with
        | '-' :: rest => (true, rest)
        | rest => (false, withoutPlus rest)
      match Digit.scan rest with
      | ([], _) => none
      | (ds, []) =>
        some (some (if negative then -(Digit.value ds : Int) else Digit.value ds))
      | _ => none
    else none

/-- The decimal number that a text spells: digits on at least one side of the point. -/
def numeralOf? (cs : List Char) : Option Numeral := do
  let (negative, cs) :=
    match cs with
    | '-' :: rest => (true, rest)
    | rest => (false, rest)
  let (whole, cs) := Digit.scan cs
  let (fraction, cs) :=
    match cs with
    | '.' :: rest => Digit.scan rest
    | rest => ([], rest)
  if whole.isEmpty ∧ fraction.isEmpty then none
  else
    let exponent ← exponentOf? cs
    some ⟨negative, whole, fraction, exponent⟩

/-- The number that a text denotes: an infinity, NaN, or a decimal number that the 64-bit format
can hold. One sign is allowed. -/
def doubleOf? (cs : List Char) : Option Double :=
  let named (names : List String) : Bool := names.contains (String.ofList cs)
  if named [".inf", ".Inf", ".INF", "+.inf", "+.Inf", "+.INF"] then some (.inf false)
  else if named ["-.inf", "-.Inf", "-.INF"] then some (.inf true)
  else if named [".nan", ".NaN", ".NAN"] then some .nan
  else
    match cs with
    | '+' :: '-' :: _ => none
    | _ => do
      let x := (← numeralOf? (withoutPlus cs)).toDouble
      if x.isFinite then some x else none

/-- The truth value that a text denotes. -/
def boolOf? (cs : List Char) : Option Bool :=
  let s := String.ofList cs
  if ["true", "True", "TRUE"].contains s then some true
  else if ["false", "False", "FALSE"].contains s then some false
  else none

/-- The text denotes nothing. -/
def isNullText (cs : List Char) : Bool :=
  ["null", "Null", "NULL", "~"].contains (String.ofList cs)

namespace Scalar

/-- The text of a scalar that may have the type with the given tag. -/
def textAs? (type : String) (s : Scalar) : Option (List Char) :=
  match s.style with
  | .plain => some s.text
  | .literal => if s.tag = some (tagStem ++ type.toList) then some s.text else none
  | _ => none

/-- The number of a word of the given width. -/
def word? (width : Nat) (s : Scalar) : Option Nat := do
  let cs ← s.textAs? "int"
  let n ← natOf? (pow2 64) cs
  if n < pow2 width then some n else none

def single? (s : Scalar) : Option Single := do
  let cs ← s.textAs? "float"
  let x ← doubleOf? cs
  some x.narrow

def bool? (s : Scalar) : Option Bool := do
  let cs ← s.textAs? "bool"
  boolOf? cs

end Scalar

end AffineQuant.Yaml
