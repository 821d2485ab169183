import AffineQuant.Hex
import AffineQuant.Json.Value

/-!
# Reading JSON

The grammar of RFC 8259, as readers that take a value off the head of a text and leave the rest.
A text is a value with nothing but blanks around it (`parse?`).

## Steps

The readers of values, items and members call each other, and how much of the text each of them
takes is not plain from the calls. So they are bounded by a number of steps, which goes down with
every call. The length of the text covers it, since each step takes at least one character: no
text is refused for want of steps.

## What is not decided here

Numbers are read as numerals and strings as units. Whether a number is too large, or an escape
denotes a character, is asked by those who use the value.
-/

namespace AffineQuant.Json

/-- The blanks that may stand between tokens. -/
def isBlank (c : Char) : Bool := c == ' ' || c == '\n' || c == '\t' || c == '\r'

def skipBlank (s : List Char) : List Char := s.dropWhile isBlank

/-! ## Numbers -/

/-- A point with at least one digit, or nothing. -/
def readFraction : List Char → Option (List Digit × List Char)
  | '.' :: s =>
    match Digit.scan s with
    | ([], _) => none
    | (ds, rest) => some (ds, rest)
  | s => some ([], s)

/-- The sign and the digits of an exponent. -/
def readExponentDigits (s : List Char) : Option (Int × List Char) :=
  let (negative, s) :=
    match s with
    | '+' :: rest => (false, rest)
    | '-' :: rest => (true, rest)
    | rest => (false, rest)
  match Digit.scan s with
  | ([], _) => none
  | (ds, rest) => some (if negative then -(Digit.value ds : Int) else Digit.value ds, rest)

/-- An exponent, or nothing. -/
def readExponent : List Char → Option (Option Int × List Char)
  | 'e' :: s => (readExponentDigits s).map fun (e, rest) ↦ (some e, rest)
  | 'E' :: s => (readExponentDigits s).map fun (e, rest) ↦ (some e, rest)
  | s => some (none, s)

/-- A number; its whole part has no superfluous zero. -/
def readNumber (s : List Char) : Option (Numeral × List Char) := do
  let (negative, s) :=
    match s with
    | '-' :: rest => (true, rest)
    | rest => (false, rest)
  let (whole, s) := Digit.scan s
  if whole.isEmpty ∨ (whole.head? = some .zero ∧ whole.length ≠ 1) then none
  else
    let (fraction, s) ← readFraction s
    let (exponent, s) ← readExponent s
    some (⟨negative, whole, fraction, exponent⟩, s)

/-! ## Strings -/

/-- The unit with the given number. -/
def unitOfCode (n : Nat) : TextUnit :=
  if h : 0xD800 ≤ n ∧ n < 0xE000 then .surrogate ⟨n - 0xD800, by omega⟩ else .char (Char.ofNat n)

/-- The unit that an escape denotes, given the text after the backslash. -/
def readEscape : List Char → Option (TextUnit × List Char)
  | '\x22' :: s => some (.char '\x22', s)
  | '\x5c' :: s => some (.char '\x5c', s)
  | '/' :: s => some (.char '/', s)
  | 'b' :: s => some (.char '\x08', s)
  | 'f' :: s => some (.char '\x0c', s)
  | 'n' :: s => some (.char '\n', s)
  | 'r' :: s => some (.char '\r', s)
  | 't' :: s => some (.char '\t', s)
  | 'u' :: a :: b :: c :: d :: s => do
    let n := 4096 * (← hexDigit? a) + 256 * (← hexDigit? b) + 16 * (← hexDigit? c) + (← hexDigit? d)
    some (unitOfCode n, s)
  | _ => none

/-- The units of a string up to its closing quote, in at most the given number of steps. -/
def readUnits : Nat → List Char → Option (List TextUnit × List Char)
  | 0, _ => none
  | _ + 1, [] => none
  | n + 1, c :: s =>
    if c = '\x22' then some ([], s)
    else if c = '\x5c' then do
      let (u, s) ← readEscape s
      let (us, s) ← readUnits n s
      some (u :: us, s)
    else if c.toNat < 0x20 then none
    else do
      let (us, s) ← readUnits n s
      some (.char c :: us, s)

/-! ## Values -/

mutual

/-- A value, in at most the given number of steps. -/
def readValue : Nat → List Char → Option (Json × List Char)
  | 0, _ => none
  | n + 1, s =>
    match skipBlank s with
    | '\x7b' :: s =>
      match skipBlank s with
      | '\x7d' :: s => some (.object [], s)
      | s => (readMembers n s).map fun (ms, s) ↦ (.object ms, s)
    | '[' :: s =>
      match skipBlank s with
      | ']' :: s => some (.array [], s)
      | s => (readItems n s).map fun (vs, s) ↦ (.array vs, s)
    | '\x22' :: s => (readUnits n s).map fun (us, s) ↦ (.string us, s)
    | 't' :: 'r' :: 'u' :: 'e' :: s => some (.bool true, s)
    | 'f' :: 'a' :: 'l' :: 's' :: 'e' :: s => some (.bool false, s)
    | 'n' :: 'u' :: 'l' :: 'l' :: s => some (.null, s)
    | s => (readNumber s).map fun (x, s) ↦ (.number x, s)

/-- Items up to the closing bracket. -/
def readItems : Nat → List Char → Option (List Json × List Char)
  | 0, _ => none
  | n + 1, s => do
    let (v, s) ← readValue n s
    match skipBlank s with
    | ',' :: s => (readItems n s).map fun (vs, s) ↦ (v :: vs, s)
    | ']' :: s => some ([v], s)
    | _ => none

/-- Members up to the closing brace. -/
def readMembers : Nat → List Char → Option (List (List TextUnit × Json) × List Char)
  | 0, _ => none
  | n + 1, s =>
    match skipBlank s with
    | '\x22' :: s => do
      let (key, s) ← readUnits n s
      match skipBlank s with
      | ':' :: s => do
        let (v, s) ← readValue n s
        match skipBlank s with
        | ',' :: s => (readMembers n s).map fun (ms, s) ↦ ((key, v) :: ms, s)
        | '\x7d' :: s => some ([(key, v)], s)
        | _ => none
      | _ => none
    | _ => none

end

/-- The value of a text, which holds nothing else. -/
def parse? (text : String) : Option Json := do
  let s := text.toList
  let (v, rest) ← readValue (s.length + 1) s
  if (skipBlank rest).isEmpty then some v else none

end AffineQuant.Json
