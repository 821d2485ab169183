import AffineQuant.Decimal.Shortest
import AffineQuant.Hex
import AffineQuant.Json.Value

/-!
# Writing JSON

Two layouts: `compact`, without any blank, and `spread`, with one item a line, indented by two
columns a level. Both are one recursion on the tree, told apart by a flag; empty collections are
closed at once in either.

## Strings

Strings escape the quote, the backslash and control characters, and nothing else. An escape has a
letter where the format provides one, and four lower-case hexadecimal digits otherwise.

## Numbers

Numbers are spelled in the style of data files, with a sign before every exponent. The format has
no spelling for non-finite numbers, which are written as `null`.
-/

namespace AffineQuant.Json

/-- The escape of a code unit by its number. -/
def escapeCode (n : Nat) : List Char :=
  ['\x5c', 'u', hexDigit (n / 4096 % 16), hexDigit (n / 256 % 16), hexDigit (n / 16 % 16),
    hexDigit (n % 16)]

/-- A unit as it stands between quotes. -/
def writeUnit : TextUnit → List Char
  | .surrogate k => escapeCode (0xD800 + k.val)
  | .char c =>
    if c = '\x22' then ['\x5c', '\x22']
    else if c = '\x5c' then ['\x5c', '\x5c']
    else if c = '\x08' then ['\x5c', 'b']
    else if c = '\x0c' then ['\x5c', 'f']
    else if c = '\n' then ['\x5c', 'n']
    else if c = '\r' then ['\x5c', 'r']
    else if c = '\t' then ['\x5c', 't']
    else if c.toNat < 0x20 then escapeCode c.toNat
    else [c]

def writeString (us : List TextUnit) : List Char := '\x22' :: us.flatMap writeUnit ++ ['\x22']

/-- The break before an item at the given level, if the layout is spread. -/
def lineBreak (spread : Bool) (level : Nat) : List Char :=
  if spread then '\n' :: List.replicate (2 * level) ' ' else []

mutual

/-- A value, the items of which stand at the given level. -/
def write (spread : Bool) (level : Nat) : Json → List Char
  | .null => ['n', 'u', 'l', 'l']
  | .bool true => ['t', 'r', 'u', 'e']
  | .bool false => ['f', 'a', 'l', 's', 'e']
  | .number x => x.write true
  | .string us => writeString us
  | .array [] => ['[', ']']
  | .array (v :: vs) =>
    '[' :: lineBreak spread level ++ write spread (level + 1) v ++ writeItems spread level vs ++
      lineBreak spread (level - 1) ++ [']']
  | .object [] => ['\x7b', '\x7d']
  | .object ((key, v) :: ms) =>
    '\x7b' :: lineBreak spread level ++ writeString key ++ ':' :: (if spread then [' '] else []) ++
      write spread (level + 1) v ++ writeMembers spread level ms ++
      lineBreak spread (level - 1) ++ ['\x7d']

/-- The items after the first. -/
def writeItems (spread : Bool) (level : Nat) : List Json → List Char
  | [] => []
  | v :: vs =>
    ',' :: lineBreak spread level ++ write spread (level + 1) v ++ writeItems spread level vs

/-- The members after the first. -/
def writeMembers (spread : Bool) (level : Nat) : List (List TextUnit × Json) → List Char
  | [] => []
  | (key, v) :: ms =>
    ',' :: lineBreak spread level ++ writeString key ++ ':' :: (if spread then [' '] else []) ++
      write spread (level + 1) v ++ writeMembers spread level ms

end

/-- The text without blanks. -/
def compact (v : Json) : String := String.ofList (v.write false 1)

/-- The text with one item a line. -/
def spread (v : Json) : String := String.ofList (v.write true 1)

/-- A number in the style of data files. -/
def ofBinary {f : Format} (x : Binary f) : Json :=
  if x.isFinite then .number (.ofBinary .data x) else .null

end AffineQuant.Json
