import AffineQuant.Decimal.Shortest
import AffineQuant.Yaml.Scalar

/-!
# Writing YAML

Records are written as block mappings, one field a line, indented by two columns a level.

## The choice of a style

A text is written in the plainest style in which it reads back (`styleOf`):

* plain, if nothing in it could be taken for an indicator or for a value of another type;
* a literal block, if it has line feeds;
* in single quotes, as long as no blank meets a line break and every character is printable;
* in double quotes with escapes otherwise.

The tests are cautious. They refuse a plain style also for words that only other readers take for
truth values, and for everything that begins with a digit.

## Line breaks

A literal block says in its header how its lines are indented, if the first one does not show it,
and what becomes of the breaks at its end (`literalHeader`). A line feed between quotes would be
folded when it is read, so a text that has one is never written in single quotes. The two Unicode
separators are not folded; in single quotes they stand as they are, and the line after one is
indented.
-/

namespace AffineQuant.Yaml

/-- The characters that a text shows as they are. -/
def isPrintable (c : Char) : Bool :=
  let n := c.toNat
  n == 0x0A || (0x20 ≤ n && n ≤ 0x7E) || (0xA0 ≤ n && n ≤ 0xD7FF) ||
    (0xE000 ≤ n && n ≤ 0xFFFD && n != 0xFEFF)

/-- The characters that end a line in any spelling. -/
def endsLine (c : Char) : Bool := isBreak c || c == '\r' || c == '\u0085'

/-- Two neighbours of which the first passes one test and the second the other. -/
def hasPair (p q : Char → Bool) : List Char → Bool
  | a :: b :: rest => (p a && q b) || hasPair p q (b :: rest)
  | _ => false

/-! ## The choice of a style -/

/-- A blank or the end of a line, where the text itself counts as surrounded by such. -/
def isGap (c : Char) : Bool := isBlank c || endsLine c || c == '\x00'

/-- Something in the text would be taken for an indicator. -/
def hasIndicator (cs : List Char) : Bool :=
  ("---".toList).isPrefixOf cs || ("...".toList).isPrefixOf cs ||
    (cs.head?.any fun c ↦ ['#', ',', '[', ']', '\x7b', '\x7d', '&', '*', '!', '|', '>', '\x27',
      '\x22', '%', '@', '\x60'].contains c) ||
    (cs.head?.any fun c ↦ c == '-' || c == '?') && cs.tail.head?.all isGap ||
    hasPair (· == ':') isGap (cs ++ [' ']) || hasPair isGap (· == '#') cs

/-- The text would be taken for a value of another type, or for a word that other readers take for
one. -/
def isAmbiguous (cs : List Char) : Bool :=
  let lower := cs.map Char.toLower
  cs.isEmpty || isNullText cs || isNullText lower || (boolOf? lower).isSome ||
    (natOf? (pow2 128) cs).isSome || (doubleOf? cs).isSome || cs.head?.any Char.isDigit ||
    isNegativeInt cs ||
    ["y", "yes", "n", "no", "on", "off"].contains (String.ofList lower)
where
  /-- A minus sign before the digits of an integer. -/
  isNegativeInt : List Char → Bool
    | '-' :: rest => (natOf? (pow2 128) rest).isSome
    | _ => false

/-- Every character is printable, and no space stands before a line break. -/
def isClean (cs : List Char) : Bool := cs.all isPrintable && !hasPair (· == ' ') endsLine cs

/-- The text may be written without quotes. -/
def allowsPlain (cs : List Char) : Bool :=
  isClean cs && !cs.any endsLine && cs.head? != some ' ' && cs.getLast? != some ' ' &&
    !hasIndicator cs

/-- The text may be written in single quotes. -/
def allowsSingle (cs : List Char) : Bool := isClean cs && !hasPair endsLine (· == ' ') cs

/-- The text may be written as a block. -/
def allowsLiteral (cs : List Char) : Bool := isClean cs && cs.getLast? != some ' '

/-- The style in which a text is written. -/
def styleOf (cs : List Char) : ScalarStyle :=
  if cs.contains '\n' then if allowsLiteral cs then .literal else .double
  else if !isAmbiguous cs && allowsPlain cs then .plain
  else if allowsSingle cs then .single
  else .double

/-! ## The styles -/

def spaces (n : Nat) : List Char := List.replicate n ' '

/-- The text in single quotes. A line that is continued is indented. -/
def writeSingle (indent : Nat) (cs : List Char) : List Char :=
  '\x27' :: body false cs
where
  body (broken : Bool) : List Char → List Char
    | [] => (if broken then spaces indent else []) ++ ['\x27']
    | c :: rest =>
      if endsLine c then c :: body true rest
      else
        (if broken && c != ' ' then spaces indent else []) ++
          (if c = '\x27' then ['\x27', '\x27'] else [c]) ++ body (broken && c == ' ') rest

/-- The escape of a character that double quotes do not show. -/
def escapeChar (c : Char) : List Char :=
  let n := c.toNat
  let digits (width : Nat) : List Char :=
    (List.range width).map fun i ↦ hexDigitUpper (n / pow2 (4 * (width - 1 - i)) % 16)
  '\x5c' ::
    match c with
    | '\x00' => ['0']
    | '\x07' => ['a']
    | '\x08' => ['b']
    | '\t' => ['t']
    | '\n' => ['n']
    | '\x0b' => ['v']
    | '\x0c' => ['f']
    | '\r' => ['r']
    | '\x1b' => ['e']
    | '\x22' => ['\x22']
    | '\x5c' => ['\x5c']
    | '\u0085' => ['N']
    | '\u00a0' => ['_']
    | '\u2028' => ['L']
    | '\u2029' => ['P']
    | _ =>
      if n ≤ 0xFF then 'x' :: digits 2 else if n ≤ 0xFFFF then 'u' :: digits 4 else 'U' :: digits 8

/-- The text in double quotes, in one line. -/
def writeDouble (cs : List Char) : List Char :=
  '\x22' :: cs.flatMap (fun c ↦
    if !isPrintable c || endsLine c || c == '\x22' || c == '\x5c' then escapeChar c else [c]) ++
    ['\x22']

/-- What becomes of the breaks at the end of a text that is written as a block. -/
def chompingOf (cs : List Char) : Chomping :=
  match cs.reverse with
  | [] => .strip
  | [c] => if endsLine c then .keep else .strip
  | c :: d :: _ => if !endsLine c then .strip else if endsLine d then .keep else .clip

/-- The header of a literal block: the indentation where the first line does not show it, and
what becomes of the breaks at the end. -/
def literalHeader (cs : List Char) : List Char :=
  '|' :: (if cs.head?.any fun c ↦ c == ' ' || endsLine c then ['2'] else []) ++
    match chompingOf cs with
    | .strip => ['-']
    | .clip => []
    | .keep => ['+']

/-- The text as a literal block with its line end. -/
def writeLiteral (indent : Nat) (cs : List Char) : List Char :=
  literalHeader cs ++ '\n' :: body true cs
where
  body (broken : Bool) : List Char → List Char
    | [] => if broken then [] else ['\n']
    | c :: rest =>
      if endsLine c then c :: body true rest
      else (if broken then spaces indent else []) ++ c :: body false rest

/-- A text as the value of a key, with its line end; lines after the first are indented. -/
def writeText (indent : Nat) (cs : List Char) : List Char :=
  match styleOf cs with
  | .literal => writeLiteral indent cs
  | .single => writeSingle indent cs ++ ['\n']
  | .double => writeDouble cs ++ ['\n']
  | _ => cs ++ ['\n']

/-! ## Records -/

/-- The value of a field. -/
inductive Value where
  | text (s : String)
  | word (n : Nat)
  | number (x : Single)
  | bool (b : Bool)
deriving DecidableEq

/-- A number in the style of data files. -/
def writeNumber (x : Single) : List Char :=
  match x with
  | .nan => ".nan".toList
  | .inf s => if s then "-.inf".toList else ".inf".toList
  | .finite .. => (Numeral.ofBinary .data x).write false

/-- A value with its line end, in a record at the given column. -/
def Value.write (column : Nat) : Value → List Char
  | .text s => writeText (column + 2) s.toList
  | .word n => writeInt n ++ ['\n']
  | .number x => writeNumber x ++ ['\n']
  | .bool b => (if b then "true" else "false").toList ++ ['\n']

/-- The fields of a record at the given column, one a line. -/
def writeFields (column : Nat) (fields : List (String × Value)) : List Char :=
  fields.flatMap fun f ↦
    spaces column ++ f.1.toList ++ [':', ' '] ++ f.2.write column

/-- Named records, each set off by two columns. -/
def writeSections (sections : List (String × List (String × Value))) : List Char :=
  sections.flatMap fun s ↦ s.1.toList ++ [':', '\n'] ++ writeFields 2 s.2

end AffineQuant.Yaml
