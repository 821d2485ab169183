/-!
# Characters with their places

Indentation carries meaning in YAML, so a text is read as glyphs: characters that know their line
and how far into it they stand. Placing them is done once, up front; the readers of tokens are
then plain recursions on lists, and none of them carries a position along.

## Lines

All spellings of a line break but the two Unicode separators become a line feed first
(`unifyBreaks`), so that a line feed is one glyph whatever it was. The distance into a line is
counted twice: in characters, which indentation is measured by, and in octets of UTF-8, which
limit the length of a key.

## Looking ahead

What decides about a character is often what follows it: a blank, the end of the line, one of a
few indicators, or a line that begins or ends a document. The tests for these stand here, as they
belong to no kind of token. Characters that the format excludes make the whole text unreadable.
-/

namespace AffineQuant.Yaml

/-- A character at its place in the text. -/
structure Glyph where
  char : Char
  line : Nat
  /-- The number of characters before it in its line. -/
  column : Nat
  /-- The number of octets, in UTF-8, before it in its line. -/
  offset : Nat
deriving DecidableEq

def byteOrderMark : Char := '\ufeff'

def isBlank (c : Char) : Bool := c == ' ' || c == '\t'

/-- The line breaks that are left once their spellings are unified. -/
def isBreak (c : Char) : Bool := c == '\n' || c == '\u2028' || c == '\u2029'

/-- The characters of names of anchors, tag handles and directives. -/
def isWord (c : Char) : Bool :=
  ('0' ≤ c && c ≤ '9') || ('A' ≤ c && c ≤ 'Z') || ('a' ≤ c && c ≤ 'z') || c == '_' || c == '-'

/-- The characters that may occur in a text at all. -/
def isAdmissible (c : Char) : Bool :=
  let n := c.toNat
  n == 0x09 || n == 0x0A || n == 0x0D || (0x20 ≤ n && n ≤ 0x7E) || n == 0x85 ||
    (0xA0 ≤ n && n ≤ 0xD7FF) || (0xE000 ≤ n && n ≤ 0xFFFD) || 0x10000 ≤ n

/-- The text with line feeds for carriage returns, for pairs of both, and for `U+0085`. -/
def unifyBreaks : List Char → List Char
  | [] => []
  | '\r' :: '\n' :: rest => '\n' :: unifyBreaks rest
  | c :: rest => (if c = '\r' ∨ c = '\u0085' then '\n' else c) :: unifyBreaks rest

/-- The characters from the given place on. -/
def placed (line column offset : Nat) : List Char → List Glyph
  | [] => []
  | c :: rest =>
    ⟨c, line, column, offset⟩ ::
      if isBreak c then placed (line + 1) 0 0 rest
      else placed line (column + 1) (offset + c.utf8Size) rest

/-- The glyphs of a text. A byte order mark in front is one of them and takes up a column. -/
def glyphs? (text : List Char) : Option (List Glyph) :=
  if text.all isAdmissible then some (placed 0 0 0 (unifyBreaks text)) else none

/-! ## Looking ahead -/

/-- The text is over, or a blank or a line break follows. -/
def atGap : List Glyph → Bool
  | [] => true
  | g :: _ => isBlank g.char || isBreak g.char

/-- The next character is one of the given ones. -/
def nextIn (cs : List Char) : List Glyph → Bool
  | [] => false
  | g :: _ => cs.contains g.char

/-- What follows a line that begins with three times the given character and then ends or goes
on after a gap. -/
def afterMarker? (c : Char) : List Glyph → Option (List Glyph)
  | g₁ :: g₂ :: g₃ :: rest =>
    if g₁.column = 0 ∧ g₁.char = c ∧ g₂.char = c ∧ g₃.char = c ∧ atGap rest then some rest else none
  | _ => none

/-- A line that begins or ends a document is next. -/
def atMarker (s : List Glyph) : Bool := (afterMarker? '-' s).isSome || (afterMarker? '.' s).isSome

/-- What follows the rest of a line, which may hold blanks and a comment. -/
def afterLine? (s : List Glyph) : Option (List Glyph) :=
  let s := s.dropWhile fun g ↦ isBlank g.char
  let s := if nextIn ['#'] s then s.dropWhile fun g ↦ !isBreak g.char else s
  match s with
  | [] => some []
  | g :: rest => if isBreak g.char then some rest else none

/-- The characters up to the first that fails the test, and what follows. -/
def spanChars (p : Char → Bool) (s : List Glyph) : List Char × List Glyph :=
  ((s.takeWhile fun g ↦ p g.char).map Glyph.char, s.dropWhile fun g ↦ p g.char)

end AffineQuant.Yaml
