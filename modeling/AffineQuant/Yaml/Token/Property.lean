import AffineQuant.Decimal.Numeral
import AffineQuant.Hex
import AffineQuant.Yaml.Token.Basic
import AffineQuant.Yaml.Glyph

/-!
# Anchors, tags and directives

The tokens that name things: an anchor names a node, a tag its type, and a directive says how the
tags of a document are to be understood.

## Tags

A tag is a handle and a suffix. The handle is the mark `!` alone, or a word between two of them,
possibly empty; a tag that is written out between angle brackets has none. The suffix is written
like a URI, in which an octet may be escaped by its hexadecimal number, and octets of one
character have to follow each other. Each escaped octet is kept as one character, which is the
one that it encodes as long as it is ASCII.

## Directives

There are two directives, of the version and of a tag handle. An unknown one makes the text
unreadable.
-/

namespace AffineQuant.Yaml

/-- The name of an anchor or alias, which is not empty and is followed by a gap or by one of a
few indicators. -/
def scanName (s : List Glyph) : Option (List Char × List Glyph) :=
  let (name, s) := spanChars isWord s
  if name.isEmpty then none
  else if atGap s ∨ nextIn ['?', ':', ',', ']', '\x7d', '%', '@', '\x60'] s then some (name, s)
  else none

/-! ## Tags -/

/-- The characters of a tag that stand for themselves; brackets and commas do so only in a tag
that is written out between angle brackets. -/
def isTagChar (verbatim : Bool) (c : Char) : Bool :=
  isWord c || [';', '/', '?', ':', '@', '&', '=', '+', '$', '.', '!', '~', '*', '\x27', '(',
    ')'].contains c || (verbatim && [',', '[', ']'].contains c)

/-- The number of octets that have to follow a first octet. -/
def octetsAfter? (octet : Nat) : Option Nat :=
  if octet < 0x80 then some 0
  else if 0xC0 ≤ octet ∧ octet < 0xE0 then some 1
  else if 0xE0 ≤ octet ∧ octet < 0xF0 then some 2
  else if 0xF0 ≤ octet ∧ octet < 0xF8 then some 3
  else none

/-- The characters of a tag, possibly none; `owed` octets of a character are still to come. -/
def scanTagChars (verbatim : Bool) (owed : Nat) :
    List Glyph → Option (List Char × List Glyph)
  | [] => if owed = 0 then some ([], []) else none
  | g :: rest =>
    if g.char = '%' then
      match rest with
      | a :: b :: more =>
        match hexDigit? a.char, hexDigit? b.char with
        | some x, some y =>
          let octet := 16 * x + y
          let left? :=
            if owed = 0 then octetsAfter? octet
            else if 0x80 ≤ octet ∧ octet < 0xC0 then some (owed - 1)
            else none
          match left? with
          | some left =>
            (scanTagChars verbatim left more).map fun (cs, s) ↦ (Char.ofNat octet :: cs, s)
          | none => none
        | _, _ => none
      | _ => none
    else if owed ≠ 0 then none
    else if isTagChar verbatim g.char then
      (scanTagChars verbatim 0 rest).map fun (cs, s) ↦ (g.char :: cs, s)
    else some ([], g :: rest)

/-- The text of what was scanned: it ends before an escaped octet zero. -/
def tagText (cs : List Char) : List Char := cs.takeWhile (· ≠ '\x00')

/-- An exclamation mark with the word that follows it, and a second mark if there is one. -/
def scanHandle (s : List Glyph) : Option (List Char × List Glyph) :=
  match s with
  | [] => none
  | g :: rest =>
    if g.char = '!' then
      let (word, s) := spanChars isWord rest
      match s with
      | [] => some ('!' :: word, [])
      | h :: more =>
        if h.char = '!' then some ('!' :: word ++ ['!'], more) else some ('!' :: word, h :: more)
    else none

/-- The text is a handle by itself: it ends with a second exclamation mark. -/
def isFullHandle (handle : List Char) : Bool := 2 ≤ handle.length && handle.getLast? == some '!'

/-- A tag from its exclamation mark on, with the handle and the suffix. What is not a full handle
is part of the suffix of the handle `!`, and a single mark is a tag of its own. -/
def scanTag (flow : Bool) (s : List Glyph) : Option (List Char × List Char × List Glyph) := do
  let (handle, suffix, s) ←
    match s with
    | _ :: g :: rest =>
      if g.char = '<' then do
        let (suffix, s) ← scanTagChars true 0 rest
        match s with
        | e :: s => if e.char = '>' ∧ !suffix.isEmpty then some ([], tagText suffix, s) else none
        | [] => none
      else short s
    | _ => short s
  if atGap s ∨ (flow ∧ nextIn [','] s) then some (handle, suffix, s) else none
where
  short (s : List Glyph) : Option (List Char × List Char × List Glyph) := do
    let (handle, s) ← scanHandle s
    let (suffix, s) ← scanTagChars false 0 s
    if isFullHandle handle then
      if suffix.isEmpty then none else some (handle, tagText suffix, s)
    else
      let suffix := tagText (handle.tail ++ suffix)
      if suffix.isEmpty then some ([], ['!'], s) else some (['!'], suffix, s)

/-! ## Directives -/

def skipBlanks (s : List Glyph) : List Glyph := s.dropWhile fun g ↦ isBlank g.char

/-- A number of one to nine digits. -/
def scanVersionPart (s : List Glyph) : Option (Nat × List Glyph) :=
  let (digits, s) := spanChars Char.isDigit s
  if digits.isEmpty ∨ 9 < digits.length then none
  else some (Digit.value (digits.filterMap Digit.ofChar?), s)

/-- The version after the name of its directive. -/
def scanVersion (s : List Glyph) : Option (Token × List Glyph) := do
  let (major, s) ← scanVersionPart (skipBlanks s)
  match s with
  | g :: s =>
    if g.char = '.' then
      let (minor, s) ← scanVersionPart s
      some (.version major minor, s)
    else none
  | [] => none

/-- A tag handle and its meaning after the name of their directive. -/
def scanTagHandle (s : List Glyph) : Option (Token × List Glyph) := do
  let (handle, s) ← scanHandle (skipBlanks s)
  if isFullHandle handle ∨ handle = ['!'] then
    if nextIn [' ', '\t'] s then
      let (stem, s) ← scanTagChars true 0 (skipBlanks s)
      if !stem.isEmpty ∧ atGap s then some (.tagHandle handle (tagText stem), s) else none
    else none
  else none

/-- A directive after its percent sign, with the rest of its line. -/
def scanDirective (s : List Glyph) : Option (Token × List Glyph) := do
  let (name, s) := spanChars isWord s
  if !atGap s then none
  else
    let (t, s) ←
      if name = ['Y', 'A', 'M', 'L'] then scanVersion s
      else if name = ['T', 'A', 'G'] then scanTagHandle s
      else none
    let s ← afterLine? s
    some (t, s)

end AffineQuant.Yaml
