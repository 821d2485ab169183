import AffineQuant.Hex
import AffineQuant.Yaml.Glyph

/-!
# Plain and quoted scalars

The three kinds of scalar that may stand in a line with other tokens. Each is read one character
at a time, by recursion on the glyphs that are left.

## Gaps

Between two words lies a `Gap`: within a line it is kept as it is, a single line break becomes a
space, and of several line breaks the first is dropped. Blanks at both ends of a line are dropped
with the break. What a gap amounts to is settled when the next word begins, so that a gap at the
end of a plain scalar is no part of it.

## Where a scalar ends

A plain scalar ends before a colon that a gap follows, before a comment that a gap precedes,
before a line that is indented too little, and in a flow collection before any of its indicators.
A quoted scalar ends with its quote, and a line that begins or ends a document may not stand in
it. In single quotes a quote is written twice; in double quotes there are escapes (`DoubleMode`),
and an escaped line break leaves nothing behind.
-/

namespace AffineQuant.Yaml

/-- The blanks and line breaks read since the last word. -/
structure Gap where
  spaces : List Char
  breaks : List Char
  /-- The first line break was escaped and does not count. -/
  escaped : Bool

namespace Gap

def empty : Gap := ⟨[], [], false⟩

/-- The gap goes on after a line break. -/
def crosses (g : Gap) : Bool := g.escaped || !g.breaks.isEmpty

def isEmpty (g : Gap) : Bool := g.spaces.isEmpty && !g.crosses

/-- Blanks at the beginning of a line are not kept. -/
def addBlank (g : Gap) (c : Char) : Gap := if g.crosses then g else ⟨g.spaces ++ [c], [], false⟩

/-- Blanks at the end of a line are not kept. -/
def addBreak (g : Gap) (c : Char) : Gap := ⟨[], g.breaks ++ [c], g.escaped⟩

/-- The text that the gap amounts to. -/
def text (g : Gap) : List Char :=
  if g.escaped then g.breaks
  else
    match g.breaks with
    | [] => g.spaces
    | ['\n'] => [' ']
    | '\n' :: more => more
    | breaks => breaks

end Gap

/-! ## Plain scalars -/

/-- The characters that end or open collections within a line. -/
def flowIndicators : List Char := [',', '[', ']', '\x7b', '\x7d']

/-- A plain scalar, whose continuation lines begin at the given column or after it unless it
stands in a flow collection. Says also whether it was left across a line break. -/
def scanPlain (flow : Bool) (indent : Int) (gap : Gap) :
    List Glyph → Option (List Char × Bool × List Glyph)
  | [] => some ([], gap.crosses, [])
  | g :: rest =>
    if isBlank g.char then
      if gap.crosses ∧ g.char = '\t' ∧ (g.column : Int) < indent then none
      else scanPlain flow indent (gap.addBlank g.char) rest
    else if isBreak g.char then scanPlain flow indent (gap.addBreak g.char) rest
    else if !gap.isEmpty ∧
        ((!flow ∧ (g.column : Int) < indent) ∨ atMarker (g :: rest) ∨ g.char = '#') then
      some ([], gap.crosses, g :: rest)
    else if flow ∧ g.char = ':' ∧ nextIn [',', '?', '[', ']', '\x7b', '\x7d'] rest then none
    else if (g.char = ':' ∧ atGap rest) ∨ (flow ∧ flowIndicators.contains g.char) then
      some ([], gap.crosses, g :: rest)
    else
      (scanPlain flow indent .empty rest).map fun (cs, crossed, s) ↦
        (gap.text ++ g.char :: cs, crossed, s)

/-! ## Quoted scalars -/

/-- A scalar in single quotes, after the opening one: a quote in it is written twice. -/
def scanSingle (gap : Gap) : List Glyph → Option (List Char × List Glyph)
  | [] => none
  | g :: rest =>
    if isBlank g.char then scanSingle (gap.addBlank g.char) rest
    else if isBreak g.char then scanSingle (gap.addBreak g.char) rest
    else if atMarker (g :: rest) then none
    else if g.char = '\x27' then
      match rest with
      | [] => some (gap.text, [])
      | q :: more =>
        if q.char = '\x27' then
          (scanSingle .empty more).map fun (cs, s) ↦ (gap.text ++ '\x27' :: cs, s)
        else some (gap.text, q :: more)
    else (scanSingle .empty rest).map fun (cs, s) ↦ (gap.text ++ g.char :: cs, s)

/-- The character of an escape of one letter. -/
def escaped? (c : Char) : Option Char :=
  match c with
  | '0' => some '\x00'
  | 'a' => some '\x07'
  | 'b' => some '\x08'
  | 't' => some '\t'
  | '\t' => some '\t'
  | 'n' => some '\n'
  | 'v' => some '\x0b'
  | 'f' => some '\x0c'
  | 'r' => some '\r'
  | 'e' => some '\x1b'
  | ' ' => some ' '
  | '\x22' => some '\x22'
  | '/' => some '/'
  | '\x5c' => some '\x5c'
  | 'N' => some '\u0085'
  | '_' => some '\u00a0'
  | 'L' => some '\u2028'
  | 'P' => some '\u2029'
  | _ => none

/-- The number of digits of an escape by number. -/
def escapeWidth? (c : Char) : Option Nat :=
  match c with
  | 'x' => some 2
  | 'u' => some 4
  | 'U' => some 8
  | _ => none

/-- Where the reader of a scalar in double quotes is: between words, after a backslash, or in an
escape by number of which some digits are still to come. -/
inductive DoubleMode where
  | text (gap : Gap)
  | escape
  | digits (left value : Nat)

/-- A scalar in double quotes, after the opening one. -/
def scanDouble : DoubleMode → List Glyph → Option (List Char × List Glyph)
  | _, [] => none
  | .text gap, g :: rest =>
    if isBlank g.char then scanDouble (.text (gap.addBlank g.char)) rest
    else if isBreak g.char then scanDouble (.text (gap.addBreak g.char)) rest
    else if atMarker (g :: rest) then none
    else if g.char = '\x22' then some (gap.text, rest)
    else if g.char = '\x5c' then
      (scanDouble .escape rest).map fun (cs, s) ↦ (gap.text ++ cs, s)
    else (scanDouble (.text .empty) rest).map fun (cs, s) ↦ (gap.text ++ g.char :: cs, s)
  | .escape, g :: rest =>
    if isBreak g.char then scanDouble (.text ⟨[], [], true⟩) rest
    else
      match escaped? g.char, escapeWidth? g.char with
      | some c, _ => (scanDouble (.text .empty) rest).map fun (cs, s) ↦ (c :: cs, s)
      | none, some n => scanDouble (.digits n 0) rest
      | none, none => none
  | .digits left value, g :: rest =>
    match hexDigit? g.char with
    | none => none
    | some d =>
      let n := 16 * value + d
      if 1 < left then scanDouble (.digits (left - 1) n) rest
      else if n.isValidChar then
        (scanDouble (.text .empty) rest).map fun (cs, s) ↦ (Char.ofNat n :: cs, s)
      else none

end AffineQuant.Yaml
