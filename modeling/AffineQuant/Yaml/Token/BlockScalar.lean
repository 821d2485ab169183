import AffineQuant.Decimal.Numeral
import AffineQuant.Yaml.Glyph

/-!
# Block scalars

Scalars whose lines are set off by indentation. A literal scalar keeps its lines; in a folded one
a single break between two lines that do not begin with a blank becomes a space.

## The header

A header says how much the lines are indented, if the first line that is not empty does not show
it, and what becomes of the breaks at the end (`Chomping`): they are dropped, all but the first
are dropped, or all are kept. The two indicators may stand in either order.

## Lines

A scalar is read into lines first, each with the breaks that follow it, and joined afterwards
(`BlockLine.join`), since what a break amounts to depends on the lines at both ends of it. The
scalar ends before the first line with text that is indented by less.
-/

namespace AffineQuant.Yaml

/-- What becomes of the line breaks at the end of a block scalar. -/
inductive Chomping where
  | strip
  | clip
  | keep
deriving DecidableEq

namespace Chomping

def ofChar? (c : Char) : Option Chomping :=
  if c = '-' then some .strip else if c = '+' then some .keep else none

/-- What is left of the breaks at the end. -/
def apply (c : Chomping) (breaks : List Char) : List Char :=
  match c with
  | .strip => []
  | .clip => breaks.take 1
  | .keep => breaks

end Chomping

/-- A chomping indicator, if there is one. -/
def scanChomping (s : List Glyph) : Chomping × List Glyph :=
  match s with
  | [] => (.clip, [])
  | g :: rest =>
    match Chomping.ofChar? g.char with
    | some c => (c, rest)
    | none => (.clip, g :: rest)

/-- An indentation indicator from one to nine, or zero if there is none. -/
def scanIncrement (s : List Glyph) : Option (Nat × List Glyph) :=
  match s with
  | [] => some (0, [])
  | g :: rest =>
    match Digit.ofChar? g.char with
    | some d => if d = .zero then none else some (d.val, rest)
    | none => some (0, g :: rest)

/-- Both indicators, in either order. -/
def scanHeader (s : List Glyph) : Option (Chomping × Nat × List Glyph) :=
  if nextIn ['+', '-'] s then
    let (chomping, s) := scanChomping s
    (scanIncrement s).map fun (n, s) ↦ (chomping, n, s)
  else do
    let (n, s) ← scanIncrement s
    if n = 0 then some (.clip, 0, s)
    else
      let (chomping, s) := scanChomping s
      some (chomping, n, s)

/-- The breaks of empty lines, with the indentation of the next line. While the indentation of
the scalar is unknown (zero) all spaces count as indentation; the deepest column seen follows. -/
def scanBreaks (indent deepest : Nat) : List Glyph → Option (List Char × Nat × List Glyph)
  | [] => some ([], deepest, [])
  | g :: rest =>
    let outside := indent = 0 ∨ g.column < indent
    if outside ∧ g.char = ' ' then scanBreaks indent deepest rest
    else if outside ∧ g.char = '\t' then none
    else if isBreak g.char then
      (scanBreaks indent (max deepest g.column) rest).map fun (bs, d, s) ↦ (g.char :: bs, d, s)
    else some ([], max deepest g.column, g :: rest)

/-- A line of a block scalar and the breaks that follow it. -/
structure BlockLine where
  text : List Char
  breaks : List Char

namespace BlockLine

def startsBlank (l : BlockLine) : Bool := l.text.head?.any isBlank

/-- What stands between a line and the next. -/
def separator (literal : Bool) (l next : BlockLine) : List Char :=
  match l.breaks with
  | '\n' :: more =>
    if literal ∨ l.startsBlank ∨ next.startsBlank then '\n' :: more
    else if more.isEmpty then [' '] else more
  | breaks => breaks

/-- The text of the lines. -/
def join (literal : Bool) (chomping : Chomping) : List BlockLine → List Char
  | [] => []
  | [l] => l.text ++ chomping.apply l.breaks
  | l :: next :: more =>
    l.text ++ l.separator literal next ++ join literal chomping (next :: more)

end BlockLine

/-- The lines that begin at the given column, at most as many as the given number. -/
def scanLines (indent : Nat) : Nat → List Glyph → Option (List BlockLine × List Glyph)
  | 0, s => some ([], s)
  | _ + 1, [] => some ([], [])
  | n + 1, g :: rest =>
    if g.column ≠ indent then some ([], g :: rest)
    else
      let (text, s) := spanChars (fun c ↦ !isBreak c) (g :: rest)
      match s with
      | [] => some ([⟨text, []⟩], [])
      | b :: s => do
        let (breaks, _, s) ← scanBreaks indent 0 s
        let (lines, s) ← scanLines indent n s
        some (⟨text, b.char :: breaks⟩ :: lines, s)

/-- A block scalar after its indicator, inside a collection of the given indentation. -/
def scanBlock (literal : Bool) (parent : Int) (s : List Glyph) :
    Option (List Char × List Glyph) := do
  let (chomping, increment, s) ← scanHeader s
  let s ← afterLine? s
  let given := if increment = 0 then 0 else (max parent 0).toNat + increment
  let (leading, deepest, s) ← scanBreaks given 0 s
  let indent := if given = 0 then max deepest (max (parent + 1) 1).toNat else given
  let (lines, s) ← scanLines indent s.length s
  if lines.isEmpty then some (if chomping = .keep then leading else [], s)
  else some (leading ++ BlockLine.join literal chomping lines, s)

end AffineQuant.Yaml
