import AffineQuant.Yaml.Token.BlockScalar
import AffineQuant.Yaml.Token.FlowScalar
import AffineQuant.Yaml.Token.Property

/-!
# From glyphs to tokens

The tokens of a text are found from left to right. A `Lexer` holds what is left of the text, the
tokens so far, and what they say about the collections around the next one.

## Keys

A key shows only by the colon after it. When a token that may begin a key is read, its place is
remembered (`KeyPlace`), and the colon puts the `key` token there, and before it the beginning of
a block mapping if the key stands deeper than the collection around it. A key is written in one
line and its colon follows within 1024 octets of UTF-8; where a block mapping needs a key, a token
that turns out to be none is an error. In each flow collection a key may be in the making, while
the one around it waits.

## Indentation

A block collection begins where a dash, a question mark or a key stands deeper than the collection
around it, and its end is found by the column of the next token (`unroll`). In flow collections
neither columns nor line breaks count.

## Steps

`run` skips a gap, ends what the column ends, and reads one token. Each such step takes at least
one glyph, so that one more step than there are glyphs suffices.
-/

namespace AffineQuant.Yaml

/-- The place of a token that may begin a key. -/
structure KeyPlace where
  /-- The number of tokens before it. -/
  index : Nat
  line : Nat
  column : Nat
  /-- The octets before it in its line. -/
  offset : Nat
  /-- A key has to stand here. -/
  required : Bool

/-- The greatest distance from the beginning of a key to its colon, in octets. -/
def keyLimit : Nat := 1024

structure Lexer where
  rest : List Glyph
  /-- The column of the innermost block collection, or `-1`. -/
  indent : Int
  /-- The columns of the block collections around it. -/
  outer : List Int
  /-- A key may begin here. -/
  keyAllowed : Bool
  /-- The place of the key in the making, in the innermost flow collection. -/
  key : Option KeyPlace
  /-- The places of keys in the making around each flow collection, the innermost first. -/
  around : List (Option KeyPlace)
  /-- The tokens so far, the last first. -/
  tokens : List Token

namespace Lexer

def ofGlyphs (s : List Glyph) : Lexer := ⟨s, -1, [], true, none, [], []⟩

/-- The lexer is inside a flow collection. -/
def inFlow (l : Lexer) : Bool := !l.around.isEmpty

def emit (t : Token) (l : Lexer) : Lexer := { l with tokens := t :: l.tokens }

/-- Puts a token before those from the given number on. -/
def emitAt (index : Nat) (t : Token) (l : Lexer) : Lexer :=
  let later := l.tokens.length - index
  { l with tokens := l.tokens.take later ++ t :: l.tokens.drop later }

/-! ## Gaps between tokens -/

/-- What follows blanks, comments and line breaks, and whether a key may begin there. In a block
collection a tab may not stand where a key may begin. A byte order mark at the beginning of a line
is passed over as well, and what follows it stands one column further on. -/
def skipGap (flow : Bool) (keyAllowed comment : Bool) : List Glyph → Bool × List Glyph
  | [] => (keyAllowed, [])
  | g :: rest =>
    if isBreak g.char then skipGap flow (keyAllowed || !flow) false rest
    else if comment then skipGap flow keyAllowed true rest
    else if g.char = byteOrderMark ∧ g.column = 0 then skipGap flow keyAllowed false rest
    else if g.char = ' ' ∨ (g.char = '\t' ∧ (flow ∨ !keyAllowed)) then
      skipGap flow keyAllowed false rest
    else if g.char = '#' then skipGap flow keyAllowed true rest
    else (keyAllowed, g :: rest)

/-! ## Indentation -/

/-- Ends the block collections deeper than a column: their number, the new column and the
columns around it. -/
def closing (column indent : Int) : List Int → Nat × Int × List Int
  | [] => (0, indent, [])
  | i :: outer =>
    if column < indent then
      let (n, rest) := closing column i outer
      (n + 1, rest)
    else (0, indent, i :: outer)

/-- Ends the block collections deeper than a column. -/
def unroll (column : Int) (l : Lexer) : Lexer :=
  if l.inFlow then l
  else
    let (n, indent, outer) := closing column l.indent l.outer
    { l with indent, outer, tokens := List.replicate n .blockEnd ++ l.tokens }

/-- Begins a block collection before the tokens from the given number on, if the column is deeper
than that of the collection around it. -/
def roll (column : Nat) (index : Nat) (t : Token) (l : Lexer) : Lexer :=
  if l.inFlow ∨ (column : Int) ≤ l.indent then l
  else emitAt index t { l with indent := column, outer := l.indent :: l.outer }

/-! ## Keys in the making -/

/-- Gives up the key in the making, unless it is required. -/
def dropKey (l : Lexer) : Option Lexer :=
  if l.key.any KeyPlace.required then none else some { l with key := none }

/-- Remembers that a key may begin at a glyph. -/
def saveKey (g : Glyph) (l : Lexer) : Option Lexer :=
  if l.keyAllowed then do
    let required := !l.inFlow && decide (l.indent = g.column)
    let l ← l.dropKey
    some { l with key := some ⟨l.tokens.length, g.line, g.column, g.offset, required⟩ }
  else some l

/-- The key that a colon at a glyph completes, if there is one. -/
def keyBefore (g : Glyph) (l : Lexer) : Option (Option KeyPlace) :=
  match l.key with
  | none => some none
  | some k =>
    if k.line < g.line ∨ k.offset + keyLimit < g.offset then
      if k.required then none else some none
    else some (some k)

/-! ## Tokens -/

/-- A directive or a line that begins or ends a document: all block collections end. -/
def atLineStart (read : Lexer → Option (Token × List Glyph)) (l : Lexer) : Option Lexer := do
  let l ← (l.unroll (-1)).dropKey
  let (t, rest) ← read l
  some ({ l with keyAllowed := false, rest }.emit t)

def openFlow (t : Token) (g : Glyph) (rest : List Glyph) (l : Lexer) : Option Lexer := do
  let l ← l.saveKey g
  some ({ l with around := l.key :: l.around, key := none, keyAllowed := true, rest }.emit t)

def closeFlow (t : Token) (rest : List Glyph) (l : Lexer) : Option Lexer := do
  let l ← l.dropKey
  let l :=
    match l.around with
    | [] => l
    | key :: around => { l with key, around }
  some ({ l with keyAllowed := false, rest }.emit t)

def readComma (rest : List Glyph) (l : Lexer) : Option Lexer := do
  let l ← l.dropKey
  some ({ l with keyAllowed := true, rest }.emit .comma)

def readItem (g : Glyph) (rest : List Glyph) (l : Lexer) : Option Lexer := do
  if !l.inFlow ∧ !l.keyAllowed then none
  else
    let l ← (l.roll g.column l.tokens.length .blockSequence).dropKey
    some ({ l with keyAllowed := true, rest }.emit .item)

/-- A question mark: the key that follows may be any node. -/
def readKey (g : Glyph) (rest : List Glyph) (l : Lexer) : Option Lexer := do
  if !l.inFlow ∧ !l.keyAllowed then none
  else
    let l ← (l.roll g.column l.tokens.length .blockMapping).dropKey
    some ({ l with keyAllowed := !l.inFlow, rest }.emit .key)

/-- A colon: it completes the key in the making, or follows the node of a question mark. -/
def readValue (g : Glyph) (rest : List Glyph) (l : Lexer) : Option Lexer := do
  match ← l.keyBefore g with
  | some k =>
    let l := (l.emitAt k.index .key).roll k.column k.index .blockMapping
    some ({ l with key := none, keyAllowed := false, rest }.emit .value)
  | none =>
    if !l.inFlow ∧ !l.keyAllowed then none
    else
      let l := l.roll g.column l.tokens.length .blockMapping
      some ({ l with key := none, keyAllowed := !l.inFlow, rest }.emit .value)

/-- A token that may begin a key and does not end the line. -/
def readWord (g : Glyph) (read : Option (Token × List Glyph)) (l : Lexer) : Option Lexer := do
  let l ← l.saveKey g
  let (t, rest) ← read
  some ({ l with keyAllowed := false, rest }.emit t)

def readBlock (literal : Bool) (rest : List Glyph) (l : Lexer) : Option Lexer := do
  let l ← l.dropKey
  let (text, rest) ← scanBlock literal l.indent rest
  some ({ l with keyAllowed := true, rest }.emit
    (.scalar (if literal then .literal else .folded) text))

/-- A plain scalar; after one that was left across a line break a key may begin. -/
def readPlain (g : Glyph) (rest : List Glyph) (l : Lexer) : Option Lexer := do
  let l ← l.saveKey g
  let (text, crossed, rest) ← scanPlain l.inFlow (l.indent + 1) .empty (g :: rest)
  some ({ l with keyAllowed := crossed, rest }.emit (.scalar .plain text))

/-- The characters that cannot begin a plain scalar. -/
def indicators : List Char :=
  ['-', '?', ':', ',', '[', ']', '\x7b', '\x7d', '#', '&', '*', '!', '|', '>', '\x27', '\x22', '%',
    '@', '\x60']

/-- A plain scalar may begin at a character. Dash, question mark and colon may begin one if they
are not indicators there. -/
def beginsPlain (flow : Bool) (c : Char) (rest : List Glyph) : Bool :=
  !(isBlank c || isBreak c || indicators.contains c) ||
    (c == '-' && !nextIn [' ', '\t'] rest) || (!flow && (c == '?' || c == ':') && !atGap rest)

/-- The token at a glyph. -/
def next (g : Glyph) (rest : List Glyph) (l : Lexer) : Option Lexer :=
  let marker (c : Char) := afterMarker? c (g :: rest)
  if g.column = 0 ∧ g.char = '%' then l.atLineStart fun _ ↦ scanDirective rest
  else if (marker '-').isSome then
    l.atLineStart fun _ ↦ (marker '-').map (.documentStart, ·)
  else if (marker '.').isSome then
    l.atLineStart fun _ ↦ (marker '.').map (.documentEnd, ·)
  else
    match g.char with
    | '[' => l.openFlow .flowSequence g rest
    | '\x7b' => l.openFlow .flowMapping g rest
    | ']' => l.closeFlow .flowSequenceEnd rest
    | '\x7d' => l.closeFlow .flowMappingEnd rest
    | ',' => l.readComma rest
    | '*' => l.readWord g ((scanName rest).map fun (name, s) ↦ (.alias name, s))
    | '&' => l.readWord g ((scanName rest).map fun (name, s) ↦ (.anchor name, s))
    | '!' =>
      l.readWord g ((scanTag l.inFlow (g :: rest)).map fun (handle, suffix, s) ↦
        (.tag handle suffix, s))
    | '\x27' => l.readWord g ((scanSingle .empty rest).map fun (cs, s) ↦ (.scalar .single cs, s))
    | '\x22' =>
      l.readWord g ((scanDouble (.text .empty) rest).map fun (cs, s) ↦ (.scalar .double cs, s))
    | c =>
      if c = '-' ∧ atGap rest then l.readItem g rest
      else if c = '?' ∧ (l.inFlow ∨ atGap rest) then l.readKey g rest
      else if c = ':' ∧ (l.inFlow ∨ atGap rest) then l.readValue g rest
      else if c = '|' ∧ !l.inFlow then l.readBlock true rest
      else if c = '>' ∧ !l.inFlow then l.readBlock false rest
      else if beginsPlain l.inFlow c rest then l.readPlain g rest
      else none

/-- All tokens, in at most the given number of steps. -/
def run : Nat → Lexer → Option (List Token)
  | 0, _ => none
  | n + 1, l =>
    let (keyAllowed, rest) := skipGap l.inFlow l.keyAllowed false l.rest
    let l := { l with keyAllowed, rest }
    match rest with
    | [] => (l.unroll (-1)).dropKey.map fun l ↦ l.tokens.reverse
    | g :: rest => ((l.unroll g.column).next g rest).bind (run n)

end Lexer

/-- The tokens of a text; each step takes at least one glyph. -/
def tokens? (text : List Char) : Option (List Token) := do
  let s ← glyphs? text
  Lexer.run (s.length + 1) (.ofGlyphs s)

end AffineQuant.Yaml
