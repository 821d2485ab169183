/-!
# Tokens

The units between the characters of a text and its nodes. The beginning and end of a block
collection are tokens although no character stands for them: they follow from indentation. A
block sequence that is the value of a key may do without an indentation of its own, and has
neither of the two.

Tokens keep what they are written as: a scalar its style, which decides whether it may be a
number, and a tag its handle, whose meaning depends on the directives of the document.
-/

namespace AffineQuant.Yaml

/-- How a scalar is written. -/
inductive ScalarStyle where
  | plain
  | single
  | double
  | literal
  | folded
deriving DecidableEq

inductive Token where
  /-- The declared version of the format. -/
  | version (major minor : Nat)
  /-- A tag handle and the text that it stands for. -/
  | tagHandle (handle stem : List Char)
  | documentStart
  | documentEnd
  | blockSequence
  | blockMapping
  | blockEnd
  | flowSequence
  | flowSequenceEnd
  | flowMapping
  | flowMappingEnd
  /-- The dash before an item. -/
  | item
  /-- The comma between items of a flow collection. -/
  | comma
  | key
  | value
  | alias (name : List Char)
  | anchor (name : List Char)
  | tag (handle suffix : List Char)
  | scalar (style : ScalarStyle) (text : List Char)
deriving DecidableEq

end AffineQuant.Yaml
