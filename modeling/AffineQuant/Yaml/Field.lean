import AffineQuant.Yaml.Scalar

/-!
# Reading typed fields of YAML nodes

The counterpart for YAML of reading typed fields of JSON values. A field is a node, which may be
an alias, so every reader takes the root of the document along to find what is meant.

## Records

A record is a mapping whose keys are scalars. Keys that the record does not know are ignored, a
known key may occur once, and a missing one takes its default. A node that is left out counts as
a mapping without pairs, so that a section may be named and left empty. There is no form without
keys.
-/

namespace AffineQuant.Yaml.Node

/-- The scalar that a node is or stands for. -/
def scalar? (node root : Node) : Option Scalar :=
  match node.target? root with
  | some (.scalar _ s) => some s
  | _ => none

/-- The text of a scalar of any kind. -/
def text? (node root : Node) : Option String := (node.scalar? root).map fun s ↦ String.ofList s.text

def word? (width : Nat) (node root : Node) : Option Nat :=
  (node.scalar? root).bind (Scalar.word? width)

def single? (node root : Node) : Option Single := (node.scalar? root).bind Scalar.single?

def bool? (node root : Node) : Option Bool := (node.scalar? root).bind Scalar.bool?

/-- The value of a key that occurs at most once. -/
def member? (key : String) (pairs : List (String × Node)) : Option (Option Node) :=
  match pairs.filter fun p ↦ p.1 == key with
  | [] => some none
  | [p] => some (some p.2)
  | _ => none

/-- The values of the named fields of a record, in their order. -/
def fields? (names : List String) (node root : Node) : Option (List (Option Node)) := do
  match ← node.target? root with
  | .mapping _ pairs =>
    let pairs ← pairs.mapM fun p ↦ (p.1.text? root).map fun key ↦ (key, p.2)
    names.mapM fun name ↦ member? name pairs
  | .scalar _ s => if s.style = .plain ∧ s.text.isEmpty then some (names.map fun _ ↦ none) else none
  | _ => none

/-- The value of a field, or its default. -/
def orElse {α : Type} (default : α) (read : Node → Option α) : Option Node → Option α
  | none => some default
  | some node => read node

end AffineQuant.Yaml.Node
