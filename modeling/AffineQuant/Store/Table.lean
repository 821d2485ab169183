import AffineQuant.Exchange
import AffineQuant.Json.Reader

/-!
# Calibration tables

A table is the form in which a store is handed on: its entries in ascending order of the tensors.
Stores with the same content have the same table, whatever order they were recorded in. A table
that is read back is taken as it is: its entries may stand in any order, and a tensor that is
listed several times has its entries united when the store is made.

## Text

The text of a table spells numbers with the fewest digits that identify them, so that bounds
survive it bit by bit as long as they are finite. An infinite bound is written as `null`, and a
table with a `null` in the place of a bound is not read.

## Entries

An entry is one flat object. Since it is taken apart before its keys are known, all of it but its
tensor is kept for a while: values under unknown keys have to be definite and may not be nested
too deeply, while elsewhere in a table unknown keys only have to be well formed.
-/

namespace AffineQuant

/-- A tensor with its bounds. -/
abbrev Entry := TensorId × Bounds

structure Table where
  entries : List Entry
deriving DecidableEq

/-! ## Stores and tables -/

/-- The table of a store. -/
def Store.toTable (s : Store) : Table := ⟨s.entries.mergeSort fun a b ↦ decide (a.1 ≤ b.1)⟩

/-- The store that holds what a table lists. -/
def Table.toStore (t : Table) : Store := .ofList t.entries

/-! ## Tables as text -/

namespace Entry

def toJson (e : Entry) : Json :=
  .record [("id", e.1.toJson), ("min", .ofBinary e.2.min), ("max", .ofBinary e.2.max)]

/-- An entry at a place that leaves room for the given depth of nested values. -/
def ofJson? (room : Nat) : Json → Option Entry
  | .object members => do
    let members ← Json.named? members
    let id ← Json.required TensorId.ofJson? (← Json.member? "id" members)
    let kept := members.filter fun m ↦ m.1 != "id"
    if kept.any fun m ↦ !m.2.isDefinite || room < m.2.depth then none
    else
      let lo ← Json.required Json.single? (← Json.member? "min" kept)
      let hi ← Json.required Json.single? (← Json.member? "max" kept)
      some (id, ⟨lo, hi⟩)
  | _ => none

/-- The depth to which values may be nested. -/
def depthLimit : Nat := 127

end Entry

namespace Table

def size (t : Table) : Nat := t.entries.length

def isEmpty (t : Table) : Bool := t.entries.isEmpty

def toJson (t : Table) : Json := .record [("entries", .array (t.entries.map Entry.toJson))]

/-- A table, whose entries are the third level of the value. -/
def ofJson? (v : Json) : Option Table := do
  match ← v.fields? ["entries"] with
  | [some (.array items)] => some ⟨← items.mapM (Entry.ofJson? (Entry.depthLimit - 3))⟩
  | _ => none

/-- The text of a table, one item a line. -/
def write (t : Table) : String := t.toJson.spread

/-- The table of a text. -/
def read (text : String) : Except Failure Table :=
  match (Json.parse? text).bind ofJson? with
  | none => .error .malformedTable
  | some t => .ok t

end Table

end AffineQuant
