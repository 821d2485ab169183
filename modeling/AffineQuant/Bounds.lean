import AffineQuant.Decimal.Shortest

/-!
# Tensors and the bounds of their values

A calibrated tensor is known by a 64-bit number, and all that is kept of its values are the least
and the greatest. Bounds are not required to be ordered or finite: they may be recorded directly,
and every use has to cope with what was recorded.

## Samples

The bounds of samples are those of the samples that are comparable: NaN is left out, and where
nothing else is there, there are no bounds (`ofSamples?` is `none`). Infinities are samples like
any others.

## Union

`union` takes the lesser minimum and the greater maximum, and a NaN bound gives way to the other
operand's. Bounds that come from samples are ordered and hold no NaN, and on them it is the hull
of two intervals: associative, and commutative up to the sign of a zero bound.
-/

namespace AffineQuant

/-- The number under which a tensor is calibrated. -/
structure TensorId where
  raw : UInt64
deriving DecidableEq

namespace TensorId

instance : LE TensorId := ⟨fun a b ↦ a.raw ≤ b.raw⟩

instance (a b : TensorId) : Decidable (a ≤ b) := inferInstanceAs (Decidable (a.raw ≤ b.raw))

/-- The tensor as it appears in messages. -/
def message (id : TensorId) : String := "tensor#" ++ String.ofList (writeInt id.raw.toNat)

end TensorId

/-- The least and the greatest value observed for a tensor. -/
structure Bounds where
  min : Single
  max : Single
deriving DecidableEq

namespace Bounds

/-- The bounds of one value. -/
def point (x : Single) : Bounds := ⟨x, x⟩

/-- The bounds of all values within either operand; a NaN bound gives way to the other's. -/
def union (a b : Bounds) : Bounds := ⟨a.min.least b.min, a.max.greatest b.max⟩

/-- The bounds of the samples that are not NaN, if there are any. -/
def ofSamples? (samples : List Single) : Option Bounds :=
  (samples.filter fun x ↦ !x.isNaN).foldl
    (fun acc x ↦ some (acc.elim (point x) fun b ↦ ⟨b.min.least x, b.max.greatest x⟩)) none

/-- The bounds of several sample sets together, sets without a usable sample left out. -/
def ofSets? (sets : List (List Single)) : Option Bounds :=
  (sets.filterMap ofSamples?).foldl (fun acc b ↦ some (acc.elim b fun a ↦ a.union b)) none

/-- The width of the interval. -/
def span (b : Bounds) : Single := b.max - b.min

/-- Whether a value lies within the bounds. -/
def contains (b : Bounds) (x : Single) : Bool := decide (b.min ≤ x) && decide (x ≤ b.max)

/-- The bounds widened to hold zero, so that zero gets a code of its own. -/
def includingZero (b : Bounds) : Bounds :=
  ⟨if 0 < b.min then 0 else b.min, if b.max < 0 then 0 else b.max⟩

/-- The bounds as they appear in messages. -/
def message (b : Bounds) : String := "[" ++ b.min.message ++ ", " ++ b.max.message ++ "]"

end Bounds

end AffineQuant
