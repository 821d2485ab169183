import AffineQuant.Json.Field
import AffineQuant.Json.Writer
import AffineQuant.Store.Basic

/-!
# Exchange of values as JSON

The records by which bounds, codes, multiply–shift pairs and settings are handed on. Each has a
writer, which names its fields in order, and a reader, which takes the named fields in any order
and ignores what it does not know.

## Missing fields

Measured and derived values have to be complete: there is no sensible scale or bound to assume.
Settings take defaults for what is missing, field by field, and a whole section that is missing
takes the default of the section. The defaults are those of the settings files. Nothing is
checked here beyond the types of the fields.

## Numbers

Numbers are written with the fewest digits that identify them and read through the 64-bit format.
Non-finite numbers have no spelling and are written as `null`, which no reader of a number takes.
-/

namespace AffineQuant

namespace TensorId

def toJson (id : TensorId) : Json := .ofInt id.raw.toNat

def ofJson? (v : Json) : Option TensorId := (v.word? 64).map fun n ↦ ⟨UInt64.ofNat n⟩

end TensorId

namespace Bounds

def toJson (b : Bounds) : Json := .record [("min", .ofBinary b.min), ("max", .ofBinary b.max)]

def ofJson? (v : Json) : Option Bounds := do
  match ← v.fields? ["min", "max"] with
  | [lo, hi] => some ⟨← Json.required Json.single? lo, ← Json.required Json.single? hi⟩
  | _ => none

end Bounds

namespace AffineCode

def toJson (c : AffineCode) : Json :=
  .record [("bias", .ofInt c.bias.toInt), ("scale", .ofBinary c.scale)]

def ofJson? (v : Json) : Option AffineCode := do
  match ← v.fields? ["bias", "scale"] with
  | [bias, scale] =>
    let n ← Json.required (Json.int? (leastInt 32) (greatestInt 32)) bias
    some ⟨Int32.ofInt n, ← Json.required Json.single? scale⟩
  | _ => none

end AffineCode

namespace MulShift

def toJson (p : MulShift) : Json :=
  .record [("multiplier", .ofBinary p.multiplier), ("shift", .ofInt p.shift.toInt)]

def ofJson? (v : Json) : Option MulShift := do
  match ← v.fields? ["multiplier", "shift"] with
  | [multiplier, shift] =>
    let x ← Json.required Json.single? multiplier
    let n ← Json.required (Json.int? (leastInt 8) (greatestInt 8)) shift
    some ⟨x, Int8.ofInt n⟩
  | _ => none

end MulShift

namespace Target

def toJson (t : Target) : Json :=
  .record [("name", .ofText t.name), ("activation_bits", .ofInt t.activationBits.toNat),
    ("mul_bits", .ofInt t.mulBits.toNat), ("max_shift", .ofInt t.maxShift.toNat)]

def ofJson? (v : Json) : Option Target := do
  match ← v.fields? ["name", "activation_bits", "mul_bits", "max_shift"] with
  | [name, activation, mul, shift] =>
    let name ← Json.orElse defaultName Json.text? name
    let activation ← Json.orElse defaultActivationBits.toNat (Json.word? 32) activation
    let mul ← Json.orElse defaultMulBits.toNat (Json.word? 32) mul
    let shift ← Json.orElse defaultMaxShift.toNat (Json.word? 8) shift
    some ⟨name, UInt32.ofNat activation, UInt32.ofNat mul, UInt8.ofNat shift⟩
  | _ => none

end Target

namespace Sampling

def toJson (s : Sampling) : Json :=
  .record [("batch_size", .ofInt s.batchSize.toNat), ("mean", .ofBinary s.mean),
    ("std", .ofBinary s.std), ("parallel", .bool s.parallel)]

def ofJson? (v : Json) : Option Sampling := do
  match ← v.fields? ["batch_size", "mean", "std", "parallel"] with
  | [size, mean, std, parallel] =>
    let size ← Json.orElse defaultBatchSize.toNat (Json.word? 64) size
    let mean ← Json.orElse defaultMean Json.single? mean
    let std ← Json.orElse defaultStd Json.single? std
    let parallel ← Json.orElse defaultParallel Json.bool? parallel
    some ⟨UInt64.ofNat size, mean, std, parallel⟩
  | _ => none

end Sampling

namespace Settings

def toJson (s : Settings) : Json :=
  .record [("target", s.target.toJson), ("calibration", s.calibration.toJson)]

def ofJson? (v : Json) : Option Settings := do
  match ← v.fields? ["target", "calibration"] with
  | [target, calibration] =>
    let target ← Json.orElse .int8 Target.ofJson? target
    let calibration ← Json.orElse .standard Sampling.ofJson? calibration
    some ⟨target, calibration⟩
  | _ => none

end Settings

end AffineQuant
