import AffineQuant.Failure
import AffineQuant.Yaml.Field
import AffineQuant.Yaml.Writer

/-!
# Settings files

Settings are read from YAML documents: a document of two sections, or of a target alone. What a
document leaves out takes its default, field by field, and what it says is checked before it is
used.

## Reading

`ofNode?` reads a node of the document, given its root, which aliases refer to. A node that is no
record, a field that occurs twice and a value of another type than its field make the document
malformed; an unknown key does not. Whether the values are valid is asked only after all of them
are read, so a document that is both malformed and invalid is malformed.

## Writing

`toYaml` writes every field, also those with their default. `toFields` gives the fields of a
record as data, so that a section and a document of its own are written from one list.

## Files

A file may also be missing, be a directory, or hold something that is not text (`FileState`).
Each is a failure that names the path; a file that holds text is as good as the text.
-/

namespace AffineQuant

namespace Target

/-- The target of a node. -/
def ofNode? (root node : Yaml.Node) : Option Target := do
  match ← node.fields? ["name", "activation_bits", "mul_bits", "max_shift"] root with
  | [name, activation, mul, shift] =>
    let name ← Yaml.Node.orElse defaultName (·.text? root) name
    let activation ← Yaml.Node.orElse defaultActivationBits.toNat (·.word? 32 root) activation
    let mul ← Yaml.Node.orElse defaultMulBits.toNat (·.word? 32 root) mul
    let shift ← Yaml.Node.orElse defaultMaxShift.toNat (·.word? 8 root) shift
    some ⟨name, UInt32.ofNat activation, UInt32.ofNat mul, UInt8.ofNat shift⟩
  | _ => none

/-- The fields as they are written. -/
def toFields (t : Target) : List (String × Yaml.Value) :=
  [("name", .text t.name), ("activation_bits", .word t.activationBits.toNat),
    ("mul_bits", .word t.mulBits.toNat), ("max_shift", .word t.maxShift.toNat)]

/-- The document of a target alone. -/
def toYaml (t : Target) : String := String.ofList (Yaml.writeFields 0 t.toFields)

/-- The target of a document, checked. -/
def parse (text : String) : Except Failure Target := do
  match (Yaml.parse? text).bind fun root ↦ ofNode? root root with
  | none => throw .malformedTarget
  | some t =>
    Failure.ofCheck t.check
    pure t

end Target

namespace Sampling

/-- The sampling of a node. -/
def ofNode? (root node : Yaml.Node) : Option Sampling := do
  match ← node.fields? ["batch_size", "mean", "std", "parallel"] root with
  | [size, mean, std, parallel] =>
    let size ← Yaml.Node.orElse defaultBatchSize.toNat (·.word? 64 root) size
    let mean ← Yaml.Node.orElse defaultMean (·.single? root) mean
    let std ← Yaml.Node.orElse defaultStd (·.single? root) std
    let parallel ← Yaml.Node.orElse defaultParallel (·.bool? root) parallel
    some ⟨UInt64.ofNat size, mean, std, parallel⟩
  | _ => none

/-- The fields as they are written. -/
def toFields (s : Sampling) : List (String × Yaml.Value) :=
  [("batch_size", .word s.batchSize.toNat), ("mean", .number s.mean), ("std", .number s.std),
    ("parallel", .bool s.parallel)]

end Sampling

namespace Settings

/-- The settings of a node. -/
def ofNode? (root node : Yaml.Node) : Option Settings := do
  match ← node.fields? ["target", "calibration"] root with
  | [target, calibration] =>
    let target ← Yaml.Node.orElse .int8 (Target.ofNode? root) target
    let calibration ← Yaml.Node.orElse .standard (Sampling.ofNode? root) calibration
    some ⟨target, calibration⟩
  | _ => none

/-- The document of settings. -/
def toYaml (s : Settings) : String :=
  String.ofList
    (Yaml.writeSections [("target", s.target.toFields), ("calibration", s.calibration.toFields)])

/-- The settings of a document, checked. -/
def parse (text : String) : Except Failure Settings := do
  match (Yaml.parse? text).bind fun root ↦ ofNode? root root with
  | none => throw .malformedSettings
  | some s =>
    Failure.ofCheck s.check
    pure s

end Settings

/-! ## Files -/

/-- What is found under a path. -/
inductive FileState where
  | missing
  | directory
  | content (bytes : ByteArray)

namespace FileState

/-- What a path that no file bears leads to. One made of slashes and dots alone always leads to a
directory. -/
def ofUnusedPath (path : String) : FileState :=
  let names := path.toList.splitOn '/'
  if !path.isEmpty && names.all fun n ↦ n.isEmpty || n == ['.'] || n == ['.', '.'] then .directory
  else .missing

/-- The text of a file. -/
def text (path : String) : FileState → Except Failure String
  | .missing => .error (.unreadable path .missing)
  | .directory => .error (.unreadable path .directory)
  | .content bytes =>
    match String.fromUTF8? bytes with
    | none => .error (.unreadable path .notUtf8)
    | some text => .ok text

end FileState

/-- The settings in a file. -/
def Settings.load (path : String) (file : FileState) : Except Failure Settings := do
  Settings.parse (← file.text path)

/-- The target in a file. -/
def Target.load (path : String) (file : FileState) : Except Failure Target := do
  Target.parse (← file.text path)

end AffineQuant
