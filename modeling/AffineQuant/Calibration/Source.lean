import AffineQuant.Failure

/-!
# Sources of calibration batches

A calibration pass sees nothing but a list of batches. `SampleSource` makes one from raw tensors:
each tensor is cut into whole batches, an incomplete tail is dropped, and every sample is
normalized. No batch spans two tensors, and the batches stand in the order of the tensors.

## Cutting

A tensor is first shortened to a multiple of the batch size (`kept`) and then cut into
consecutive parts (`wholeParts`). The tail is dropped tensor by tensor, so that a tensor shorter
than one batch contributes nothing; a source of which nothing is kept is refused when it is made
(`ofTensors`), and so are settings that do not pass their checks.

## Normalization

`normalize` is one subtraction and one division in the 32-bit format, each rounded. With valid
settings it makes no NaN of a sample that is none, but it may overflow to an infinity.
-/

namespace AffineQuant

/-- Samples of one tensor that are observed together. -/
structure Batch where
  id : TensorId
  samples : List Single
deriving DecidableEq

/-- The consecutive parts of length `n`; a shorter rest at the end is dropped. -/
def wholeParts {α : Type} (n : Nat) (l : List α) : List (List α) :=
  (List.range (l.length / n)).map fun i ↦ (l.drop (i * n)).take n

/-- Raw tensors with the rule that makes batches of them. -/
structure SampleSource where
  tensors : List (TensorId × List Single)
  sampling : Sampling

namespace SampleSource

def batchSize (s : SampleSource) : Nat := s.sampling.batchSize.toNat

/-- The samples of a tensor that fill whole batches. -/
def kept (s : SampleSource) (samples : List Single) : List Single :=
  samples.take (samples.length / s.batchSize * s.batchSize)

/-- The source of the given tensors. The settings have to be valid, and something of at least one
tensor has to be kept. -/
def ofTensors (tensors : List (TensorId × List Single)) (s : Sampling) :
    Except Failure SampleSource := do
  Failure.ofCheck s.check
  let source : SampleSource := ⟨tensors, s⟩
  if tensors.all fun t ↦ (source.kept t.2).isEmpty then
    throw (.noFullBatch source.batchSize)
  pure source

/-- A raw sample as the passes see it. -/
def normalize (s : SampleSource) (x : Single) : Single := (x - s.sampling.mean) / s.sampling.std

/-- The batches of one tensor. -/
def batchesOf (s : SampleSource) (t : TensorId × List Single) : List Batch :=
  (wholeParts s.batchSize (s.kept t.2)).map fun part ↦ ⟨t.1, part.map s.normalize⟩

/-- The batches of all tensors. -/
def batches (s : SampleSource) : List Batch := s.tensors.flatMap s.batchesOf

/-- The number of batches, from the lengths of the tensors alone. -/
def batchCount (s : SampleSource) : Nat :=
  s.tensors.foldr (fun t n ↦ (s.kept t.2).length / s.batchSize + n) 0

end SampleSource

end AffineQuant
