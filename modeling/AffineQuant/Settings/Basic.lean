import AffineQuant.Decimal.Shortest

/-!
# Settings

What a calibration run is told: the integer widths that the target hardware offers
(`Target`), and how raw samples are cut into batches and normalized (`Sampling`).

## Types of the fields

The fields have the machine types in which settings files are read, so that a number out of the
range of its type is refused by the reader and cannot occur here. A number within the type may
still be one that the library does not support; `Settings.Validity` checks that.

## Defaults

Every field has a default for a record that leaves it out, and every record has one for a document
that leaves out the record. The two are given separately, as two places of a settings file ask for
them, and agree: a record of which every field is left out is the default record.
-/

namespace AffineQuant

/-- The integer widths of the target hardware. -/
structure Target where
  name : String
  activationBits : UInt32
  mulBits : UInt32
  maxShift : UInt8
deriving DecidableEq

namespace Target

/-! The defaults of the fields. -/

def defaultName : String := "int8"

def defaultActivationBits : UInt32 := 8

def defaultMulBits : UInt32 := 32

def defaultMaxShift : UInt8 := 31

/-- Eight-bit activations, the default of a whole target. -/
def int8 : Target := ⟨"int8", 8, 32, 31⟩

/-- Sixteen-bit activations. -/
def int16 : Target := ⟨"int16", 16, 32, 31⟩

instance : Inhabited Target := ⟨int8⟩

end Target

/-- How raw samples become batches: the number of samples in a batch, the normalization
`(x - mean) / std`, and whether a run may use several workers. -/
structure Sampling where
  batchSize : UInt64
  mean : Single
  std : Single
  parallel : Bool
deriving DecidableEq

namespace Sampling

/-! The defaults of the fields; mean and parallelism have those of their types. -/

def defaultBatchSize : UInt64 := 1

def defaultMean : Single := 0

def defaultStd : Single := 1

def defaultParallel : Bool := false

/-- Single samples, taken as they are, by one worker: the default of a whole sampling. -/
def standard : Sampling := ⟨defaultBatchSize, 0, defaultStd, false⟩

instance : Inhabited Sampling := ⟨standard⟩

end Sampling

/-- All settings of a calibration run. -/
structure Settings where
  target : Target
  calibration : Sampling
deriving DecidableEq

/-- The settings of an empty file. -/
def Settings.standard : Settings := ⟨.int8, .standard⟩

instance : Inhabited Settings := ⟨.standard⟩

end AffineQuant
