import AffineQuant.Bounds
import AffineQuant.Settings.Validity

/-!
# Failures

Every way in which an operation of the library can fail, as a cause with the values that explain
it. A cause is data: whatever a caller has to know to tell two failures apart is in its fields,
and `Failure.message` is the only place that words them. Messages spell numbers in full, without
an exponent.

## Internal failures

Two causes are marked as internal: they say that a computed result broke its own bounds, not that
an argument was refused. An argument may still be behind one, as when a value does not fit the
register it is encoded for.

## Settings

A violation of the settings is found by the checks of `Settings.Validity` and becomes a failure
like any other (`ofCheck`), with the message of the violation in it.
-/

namespace AffineQuant

/-- Why a settings file could not be read as text. -/
inductive Unreadable where
  | missing
  | directory
  | notUtf8
deriving DecidableEq

def Unreadable.message : Unreadable → String
  | .missing => "No such file or directory (os error 2)"
  | .directory => "Is a directory (os error 21)"
  | .notUtf8 => "stream did not contain valid UTF-8"

inductive Failure where
  /-- A recorded sample set has no sample other than NaN. -/
  | emptySamples (id : TensorId)
  /-- A one-shot calibration has no sample other than NaN. -/
  | noSamples (count : Nat)
  | unknownTensor (id : TensorId)
  /-- A negative value for a signed register, whose sign bit is reserved. -/
  | negativeSigned (value : Single)
  | nonFinite (value : Single)
  | bitWidth (bits least greatest : Nat)
  | shiftBudget (budget limit : Nat)
  /-- The derived scale or bias is not usable. -/
  | degenerateCode (bounds : Bounds) (bits : Nat) (scale bias : Single)
  /-- The encoded pair does not fit the register or the budget. -/
  | outOfRegister (value : Single) (bits : Int) (budget : Nat) (multiplier : Single) (shift : Int)
  /-- No tensor of a source fills one batch. -/
  | noFullBatch (batchSize : Nat)
  | unreadable (path : String) (cause : Unreadable)
  | malformedSettings
  | malformedTarget
  | malformedTable
  | invalid (violation : Violation)
deriving DecidableEq

namespace Failure

private def int (n : Int) : String := String.ofList (writeInt n)

def message : Failure → String
  | .emptySamples id =>
    "Empty sample set for " ++ id.message ++ ": batch contains no comparable values"
  | .noSamples count =>
    "No comparable samples: all " ++ int count ++ " values are NaN or the set is empty"
  | .unknownTensor id => "Unknown tensor: " ++ id.message ++ " has no recorded range"
  | .negativeSigned value =>
    "Invalid signed value: " ++ value.message ++
      " (signed fixed-point encoding requires value >= 0)"
  | .nonFinite value =>
    "Non-finite value: " ++ value.message ++ " cannot be encoded as a fixed-point multiplier"
  | .bitWidth bits least greatest =>
    "Invalid bit width: " ++ int bits ++ " (must be in " ++ int least ++ "..=" ++
      int greatest ++ ")"
  | .shiftBudget budget limit =>
    "Invalid shift budget: " ++ int budget ++ " (must be <= " ++ int limit ++ ")"
  | .degenerateCode bounds bits scale bias =>
    "Invalid quantization state: range " ++ bounds.message ++ " at " ++ int bits ++
      " bits produced scale " ++ scale.message ++ " bias " ++ bias.message
  | .outOfRegister value bits budget multiplier shift =>
    "Fixed-point encoding out of bounds: value=" ++ value.message ++ " bits=" ++ int bits ++
      " max_shift=" ++ int budget ++ " produced multiplier=" ++ multiplier.message ++
      " shift=" ++ int shift
  | .noFullBatch batchSize =>
    "Invalid calibration source: should contain one full batch of " ++ int batchSize ++
      " samples at least"
  | .unreadable path cause =>
    "Configuration error: Failed to read config file " ++ path ++ ": " ++ cause.message
  | .malformedSettings => "Configuration error: Failed to parse YAML config:"
  | .malformedTarget => "Configuration error: Failed to parse YAML profile:"
  | .malformedTable => "Serialization error:"
  | .invalid violation => "Invalid configuration: " ++ violation.message

/-- The failure says that a computed result broke its own bounds. -/
def isInternal : Failure → Bool
  | .degenerateCode .. => true
  | .outOfRegister .. => true
  | _ => false

/-- The failure that a violation of the settings amounts to. -/
def ofCheck (r : Except Violation Unit) : Except Failure Unit := r.mapError .invalid

end Failure

end AffineQuant
