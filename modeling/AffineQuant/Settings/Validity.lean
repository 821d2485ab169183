import AffineQuant.Settings.Basic

/-!
# Valid settings

The checks that settings pass before they are used. They are made in the order of the fields and
the first violation is reported, so a violation names one field and holds its value.

## What is checked

* The widths of codes and registers, and the shift budget, lie within what the arithmetic of the
  library supports. The limits are those that the operations themselves check, which take a width
  as an argument and cannot rely on settings.
* The name shows something: it is neither empty nor all white space.
* Batches are not empty, the mean is finite, and the deviation is finite and positive, so that
  normalizing a sample makes no NaN of a number.

Nothing relates two fields, so each check has its own violation, and settings are valid exactly
if each of their two parts is.
-/

namespace AffineQuant

/-- The greatest width of a code: codes and biases are 32-bit signed integers. -/
def maxCodeBits : Nat := 31

/-- The greatest width of a multiplier register. -/
def maxRegisterBits : Nat := 32

/-- The greatest shift budget: shifts are stored as signed bytes. -/
def shiftLimit : Nat := 127

/-- The characters with the Unicode property `White_Space`. -/
def isWhiteSpace (c : Char) : Bool :=
  let n := c.toNat
  (0x09 ≤ n && n ≤ 0x0D) || n == 0x20 || n == 0x85 || n == 0xA0 || n == 0x1680 ||
    (0x2000 ≤ n && n ≤ 0x200A) || n == 0x2028 || n == 0x2029 || n == 0x202F || n == 0x205F ||
    n == 0x3000

/-- What is wrong with a settings value. -/
inductive Violation where
  | blankName
  | activationBits (bits : UInt32)
  | mulBits (bits : UInt32)
  | maxShift (shift : UInt8)
  | batchSize (size : UInt64)
  | mean (value : Single)
  | std (value : Single)
deriving DecidableEq

namespace Violation

private def withNat (before : String) (n : Nat) (after : String) : String :=
  before ++ String.ofList (writeInt n) ++ after

def message : Violation → String
  | .blankName => "Target profile name cannot be empty"
  | .activationBits n => withNat "Invalid activation bits: " n.toNat " (must be in 1..=31)"
  | .mulBits n => withNat "Invalid multiplier bits: " n.toNat " (must be in 1..=32)"
  | .maxShift n => withNat "Invalid max shift: " n.toNat " (must be <= 127)"
  | .batchSize n => withNat "Invalid batch size: " n.toNat " (must be > 0)"
  | .mean x => "Invalid normalization mean: " ++ x.message ++ " (must be finite)"
  | .std x => "Invalid normalization std: " ++ x.message ++ " (must be finite and > 0.0)"

end Violation

/-- The widths and the shift budget are ones that the hardware model supports, and the name
shows something. -/
def Target.check (t : Target) : Except Violation Unit :=
  if t.name.toList.all isWhiteSpace then .error .blankName
  else if t.activationBits = 0 ∨ maxCodeBits < t.activationBits.toNat then
    .error (.activationBits t.activationBits)
  else if t.mulBits = 0 ∨ maxRegisterBits < t.mulBits.toNat then .error (.mulBits t.mulBits)
  else if shiftLimit < t.maxShift.toNat then .error (.maxShift t.maxShift)
  else .ok ()

/-- Batches are not empty, and the normalization is defined. -/
def Sampling.check (s : Sampling) : Except Violation Unit :=
  if s.batchSize = 0 then .error (.batchSize s.batchSize)
  else if !s.mean.isFinite then .error (.mean s.mean)
  else if !(s.std.isFinite && decide (0 < s.std)) then .error (.std s.std)
  else .ok ()

/-- Target first, then sampling. -/
def Settings.check (s : Settings) : Except Violation Unit := do
  s.target.check
  s.calibration.check

end AffineQuant
