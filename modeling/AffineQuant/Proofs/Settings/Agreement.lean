import AffineQuant.Proofs.Calibration.Normalization
import AffineQuant.Proofs.MulShift.Encode
import AffineQuant.Settings.Document

/-!
# Checked settings and their users

The checks of settings are written apart from the operations that the settings are for, each of
which checks its arguments again. Two lists of bounds that are kept in two places can drift apart.
Here it is proved that they agree, in both directions.

## Targets

The widths and the shift budget of a target pass exactly if the derivation of codes and the encoder
of multipliers take them (`Target.check_eq_ok_iff_isSupported`). `Target.IsSupported` says so by
the failures of the operations and does not name a number, and `Target.InRange` names the numbers
and stands between the two. That the encoder looks at other arguments first makes no difference,
since the agreement is about all values: zero passes every check that comes before.

The name of a target is used by no operation, so it has to be supposed that it passes.

## Sampling

The agreement cannot be exact for sampling. Settings that the check refuses may well work on some
samples, and settings that pass may take a finite sample to an infinity. What they guarantee is
that there are no empty batches and that no sample becomes NaN.

## Blame

An operation on settings that were read from a document never fails for the sake of the settings
(`NeverBlamed`). The failures that are left name bounds, values or tensors.
-/

namespace AffineQuant

open Binary

/-! ## Failures for the sake of settings -/

namespace Failure

/-- The failure says that a width, a shift budget or a settings value is wrong. -/
def isOfSettings : Failure → Bool
  | .bitWidth .. => true
  | .shiftBudget .. => true
  | .invalid _ => true
  | _ => false

end Failure

variable {failure : Failure}

theorem AffineCode.isOfSettings_derive {b : Bounds} {bits : ℕ} (hbits : 1 ≤ bits ∧ bits ≤ 31)
    (h : derive b bits = .error failure) : failure.isOfSettings = false := by
  rw [derive_eq, if_neg (not_not.mpr hbits)] at h
  split at h
  · cases h
  · obtain rfl := Except.error.inj h
    rfl

theorem MulShift.isOfSettings_encode {value : Single} {width budget : ℕ} {signed : Bool}
    (hwidth : 1 ≤ width ∧ width ≤ 32) (hbudget : budget ≤ 127)
    (h : encode value width budget signed = .error failure) : failure.isOfSettings = false := by
  rw [encode_eq, if_neg (not_not.mpr hwidth), if_neg (not_lt.mpr hbudget)] at h
  split at h
  · obtain rfl := Except.error.inj h
    rfl
  split at h
  · obtain rfl := Except.error.inj h
    rfl
  dsimp only at h
  split at h
  · cases h
  · obtain rfl := Except.error.inj h
    rfl

theorem SampleSource.isOfSettings_ofTensors {sampling : Sampling}
    {tensors : List (TensorId × List Single)} (hcheck : sampling.check = .ok ())
    (h : ofTensors tensors sampling = .error failure) : failure.isOfSettings = false := by
  rw [ofTensors_of_check_eq_ok hcheck] at h
  split at h
  · obtain rfl := Except.error.inj h
    rfl
  · cases h

/-! ## Targets -/

namespace Target

variable {t : Target}

/-- The derivation takes the width of activations for all bounds, and the encoder takes register
width and shift budget for all values. -/
def IsSupported (t : Target) : Prop :=
  (∀ b n least greatest,
    AffineCode.derive b t.activationBits.toNat ≠ .error (.bitWidth n least greatest)) ∧
  ∀ value signed,
    (∀ n least greatest,
      MulShift.encode value t.mulBits.toNat t.maxShift.toNat signed ≠
        .error (.bitWidth n least greatest)) ∧
    ∀ n limit,
      MulShift.encode value t.mulBits.toNat t.maxShift.toNat signed ≠ .error (.shiftBudget n limit)

/-- The widths and the budget that the operations take. -/
def InRange (t : Target) : Prop :=
  (1 ≤ t.activationBits.toNat ∧ t.activationBits.toNat ≤ 31) ∧
    (1 ≤ t.mulBits.toNat ∧ t.mulBits.toNat ≤ 32) ∧ t.maxShift.toNat ≤ 127

private theorem isOutside_iff {n : UInt32} {limit : ℕ} :
    n = 0 ∨ limit < n.toNat ↔ ¬(1 ≤ n.toNat ∧ n.toNat ≤ limit) := by
  have hzero : n = 0 ↔ n.toNat = 0 := UInt32.toNat_inj.symm
  rw [hzero]
  omega

theorem check_eq_ok_iff :
    t.check = .ok () ↔ t.name.toList.all isWhiteSpace = false ∧ t.InRange := by
  rw [check, InRange]
  -- One case for each check that fails, and the last one where all pass.
  split_ifs with hname hactivation hmul hshift
  · exact iff_of_false (fun h ↦ by cases h) fun h ↦ Bool.false_ne_true (h.1.symm.trans hname)
  · exact iff_of_false (fun h ↦ by cases h) fun h ↦ isOutside_iff.mp hactivation h.2.1
  · exact iff_of_false (fun h ↦ by cases h) fun h ↦ isOutside_iff.mp hmul h.2.2.1
  · exact iff_of_false (fun h ↦ by cases h) fun h ↦ not_le.mpr hshift h.2.2.2
  · rw [Bool.not_eq_true] at hname
    exact iff_of_true rfl ⟨hname, not_not.mp (mt isOutside_iff.mpr hactivation),
      not_not.mp (mt isOutside_iff.mpr hmul), not_lt.mp hshift⟩

theorem InRange.isSupported (h : t.InRange) : t.IsSupported := by
  obtain ⟨hactivation, hmul, hshift⟩ := h
  refine ⟨?_, fun value signed ↦ ⟨?_, ?_⟩⟩
  · intro b n least greatest herror
    exact absurd (AffineCode.isOfSettings_derive hactivation herror) Bool.noConfusion
  · intro n least greatest herror
    exact absurd (MulShift.isOfSettings_encode hmul hshift herror) Bool.noConfusion
  · intro n limit herror
    exact absurd (MulShift.isOfSettings_encode hmul hshift herror) Bool.noConfusion

/-- One tensor and one multiplier, both zero, are enough to find out. -/
theorem IsSupported.inRange (h : t.IsSupported) : t.InRange := by
  obtain ⟨hderive, hencode⟩ := h
  obtain ⟨hwidth, hbudget⟩ := hencode 0 false
  have hzero : ¬(0 : Single).isFinite = false := by decide +kernel
  refine ⟨?_, ?_⟩
  · by_contra hout
    exact hderive ⟨0, 0⟩ _ _ _ (by rw [AffineCode.derive_eq, if_pos hout])
  have hmul : 1 ≤ t.mulBits.toNat ∧ t.mulBits.toNat ≤ 32 := by
    by_contra hout
    exact hwidth _ _ _ (by rw [MulShift.encode_eq, if_neg hzero, if_pos hout])
  refine ⟨hmul, ?_⟩
  by_contra hout
  exact hbudget _ _
    (by rw [MulShift.encode_eq, if_neg hzero, if_neg (not_not.mpr hmul), if_pos (not_le.mp hout)])

theorem check_eq_ok_iff_isSupported (hname : t.name.toList.all isWhiteSpace = false) :
    t.check = .ok () ↔ t.IsSupported := by
  rw [check_eq_ok_iff, and_iff_right hname]
  exact ⟨InRange.isSupported, IsSupported.inRange⟩

/-- No operation fails for the sake of the target. -/
def NeverBlamed (t : Target) : Prop :=
  (∀ (s : Store) id failure, s.codeFor id t = .error failure → failure.isOfSettings = false) ∧
    ∀ value signed failure, t.encode value signed = .error failure → failure.isOfSettings = false

theorem neverBlamed_of_check (h : t.check = .ok ()) : t.NeverBlamed := by
  obtain ⟨-, hactivation, hmul, hshift⟩ := check_eq_ok_iff.mp h
  refine ⟨fun s id failure herror ↦ ?_, fun value signed failure herror ↦ ?_⟩
  · cases hfind : s.find? id with
    | none =>
      rw [Store.codeFor, Store.code, Store.bounds, hfind] at herror
      obtain rfl := Except.error.inj herror
      rfl
    | some b =>
      rw [Store.codeFor_eq hfind] at herror
      exact AffineCode.isOfSettings_derive hactivation herror
  · exact MulShift.isOfSettings_encode hmul hshift herror

end Target

/-! ## Sampling -/

namespace Sampling

variable {sampling : Sampling} {x : Single}

theorem isNaN_normalize (h : sampling.check = .ok ()) (tensors : List (TensorId × List Single))
    (hx : x.isNaN = false) : ((SampleSource.mk tensors sampling).normalize x).isNaN = false :=
  ((SampleSource.mk tensors sampling).isMonotone_normalize h).isNaN_eq x |>.trans hx

/-- No source is refused for the sake of the sampling. -/
def NeverBlamed (sampling : Sampling) : Prop :=
  ∀ tensors failure, SampleSource.ofTensors tensors sampling = .error failure →
    failure.isOfSettings = false

theorem neverBlamed_of_check (h : sampling.check = .ok ()) : sampling.NeverBlamed :=
  fun _ _ herror ↦ SampleSource.isOfSettings_ofTensors h herror

end Sampling

/-! ## Settings from documents -/

private theorem checked_eq_ok_iff {α : Type} {check : α → Except Violation Unit} {a b : α} :
    (do Failure.ofCheck (check a); pure a : Except Failure α) = .ok b ↔
      a = b ∧ check b = .ok () := by
  cases hcheck : check a with
  | error v =>
    refine iff_of_false (fun h ↦ by cases h) ?_
    rintro ⟨rfl, h⟩
    cases hcheck.symm.trans h
  | ok u =>
    constructor
    · intro h
      obtain rfl : a = b := Except.ok.inj h
      exact ⟨rfl, hcheck⟩
    · rintro ⟨rfl, -⟩
      rfl

/-- A document is read if it has a value and the value passes its check, whatever the failure of a
document without a value is. -/
private theorem read_eq_ok_iff {α : Type} {o : Option α} {check : α → Except Violation Unit}
    {result : Except Failure α} {failure : Failure} {b : α}
    (hnone : o = none → result = .error failure)
    (hsome : ∀ a, o = some a → result = do Failure.ofCheck (check a); pure a) :
    result = .ok b ↔ o = some b ∧ check b = .ok () := by
  cases o with
  | none =>
    rw [hnone rfl]
    exact iff_of_false (fun h ↦ by cases h) fun h ↦ by cases h.1
  | some a =>
    rw [hsome a rfl, Option.some.injEq]
    exact checked_eq_ok_iff

theorem Settings.parse_eq_ok_iff {text : String} {settings : Settings} :
    parse text = .ok settings ↔
      ((Yaml.parse? text).bind fun root ↦ ofNode? root root) = some settings ∧
        settings.check = .ok () := by
  apply read_eq_ok_iff
  · intro h
    rw [parse, h]
    rfl
  · intro s h
    rw [parse, h]

theorem Target.parse_eq_ok_iff {text : String} {t : Target} :
    parse text = .ok t ↔
      ((Yaml.parse? text).bind fun root ↦ ofNode? root root) = some t ∧ t.check = .ok () := by
  apply read_eq_ok_iff
  · intro h
    rw [parse, h]
    rfl
  · intro s h
    rw [parse, h]

private theorem exists_text_of_load {α : Type} {x : Except Failure String}
    {parse : String → Except Failure α} {a : α} (h : x >>= parse = .ok a) :
    ∃ text, parse text = .ok a := by
  cases x with
  | error failure => cases h
  | ok text => exact ⟨text, h⟩

theorem Settings.check_of_load {path : String} {file : FileState} {settings : Settings}
    (h : load path file = .ok settings) : settings.check = .ok () := by
  obtain ⟨text, htext⟩ := exists_text_of_load h
  exact (parse_eq_ok_iff.mp htext).2

theorem Target.check_of_load {path : String} {file : FileState} {t : Target}
    (h : load path file = .ok t) : t.check = .ok () := by
  obtain ⟨text, htext⟩ := exists_text_of_load h
  exact (parse_eq_ok_iff.mp htext).2

/-- **Agreement.** A target with a name passes its check exactly if the operations take its widths
and its budget. Checked sampling has batches of at least one sample and makes NaN of no sample that
is none. Hence no operation fails for the sake of settings that come from a document. -/
theorem checks_agree :
    (∀ t : Target, t.name.toList.all isWhiteSpace = false →
      (t.check = .ok () ↔ t.IsSupported)) ∧
    (∀ sampling : Sampling, sampling.check = .ok () →
      0 < sampling.batchSize.toNat ∧ ∀ tensors x, x.isNaN = false →
        ((SampleSource.mk tensors sampling).normalize x).isNaN = false) ∧
    (∀ text path file settings,
      Settings.parse text = .ok settings ∨ Settings.load path file = .ok settings →
        settings.target.NeverBlamed ∧ settings.calibration.NeverBlamed) ∧
    ∀ path file t, Target.load path file = .ok t → t.NeverBlamed := by
  refine ⟨fun t ↦ Target.check_eq_ok_iff_isSupported, fun sampling h ↦ ?_, ?_, ?_⟩
  · exact ⟨(Sampling.of_check_eq_ok h).1, fun tensors x ↦ Sampling.isNaN_normalize h tensors⟩
  · rintro text path file settings hread
    obtain ⟨htarget, hsampling⟩ := Settings.of_check_eq_ok
      (hread.elim (fun h ↦ (Settings.parse_eq_ok_iff.mp h).2) Settings.check_of_load)
    exact ⟨Target.neverBlamed_of_check htarget, Sampling.neverBlamed_of_check hsampling⟩
  · intro path file t hread
    exact Target.neverBlamed_of_check (Target.check_of_load hread)

/-- The greatest widths and the greatest budget. -/
def Target.widest : Target := ⟨"npu", 31, 32, 127⟩

/-- The least deviation there is, under which nearly every sample overflows. -/
def Sampling.steepest : Sampling := ⟨1, 0, .ofBits 1, false⟩

/-- The extremes are accepted and supported, and a file that asks for them is read. -/
theorem checks_agree_extremes :
    Target.widest.check = .ok () ∧ Target.widest.IsSupported ∧
      Sampling.steepest.check = .ok () ∧
      ((SampleSource.mk [] .steepest).normalize (.inf true)).isNaN = false ∧
      Settings.parse "target: \x7bmax_shift: 127\x7d" = .ok ⟨⟨"int8", 8, 32, 127⟩, .standard⟩ ∧
      Target.NeverBlamed ⟨"int8", 8, 32, 127⟩ ∧ Sampling.standard.NeverBlamed := by
  have hname : Target.widest.name.toList.all isWhiteSpace = false := by decide +kernel
  have hwidest : Target.widest.check = .ok () := by decide +kernel
  have hsteepest : Sampling.steepest.check = .ok () := by decide +kernel
  have hparse : Settings.parse "target: \x7bmax_shift: 127\x7d" =
      .ok ⟨⟨"int8", 8, 32, 127⟩, .standard⟩ := by decide +kernel
  obtain ⟨htargets, hsamplings, hsettings, -⟩ := checks_agree
  obtain ⟨htarget, hsampling⟩ := hsettings _ "" .missing _ (Or.inl hparse)
  exact ⟨hwidest, (htargets _ hname).mp hwidest, hsteepest, (hsamplings _ hsteepest).2 [] _ rfl,
    hparse, htarget, hsampling⟩

end AffineQuant
