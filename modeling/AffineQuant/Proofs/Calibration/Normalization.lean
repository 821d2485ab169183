import AffineQuant.Proofs.AffineCode.Derive
import AffineQuant.Proofs.Binary.Monotone
import AffineQuant.Proofs.Binary.Overflow
import AffineQuant.Proofs.Calibration.Batching
import AffineQuant.Proofs.Calibration.Outcome

/-!
# Codes of normalized samples

For which samples a calibrated tensor has a code. Settings that pass their checks are not enough
for that, and neither are finite samples.

## Samples that leave the format

Samples are normalized in the 32-bit format, so a finite sample may leave it: its difference to the
mean may be too large, or the quotient by a small deviation. `Sampling.IsNormalizable` is the exact
condition, on the exact difference and on the rounded one. Nothing else can happen to a finite
sample under valid settings; in particular it does not become NaN
(`SampleSource.normalize_outcome`).

## Codes

A sample that has become infinite is an end of the bounds of its tensor, and no code is derived from
such bounds (`Bounds.IsHull.isCodable_iff`). That is a property of hulls: bounds in general may have
a code with an infinite end, on the inner side of zero, but the ends of a hull are in order.

Hence a tensor that fills a batch has a code after a pass exactly if all samples that the pass has
seen of it could be normalized (`codeFor_runCalibration_iff`). It has bounds in any case, so the
failure otherwise is that of the derivation, one that counts as internal. Samples in the tail that
is dropped have no part in this, and neither does the schedule, since the hull is that of a set.
-/

namespace AffineQuant

open Store

/-! ## Valid settings -/

/-- The sample can be normalized: neither its difference to the mean nor the quotient by the
deviation overflows. -/
def Sampling.IsNormalizable (sampling : Sampling) (x : Single) : Prop :=
  |x.toRat - sampling.mean.toRat| < overflowBound ∧
    |Format.single.nearest (x.toRat - sampling.mean.toRat)| < overflowBound * sampling.std.toRat

theorem Target.of_check_eq_ok {t : Target} (h : t.check = .ok ()) :
    1 ≤ t.activationBits.toNat ∧ t.activationBits.toNat ≤ 31 := by
  rw [check] at h
  split_ifs at h with hname hbits
  rw [not_or, maxCodeBits, not_lt] at hbits
  refine ⟨?_, hbits.2⟩
  rw [Nat.one_le_iff_ne_zero]
  intro hzero
  exact hbits.1 (UInt32.toNat_inj.mp hzero)

theorem Settings.of_check_eq_ok {settings : Settings} (h : settings.check = .ok ()) :
    settings.target.check = .ok () ∧ settings.calibration.check = .ok () := by
  rw [check] at h
  cases htarget : settings.target.check with
  | error v =>
    rw [htarget] at h
    exact nomatch h
  | ok u =>
    rw [htarget] at h
    exact ⟨rfl, h⟩

/-! ## The samples of a source -/

/-- The batch with an operation applied to its samples. -/
def Batch.map (g : Single → Single) (b : Batch) : Batch := ⟨b.id, b.samples.map g⟩

theorem samplesOf_map (g : Single → Single) (batches : List Batch) (id : TensorId) :
    samplesOf (batches.map (Batch.map g)) id = g '' samplesOf batches id := by
  ext y
  constructor
  · rintro ⟨c, hc, rfl, hy⟩
    obtain ⟨b, hb, rfl⟩ := List.mem_map.mp hc
    obtain ⟨x, hx, rfl⟩ := List.mem_map.mp hy
    exact ⟨x, ⟨b, hb, rfl, hx⟩, rfl⟩
  · rintro ⟨x, ⟨b, hb, rfl, hx⟩, rfl⟩
    exact ⟨b.map g, List.mem_map_of_mem hb, rfl, List.mem_map_of_mem hx⟩

namespace SampleSource

variable {source : SampleSource} {sampling : Sampling} {id : TensorId}
  {tensors : List (TensorId × List Single)} {x : Single}

/-- The samples that are kept of the tensors of a label. -/
def keptOf (source : SampleSource) (id : TensorId) : Set Single :=
  {x | ∃ t ∈ source.tensors, t.1 = id ∧ x ∈ source.kept t.2}

/-- The batches before they are normalized. -/
def rawBatches (source : SampleSource) : List Batch :=
  source.tensors.flatMap fun t ↦ (wholeParts source.batchSize (source.kept t.2)).map (Batch.mk t.1)

theorem batches_eq_map (source : SampleSource) :
    source.batches = source.rawBatches.map (Batch.map source.normalize) := by
  rw [batches, rawBatches, List.map_flatMap]
  refine List.flatMap_congr fun t _ ↦ ?_
  rw [batchesOf, List.map_map]
  rfl

theorem samplesOf_rawBatches (source : SampleSource) (id : TensorId) :
    samplesOf source.rawBatches id = source.keptOf id := by
  ext x
  constructor
  · rintro ⟨b, hb, rfl, hx⟩
    obtain ⟨t, ht, hb⟩ := List.mem_flatMap.mp hb
    obtain ⟨part, hpart, rfl⟩ := List.mem_map.mp hb
    refine ⟨t, ht, rfl, ?_⟩
    rw [← flatten_wholeParts_kept]
    exact List.mem_flatten_of_mem hpart hx
  · rintro ⟨t, ht, rfl, hx⟩
    rw [← flatten_wholeParts_kept] at hx
    obtain ⟨part, hpart, hx⟩ := List.mem_flatten.mp hx
    exact ⟨_, List.mem_flatMap.mpr ⟨t, ht, List.mem_map_of_mem hpart⟩, rfl, hx⟩

theorem samplesOf_batches (source : SampleSource) (id : TensorId) :
    samplesOf source.batches id = source.normalize '' source.keptOf id := by
  rw [batches_eq_map, samplesOf_map, samplesOf_rawBatches]

/-- Normalization keeps the order of the samples, also where it overflows. -/
theorem isMonotone_normalize (hcheck : source.sampling.check = .ok ()) :
    Binary.IsMonotone source.normalize := by
  obtain ⟨-, hmean, hstd, hpos⟩ := Sampling.of_check_eq_ok hcheck
  have hstd' := Binary.denotes_toRat hstd
  exact (Binary.isMonotone_div hstd' (((Binary.denotes_zero false).lt_iff hstd').mp hpos)).comp
    (Binary.isMonotone_sub hmean)

theorem normalize_outcome (hcheck : source.sampling.check = .ok ()) (hx : x.isFinite = true) :
    (source.normalize x).isNaN = false ∧
      ((source.normalize x).isFinite = true ↔ source.sampling.IsNormalizable x) := by
  obtain ⟨-, hmean, hstd, hpos⟩ := Sampling.of_check_eq_ok hcheck
  have hpos' := ((Binary.denotes_zero false).lt_iff (Binary.denotes_toRat hstd)).mp hpos
  exact Binary.sub_div_outcome (Binary.denotes_toRat hx) (Binary.denotes_toRat hmean)
    (Binary.denotes_toRat hstd) hpos'

theorem isFinite_of_mem_kept (hfinite : ∀ t ∈ source.tensors, ∀ x ∈ t.2, x.isFinite = true)
    {t : TensorId × List Single} (ht : t ∈ source.tensors) (hx : x ∈ source.kept t.2) :
    x.isFinite = true :=
  hfinite t ht x (List.mem_of_mem_take hx)

theorem forall_samplesOf_ne_inf_iff (hcheck : source.sampling.check = .ok ())
    (hfinite : ∀ t ∈ source.tensors, ∀ x ∈ t.2, x.isFinite = true) (id : TensorId) :
    (∀ y ∈ samplesOf source.batches id, ∀ negative, y ≠ .inf negative) ↔
      ∀ t ∈ source.tensors, t.1 = id → ∀ x ∈ source.kept t.2, source.sampling.IsNormalizable x := by
  rw [samplesOf_batches]
  constructor
  · intro hne t ht hid x hx
    obtain ⟨hnan, hiff⟩ := normalize_outcome hcheck (isFinite_of_mem_kept hfinite ht hx)
    exact hiff.mp (Binary.isFinite_of_ne_inf hnan (hne _ ⟨x, ⟨t, ht, hid, hx⟩, rfl⟩))
  · rintro hall _ ⟨x, ⟨t, ht, hid, hx⟩, rfl⟩ negative hinf
    obtain ⟨-, hiff⟩ := normalize_outcome hcheck (isFinite_of_mem_kept hfinite ht hx)
    have hnormal := hiff.mpr (hall t ht hid x hx)
    rw [hinf] at hnormal
    exact Bool.false_ne_true hnormal

theorem exists_mem_samplesOf (hcheck : source.sampling.check = .ok ())
    (hfinite : ∀ t ∈ source.tensors, ∀ x ∈ t.2, x.isFinite = true) {t : TensorId × List Single}
    (ht : t ∈ source.tensors) (hfull : source.batchSize ≤ t.2.length) :
    ∃ y ∈ samplesOf source.batches t.1, y.isNaN = false := by
  have hpos := (Sampling.of_check_eq_ok hcheck).1
  obtain ⟨x, hx⟩ := List.exists_mem_of_ne_nil _ (mt (kept_eq_nil_iff hpos).mp (not_lt.mpr hfull))
  rw [samplesOf_batches]
  exact ⟨_, ⟨x, ⟨t, ht, rfl, hx⟩, rfl⟩,
    (normalize_outcome hcheck (isFinite_of_mem_kept hfinite ht hx)).1⟩

end SampleSource

/-! ## Codes of hulls -/

namespace Bounds

variable {b : Bounds} {S : Set Single}

/-- A code is derived from bounds that are infinite to the other side, but such bounds are not
ordered. -/
theorem IsCodable.isFinite (h : b.IsCodable) (hle : b.min ≤ b.max) : b.IsFinite := by
  obtain ⟨hmin, hmax, hlow, hhigh⟩ := h
  constructor
  · refine Binary.isFinite_of_ne_inf hmin ?_
    rintro (_ | _) hinf
    · rw [hinf] at hle
      exact hhigh (Binary.eq_inf_of_inf_le hle)
    · exact hlow hinf
  · refine Binary.isFinite_of_ne_inf hmax ?_
    rintro (_ | _) hinf
    · exact hhigh hinf
    · rw [hinf] at hle
      exact hlow (Binary.eq_inf_of_le_inf hle)

theorem IsHull.isCodable_iff (h : b.IsHull S) :
    b.IsCodable ↔ ∀ x ∈ S, ∀ negative, x ≠ .inf negative := by
  rw [← h.isFinite_iff]
  constructor
  · intro hcodable
    exact hcodable.isFinite h.min_le_max
  · rintro ⟨hmin, hmax⟩
    exact isCodable_of_isFinite hmin hmax

end Bounds

/-! ## Codes after a pass -/

theorem Store.codeFor_eq {s : Store} {id : TensorId} {b : Bounds} (h : s.find? id = some b)
    (t : Target) : s.codeFor id t = AffineCode.derive b t.activationBits.toNat :=
  code_eq h t.activationBits.toNat

theorem exists_isHull_runCalibration (schedule : Schedule) (sampling : Sampling)
    {batches : List Batch} {id : TensorId} {y : Single} (hy : y ∈ samplesOf batches id)
    (hnan : y.isNaN = false) :
    ∃ b, (runCalibration schedule sampling ∅ batches).1.find? id = some b ∧
      b.IsHull (samplesOf batches id) := by
  have hsummarizes : (runCalibration schedule sampling ∅ batches).1.Summarizes
      (labelledBatches batches) := by
    rw [runCalibration]
    split
    · exact summarizes_empty.calibrateParallel schedule batches
    · exact summarizes_empty.calibrate batches
  have h := hsummarizes id
  rw [setOf_mem_labelledBatches] at h
  exact h.exists_isHull hy hnan

/-- **Codes after a pass.** Under valid settings a tensor of finite samples that fills a batch has a
code for the target exactly if all its kept samples can be normalized. If there is none, the
failure is an internal one. -/
theorem codeFor_runCalibration_iff {settings : Settings} {tensors : List (TensorId × List Single)}
    {source : SampleSource} (hsettings : settings.check = .ok ())
    (hsource : SampleSource.ofTensors tensors settings.calibration = .ok source)
    (hfinite : ∀ t ∈ tensors, ∀ x ∈ t.2, x.isFinite = true) (schedule : Schedule) {id : TensorId}
    (hid : ∃ t ∈ tensors, t.1 = id ∧ source.batchSize ≤ t.2.length) :
    ((∃ c, (runCalibration schedule settings.calibration ∅ source.batches).1.codeFor id
        settings.target = .ok c) ↔
      ∀ t ∈ tensors, t.1 = id → ∀ x ∈ source.kept t.2, settings.calibration.IsNormalizable x) ∧
    ∀ failure, (runCalibration schedule settings.calibration ∅ source.batches).1.codeFor id
        settings.target = .error failure → failure.isInternal = true := by
  obtain ⟨hsampling, -, rfl⟩ := SampleSource.ofTensors_eq_ok_iff.mp hsource
  have htarget := (Settings.of_check_eq_ok hsettings).1
  obtain ⟨t, ht, rfl, hfull⟩ := hid
  obtain ⟨y, hy, hnan⟩ := SampleSource.exists_mem_samplesOf hsampling hfinite ht hfull
  obtain ⟨b, hb, hhull⟩ := exists_isHull_runCalibration schedule settings.calibration hy hnan
  have hbits := Target.of_check_eq_ok htarget
  have hnormal : b.IsCodable ↔ ∀ t' ∈ tensors, t'.1 = t.1 →
      ∀ x ∈ (SampleSource.mk tensors settings.calibration).kept t'.2,
        settings.calibration.IsNormalizable x :=
    hhull.isCodable_iff.trans (SampleSource.forall_samplesOf_ne_inf_iff hsampling hfinite t.1)
  rw [Store.codeFor_eq hb, ← hnormal]
  by_cases hcodable : b.IsCodable
  · obtain ⟨c, hc⟩ := AffineCode.exists_derive_eq hcodable hbits
    rw [hc]
    refine ⟨iff_of_true ⟨c, rfl⟩ hcodable, ?_⟩
    rintro failure hfailure
    exact nomatch hfailure
  · rw [AffineCode.derive_eq_degenerateCode hcodable hbits]
    constructor
    · refine iff_of_false ?_ hcodable
      rintro ⟨c, hc⟩
      exact nomatch hc
    · rintro failure hfailure
      obtain rfl := Except.error.inj hfailure
      rfl

/-- Settings under which normalization doubles a sample. -/
def doubling (batchSize : UInt64) (parallel : Bool) : Settings :=
  ⟨.int8, ⟨batchSize, 0, .ofBits 0x3f000000, parallel⟩⟩

/-- A tensor of three samples: half of the greatest number, and the greatest one at the end. -/
def halfFirst : List (TensorId × List Single) :=
  [(⟨1⟩, [.ofBits 0x7effffff, -1, .ofBits 0x7f7fffff])]

/-- The first two samples can be doubled. The last one could not, but it fills no batch. -/
theorem codeFor_runCalibration_half :
    (doubling 2 true).check = .ok () ∧
      ∃ source, SampleSource.ofTensors halfFirst (doubling 2 true).calibration = .ok source ∧
        (∀ t ∈ halfFirst, ∀ x ∈ t.2, x.isFinite = true) ∧
        (∃ c, (runCalibration .halves (doubling 2 true).calibration ∅ source.batches).1.codeFor ⟨1⟩
          (doubling 2 true).target = .ok c) ∧
        ∀ x ∈ source.kept [.ofBits 0x7effffff, -1, .ofBits 0x7f7fffff],
          (doubling 2 true).calibration.IsNormalizable x := by
  have hcheck : (doubling 2 true).check = .ok () := by decide +kernel
  have hfinite : ∀ t ∈ halfFirst, ∀ x ∈ t.2, x.isFinite = true := by decide +kernel
  have hmem : (⟨1⟩, [.ofBits 0x7effffff, -1, .ofBits 0x7f7fffff]) ∈ halfFirst :=
    List.mem_singleton.mpr rfl
  have hsource : SampleSource.ofTensors halfFirst (doubling 2 true).calibration =
      .ok ⟨halfFirst, (doubling 2 true).calibration⟩ :=
    SampleSource.ofTensors_eq_ok_iff.mpr
      ⟨(Settings.of_check_eq_ok hcheck).2, ⟨_, hmem, by decide⟩, rfl⟩
  have hok : ∃ c, (runCalibration .halves (doubling 2 true).calibration ∅
      (SampleSource.mk halfFirst (doubling 2 true).calibration).batches).1.codeFor ⟨1⟩
        (doubling 2 true).target = .ok c := ⟨⟨0, .ofBits 0x037f0001⟩, by decide +kernel⟩
  obtain ⟨hiff, -⟩ :=
    codeFor_runCalibration_iff hcheck hsource hfinite .halves ⟨_, hmem, rfl, by decide⟩
  exact ⟨hcheck, _, hsource, hfinite, hok, hiff.mp hok _ hmem rfl⟩

/-- A tensor of one sample, the greatest number. -/
def greatestOnly : List (TensorId × List Single) := [(⟨1⟩, [.ofBits 0x7f7fffff])]

/-- The greatest number cannot be doubled, and the failure is an internal one. -/
theorem codeFor_runCalibration_greatest :
    (doubling 1 false).check = .ok () ∧
      ∃ source, SampleSource.ofTensors greatestOnly (doubling 1 false).calibration = .ok source ∧
        (∀ t ∈ greatestOnly, ∀ x ∈ t.2, x.isFinite = true) ∧ source.batchSize = 1 ∧
        (runCalibration .halves (doubling 1 false).calibration ∅ source.batches).1.codeFor ⟨1⟩
          (doubling 1 false).target =
            .error (.degenerateCode ⟨.inf false, .inf false⟩ 8 0 (.zero true)) := by
  have hcheck : (doubling 1 false).check = .ok () := by decide +kernel
  have hsource : SampleSource.ofTensors greatestOnly (doubling 1 false).calibration =
      .ok ⟨greatestOnly, (doubling 1 false).calibration⟩ :=
    SampleSource.ofTensors_eq_ok_iff.mpr
      ⟨(Settings.of_check_eq_ok hcheck).2, ⟨_, List.mem_singleton.mpr rfl, by decide⟩, rfl⟩
  exact ⟨hcheck, _, hsource, by decide +kernel, rfl, by decide +kernel⟩

end AffineQuant
