import AffineQuant.Proofs.Calibration.Normalization
import AffineQuant.Proofs.Store.History

/-!
# Tracking and normalizing

A pass tracks the extremes of normalized samples. One could as well track the raw samples and
normalize the two extremes at the end. That the two come to the same is not a matter of algebra:
both operations of the normalization are rounded, may overflow and may take several samples to one
number.

## Ends of hulls

What they keep is the order, and they make NaN of NaN alone. Any such operation takes the ends of a
hull to the ends of a hull (`Bounds.IsHull.image`). Where several samples come to lie together the
hull shrinks, but its ends are still the images of the two extremes, and with an infinite image an
end is infinite, as it should be.

## Up to the sign of a zero

Hence an operation of this kind may be applied before a pass or after it (`calibrate_map`). The
bounds agree up to the sign of a zero, which is open already for the extremes of a set: a set has
one hull but for that (`IsHull.unsigned_eq`). Both ways are compared with the set and not with each
other, because the pass over the raw samples and the one over the normalized ones may find
different zeros. The reports are equal, since being NaN is not affected.

A source is the case where the operation is its normalization. Under valid settings that is one of
this kind, also where it overflows (`SampleSource.isMonotone_normalize`).
-/

namespace AffineQuant

open Binary Store

/-! ## Hulls under an operation -/

namespace Bounds

variable {a b : Bounds} {o p : Option Bounds} {S : Set Single} {g : Single → Single}

/-- The bounds with an operation applied to their ends. -/
def map (g : Single → Single) (b : Bounds) : Bounds := ⟨g b.min, g b.max⟩

theorem IsHull.image (hg : IsMonotone g) (h : b.IsHull S) : (b.map g).IsHull (g '' S) := by
  refine ⟨Set.mem_image_of_mem g h.min_mem, Set.mem_image_of_mem g h.max_mem, ?_, ?_, ?_⟩
  · exact (hg.isNaN_eq b.min).trans h.min_isNaN
  · exact (hg.isNaN_eq b.max).trans h.max_isNaN
  · rintro _ ⟨x, hx, rfl⟩ hnan
    obtain ⟨hlo, hhi⟩ := h.encloses x hx ((hg.isNaN_eq x).symm.trans hnan)
    exact ⟨hg.le _ _ hlo, hg.le _ _ hhi⟩

theorem Summarizes.image (hg : IsMonotone g) (h : Summarizes o S) :
    Summarizes (o.map (map g)) (g '' S) := by
  cases o with
  | none =>
    rintro _ ⟨x, hx, rfl⟩
    exact (hg.isNaN_eq x).trans (h x hx)
  | some b => exact IsHull.image hg h

theorem IsHull.isLowest (h : b.IsHull S) : b.min.IsLowest S :=
  ⟨h.min_mem, fun y hy hnan ↦ (h.encloses y hy hnan).1⟩

theorem IsHull.isHighest (h : b.IsHull S) : b.max.IsHighest S :=
  ⟨h.max_mem, fun y hy hnan ↦ (h.encloses y hy hnan).2⟩

theorem IsHull.unsigned_eq (ha : a.IsHull S) (hb : b.IsHull S) : a.unsigned = b.unsigned := by
  rw [unsigned, unsigned, ha.isLowest.unsigned_eq hb.isLowest,
    ha.isHighest.unsigned_eq hb.isHighest]

theorem Summarizes.map_unsigned_eq (ho : Summarizes o S) (hp : Summarizes p S) :
    o.map unsigned = p.map unsigned := by
  refine map_unsigned_eq_of (ho.isSome_iff.trans hp.isSome_iff.symm) ?_
  rintro a b rfl rfl
  exact IsHull.unsigned_eq ho hp

end Bounds

/-! ## Passes under an operation -/

section Pass

variable {g : Single → Single}

theorem Batch.isUsable_map (hg : IsMonotone g) (b : Batch) : (b.map g).isUsable = b.isUsable := by
  rw [isUsable, isUsable, map, List.any_map]
  congr 1
  ext x
  rw [Function.comp_apply, hg.isNaN_eq]

theorem Batch.report_map (hg : IsMonotone g) (b : Batch) : (b.map g).report = b.report := by
  rw [report, report, isSome_entry?, isSome_entry?, isUsable_map hg, map, List.length_map]

theorem reportOf_map (hg : IsMonotone g) (batches : List Batch) :
    reportOf (batches.map (Batch.map g)) = reportOf batches := by
  rw [reportOf, reportOf, List.map_map]
  congr 2
  ext b
  exact Batch.report_map hg b

/-- A monotone operation may be applied to all samples before a pass or to the bounds after it. -/
theorem calibrate_map (hg : IsMonotone g) (batches : List Batch) :
    (∀ id, ((calibrate ∅ (batches.map (Batch.map g))).1.find? id).map Bounds.unsigned =
      ((calibrate ∅ batches).1.find? id).map fun b ↦ (b.map g).unsigned) ∧
    (calibrate ∅ (batches.map (Batch.map g))).2 = (calibrate ∅ batches).2 := by
  constructor
  · intro id
    have hraw := (summarizes_calibrate_empty batches id).image hg
    rw [← samplesOf_map] at hraw
    rw [(summarizes_calibrate_empty _ id).map_unsigned_eq hraw, Option.map_map]
    rfl
  · rw [report_calibrate, report_calibrate, reportOf_map hg]

end Pass

/-! ## Passes over a source -/

namespace SampleSource

variable {source : SampleSource} {sampling : Sampling} {tensors : List (TensorId × List Single)}

theorem summarizes_calibrate_rawBatches (source : SampleSource) (id : TensorId) :
    Bounds.Summarizes ((calibrate ∅ source.rawBatches).1.find? id) (source.keptOf id) := by
  rw [← samplesOf_rawBatches]
  exact summarizes_calibrate_empty source.rawBatches id

theorem exists_isHull_keptOf {id : TensorId} (h : ∃ x ∈ source.keptOf id, x.isNaN = false) :
    ∃ b : Bounds, b.IsHull (source.keptOf id) := by
  obtain ⟨x, hx, hnan⟩ := h
  obtain ⟨b, -, hb⟩ := (source.summarizes_calibrate_rawBatches id).exists_isHull hx hnan
  exact ⟨b, hb⟩

/-- What a pass knows of a label are the raw samples that are kept of its tensors, normalized. -/
theorem find?_calibrate_batches (hcheck : source.sampling.check = .ok ()) {id : TensorId}
    {o : Option Bounds} (ho : Bounds.Summarizes o (source.keptOf id)) :
    ((calibrate ∅ source.batches).1.find? id).map Bounds.unsigned =
      o.map fun b ↦ (b.map source.normalize).unsigned := by
  have hseen := summarizes_calibrate_empty source.batches id
  rw [samplesOf_batches] at hseen
  rw [hseen.map_unsigned_eq (ho.image (isMonotone_normalize hcheck)), Option.map_map]
  rfl

/-- **Tracking normalized samples.** Where a source is made, a pass from nothing knows of a label
the least and the greatest of the raw samples that are kept of its tensors, each of them normalized,
up to the sign of a zero; NaN does not count, and a label with nothing else has no bounds. A batch
is skipped exactly if its raw samples are NaN. So the pass comes to the same as one over the raw
batches whose bounds are normalized afterwards. -/
theorem calibrate_normalized (hsource : ofTensors tensors sampling = .ok source) :
    source = ⟨tensors, sampling⟩ ∧
    (∀ id lo hi, Bounds.IsHull ⟨lo, hi⟩ (source.keptOf id) →
      ((calibrate ∅ source.batches).1.find? id).map Bounds.unsigned =
        some (Bounds.unsigned
          ⟨(lo - sampling.mean) / sampling.std, (hi - sampling.mean) / sampling.std⟩)) ∧
    (∀ id, (∃ x ∈ source.keptOf id, x.isNaN = false) →
      ∃ b : Bounds, b.IsHull (source.keptOf id)) ∧
    (∀ id, (∀ x ∈ source.keptOf id, x.isNaN = true) →
      (calibrate ∅ source.batches).1.find? id = none) ∧
    source.batches = source.rawBatches.map (Batch.map source.normalize) ∧
    (∀ o b, observe o (Batch.map source.normalize b) =
        (o.1, { o.2 with skipped := o.2.skipped + 1 }) ↔ ∀ x ∈ b.samples, x.isNaN = true) ∧
    (∀ id, ((calibrate ∅ source.batches).1.find? id).map Bounds.unsigned =
      ((calibrate ∅ source.rawBatches).1.find? id).map fun b ↦
        (b.map source.normalize).unsigned) ∧
    (calibrate ∅ source.batches).2 = (calibrate ∅ source.rawBatches).2 := by
  obtain ⟨hcheck, -, hsource⟩ := ofTensors_eq_ok_iff.mp hsource
  have hcheck' : source.sampling.check = .ok () := hsource ▸ hcheck
  have hmono := isMonotone_normalize hcheck'
  refine ⟨hsource, ?_, fun id ↦ exists_isHull_keptOf, ?_, source.batches_eq_map, ?_, ?_⟩
  · intro id lo hi hhull
    subst hsource
    exact find?_calibrate_batches hcheck (o := some ⟨lo, hi⟩) hhull
  · intro id hnan
    exact Option.map_eq_none_iff.mp (find?_calibrate_batches hcheck' (o := none) hnan)
  · intro o b
    rw [observe_eq_skipped_iff]
    refine List.forall_mem_map.trans (forall₂_congr fun x _ ↦ ?_)
    rw [hmono.isNaN_eq]
  · rw [batches_eq_map]
    exact calibrate_map hmono source.rawBatches

/-- Two tensors of one label, one of them with a tail, and a tensor without a usable sample. -/
def scattered : List (TensorId × List Single) :=
  [(⟨1⟩, [.nan, .ofBits 0x7f7fffff, .inf false]), (⟨2⟩, [.nan, .nan]), (⟨1⟩, [-3, .nan, 7, 1])]

/-- Settings under which a sample is lowered by one and divided by a quarter. -/
def quartering : Sampling := ⟨2, 1, .ofBits 0x3e800000, true⟩

/-- The greatest number is finite as a raw sample and overflows as a normalized one. -/
theorem calibrate_normalized_scattered :
    ∃ source, ofTensors scattered quartering = .ok source ∧
      Bounds.IsHull ⟨-3, .ofBits 0x7f7fffff⟩ (source.keptOf ⟨1⟩) ∧
      ((calibrate ∅ source.batches).1.find? ⟨1⟩).map Bounds.unsigned =
        some (Bounds.unsigned ⟨-16, .inf false⟩) ∧
      (calibrate ∅ source.batches).1.find? ⟨2⟩ = none ∧
      (calibrate ∅ source.batches).2 = ⟨3, 6, 1⟩ := by
  have hcheck : quartering.check = .ok () := by decide +kernel
  have hsource : ofTensors scattered quartering = .ok ⟨scattered, quartering⟩ :=
    ofTensors_eq_ok_iff.mpr ⟨hcheck, ⟨_, List.mem_cons_self, by decide⟩, rfl⟩
  obtain ⟨-, hrange, -, hnone, -, -, -, hreport⟩ := calibrate_normalized hsource
  -- What is kept is read off a pass over the raw batches.
  have hone : (calibrate ∅ (mk scattered quartering).rawBatches).1.find? ⟨1⟩ =
      some ⟨-3, .ofBits 0x7f7fffff⟩ := by decide +kernel
  have htwo : (calibrate ∅ (mk scattered quartering).rawBatches).1.find? ⟨2⟩ = none := by
    decide +kernel
  have hhull := summarizes_calibrate_rawBatches (mk scattered quartering) ⟨1⟩
  rw [hone] at hhull
  have hnan := summarizes_calibrate_rawBatches (mk scattered quartering) ⟨2⟩
  rw [htwo] at hnan
  have hends : Bounds.mk ((-3 - quartering.mean) / quartering.std)
      ((.ofBits 0x7f7fffff - quartering.mean) / quartering.std) = ⟨-16, .inf false⟩ := by
    decide +kernel
  have hfound := hrange ⟨1⟩ _ _ hhull
  rw [hends] at hfound
  exact ⟨_, hsource, hhull, hfound, hnone ⟨2⟩ hnan, hreport.trans (by decide +kernel)⟩

end SampleSource

end AffineQuant
