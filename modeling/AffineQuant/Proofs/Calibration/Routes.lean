import AffineQuant.Proofs.AffineCode.Derive
import AffineQuant.Proofs.Binary.ZeroSign
import AffineQuant.Proofs.Calibration.Commutation

/-!
# Routes from samples to codes

A code can be had from samples at once, from the bounds of pieces of them that are united, and from
a store that a pass has filled with the pieces as its batches. Each route folds the samples in a
way of its own, and what it finds is in each case a hull of them (`Bounds.Summarizes`), or nothing
where all samples are NaN. So the routes find the same bounds up to the sign of a zero.

## The sign of a zero

That sign is lost on the way to the code (`AffineCode.derive_congr`). Subtractions, products and
comparisons do not show it in the end. It could matter in one place only, as the sign of a divisor
that is zero, and there the span has been raised to `leastSpan`, which has a sign of its own
(`AffineCode.codedSpan_congr`).

Where no code exists, the bounds and the bias that the failure reports still show the sign.
`Failure.unsigned` removes it, and the failures of two routes are equal up to this and not in
general: there are pieces for which the routes find zeros of different signs and then fail.

## No bounds

Pieces that are NaN throughout, or empty, are left out of the union and skipped by the pass. If
that happens to all of them there is no union, and the other two routes fail in ways of their own:
the one has no samples to go by, and the other does not know the tensor.
-/

namespace AffineQuant

open Binary

/-! ## Derivation without the sign of a zero -/

/-- The failure, zeros in bounds and bias counted as positive. -/
def Failure.unsigned : Failure → Failure
  | .degenerateCode b bits scale bias => .degenerateCode b.unsigned bits scale bias.unsigned
  | failure => failure

section Derive

variable {a b : Bounds} {bits : ℕ}

theorem Bounds.unsigned_eq_iff : a.unsigned = b.unsigned ↔
    a.min.unsigned = b.min.unsigned ∧ a.max.unsigned = b.max.unsigned := by
  rw [unsigned, unsigned, mk.injEq]

theorem Bounds.unsigned_includingZero_congr (h : a.unsigned = b.unsigned) :
    a.includingZero.unsigned = b.includingZero.unsigned := by
  obtain ⟨hmin, hmax⟩ := unsigned_eq_iff.mp h
  rw [unsigned_eq_iff, includingZero, includingZero]
  simp only [lt_congr_right hmin, lt_congr_left hmax]
  constructor
  · split
    · rfl
    · exact hmin
  · split
    · rfl
    · exact hmax

namespace AffineCode

theorem codedSpan_congr (h : a.unsigned = b.unsigned) : codedSpan a = codedSpan b := by
  obtain ⟨hmin, hmax⟩ := Bounds.unsigned_eq_iff.mp (Bounds.unsigned_includingZero_congr h)
  have hspan : (a.includingZero.max.widen - a.includingZero.min.widen).unsigned =
      (b.includingZero.max.widen - b.includingZero.min.widen).unsigned :=
    (unsigned_sub_congr_left (unsigned_convert_congr hmax) _).trans
      (unsigned_sub_congr_right (unsigned_convert_congr hmin) _)
  rw [codedSpan, codedSpan]
  simp only [lt_congr_left hspan]
  split
  · rfl
  · next hfloor =>
    rcases eq_or_denotes_zero hspan with heq | ⟨-, hzero⟩
    · exact heq
    · have hpos := (zpow_two_pos _).trans_le leastSpan_bounds.1
      exact absurd ((hzero.lt_iff leastSpan_denotes.widen).mpr hpos) hfloor

theorem scaleOf_congr (h : a.unsigned = b.unsigned) (bits : ℕ) :
    scaleOf a bits = scaleOf b bits := by
  rw [scaleOf, scaleOf, codedSpan_congr h]

theorem unsigned_biasOf_congr (h : a.unsigned = b.unsigned) (bits : ℕ) :
    (biasOf a bits).unsigned = (biasOf b bits).unsigned := by
  have hmin := (Bounds.unsigned_eq_iff.mp (Bounds.unsigned_includingZero_congr h)).1
  have hmin' : a.includingZero.min.widen.unsigned = b.includingZero.min.widen.unsigned :=
    unsigned_convert_congr hmin
  have hbias := unsigned_roundToWhole_congr <|
    unsigned_mul_congr (unsigned_neg_congr hmin') (scaleOf b bits).widen
  rw [biasOf, biasOf, scaleOf_congr h]
  simp only [lt_congr_right hbias]
  split_ifs
  · rfl
  · exact hbias

/-- The sign of a zero in the bounds does not reach the code. -/
theorem derive_congr (h : a.unsigned = b.unsigned) (bits : ℕ) :
    (derive a bits).mapError Failure.unsigned = (derive b bits).mapError Failure.unsigned := by
  have hbias := unsigned_biasOf_congr h bits
  have hword := toIntWithin_congr hbias (leastInt 32) (greatestInt 32)
  have hnarrow : (biasOf a bits).narrow.unsigned = (biasOf b bits).narrow.unsigned :=
    unsigned_convert_congr hbias
  rw [derive_eq, derive_eq, scaleOf_congr h, isFinite_congr hbias, hword]
  simp only [le_congr_right hbias]
  split
  · rfl
  · split
    · rfl
    · simp only [Except.mapError, Failure.unsigned, h, hnarrow]

end AffineCode

end Derive

/-! ## Pieces -/

namespace Bounds

theorem ofSets?_append_singleton (pieces : List (List Single)) (piece : List Single) :
    ofSets? (pieces ++ [piece]) = join (ofSets? pieces) (ofSamples? piece) := by
  rw [ofSets?, List.filterMap_append, List.foldl_append, ← ofSets?]
  cases hpiece : ofSamples? piece with
  | none =>
    rw [List.filterMap_cons_none hpiece]
    rfl
  | some b =>
    rw [List.filterMap_cons_some hpiece]
    rfl

theorem summarizes_ofSets? (pieces : List (List Single)) :
    Summarizes (ofSets? pieces) {x | x ∈ pieces.flatten} := by
  -- The pieces are folded from the left, so the last one is joined last.
  induction pieces using List.reverseRecOn with
  | nil => exact fun x hx ↦ absurd hx List.not_mem_nil
  | append_singleton pieces piece ih =>
    have hset : {x | x ∈ (pieces ++ [piece]).flatten} =
        {x | x ∈ pieces.flatten} ∪ {x | x ∈ piece} := by
      ext x
      rw [List.flatten_append, List.flatten_singleton]
      exact List.mem_append
    rw [ofSets?_append_singleton, hset]
    exact ih.join (summarizes_ofSamples? piece)

end Bounds

namespace Store

theorem mem_labelledBatches_map {id : TensorId} {pieces : List (List Single)} {x : Single} :
    (id, x) ∈ labelledBatches (pieces.map (Batch.mk id)) ↔ x ∈ pieces.flatten := by
  simp [labelledBatches, labelled]

theorem Summarizes.runCalibration {s : Store} {xs : List (TensorId × Single)}
    (hs : s.Summarizes xs) (schedule : Schedule) (sampling : Sampling) (batches : List Batch) :
    (runCalibration schedule sampling s batches).1.Summarizes (xs ++ labelledBatches batches) := by
  rw [AffineQuant.runCalibration]
  split
  · exact hs.calibrateParallel schedule batches
  · exact hs.calibrate batches

/-- A pass over the pieces knows of their tensor what the samples tell, by however many workers
it is made. -/
theorem summarizes_pieces (schedule : Schedule) (sampling : Sampling) (id : TensorId)
    (pieces : List (List Single)) :
    Bounds.Summarizes
      ((AffineQuant.runCalibration schedule sampling ∅ (pieces.map (Batch.mk id))).1.find? id)
      {x | x ∈ pieces.flatten} := by
  have h := summarizes_empty.runCalibration schedule sampling (pieces.map (Batch.mk id)) id
  have hset : {x | (id, x) ∈ [] ++ labelledBatches (pieces.map (Batch.mk id))} =
      {x | x ∈ pieces.flatten} := by
    ext x
    exact mem_labelledBatches_map
  rwa [hset] at h

end Store

/-! ## Routes -/

open Store

/-- **Routes.** However samples are cut into pieces, the bounds of the pieces together are those
of the samples up to the sign of a zero. If some sample is not NaN, the samples, the bounds of the
pieces and a store that a pass has filled with the pieces lead to one code, or fail alike and for
values that differ at most in the sign of a zero. If there is none, each route says so. -/
theorem routes_agree (pieces : List (List Single)) (id : TensorId) (bits : ℕ)
    (schedule : Schedule) (sampling : Sampling) :
    let samples := pieces.flatten
    let seen := (runCalibration schedule sampling ∅ (pieces.map (Batch.mk id))).1
    (Bounds.ofSets? pieces).map Bounds.unsigned =
      (Bounds.ofSamples? samples).map Bounds.unsigned ∧
    ((∃ x ∈ samples, x.isNaN = false) →
      ∃ b, Bounds.ofSets? pieces = some b ∧
        (AffineCode.derive b bits).mapError Failure.unsigned =
          (AffineCode.ofSamples samples bits).mapError Failure.unsigned ∧
        (seen.code id bits).mapError Failure.unsigned =
          (AffineCode.ofSamples samples bits).mapError Failure.unsigned) ∧
    ((∀ x ∈ samples, x.isNaN = true) →
      Bounds.ofSets? pieces = none ∧
        AffineCode.ofSamples samples bits = .error (.noSamples samples.length) ∧
        seen.code id bits = .error (.unknownTensor id)) := by
  intro samples seen
  have hwhole := Bounds.summarizes_ofSamples? samples
  have hpieces := Bounds.summarizes_ofSets? pieces
  have hseen : Bounds.Summarizes (seen.find? id) {x | x ∈ samples} :=
    summarizes_pieces schedule sampling id pieces
  refine ⟨hpieces.map_unsigned_eq hwhole, ?_, ?_⟩
  · rintro ⟨x, hx, hnan⟩
    obtain ⟨a, ha, hahull⟩ := hwhole.exists_isHull hx hnan
    obtain ⟨b, hb, hbhull⟩ := hpieces.exists_isHull hx hnan
    obtain ⟨c, hc, hchull⟩ := hseen.exists_isHull hx hnan
    have hcode : AffineCode.ofSamples samples bits = AffineCode.derive a bits := by
      rw [AffineCode.ofSamples, ha]
    rw [hcode, code_eq hc]
    exact ⟨b, hb, AffineCode.derive_congr (hbhull.unsigned_eq hahull) bits,
      AffineCode.derive_congr (hchull.unsigned_eq hahull) bits⟩
  · intro hall
    have hnone : ∀ {o : Option Bounds}, Bounds.Summarizes o {x | x ∈ samples} → o = none := by
      intro o ho
      refine Option.not_isSome_iff_eq_none.mp fun hsome ↦ ?_
      obtain ⟨x, hx, hnan⟩ := ho.isSome_iff.mp hsome
      exact Bool.false_ne_true (hnan.symm.trans (hall x hx))
    refine ⟨hnone hpieces, ?_, ?_⟩
    · rw [AffineCode.ofSamples, hnone hwhole]
    · rw [Store.code, Store.bounds, hnone hseen]
      rfl

/-- Pieces with zeros of both signs and without an upper end. -/
def zeroPieces : List (List Single) := [[.nan, zero true], [], [0, .inf false]]

/-- One worker that gets the batches in reverse. -/
def backwards : Schedule := ⟨fun bs ↦ .worker bs.reverse, fun bs ↦ bs.reverse_perm⟩

/-- Two routes that find zeros of different signs, and hence two failures to tell apart. -/
theorem routes_agree_backwards :
    Bounds.ofSets? zeroPieces = some ⟨zero true, .inf false⟩ ∧
      ((runCalibration backwards ⟨1, 0, 1, true⟩ ∅ (zeroPieces.map (Batch.mk ⟨7⟩))).1.code ⟨7⟩ 8 =
        .error (.degenerateCode ⟨0, .inf false⟩ 8 0 (zero true))) ∧
      AffineCode.ofSamples zeroPieces.flatten 8 =
        .error (.degenerateCode ⟨zero true, .inf false⟩ 8 0 0) ∧
      Failure.unsigned (.degenerateCode ⟨0, .inf false⟩ 8 0 (zero true)) =
        Failure.unsigned (.degenerateCode ⟨zero true, .inf false⟩ 8 0 0) := by
  have hseen : (runCalibration backwards ⟨1, 0, 1, true⟩ ∅
      (zeroPieces.map (Batch.mk ⟨7⟩))).1.code ⟨7⟩ 8 =
        .error (.degenerateCode ⟨0, .inf false⟩ 8 0 (zero true)) := by decide +kernel
  have hwhole : AffineCode.ofSamples zeroPieces.flatten 8 =
      .error (.degenerateCode ⟨zero true, .inf false⟩ 8 0 0) := by decide +kernel
  obtain ⟨-, hsome, -⟩ := routes_agree zeroPieces ⟨7⟩ 8 backwards ⟨1, 0, 1, true⟩
  obtain ⟨b, hb, -, hroutes⟩ := hsome ⟨0, by decide, rfl⟩
  rw [hseen, hwhole] at hroutes
  exact ⟨by decide +kernel, hseen, hwhole, Except.error.inj hroutes⟩

end AffineQuant
