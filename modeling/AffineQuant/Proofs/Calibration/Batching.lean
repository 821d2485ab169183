import AffineQuant.Calibration.Source
import Mathlib.Data.List.Forall2
import Mathlib.Order.Nat
import Mathlib.Tactic.Push
import Mathlib.Tactic.SplitIfs

/-!
# Batches of tensors

What a source keeps of a tensor, into what it cuts that, and how many batches it says there are
are three computations of their own. They agree for all lengths and batch sizes.

## Cutting and joining

Cutting undoes joining parts of equal length (`wholeParts_flatten`), and joining undoes cutting up
to the tail that is not kept (`flatten_wholeParts`). With these two the batches of a tensor can be
described without saying how they are made: they have the right size and together they are its
kept samples (`Sampling.IsCut`), and no other list of batches is like that
(`SampleSource.isCut_iff`). The description needs a batch size other than zero, which valid
settings guarantee.

The sequence of all batches is put together from those of the single tensors, in their order, and
again nothing else has this form (`SampleSource.eq_batches_iff`). Labels may repeat. The groups of
two tensors with one label stay apart, each with a tail of its own that is dropped, so a label does
not say which samples are kept; the description is by tensor, with `List.Forall₂`.

## Refusals

A source is refused for its settings, or else because it would have no batch at all
(`SampleSource.ofTensors_outcome`). That no tensor fills a batch is the same as that nothing is
kept of any (`SampleSource.kept_eq_nil_iff`), and the second is what the source looks at.
-/

namespace AffineQuant

/-! ## Parts of a list -/

section Parts

variable {α β : Type} {n : ℕ} {l part : List α} {parts : List (List α)}

theorem length_wholeParts (n : ℕ) (l : List α) : (wholeParts n l).length = l.length / n := by
  rw [wholeParts, List.length_map, List.length_range]

theorem length_of_mem_wholeParts (h : part ∈ wholeParts n l) : part.length = n := by
  obtain ⟨i, hi, rfl⟩ := List.mem_map.mp h
  -- The part begins at `i * n`, and `n` elements follow since it is not the last multiple.
  have hle : (i + 1) * n ≤ l.length :=
    le_trans (Nat.mul_le_mul_right n (List.mem_range.mp hi)) (Nat.div_mul_le_self _ _)
  rw [Nat.succ_mul] at hle
  rw [List.length_take, List.length_drop]
  omega

theorem flatten_wholeParts (n : ℕ) (l : List α) :
    (wholeParts n l).flatten = l.take (l.length / n * n) := by
  rw [wholeParts]
  generalize l.length / n = k
  induction k with
  | zero => rw [Nat.zero_mul, List.take_zero, List.range_zero, List.map_nil, List.flatten_nil]
  | succ k ih =>
    rw [List.range_succ, List.map_append, List.flatten_append, ih, List.map_singleton,
      List.flatten_singleton, Nat.succ_mul, List.take_add]

theorem wholeParts_append (hpos : 0 < n) (hpart : part.length = n) (l : List α) :
    wholeParts n (part ++ l) = part :: wholeParts n l := by
  have hdiv : (part ++ l).length / n = l.length / n + 1 := by
    rw [List.length_append, hpart, Nat.add_div_left _ hpos]
  rw [wholeParts, hdiv, List.range_succ_eq_map, List.map_cons, List.map_map, wholeParts]
  congr 1
  · rw [Nat.zero_mul, List.drop_zero, List.take_left' hpart]
  · refine List.map_congr_left fun i _ ↦ ?_
    rw [Function.comp_apply, Nat.succ_mul, Nat.add_comm, ← List.drop_drop, List.drop_left' hpart]

theorem wholeParts_flatten (hpos : 0 < n) (h : ∀ part ∈ parts, part.length = n) :
    wholeParts n parts.flatten = parts := by
  induction parts with
  | nil =>
    rw [List.flatten_nil, ← List.length_eq_zero_iff, length_wholeParts, List.length_nil,
      Nat.zero_div]
  | cons part parts ih =>
    rw [List.flatten_cons, wholeParts_append hpos (h part List.mem_cons_self),
      ih fun p hp ↦ h p (List.mem_cons_of_mem part hp)]

theorem wholeParts_map (f : α → β) (n : ℕ) (l : List α) :
    wholeParts n (l.map f) = (wholeParts n l).map (List.map f) := by
  rw [wholeParts, wholeParts, List.length_map, List.map_map]
  refine List.map_congr_left fun i _ ↦ ?_
  rw [Function.comp_apply, List.map_take, List.map_drop]

end Parts

/-! ## Settings -/

theorem Sampling.check_eq_ok_iff {sampling : Sampling} :
    sampling.check = .ok () ↔ 0 < sampling.batchSize.toNat ∧ sampling.mean.isFinite = true ∧
      sampling.std.isFinite = true ∧ 0 < sampling.std := by
  have hzero : sampling.batchSize = 0 ↔ ¬0 < sampling.batchSize.toNat := by
    rw [← UInt64.toNat_inj, Nat.not_lt, Nat.le_zero]
    rfl
  rw [check]
  -- One case for each check that fails, and the last one where all pass.
  split_ifs with hsize hmean hstd
  · exact iff_of_false (fun h ↦ by cases h) fun h ↦ hzero.mp hsize h.1
  · exact iff_of_false (fun h ↦ by cases h) fun h ↦ by simp [h.2.1] at hmean
  · exact iff_of_false (fun h ↦ by cases h) fun h ↦ by simp [h.2.2.1, h.2.2.2] at hstd
  · rw [Bool.not_eq_true, Bool.not_eq_false'] at hmean hstd
    rw [Bool.and_eq_true, decide_eq_true_iff] at hstd
    exact iff_of_true rfl ⟨not_not.mp (mt hzero.mpr hsize), hmean, hstd⟩

theorem Sampling.of_check_eq_ok {sampling : Sampling} (h : sampling.check = .ok ()) :
    0 < sampling.batchSize.toNat ∧ sampling.mean.isFinite = true ∧
      sampling.std.isFinite = true ∧ 0 < sampling.std :=
  check_eq_ok_iff.mp h

/-- What the settings ask of the batches of a tensor: they bear its label and have the right size,
and together they are its samples up to the last full batch, each of them normalized. -/
structure Sampling.IsCut (sampling : Sampling) (t : TensorId × List Single) (bs : List Batch) :
    Prop where
  id_eq : ∀ b ∈ bs, b.id = t.1
  length_eq : ∀ b ∈ bs, b.samples.length = sampling.batchSize.toNat
  flatten_eq : (bs.map Batch.samples).flatten =
    (t.2.take (t.2.length / sampling.batchSize.toNat * sampling.batchSize.toNat)).map
      fun x ↦ (x - sampling.mean) / sampling.std

namespace SampleSource

variable {source : SampleSource} {sampling : Sampling} {tensors : List (TensorId × List Single)}
  {samples : List Single} {t : TensorId × List Single}

/-! ## Sources that are made -/

theorem length_kept (source : SampleSource) (samples : List Single) :
    (source.kept samples).length = samples.length / source.batchSize * source.batchSize := by
  rw [kept, List.length_take, Nat.min_eq_left (Nat.div_mul_le_self _ _)]

theorem kept_eq_nil_iff (hpos : 0 < source.batchSize) :
    source.kept samples = [] ↔ samples.length < source.batchSize := by
  rw [← List.length_eq_zero_iff, length_kept, Nat.mul_eq_zero, or_iff_left hpos.ne',
    Nat.div_eq_zero_iff, or_iff_right hpos.ne']

theorem ofTensors_of_check_eq_error {v : Violation} (h : sampling.check = .error v) :
    ofTensors tensors sampling = .error (.invalid v) := by
  rw [ofTensors, h]
  rfl

theorem ofTensors_of_check_eq_ok (h : sampling.check = .ok ()) :
    ofTensors tensors sampling =
      if ∀ t ∈ tensors, t.2.length < sampling.batchSize.toNat then
        .error (.noFullBatch sampling.batchSize.toNat)
      else .ok ⟨tensors, sampling⟩ := by
  have hpos := (Sampling.of_check_eq_ok h).1
  have hall : (tensors.all fun t ↦ (SampleSource.mk tensors sampling |>.kept t.2).isEmpty) = true ↔
      ∀ t ∈ tensors, t.2.length < sampling.batchSize.toNat := by
    rw [List.all_eq_true]
    refine forall₂_congr fun t _ ↦ ?_
    rw [List.isEmpty_iff]
    exact kept_eq_nil_iff hpos
  rw [ofTensors, h]
  exact if_congr hall rfl rfl

theorem ofTensors_eq_ok_iff :
    ofTensors tensors sampling = .ok source ↔
      sampling.check = .ok () ∧ (∃ t ∈ tensors, sampling.batchSize.toNat ≤ t.2.length) ∧
        source = ⟨tensors, sampling⟩ := by
  cases hcheck : sampling.check with
  | error v =>
    rw [ofTensors_of_check_eq_error hcheck]
    exact iff_of_false (fun h ↦ nomatch h) fun h ↦ nomatch h.1
  | ok u =>
    rw [ofTensors_of_check_eq_ok hcheck]
    split_ifs with hshort
    · refine iff_of_false (fun h ↦ nomatch h) ?_
      rintro ⟨-, ⟨t, ht, hfull⟩, -⟩
      exact absurd hfull (not_le.mpr (hshort t ht))
    · push Not at hshort
      rw [Except.ok.injEq, eq_comm]
      exact ⟨fun h ↦ ⟨rfl, hshort, h⟩, fun h ↦ h.2.2⟩

theorem ofTensors_eq_invalid_iff {v : Violation} :
    ofTensors tensors sampling = .error (.invalid v) ↔ sampling.check = .error v := by
  cases hcheck : sampling.check with
  | error v' =>
    rw [ofTensors_of_check_eq_error hcheck, Except.error.injEq, Except.error.injEq,
      Failure.invalid.injEq]
  | ok u =>
    rw [ofTensors_of_check_eq_ok hcheck]
    refine iff_of_false ?_ fun h ↦ nomatch h
    split_ifs
    · exact fun h ↦ nomatch h
    · exact fun h ↦ nomatch h

theorem ofTensors_eq_noFullBatch_iff :
    ofTensors tensors sampling = .error (.noFullBatch sampling.batchSize.toNat) ↔
      sampling.check = .ok () ∧ ∀ t ∈ tensors, t.2.length < sampling.batchSize.toNat := by
  cases hcheck : sampling.check with
  | error v =>
    rw [ofTensors_of_check_eq_error hcheck]
    exact iff_of_false (fun h ↦ nomatch h) fun h ↦ nomatch h.1
  | ok u =>
    rw [ofTensors_of_check_eq_ok hcheck]
    split_ifs with hshort
    · exact iff_of_true rfl ⟨rfl, hshort⟩
    · exact iff_of_false (fun h ↦ nomatch h) fun h ↦ hshort h.2

/-! ## Batches of one tensor -/

theorem flatten_wholeParts_kept (source : SampleSource) (samples : List Single) :
    (wholeParts source.batchSize (source.kept samples)).flatten = source.kept samples := by
  have hlength := source.length_kept samples
  rw [flatten_wholeParts]
  refine List.take_of_length_le ?_
  rcases Nat.eq_zero_or_pos source.batchSize with h | h
  · rw [hlength, h, Nat.mul_zero]
  · rw [hlength, Nat.mul_div_cancel _ h]

theorem map_samples_batchesOf (source : SampleSource) (t : TensorId × List Single) :
    (source.batchesOf t).map Batch.samples =
      wholeParts source.batchSize ((source.kept t.2).map source.normalize) := by
  rw [batchesOf, List.map_map, wholeParts_map]
  rfl

theorem isCut_batchesOf (source : SampleSource) (t : TensorId × List Single) :
    source.sampling.IsCut t (source.batchesOf t) := by
  constructor
  · intro b hb
    obtain ⟨part, -, rfl⟩ := List.mem_map.mp hb
    rfl
  · intro b hb
    obtain ⟨part, hpart, rfl⟩ := List.mem_map.mp hb
    exact (List.length_map _).trans (length_of_mem_wholeParts hpart)
  · rw [map_samples_batchesOf, wholeParts_map, ← List.map_flatten, flatten_wholeParts_kept]
    rfl

theorem map_mk_map_samples {id : TensorId} {bs : List Batch} (h : ∀ b ∈ bs, b.id = id) :
    (bs.map Batch.samples).map (Batch.mk id) = bs := by
  rw [List.map_map]
  refine (List.map_congr_left fun b hb ↦ ?_).trans (List.map_id bs)
  rw [Function.comp_apply, ← h b hb]
  rfl

/-- Batches of a tensor are determined by their size and by what they are together. -/
theorem isCut_iff (hpos : 0 < source.batchSize) {bs : List Batch} :
    source.sampling.IsCut t bs ↔ bs = source.batchesOf t := by
  constructor
  · rintro ⟨hid, hlength, hflatten⟩
    have hsamples : bs.map Batch.samples = (source.batchesOf t).map Batch.samples := by
      rw [map_samples_batchesOf]
      exact (wholeParts_flatten hpos (List.forall_mem_map.mpr hlength)).symm.trans
        (congrArg (wholeParts source.batchSize) hflatten)
    calc bs = (bs.map Batch.samples).map (Batch.mk t.1) := (map_mk_map_samples hid).symm
      _ = ((source.batchesOf t).map Batch.samples).map (Batch.mk t.1) := by rw [hsamples]
      _ = source.batchesOf t := map_mk_map_samples (source.isCut_batchesOf t).id_eq
  · rintro rfl
    exact source.isCut_batchesOf t

/-! ## Batches of all tensors -/

theorem length_batches (source : SampleSource) : source.batches.length = source.batchCount := by
  rw [batches, batchCount]
  generalize source.tensors = tensors
  induction tensors with
  | nil => rfl
  | cons t tensors ih =>
    rw [List.flatMap_cons, List.length_append, ih, List.foldr_cons, batchesOf, List.length_map,
      length_wholeParts]

/-- The batches are those of the tensors one after another, and no other sequence is. -/
theorem eq_batches_iff (hpos : 0 < source.batchSize) {bs : List Batch} :
    bs = source.batches ↔
      ∃ groups, List.Forall₂ source.sampling.IsCut source.tensors groups ∧ bs = groups.flatten := by
  have hgroups : ∀ groups, List.Forall₂ source.sampling.IsCut source.tensors groups ↔
      groups = source.tensors.map source.batchesOf := by
    intro groups
    have hcut : source.sampling.IsCut = fun t bs ↦ source.batchesOf t = bs := by
      ext t bs
      rw [isCut_iff hpos, eq_comm]
    rw [hcut, ← List.forall₂_map_left_iff, List.forall₂_eq_eq_eq, eq_comm]
  simp only [hgroups, exists_eq_left, batches, List.flatMap]

/-- **Batching.** A source is refused for settings that fail their check, or else if no tensor
fills a batch. Any other comes with as many batches as it announces, and these are the one sequence
of batches of the right size that, tensor by tensor, are the normalized samples but for the tail. -/
theorem ofTensors_outcome (tensors : List (TensorId × List Single)) (sampling : Sampling) :
    (∀ v, ofTensors tensors sampling = .error (.invalid v) ↔ sampling.check = .error v) ∧
    (ofTensors tensors sampling = .error (.noFullBatch sampling.batchSize.toNat) ↔
      sampling.check = .ok () ∧ ∀ t ∈ tensors, t.2.length < sampling.batchSize.toNat) ∧
    ((∃ source, ofTensors tensors sampling = .ok source) ↔
      sampling.check = .ok () ∧ ∃ t ∈ tensors, sampling.batchSize.toNat ≤ t.2.length) ∧
    ∀ source, ofTensors tensors sampling = .ok source →
      source.batches.length = source.batchCount ∧
      ∀ bs, bs = source.batches ↔
        ∃ groups, List.Forall₂ sampling.IsCut tensors groups ∧ bs = groups.flatten := by
  refine ⟨fun v ↦ ofTensors_eq_invalid_iff, ofTensors_eq_noFullBatch_iff, ?_, ?_⟩
  · constructor
    · rintro ⟨source, hsource⟩
      obtain ⟨hcheck, hfull, -⟩ := ofTensors_eq_ok_iff.mp hsource
      exact ⟨hcheck, hfull⟩
    · rintro ⟨hcheck, hfull⟩
      exact ⟨_, ofTensors_eq_ok_iff.mpr ⟨hcheck, hfull, rfl⟩⟩
  · intro source hsource
    obtain ⟨hcheck, -, rfl⟩ := ofTensors_eq_ok_iff.mp hsource
    have hpos : 0 < (SampleSource.mk tensors sampling).batchSize :=
      (Sampling.of_check_eq_ok hcheck).1
    exact ⟨length_batches _, fun bs ↦ eq_batches_iff hpos⟩

/-- Two tensors of one label with a tail each, and between them one that fills no batch. -/
example : (SampleSource.mk [(⟨1⟩, [1, 2, 3]), (⟨2⟩, [4]), (⟨1⟩, [5, 6, 7])]
    ⟨2, 1, 1, false⟩).batches = [⟨⟨1⟩, [0, 1]⟩, ⟨⟨1⟩, [4, 5]⟩] := by
  decide +kernel

end SampleSource

end AffineQuant
