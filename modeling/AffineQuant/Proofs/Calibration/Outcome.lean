import AffineQuant.Proofs.Calibration.Schedule
import AffineQuant.Proofs.Store.Hull

/-!
# The outcome of a pass

What a pass of one worker leaves behind, said of its batches alone. It is put together from what
one batch contributes, an entry and a report, and from the order of contents.

## The store

A tensor with a usable sample, in whichever of its batches, gets the hull of all its samples joined
to the bounds that it had; any other keeps what it had, bit for bit (`find?_calibrate`). The
batches of a tensor may be spread over the list in any way, so this is not about single batches:
the hull is that of a set of samples (`samplesOf`), and the local store of the pass summarizes this
set for every tensor at once. Equality of the hull would be too much to ask for, since the sign of
a zero depends on the order of the samples, and `IsHull` leaves it open.

## The report

The report counts batches with and without a usable sample, and all samples of the former, NaN
included (`reportOf_eq`). A batch is skipped exactly if all its samples are NaN, and then it leaves
the store as it is (`observe_eq_skipped_iff`).

## Passes in turn

Passes over consecutive parts of a list come to the same as one pass over all of it, since contents
are joins and reports are sums. Also without a batch that has nothing to add the store is the same,
and not only a store that agrees (`calibrate_fst_of_not_usable`).
-/

namespace AffineQuant

open Store

/-! ## Usable batches -/

namespace Batch

/-- The batch has a sample other than NaN. -/
def isUsable (b : Batch) : Bool := b.samples.any fun x ↦ !x.isNaN

theorem isUsable_iff {b : Batch} : b.isUsable = true ↔ ∃ x ∈ b.samples, x.isNaN = false := by
  simp [isUsable]

theorem isUsable_eq_false_iff {b : Batch} :
    b.isUsable = false ↔ ∀ x ∈ b.samples, x.isNaN = true := by
  simp [isUsable]

theorem isSome_entry? (b : Batch) : b.entry?.isSome = b.isUsable := by
  rw [Bool.eq_iff_iff, isUsable_iff, entry?, Option.isSome_map]
  exact (Bounds.summarizes_ofSamples? b.samples).isSome_iff

theorem entry?_eq_none {b : Batch} (h : b.isUsable = false) : b.entry? = none := by
  rwa [← Option.not_isSome_iff_eq_none, isSome_entry?, Bool.not_eq_true]

end Batch

/-! ## The store -/

/-- The samples that batches have of a tensor. -/
def samplesOf (batches : List Batch) (id : TensorId) : Set Single :=
  {x | ∃ b ∈ batches, b.id = id ∧ x ∈ b.samples}

theorem setOf_mem_labelledBatches (batches : List Batch) (id : TensorId) :
    {x | (id, x) ∈ labelledBatches batches} = samplesOf batches id := by
  ext x
  simp only [labelledBatches, labelled, samplesOf, Set.mem_ofPred_eq, List.mem_flatMap,
    List.mem_map, Prod.mk.injEq]
  constructor
  · rintro ⟨b, hb, y, hy, rfl, rfl⟩
    exact ⟨b, hb, rfl, hy⟩
  · rintro ⟨b, hb, rfl, hx⟩
    exact ⟨b, hb, x, hx, rfl, rfl⟩

/-- A pass joins what its batches say of a tensor to what was known of it. -/
theorem find?_calibrate (s : Store) (batches : List Batch) (id : TensorId) :
    ∃ o, Bounds.Summarizes o (samplesOf batches id) ∧
      (calibrate s batches).1.find? id = Bounds.join (s.find? id) o := by
  have h := summarizes_scan (.worker batches) id
  rw [Plan.batches, setOf_mem_labelledBatches] at h
  exact ⟨_, h, find?_recordAll s (scan batches).1.nodup id⟩

theorem exists_isHull_calibrate (s : Store) {batches : List Batch} {id : TensorId} {b : Batch}
    (hb : b ∈ batches) (hid : b.id = id) (husable : b.isUsable = true) :
    ∃ r : Bounds, r.IsHull (samplesOf batches id) ∧
      (calibrate s batches).1.find? id =
        some ((s.find? id).elim r fun prior ↦ prior.union r) := by
  obtain ⟨o, ho, hfind⟩ := find?_calibrate s batches id
  obtain ⟨x, hx, hnan⟩ := Batch.isUsable_iff.mp husable
  obtain ⟨r, rfl, hr⟩ := ho.exists_isHull ⟨b, hb, hid, hx⟩ hnan
  exact ⟨r, hr, hfind⟩

theorem find?_calibrate_of_not_usable (s : Store) {batches : List Batch} {id : TensorId}
    (h : ∀ b ∈ batches, b.id = id → b.isUsable = false) :
    (calibrate s batches).1.find? id = s.find? id := by
  obtain ⟨o, ho, hfind⟩ := find?_calibrate s batches id
  cases o with
  | none => exact hfind
  | some r =>
    have hr : r.IsHull (samplesOf batches id) := ho
    obtain ⟨b, hb, hid, hx⟩ := hr.min_mem
    have := Batch.isUsable_eq_false_iff.mp (h b hb hid) r.min hx
    rw [hr.min_isNaN] at this
    exact absurd this Bool.false_ne_true

theorem summarizes_calibrate_empty (batches : List Batch) (id : TensorId) :
    Bounds.Summarizes ((calibrate ∅ batches).1.find? id) (samplesOf batches id) := by
  obtain ⟨o, ho, hfind⟩ := find?_calibrate ∅ batches id
  rw [hfind]
  cases o with
  | none => exact ho
  | some b => exact ho

theorem isHull_calibrate_empty {batches : List Batch} {id : TensorId} {r : Bounds}
    (h : (calibrate ∅ batches).1.find? id = some r) : r.IsHull (samplesOf batches id) := by
  have hsummarizes := summarizes_calibrate_empty batches id
  rwa [h] at hsummarizes

theorem Bounds.IsHull.min_le_max {r : Bounds} {S : Set Single} (h : r.IsHull S) :
    r.min ≤ r.max :=
  (h.encloses r.max h.max_mem h.max_isNaN).1

theorem calibrate_fst_of_not_usable (s : Store) (before after : List Batch) {b : Batch}
    (h : b.isUsable = false) :
    (calibrate s (before ++ b :: after)).1 = (calibrate s (before ++ after)).1 := by
  have hentries : entriesOf (before ++ b :: after) = entriesOf (before ++ after) := by
    rw [entriesOf_append, entriesOf_append, entriesOf_cons, Batch.entry?_eq_none h]
    rfl
  rw [calibrate, calibrate, scan_eq, scan_eq, hentries]

/-! ## The report -/

theorem report_calibrate (s : Store) (batches : List Batch) :
    (calibrate s batches).2 = reportOf batches := by
  rw [calibrate, scan_eq]

theorem reportOf_eq (batches : List Batch) :
    reportOf batches =
      ⟨(batches.filter fun b ↦ b.isUsable).length,
        ((batches.filter fun b ↦ b.isUsable).map fun b ↦ b.samples.length).sum,
        (batches.filter fun b ↦ !b.isUsable).length⟩ := by
  induction batches with
  | nil => rfl
  | cons b batches ih =>
    rw [reportOf_cons, ih, Batch.report, Batch.isSome_entry?]
    cases h : b.isUsable with
    | true => simp [h, Report.combine, Nat.add_comm]
    | false => simp [h, Report.combine, Nat.add_comm]

/-- A batch is skipped exactly if all its samples are NaN. -/
theorem observe_eq_skipped_iff (o : Observed) (b : Batch) :
    observe o b = (o.1, { o.2 with skipped := o.2.skipped + 1 }) ↔
      ∀ x ∈ b.samples, x.isNaN = true := by
  rw [← Batch.isUsable_eq_false_iff, observe_eq, Batch.report, Batch.isSome_entry?]
  cases h : b.isUsable with
  | false =>
    rw [Batch.entry?_eq_none h]
    exact iff_of_true rfl rfl
  | true =>
    refine iff_of_false (fun heq ↦ ?_) Bool.noConfusion
    have hskipped : o.2.skipped = o.2.skipped + 1 := congrArg (fun r ↦ r.2.skipped) heq
    exact Nat.succ_ne_self _ hskipped.symm

/-! ## Passes in turn -/

/-- Passes over several lists of batches, each on the store that the last one left, with their
reports together. -/
def calibrateInTurn (s : Store) (parts : List (List Batch)) : Store × Report :=
  parts.foldl (fun acc part ↦
    ((calibrate acc.1 part).1, acc.2.combine (calibrate acc.1 part).2)) (s, ∅)

theorem calibrateInTurn_append (s : Store) (parts : List (List Batch)) (part : List Batch) :
    calibrateInTurn s (parts ++ [part]) =
      ((calibrate (calibrateInTurn s parts).1 part).1,
        (calibrateInTurn s parts).2.combine (calibrate (calibrateInTurn s parts).1 part).2) := by
  rw [calibrateInTurn, List.foldl_append]
  rfl

theorem content_calibrateInTurn (s : Store) (parts : List (List Batch)) :
    (calibrateInTurn s parts).1.content = s.content ⊔ contentOf (entriesOf parts.flatten) := by
  induction parts using List.reverseRecOn with
  | nil => exact (sup_bot_eq _).symm
  | append_singleton parts part ih =>
    rw [calibrateInTurn_append, content_calibrate, ih, List.flatten_append, entriesOf_append,
      contentOf_append, List.flatten_singleton, sup_assoc]

theorem report_calibrateInTurn (s : Store) (parts : List (List Batch)) :
    (calibrateInTurn s parts).2 = reportOf parts.flatten := by
  induction parts using List.reverseRecOn with
  | nil => rfl
  | append_singleton parts part ih =>
    rw [calibrateInTurn_append, report_calibrate, ih, List.flatten_append, reportOf_append,
      List.flatten_singleton]

/-- **The outcome of a pass.** The bounds of every tensor and the report, from the batches and the
store that the pass began with. -/
theorem calibrate_outcome (s : Store) (batches : List Batch) :
    (∀ id, (∃ b ∈ batches, b.id = id ∧ b.isUsable = true) →
      ∃ r : Bounds, r.IsHull (samplesOf batches id) ∧
        (calibrate s batches).1.find? id =
          some ((s.find? id).elim r fun prior ↦ prior.union r)) ∧
    (∀ id, (∀ b ∈ batches, b.id = id → b.isUsable = false) →
      (calibrate s batches).1.find? id = s.find? id) ∧
    (∀ id r, (calibrate ∅ batches).1.find? id = some r →
      r.min ≤ r.max ∧ r.IsHull (samplesOf batches id)) ∧
    (calibrate s batches).2 =
      ⟨(batches.filter fun b ↦ b.isUsable).length,
        ((batches.filter fun b ↦ b.isUsable).map fun b ↦ b.samples.length).sum,
        (batches.filter fun b ↦ !b.isUsable).length⟩ ∧
    (∀ parts : List (List Batch), parts.flatten = batches →
      SameOutcome (calibrateInTurn s parts) (calibrate s batches)) ∧
    ∀ before b after, batches = before ++ b :: after → b.isUsable = false →
      (calibrate s batches).1 = (calibrate s (before ++ after)).1 := by
  refine ⟨?_, ?_, ?_, ?_, ?_, ?_⟩
  · rintro id ⟨b, hb, hid, husable⟩
    exact exists_isHull_calibrate s hb hid husable
  · intro id h
    exact find?_calibrate_of_not_usable s h
  · intro id r h
    have hr := isHull_calibrate_empty h
    exact ⟨hr.min_le_max, hr⟩
  · rw [report_calibrate, reportOf_eq]
  · rintro parts rfl
    constructor
    · rw [agrees_iff_content_eq, content_calibrateInTurn, content_calibrate]
    · rw [report_calibrateInTurn, report_calibrate]
  · rintro before b after rfl h
    exact calibrate_fst_of_not_usable s before after h

end AffineQuant
