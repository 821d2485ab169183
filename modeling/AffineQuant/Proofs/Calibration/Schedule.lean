import AffineQuant.Calibration.Pass
import AffineQuant.Proofs.Store.Content

/-!
# Independence of the schedule

A pass is determined by the entries and the reports that its batches contribute. One worker
records the entries of its batches in order (`scan_eq`). For several workers the order is lost,
but contents are joins and reports are sums, so what a plan observes depends only on the batches
that it hands out (`Plan.content_scan`, `Plan.report_scan`), and not even on their order.

## Plans

A plan is a binary tree with batches at its leaves, so these are inductions with two cases and no
bookkeeping: neither the number of workers nor the balance of the tree appears. Leaves may be
empty, and a schedule may choose the plan as it likes as long as each batch is handed out once.
Nothing would be gained by describing a particular way of stealing work.

## Equal outcomes

The stores themselves may differ between schedules, in the order of their entries and in the signs
of zeros. `SameOutcome` is therefore agreement of the stores and equality of the reports.
Agreement is equality of contents, which is why the whole argument can be made about contents and
no store is ever compared with another entry by entry.
-/

namespace AffineQuant

open Store

/-! ## What batches contribute -/

/-- The entry that a batch adds to a store; without a usable sample there is none. -/
def Batch.entry? (b : Batch) : Option (TensorId × Bounds) :=
  (Bounds.ofSamples? b.samples).map fun r ↦ (b.id, r)

/-- The report of a pass over one batch. -/
def Batch.report (b : Batch) : Report :=
  if b.entry?.isSome then ⟨1, b.samples.length, 0⟩ else ⟨0, 0, 1⟩

/-- The entries that batches add to a store. -/
def entriesOf (batches : List Batch) : List (TensorId × Bounds) := batches.filterMap Batch.entry?

theorem entriesOf_cons (b : Batch) (batches : List Batch) :
    entriesOf (b :: batches) = b.entry?.toList ++ entriesOf batches := by
  rw [entriesOf, entriesOf, List.filterMap_cons]
  cases b.entry? <;> rfl

theorem entriesOf_append (l l' : List Batch) :
    entriesOf (l ++ l') = entriesOf l ++ entriesOf l' :=
  List.filterMap_append

theorem entriesOf_perm {l l' : List Batch} (h : l.Perm l') :
    (entriesOf l).Perm (entriesOf l') :=
  h.filterMap _

/-- The report of a pass over batches. -/
def reportOf (batches : List Batch) : Report := (batches.map Batch.report).foldr Report.combine ∅

instance : Std.Commutative Report.combine := ⟨Report.combine_comm⟩
instance : Std.Associative Report.combine := ⟨Report.combine_assoc⟩

@[simp] theorem reportOf_cons (b : Batch) (batches : List Batch) :
    reportOf (b :: batches) = b.report.combine (reportOf batches) := rfl

theorem reportOf_append (l l' : List Batch) :
    reportOf (l ++ l') = (reportOf l).combine (reportOf l') := by
  induction l with
  | nil => exact (Report.empty_combine _).symm
  | cons b l ih => rw [List.cons_append, reportOf_cons, reportOf_cons, ih, Report.combine_assoc]

theorem reportOf_perm {l l' : List Batch} (h : l.Perm l') : reportOf l = reportOf l' :=
  (h.map Batch.report).foldr_op_eq

/-! ## One worker -/

theorem observe_eq (o : Observed) (b : Batch) :
    observe o b = (o.1.recordAll b.entry?.toList, o.2.combine b.report) := by
  rw [observe, recordSamples, Batch.report, Batch.entry?]
  cases Bounds.ofSamples? b.samples <;> rfl

theorem foldl_observe_eq (batches : List Batch) (o : Observed) :
    batches.foldl observe o =
      (o.1.recordAll (entriesOf batches), o.2.combine (reportOf batches)) := by
  induction batches generalizing o with
  | nil => exact Prod.ext rfl (Report.combine_empty o.2).symm
  | cons b batches ih =>
    rw [List.foldl_cons, ih, observe_eq, reportOf_cons, Report.combine_assoc, entriesOf_cons,
      recordAll_append]

theorem scan_eq (batches : List Batch) :
    scan batches = (ofList (entriesOf batches), reportOf batches) := by
  rw [scan, foldl_observe_eq, Report.empty_combine, ofList]

/-! ## Several workers -/

namespace Plan

/-- Workers that share batches between them know as much as one that gets all. -/
theorem content_scan (p : Plan) : p.scan.1.content = contentOf (entriesOf p.batches) := by
  induction p with
  | worker batches => rw [scan, scan_eq, content_ofList, Plan.batches]
  | join left right ihl ihr =>
    rw [scan, content_merge, ihl, ihr, Plan.batches, entriesOf_append, contentOf_append]

theorem report_scan (p : Plan) : p.scan.2 = reportOf p.batches := by
  induction p with
  | worker batches => rw [scan, scan_eq, Plan.batches]
  | join left right ihl ihr => rw [scan, ihl, ihr, Plan.batches, reportOf_append]

end Plan

/-! ## Whole passes -/

/-- The passes leave stores that agree, and equal reports. -/
def SameOutcome (a b : Store × Report) : Prop := a.1.Agrees b.1 ∧ a.2 = b.2

theorem content_calibrate (s : Store) (batches : List Batch) :
    (calibrate s batches).1.content = s.content ⊔ contentOf (entriesOf batches) := by
  rw [calibrate, content_merge, scan_eq, content_ofList]

theorem content_calibrateParallel (schedule : Schedule) (s : Store) (batches : List Batch) :
    (calibrateParallel schedule s batches).1.content =
      s.content ⊔ contentOf (entriesOf batches) := by
  rw [calibrateParallel, content_merge, Plan.content_scan,
    contentOf_perm (entriesOf_perm (schedule.perm batches))]

/-- The outcome of a pass does not depend on the number of workers, on the way the batches are
divided among them, or on the way their results are joined. -/
theorem calibrateParallel_sameOutcome (schedule : Schedule) (s : Store) (batches : List Batch) :
    SameOutcome (calibrateParallel schedule s batches) (calibrate s batches) ∧
      ∀ sampling : Sampling,
        SameOutcome (runCalibration schedule { sampling with parallel := true } s batches)
          (runCalibration schedule { sampling with parallel := false } s batches) := by
  have h : SameOutcome (calibrateParallel schedule s batches) (calibrate s batches) := by
    refine ⟨agrees_iff_content_eq.mpr ?_, ?_⟩
    · rw [content_calibrateParallel, content_calibrate]
    · rw [calibrateParallel, calibrate, Plan.report_scan, scan_eq]
      exact reportOf_perm (schedule.perm batches)
  exact ⟨h, fun _ ↦ h⟩

end AffineQuant
