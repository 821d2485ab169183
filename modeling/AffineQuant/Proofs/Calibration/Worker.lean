import AffineQuant.Proofs.Calibration.Outcome
import Mathlib.Data.Multiset.Bind
import Mathlib.Data.Multiset.Fold

/-!
# A worker in a pass

A worker opens any number of local stores, feeds every batch of its source to one of them, gives
each away to be merged when it pleases, and joins the reports in pairs. In which order it does so,
and how the batches are divided among the local stores, `Worker.Step` leaves open. Any program that
divides its batches, works on the parts and merges the results takes some of these steps.

## The invariant

`Worker.HasMerged` says where the batches are. What was merged are scans of parts of the source,
and together with the parts that are underway and the batches that are still queued these are the
whole source, every batch once; the reports that are there are those of the parts merged. A step
moves a batch from one of the three to the next, or nothing (`Step.hasMerged`).

Batches are counted in multisets. Within a local store their order is kept, since a scan depends
on it, and it is given up where parts are put together, since a merged store depends on it only up
to agreement. A worker finishes with nothing queued and nothing underway, so then everything was
merged, and the one report that is left is that of its source (`HasMerged.report_eq`).
-/

namespace AffineQuant

open Store

/-- A worker in a pass over its source. While it is running, some batches of the source are queued,
some local stores are underway, and some reports wait to be joined. -/
inductive Worker where
  | running (source : List Batch) (queue : Multiset Batch) (underway : Multiset Observed)
      (reports : Multiset Report)
  | finished (source : List Batch) (report : Report)

namespace Worker

/-- A worker that has not begun. -/
def start (source : List Batch) : Worker := .running source source 0 0

def source : Worker → List Batch
  | .running source _ _ _ => source
  | .finished source _ => source

def isRunning : Worker → Bool
  | .running _ _ _ _ => true
  | .finished _ _ => false

/-- One step of a worker, and the local store if it merges one. -/
inductive Step : Worker → Option Store → Worker → Prop
  | openLocal {source queue underway reports} :
      Step (.running source queue underway reports) none
        (.running source queue ((∅, ∅) ::ₘ underway) reports)
  | observe {source queue underway reports} (b : Batch) (o : Observed) :
      Step (.running source (b ::ₘ queue) (o ::ₘ underway) reports) none
        (.running source queue (AffineQuant.observe o b ::ₘ underway) reports)
  | mergeLocal {source queue underway reports} (o : Observed) :
      Step (.running source queue (o ::ₘ underway) reports) (some o.1)
        (.running source queue underway (o.2 ::ₘ reports))
  | emptyReport {source queue underway reports} :
      Step (.running source queue underway reports) none
        (.running source queue underway (∅ ::ₘ reports))
  | joinReports {source queue underway reports} (r r' : Report) :
      Step (.running source queue underway (r ::ₘ r' ::ₘ reports)) none
        (.running source queue underway (r.combine r' ::ₘ reports))
  | finish {source} (r : Report) :
      Step (.running source 0 0 {r}) none (.finished source r)

variable {w w' : Worker} {seen? : Option Store} {merged : List Batch}

theorem Step.isRunning (h : Step w seen? w') : w.isRunning = true := by
  cases h <;> rfl

theorem Step.source_eq (h : Step w seen? w') : w'.source = w.source := by
  cases h <;> rfl

/-- The worker has merged the local stores of these batches. Each local store underway is the scan
of a part of the source, and the parts, the batches merged and those queued make up the source. -/
def HasMerged : Worker → List Batch → Prop
  | .running source queue underway reports, merged =>
    ∃ parts : Multiset (List Batch), underway.Rel (fun o part ↦ o = scan part) parts ∧
      (source : Multiset Batch) = merged + parts.bind Multiset.ofList + queue ∧
      reports.fold Report.combine ∅ = reportOf merged
  | .finished source report, merged => merged.Perm source ∧ report = reportOf merged

theorem hasMerged_start (source : List Batch) : (start source).HasMerged [] := by
  refine ⟨0, Multiset.Rel.zero, ?_, rfl⟩
  rw [Multiset.zero_bind, Multiset.coe_nil, zero_add, zero_add]

theorem scan_append_singleton (part : List Batch) (b : Batch) :
    scan (part ++ [b]) = AffineQuant.observe (scan part) b := by
  rw [scan, List.foldl_append, scan]
  rfl

/-- Where nothing is merged there are no new parts. -/
theorem HasMerged.of_none (h : w.HasMerged merged) :
    ∃ parts : List (List Batch), Option.toList none = parts.map (fun part ↦ (scan part).1) ∧
      w.HasMerged (merged ++ parts.flatten) := by
  refine ⟨[], rfl, ?_⟩
  rw [List.flatten_nil, List.append_nil]
  exact h

/-- A step merges at most one local store, the scan of a part of the source. -/
theorem Step.hasMerged (h : Step w seen? w') (hw : w.HasMerged merged) :
    ∃ parts : List (List Batch), seen?.toList = parts.map (fun part ↦ (scan part).1) ∧
      w'.HasMerged (merged ++ parts.flatten) := by
  cases h with
  | openLocal =>
    obtain ⟨parts, hunderway, hsource, hreports⟩ := hw
    refine HasMerged.of_none ⟨[] ::ₘ parts, hunderway.cons rfl, ?_, hreports⟩
    rw [hsource, Multiset.cons_bind, Multiset.coe_nil, zero_add]
  | observe b o =>
    obtain ⟨parts, hunderway, hsource, hreports⟩ := hw
    obtain ⟨part, parts, rfl, hrest, rfl⟩ := Multiset.rel_cons_left.mp hunderway
    refine HasMerged.of_none ⟨(part ++ [b]) ::ₘ parts, hrest.cons ?_, ?_, hreports⟩
    · exact (scan_append_singleton part b).symm
    · rw [hsource, Multiset.cons_bind, Multiset.cons_bind, ← Multiset.coe_add,
        Multiset.coe_singleton, ← Multiset.singleton_add]
      ac_rfl
  | mergeLocal o =>
    obtain ⟨parts, hunderway, hsource, hreports⟩ := hw
    obtain ⟨part, parts, rfl, hrest, rfl⟩ := Multiset.rel_cons_left.mp hunderway
    refine ⟨[part], rfl, parts, hrest, ?_, ?_⟩
    · rw [List.flatten_singleton, hsource, Multiset.cons_bind, ← Multiset.coe_add]
      ac_rfl
    · rw [List.flatten_singleton, Multiset.fold_cons_left, hreports, scan_eq, reportOf_append,
        Report.combine_comm]
  | emptyReport =>
    obtain ⟨parts, hunderway, hsource, hreports⟩ := hw
    refine HasMerged.of_none ⟨parts, hunderway, hsource, ?_⟩
    rw [Multiset.fold_cons_left, Report.empty_combine, hreports]
  | joinReports r r' =>
    obtain ⟨parts, hunderway, hsource, hreports⟩ := hw
    refine HasMerged.of_none ⟨parts, hunderway, hsource, ?_⟩
    rw [← hreports, Multiset.fold_cons_left, Multiset.fold_cons_left, Multiset.fold_cons_left,
      Report.combine_assoc]
  | finish r =>
    -- Nothing is queued or underway, so all of the source is merged.
    obtain ⟨parts, hunderway, hsource, hreports⟩ := hw
    obtain rfl := Multiset.rel_zero_left.mp hunderway
    rw [Multiset.zero_bind, add_zero, add_zero, Multiset.coe_eq_coe] at hsource
    rw [Multiset.fold_singleton, Report.combine_empty] at hreports
    exact HasMerged.of_none ⟨hsource.symm, hreports⟩

theorem HasMerged.exists_rest (h : w.HasMerged merged) :
    ∃ rest : Multiset Batch, (w.source : Multiset Batch) = merged + rest ∧
      (w.isRunning = false → rest = 0) := by
  cases w with
  | running source queue underway reports =>
    obtain ⟨parts, -, hsource, -⟩ := h
    refine ⟨parts.bind Multiset.ofList + queue, ?_, ?_⟩
    · rw [Worker.source, hsource, add_assoc]
    · intro hrunning
      exact absurd hrunning.symm Bool.false_ne_true
  | finished source report =>
    refine ⟨0, ?_, fun _ ↦ rfl⟩
    rw [Worker.source, add_zero, Multiset.coe_eq_coe]
    exact h.1.symm

theorem HasMerged.report_eq {source : List Batch} {report : Report}
    (h : HasMerged (.finished source report) merged) (s : Store) :
    report = (calibrate s source).2 := by
  obtain ⟨hperm, rfl⟩ := h
  rw [report_calibrate, reportOf_perm hperm]

end Worker

end AffineQuant
