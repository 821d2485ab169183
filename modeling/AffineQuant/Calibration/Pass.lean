import AffineQuant.Calibration.Source
import AffineQuant.Store.Basic

/-!
# Calibration passes

A pass observes every batch of a source in a local store of its own and merges that store into
the calibrated one at the end. Batches without a usable sample are counted and otherwise leave
no trace.

## One worker

`observe` is the step of a pass and `scan` its run: a fold over the batches from an empty store
and an empty report. What the calibrated store held before takes part only in the final merge.

## Several workers

The batches are dealt out, each worker observes its share in a store of its own, and the results
are joined in pairs. How the batches are dealt and the results joined is a `Plan`: a tree of
workers, some of which may have nothing to do. A `Schedule` is any rule that finds for a list of
batches a plan handing out each of them once, in whatever order. So a statement about all
schedules is one about every division of the work that a scheduler may come up with; `halves` is
the simplest of them.

The outcome does not depend on the schedule, because unions may be taken in any order and
grouping, up to the sign of a zero bound, and reports are sums.
-/

namespace AffineQuant

/-- What a pass did: batches observed, their samples, and batches without a usable sample. -/
structure Report where
  batches : Nat
  samples : Nat
  skipped : Nat
deriving DecidableEq

namespace Report

def empty : Report := ⟨0, 0, 0⟩

instance : EmptyCollection Report := ⟨empty⟩

/-- The report of two passes together. -/
def combine (a b : Report) : Report :=
  ⟨a.batches + b.batches, a.samples + b.samples, a.skipped + b.skipped⟩

def hasSkipped (r : Report) : Bool := decide (0 < r.skipped)

theorem combine_comm (a b : Report) : a.combine b = b.combine a := by
  simp only [combine, Nat.add_comm]

theorem combine_assoc (a b c : Report) : (a.combine b).combine c = a.combine (b.combine c) := by
  simp only [combine, Nat.add_assoc]

@[simp] theorem empty_combine (a : Report) : (∅ : Report).combine a = a := by
  change Report.mk (0 + a.batches) (0 + a.samples) (0 + a.skipped) = a
  rw [Nat.zero_add, Nat.zero_add, Nat.zero_add]

@[simp] theorem combine_empty (a : Report) : a.combine ∅ = a := by
  rw [combine_comm, empty_combine]

end Report

/-! ## One worker -/

/-- What a worker carries from batch to batch. -/
abbrev Observed := Store × Report

/-- Observes one batch. -/
def observe (o : Observed) (b : Batch) : Observed :=
  match o.1.recordSamples b.id b.samples with
  | .ok s => (s, { o.2 with batches := o.2.batches + 1, samples := o.2.samples + b.samples.length })
  | .error _ => (o.1, { o.2 with skipped := o.2.skipped + 1 })

/-- Observes batches one after another, starting with nothing. -/
def scan (batches : List Batch) : Observed := batches.foldl observe (∅, ∅)

/-- A pass by one worker. -/
def calibrate (s : Store) (batches : List Batch) : Store × Report :=
  let (seen, report) := scan batches
  (s.merge seen, report)

/-! ## Several workers -/

/-- How the work of a pass is divided: a worker observes its batches in the order in which it
gets them, possibly none, and two results are joined. -/
inductive Plan where
  | worker (batches : List Batch)
  | join (left right : Plan)

namespace Plan

/-- The batches that a plan hands out. -/
def batches : Plan → List Batch
  | .worker bs => bs
  | .join l r => l.batches ++ r.batches

/-- What the workers observe together. -/
def scan : Plan → Observed
  | .worker bs => AffineQuant.scan bs
  | .join l r => (l.scan.1.merge r.scan.1, l.scan.2.combine r.scan.2)

end Plan

/-- A rule that divides any batches among workers, handing out each batch once. -/
structure Schedule where
  plan : List Batch → Plan
  perm : ∀ batches, (plan batches).batches.Perm batches

namespace Schedule

/-- Two workers, each with one half. -/
def halves : Schedule where
  plan bs := .join (.worker (bs.take (bs.length / 2))) (.worker (bs.drop (bs.length / 2)))
  perm bs := by simp [Plan.batches]

end Schedule

/-- A pass by several workers. -/
def calibrateParallel (schedule : Schedule) (s : Store) (batches : List Batch) : Store × Report :=
  let (seen, report) := (schedule.plan batches).scan
  (s.merge seen, report)

/-- A pass by one or several workers, as the settings say. -/
def runCalibration (schedule : Schedule) (sampling : Sampling) (s : Store) (batches : List Batch) :
    Store × Report :=
  if sampling.parallel then calibrateParallel schedule s batches else calibrate s batches

end AffineQuant
