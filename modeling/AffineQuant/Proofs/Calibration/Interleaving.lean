import AffineQuant.Proofs.Calibration.Session
import AffineQuant.Proofs.Store.History

/-!
# Interleavings

What comes of a session, however the steps of its workers and of those who read the store are
interleaved (`Session.Run.shared_outcome`). The invariants are those of every run
(`Session.Holds`); what is added here is what they say at the end, and that there is an end.

## When all have finished

Once all workers have finished, nothing is underway or queued any more, so the parts that were
merged are a permutation of all batches (`Holds.exists_parts`). The order of the merges and the way
in which the batches were divided are forgotten at this point: the local stores are scans of
parts, and passes over parts in turn depend neither on their order nor on how they are divided
(`Holds.agrees`).

Nothing is said about a store while workers are running, beyond what has been merged. A session in
which some worker never finishes is a run like any other, and statements about the final store
have that for a hypothesis.

## Runs that there are

Invariants hold of every run and would hold as well if there were none. So it is also proved that
from every state all workers can finish (`exists_reaches_all_finished`), and that the pass of a
pool over given shares, which is a program, is one of the ways in which a worker may go about it
(`reaches_calibrate`). The worker opens a local store for a share, observes the share in it and
merges it, and joins the report to the one it has, share by share.
-/

namespace AffineQuant

open Store

namespace Session

variable {h : Handle} {p : Pool} {s : Store} {st st' st'' : Session} {e : Event}
  {events events' : List Event} {sources : List (List Batch)}

/-! ## When all have finished -/

theorem calibrateInTurn_fst (s : Store) (parts : List (List Batch)) :
    (calibrateInTurn s parts).1 = (parts.map fun part ↦ (scan part).1).foldl Store.merge s := by
  induction parts using List.reverseRecOn with
  | nil => rfl
  | append_singleton parts part ih =>
    rw [calibrateInTurn_append, List.map_append, List.foldl_append, ← ih]
    rfl

/-- What the workers have not merged yet is the rest of the sources, and nothing in the end. -/
theorem exists_rest {workers : Multiset Worker} {shares : Multiset (List Batch)}
    (hshares : workers.Rel Worker.HasMerged shares) :
    ∃ rest : Multiset Batch,
      (workers.map Worker.source).bind Multiset.ofList = shares.bind Multiset.ofList + rest ∧
        ((∀ w ∈ workers, w.isRunning = false) → rest = 0) := by
  induction hshares with
  | zero => exact ⟨0, rfl, fun _ ↦ rfl⟩
  | @cons w share workers shares hw _ ih =>
    obtain ⟨restOfOne, hone, hzero⟩ := hw.exists_rest
    obtain ⟨rest, hrest, hrestZero⟩ := ih
    refine ⟨restOfOne + rest, ?_, ?_⟩
    · rw [Multiset.map_cons, Multiset.cons_bind, Multiset.cons_bind, hrest, hone]
      ac_rfl
    · intro hall
      rw [Multiset.forall_mem_cons] at hall
      rw [hzero hall.1, hrestZero hall.2, add_zero]

/-- The local stores that were merged are scans of parts of the sources. No batch is in two of them,
and in the end every batch is in one. -/
theorem Holds.exists_parts (hst : Holds h s sources events st) :
    ∃ parts : List (List Batch), mergedIn events = parts.map (fun part ↦ (scan part).1) ∧
      parts.flatten.Subperm sources.flatten ∧
      ((∀ w ∈ st.workers, w.isRunning = false) → parts.flatten.Perm sources.flatten) := by
  obtain ⟨parts, hparts, shares, hshares, hbatches⟩ := hst.merged
  obtain ⟨rest, hrest, hzero⟩ := exists_rest hshares
  have hsources : (sources : Multiset (List Batch)).bind Multiset.ofList =
      (sources.flatten : Multiset Batch) := by
    rw [← List.flatMap_id]
    exact Multiset.coe_bind sources id
  rw [hst.source, hsources, hbatches] at hrest
  refine ⟨parts, hparts, ?_, ?_⟩
  · rw [← Multiset.coe_le, hrest]
    exact Multiset.le_add_right _ rest
  · intro hall
    rw [hzero hall, add_zero, Multiset.coe_eq_coe] at hrest
    exact hrest.symm

theorem Holds.agrees (hst : Holds h s sources events st)
    (hall : ∀ w ∈ st.workers, w.isRunning = false) {order : List (List Batch)}
    (horder : order.Perm sources) : (storeAfter s events).Agrees (calibrateInTurn s order).1 := by
  obtain ⟨parts, hparts, -, hperm⟩ := hst.exists_parts
  have hbatches : parts.flatten.Perm order.flatten := (hperm hall).trans horder.flatten.symm
  rw [agrees_iff_content_eq, storeAfter, hparts, ← calibrateInTurn_fst, content_calibrateInTurn,
    content_calibrateInTurn, contentOf_perm (entriesOf_perm hbatches)]

theorem Holds.report_eq (hst : Holds h s sources events st) {source : List Batch} {report : Report}
    (hw : .finished source report ∈ st.workers) (t : Store) : report = (calibrate t source).2 := by
  obtain ⟨-, -, shares, hshares, -⟩ := hst.merged
  obtain ⟨share, -, hshare⟩ := Multiset.exists_mem_of_rel_of_mem hshares hw
  exact hshare.report_eq t

/-! ## Runs that there are -/

/-- There is a run from one state to the other. -/
def Reaches (h : Handle) (st st' : Session) : Prop := ∃ events, Run h st events st'

theorem Reaches.refl (h : Handle) (st : Session) : Reaches h st st := ⟨[], .refl st⟩

theorem Reaches.trans (hst : Reaches h st st') (hst' : Reaches h st' st'') : Reaches h st st'' := by
  obtain ⟨events, hrun⟩ := hst
  obtain ⟨events', hrun'⟩ := hst'
  exact ⟨events ++ events', hrun.append hrun'⟩

variable {workers : Multiset Worker} {source : List Batch} {queue : Multiset Batch}
  {underway : Multiset Observed} {reports : Multiset Report}

theorem reaches_work {w w' : Worker} {seen? : Option Store} (hw : Worker.Step w seen? w') :
    Reaches h ⟨p, w ::ₘ workers⟩ ⟨p.receive h seen?, w' ::ₘ workers⟩ :=
  ⟨_, .step (.work hw) (.refl _)⟩

theorem reaches_observe (part : List Batch) (o : Observed) :
    Reaches h ⟨p, .running source (part + queue) (o ::ₘ underway) reports ::ₘ workers⟩
      ⟨p, .running source queue (part.foldl observe o ::ₘ underway) reports ::ₘ workers⟩ := by
  induction part generalizing o with
  | nil =>
    rw [Multiset.coe_nil, zero_add]
    exact .refl h _
  | cons b part ih =>
    rw [← Multiset.cons_coe, Multiset.cons_add]
    exact (reaches_work (.observe b o)).trans (ih (observe o b))

theorem reaches_share (part : List Batch) (r : Report) :
    Reaches h ⟨p, .running source (part + queue) 0 {r} ::ₘ workers⟩
      ⟨p.mergeLocal h (scan part).1,
        .running source queue 0 {r.combine (scan part).2} ::ₘ workers⟩ := by
  have hmerge : Reaches h ⟨p, .running source queue (scan part ::ₘ 0) {r} ::ₘ workers⟩
      ⟨p.mergeLocal h (scan part).1,
        .running source queue 0 ((scan part).2 ::ₘ r ::ₘ 0) ::ₘ workers⟩ :=
    reaches_work (.mergeLocal (scan part))
  have hjoin : Reaches h
      ⟨p.mergeLocal h (scan part).1,
        .running source queue 0 ((scan part).2 ::ₘ r ::ₘ 0) ::ₘ workers⟩
      ⟨p.mergeLocal h (scan part).1,
        .running source queue 0 {r.combine (scan part).2} ::ₘ workers⟩ := by
    rw [Report.combine_comm]
    exact reaches_work (.joinReports _ _)
  exact (reaches_work .openLocal).trans ((reaches_observe part (∅, ∅)).trans (hmerge.trans hjoin))

theorem reaches_shares (shares : List (List Batch)) (r : Report) :
    Reaches h ⟨p, .running source shares.flatten 0 {r} ::ₘ workers⟩
      ⟨((shares.map scan).foldl (fun acc o ↦ (acc.1.mergeLocal h o.1, acc.2.combine o.2)) (p, r)).1,
        .running source 0 0 {((shares.map scan).foldl
          (fun acc o ↦ (acc.1.mergeLocal h o.1, acc.2.combine o.2)) (p, r)).2} ::ₘ workers⟩ := by
  induction shares generalizing p r with
  | nil => exact .refl h _
  | cons part shares ih =>
    rw [List.flatten_cons, ← Multiset.coe_add]
    exact (reaches_share part r).trans (ih _)

/-- A pass of the pool over shares is what one worker may do, other workers being where they are. -/
theorem reaches_calibrate (h : Handle) (p : Pool) (shares : List (List Batch))
    (workers : Multiset Worker) :
    Reaches h ⟨p, Worker.start shares.flatten ::ₘ workers⟩
      ⟨(p.calibrate h shares).1,
        .finished shares.flatten (p.calibrate h shares).2 ::ₘ workers⟩ :=
  ((reaches_work .emptyReport).trans (reaches_shares shares ∅)).trans (reaches_work (.finish _))

theorem exists_reaches_merged (source : List Batch) (p : Pool) (underway : Multiset Observed)
    (reports : Multiset Report) :
    ∃ q reports', Reaches h ⟨p, .running source 0 underway reports ::ₘ workers⟩
      ⟨q, .running source 0 0 reports' ::ₘ workers⟩ := by
  induction underway using Multiset.induction generalizing p reports with
  | empty => exact ⟨p, reports, .refl h _⟩
  | cons o underway ih =>
    obtain ⟨q, reports', hreach⟩ := ih (p.mergeLocal h o.1) (o.2 ::ₘ reports)
    exact ⟨q, reports', (reaches_work (.mergeLocal o)).trans hreach⟩

theorem exists_reaches_joined (source : List Batch) (r : Report) (reports : Multiset Report) :
    ∃ r', Reaches h ⟨p, .running source 0 0 (r ::ₘ reports) ::ₘ workers⟩
      ⟨p, .running source 0 0 {r'} ::ₘ workers⟩ := by
  induction reports using Multiset.induction generalizing r with
  | empty => exact ⟨r, .refl h _⟩
  | cons r' reports ih =>
    obtain ⟨r'', hreach⟩ := ih (r.combine r')
    exact ⟨r'', (reaches_work (.joinReports r r')).trans hreach⟩

theorem exists_reaches_finished (h : Handle) (p : Pool) (w : Worker) (workers : Multiset Worker) :
    ∃ q w', Reaches h ⟨p, w ::ₘ workers⟩ ⟨q, w' ::ₘ workers⟩ ∧ w'.isRunning = false := by
  cases w with
  | finished source report => exact ⟨p, _, .refl h _, rfl⟩
  | running source queue underway reports =>
    obtain ⟨part, rfl⟩ := Quot.exists_rep queue
    have hobserve : Reaches h
        ⟨p, .running source (part + 0) ((∅, ∅) ::ₘ underway) reports ::ₘ workers⟩
        ⟨p, .running source 0 (part.foldl observe (∅, ∅) ::ₘ underway) reports ::ₘ workers⟩ :=
      reaches_observe part (∅, ∅)
    rw [add_zero] at hobserve
    obtain ⟨q, reports', hmerge⟩ := exists_reaches_merged source p _ reports
    obtain ⟨r, hjoin⟩ := exists_reaches_joined source ∅ reports'
    have hmerged := (reaches_work .openLocal).trans (hobserve.trans hmerge)
    have hjoined := hmerged.trans ((reaches_work .emptyReport).trans hjoin)
    exact ⟨q, _, hjoined.trans (reaches_work (.finish r)), rfl⟩

theorem exists_reaches_add_finished (h : Handle) (p : Pool) (workers : Multiset Worker)
    {finished : Multiset Worker} (hfinished : ∀ w ∈ finished, w.isRunning = false) :
    ∃ st', Reaches h ⟨p, workers + finished⟩ st' ∧ ∀ w ∈ st'.workers, w.isRunning = false := by
  induction workers using Multiset.induction generalizing finished p with
  | empty =>
    rw [zero_add]
    exact ⟨_, .refl h _, hfinished⟩
  | cons w workers ih =>
    obtain ⟨q, w', hreach, hw'⟩ := exists_reaches_finished h p w (workers + finished)
    obtain ⟨st', hreach', hall⟩ := ih q (Multiset.forall_mem_cons.mpr ⟨hw', hfinished⟩)
    rw [Multiset.add_cons] at hreach'
    rw [Multiset.cons_add]
    exact ⟨st', hreach.trans hreach', hall⟩

theorem exists_reaches_all_finished (h : Handle) (st : Session) :
    ∃ st', Reaches h st st' ∧ ∀ w ∈ st'.workers, w.isRunning = false := by
  have hnone : ∀ w ∈ (0 : Multiset Worker), w.isRunning = false :=
    fun w hw ↦ absurd hw (Multiset.notMem_zero w)
  have hreach := exists_reaches_add_finished h st.pool st.workers hnone
  rwa [add_zero] at hreach

/-! ## The outcome -/

/-- **A shared store neither loses nor duplicates an update.** Whatever the interleaving, the local
stores merged are scans of parts of the sources without repetition, and of all the sources once the
workers have finished. Then the store agrees with the one of passes over the sources in turn, in any
order, and every worker reports what a pass over its source reports. What is read at any time is
what the first store and the local stores merged so far make together, so later views enclose
earlier ones. The store is taken back as it is then, and other handles go on seeing it. Whatever
has happened, the workers can still finish, and the pass of the pool, which takes its shares one
after the other, is one of the things that a worker may do. -/
theorem Run.shared_outcome (hrun : Run (p.share s).2 (start p s sources) events st) :
    ((∀ w ∈ st.workers, w.isRunning = false) → ∀ order : List (List Batch), order.Perm sources →
      (storeAfter s events).Agrees (calibrateInTurn s order).1) ∧
    (st.workers.map Worker.source = sources ∧
      ∀ source report, .finished source report ∈ st.workers →
        ∀ t, report = (calibrate t source).2) ∧
    (∃ parts : List (List Batch), mergedIn events = parts.map (fun part ↦ (scan part).1) ∧
      parts.flatten.Subperm sources.flatten ∧
      ((∀ w ∈ st.workers, w.isRunning = false) → parts.flatten.Perm sources.flatten)) ∧
    (∀ c, st.pool.cell? (p.share s).2 = some c → c.content = storeAfter s events) ∧
    (∀ before e after, events = before ++ e :: after → e.Shows (storeAfter s before)) ∧
    (∀ before t between t' after,
      events = before ++ .snapshot t :: (between ++ .snapshot t' :: after) → t'.Encloses t) ∧
    (∀ t st', Step (p.share s).2 st (.intoStore t) st' →
      ∃ c, st.pool.cell? (p.share s).2 = some c ∧ t = c.content ∧ st'.workers = st.workers ∧
        st'.pool.cell? (p.share s).2 =
          if c.holders = 1 then none else some { c with holders := c.holders - 1 }) ∧
    (∃ events' st', Run (p.share s).2 st events' st' ∧ ∀ w ∈ st'.workers, w.isRunning = false) ∧
    ∀ (q : Pool) (shares : List (List Batch)) (others : Multiset Worker),
      Reaches (p.share s).2 ⟨q, Worker.start shares.flatten ::ₘ others⟩
        ⟨(q.calibrate (p.share s).2 shares).1,
          .finished shares.flatten (q.calibrate (p.share s).2 shares).2 ::ₘ others⟩ := by
  have hst : Holds (p.share s).2 s sources events st := hrun.holds (holds_start p s sources)
  have hshows : ∀ before e after, events = before ++ e :: after →
      e.Shows (storeAfter s before) := by
    rintro before e after rfl
    obtain ⟨st', hbefore, hafter⟩ := hrun.exists_append
    cases hafter with
    | step hstep _ => exact hstep.shows (hbefore.holds (holds_start p s sources))
  refine ⟨fun hall order ↦ hst.agrees hall, ⟨hst.source, fun source report ↦ hst.report_eq⟩,
    hst.exists_parts, hst.content, hshows, ?_, fun t st' hstep ↦ hstep.intoStore_eq, ?_,
    reaches_calibrate _⟩
  · rintro before t between t' after hevents
    obtain rfl : t = storeAfter s before := hshows before _ _ hevents
    obtain rfl : t' = storeAfter s (before ++ .snapshot (storeAfter s before) :: between) := by
      refine hshows _ (.snapshot t') after ?_
      rw [hevents, List.append_assoc]
      rfl
    rw [storeAfter_append]
    exact encloses_of_content_le (content_le_foldl_merge _ _)
  · obtain ⟨st', ⟨events', hrun'⟩, hall⟩ := exists_reaches_all_finished (p.share s).2 st
    exact ⟨events', st', hrun', hall⟩

/-! ## Two workers -/

def firstBatch : Batch := ⟨⟨1⟩, [1, -2]⟩

def secondBatch : Batch := ⟨⟨1⟩, [3]⟩

/-- Two workers, each with one batch. -/
def twoSources : List (List Batch) := [[firstBatch], [secondBatch]]

/-- The store when the second worker has merged its local store. -/
def afterSecond : Store := (∅ : Store).merge (scan [secondBatch]).1

/-- The store when both workers have. -/
def afterBoth : Store := afterSecond.merge (scan [firstBatch]).1

/-- The second worker merges first. The store is read between the two merges, and it is taken back
before the second worker has finished. -/
def twoEvents : List Event :=
  [.work none, .work none, .work none, .work (some (scan [secondBatch]).1), .snapshot afterSecond,
    .work none, .work (some (scan [firstBatch]).1), .work none, .intoStore afterBoth, .work none]

theorem shared_outcome_twoWorkers :
    ∃ st, Run (Pool.share ∅ ∅).2 (start ∅ ∅ twoSources) twoEvents st ∧
      st.workers.map Worker.source = twoSources ∧
      (∀ w ∈ st.workers, w.isRunning = false) ∧
      (storeAfter ∅ twoEvents).find? ⟨1⟩ = some ⟨-2, 3⟩ ∧
      (storeAfter ∅ twoEvents).Agrees (calibrateInTurn ∅ twoSources.reverse).1 := by
  have hstart : start ∅ ∅ twoSources =
      ⟨⟨[some ⟨∅, 3⟩]⟩, .running [firstBatch] (firstBatch ::ₘ 0) 0 0 ::ₘ
        .running [secondBatch] (secondBatch ::ₘ 0) 0 0 ::ₘ 0⟩ := rfl
  have hrun : Run (Pool.share ∅ ∅).2 (start ∅ ∅ twoSources) twoEvents
      ⟨⟨[some ⟨afterBoth, 2⟩]⟩, .finished [secondBatch] (observe (∅, ∅) secondBatch).2 ::ₘ
        .finished [firstBatch] (observe (∅, ∅) firstBatch).2 ::ₘ 0⟩ := by
    -- A step is that of the worker in front, so the two change places when the other is to go on.
    rw [hstart]
    refine .step (.work .openLocal) ?_
    rw [Multiset.cons_swap]
    refine .step (.work .openLocal) ?_
    refine .step (.work (.observe _ _)) ?_
    refine .step (.work (.mergeLocal _)) ?_
    refine .step (.snapshot (by decide)) ?_
    rw [Multiset.cons_swap]
    refine .step (.work (.observe _ _)) ?_
    refine .step (.work (.mergeLocal _)) ?_
    refine .step (.work (.finish _)) ?_
    refine .step (.intoStore (by decide)) ?_
    rw [Multiset.cons_swap]
    exact .step (.work (.finish _)) (.refl _)
  obtain ⟨hagrees, ⟨hsource, -⟩, -⟩ := Run.shared_outcome hrun
  have hall : ∀ w ∈ ({.finished [secondBatch] (observe (∅, ∅) secondBatch).2,
      .finished [firstBatch] (observe (∅, ∅) firstBatch).2} : Multiset Worker),
      w.isRunning = false := by
    rintro w hw
    rw [Multiset.insert_eq_cons, Multiset.mem_cons, Multiset.mem_singleton] at hw
    rcases hw with rfl | rfl <;> rfl
  exact ⟨_, hrun, hsource, hall, by decide +kernel, hagrees hall _ (List.reverse_perm _)⟩

end Session

end AffineQuant
