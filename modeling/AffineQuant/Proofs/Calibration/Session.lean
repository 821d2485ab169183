import AffineQuant.Calibration.Pool
import AffineQuant.Proofs.Calibration.Worker

/-!
# Sessions on a shared store

Several workers calibrate one shared store, each over a source of its own. Between any two steps
of one of them the others may make theirs, and holders of the store may read it, clone and drop
handles, or take it back. A `Session.Run` is any such interleaving, with what could be observed of
each step.

## Steps

A step is what is done under one lock. Merging a local store is one, and so is reading the content;
observing a batch is one of a worker alone, which nobody else can see. The events name what a
worker merged and what a reader read. They do not name the worker, so workers form a multiset, and
two of them in the same state are not told apart.

## The invariant

Two facts are preserved by every step (`Session.Holds`). The shared content is always the first one
with the local stores merged into it that the events name, in their order. And those local stores
are scans of parts, of which every worker has contributed the share that it has merged. The second
is where an update could be lost or made twice, and it is proved for a single worker before, with
the shared store out of sight (`Worker.Step.hasMerged`).

Handles matter only for their number: it is at least that of the running workers, so that the store
cannot be gone while there is something to merge. The clause is needed for the first fact, since
merging into a store that is gone has no effect.
-/

namespace AffineQuant

open Store

/-! ## A session -/

/-- A pool with the workers on one of its stores. -/
structure Session where
  pool : Pool
  workers : Multiset Worker

/-- What can be observed of a step: a local store that is merged, if one is, or what is read. -/
inductive Event where
  | work (seen? : Option Store)
  | snapshot (s : Store)
  | bounds (id : TensorId) (r : Except Failure Bounds)
  | size (n : Nat)
  | isEmpty (b : Bool)
  | retain
  | release
  | intoStore (s : Store)

namespace Event

/-- The local store that is merged by the step. -/
def merged? : Event → Option Store
  | work seen? => seen?
  | _ => none

/-- What is read is what the store has. -/
def Shows : Event → Store → Prop
  | snapshot t, s => t = s
  | bounds id r, s => r = s.bounds id
  | size n, s => n = s.size
  | isEmpty b, s => b = s.isEmpty
  | intoStore t, s => t = s
  | work _, _ | retain, _ | release, _ => True

end Event

/-- The local stores that are merged, in order. -/
def mergedIn (events : List Event) : List Store := events.filterMap Event.merged?

/-- A store with the local stores merged that the events name. -/
def storeAfter (s : Store) (events : List Event) : Store := (mergedIn events).foldl Store.merge s

theorem mergedIn_append (events events' : List Event) :
    mergedIn (events ++ events') = mergedIn events ++ mergedIn events' :=
  List.filterMap_append

theorem mergedIn_singleton (e : Event) : mergedIn [e] = e.merged?.toList := by
  rw [mergedIn, List.filterMap_cons, List.filterMap_nil]
  cases e.merged? <;> rfl

theorem storeAfter_append (s : Store) (events events' : List Event) :
    storeAfter s (events ++ events') = storeAfter (storeAfter s events) events' := by
  rw [storeAfter, mergedIn_append, List.foldl_append]
  rfl

namespace Pool

/-- The number of handles of a store. -/
def holders (p : Pool) (h : Handle) : Nat := (p.cell? h).elim 0 Cell.holders

/-- The pool after a step of a worker, which may merge a local store. -/
def receive (p : Pool) (h : Handle) : Option Store → Pool
  | none => p
  | some seen => p.mergeLocal h seen

theorem exists_cell?_of_holders_pos {p : Pool} {h : Handle} (hp : 0 < p.holders h) :
    ∃ c, p.cell? h = some c ∧ 0 < c.holders := by
  rw [holders] at hp
  cases hc : p.cell? h with
  | none =>
    rw [hc] at hp
    exact absurd hp (lt_irrefl 0)
  | some c =>
    rw [hc] at hp
    exact ⟨c, rfl, hp⟩

theorem holders_mergeLocal (p : Pool) (h : Handle) (seen : Store) :
    (p.mergeLocal h seen).holders h = p.holders h := by
  rw [holders, cell?_mergeLocal, holders]
  cases p.cell? h <;> rfl

theorem holders_le_retain (p : Pool) (h : Handle) : p.holders h ≤ (p.retain h).holders h := by
  rw [holders, holders, cell?_retain]
  cases p.cell? h with
  | none => exact le_rfl
  | some c => exact Nat.le_succ c.holders

theorem cell?_iterate_retain {p : Pool} {h : Handle} {c : Cell} (hc : p.cell? h = some c) (n : ℕ) :
    ((fun q ↦ q.retain h)^[n] p).cell? h = some { c with holders := c.holders + n } := by
  induction n with
  | zero => exact hc
  | succ n ih =>
    rw [Function.iterate_succ_apply', cell?_retain, ih]
    rfl

theorem holders_release (p : Pool) (h : Handle) : (p.release h).holders h = p.holders h - 1 := by
  rw [holders, cell?_release, holders]
  cases p.cell? h with
  | none => rfl
  | some c =>
    rw [Option.bind_some, Option.elim_some]
    split
    · next hc => exact (Nat.sub_eq_zero_of_le hc).symm
    · rfl

end Pool

namespace Session

/-- The number of workers that have not finished. -/
def running (workers : Multiset Worker) : Nat := workers.countP fun w ↦ w.isRunning = true

/-- A store is shared, and every source gets a worker with a handle of its own. -/
def start (p : Pool) (s : Store) (sources : List (List Batch)) : Session :=
  ⟨(fun q ↦ q.retain (p.share s).2)^[sources.length] (p.share s).1, sources.map Worker.start⟩

/-- One step at the store behind a handle. Whoever reads or clones needs some handle, and a handle
is given up only while it is not that of a running worker. -/
inductive Step (h : Handle) : Session → Event → Session → Prop
  | work {p w w' workers seen?} (hw : Worker.Step w seen? w') :
      Step h ⟨p, w ::ₘ workers⟩ (.work seen?) ⟨p.receive h seen?, w' ::ₘ workers⟩
  | snapshot {p workers} (hp : 0 < p.holders h) :
      Step h ⟨p, workers⟩ (.snapshot (p.snapshot h)) ⟨p, workers⟩
  | bounds {p workers} (hp : 0 < p.holders h) (id : TensorId) :
      Step h ⟨p, workers⟩ (.bounds id (p.bounds h id)) ⟨p, workers⟩
  | size {p workers} (hp : 0 < p.holders h) :
      Step h ⟨p, workers⟩ (.size (p.size h)) ⟨p, workers⟩
  | isEmpty {p workers} (hp : 0 < p.holders h) :
      Step h ⟨p, workers⟩ (.isEmpty (p.isEmpty h)) ⟨p, workers⟩
  | retain {p workers} (hp : 0 < p.holders h) :
      Step h ⟨p, workers⟩ .retain ⟨p.retain h, workers⟩
  | release {p workers} (hp : running workers < p.holders h) :
      Step h ⟨p, workers⟩ .release ⟨p.release h, workers⟩
  | intoStore {p workers} (hp : running workers < p.holders h) :
      Step h ⟨p, workers⟩ (.intoStore (p.intoStore h).2) ⟨(p.intoStore h).1, workers⟩

/-- An interleaving of steps. -/
inductive Run (h : Handle) : Session → List Event → Session → Prop
  | refl (st : Session) : Run h st [] st
  | step {st st' st'' : Session} {e : Event} {events : List Event} (hstep : Step h st e st')
      (hrun : Run h st' events st'') : Run h st (e :: events) st''

variable {h : Handle} {p : Pool} {s : Store} {st st' st'' : Session} {e : Event}
  {events events' : List Event} {sources : List (List Batch)}

theorem Run.append (hrun : Run h st events st') (hrun' : Run h st' events' st'') :
    Run h st (events ++ events') st'' := by
  induction hrun with
  | refl st => exact hrun'
  | step hstep _ ih => exact .step hstep (ih hrun')

theorem Run.exists_append (hrun : Run h st (events ++ events') st'') :
    ∃ st', Run h st events st' ∧ Run h st' events' st'' := by
  induction events generalizing st with
  | nil => exact ⟨st, .refl st, hrun⟩
  | cons e events ih =>
    cases hrun with
    | step hstep hrun =>
      obtain ⟨st', hbefore, hafter⟩ := ih hrun
      exact ⟨st', .step hstep hbefore, hafter⟩

/-! ## What every run preserves -/

/-- What is true of a session on a store `s` after some events. -/
structure Holds (h : Handle) (s : Store) (sources : List (List Batch)) (events : List Event)
    (st : Session) : Prop where
  content : ∀ c, st.pool.cell? h = some c → c.content = storeAfter s events
  running_le : running st.workers ≤ st.pool.holders h
  source : st.workers.map Worker.source = sources
  merged : ∃ parts : List (List Batch), mergedIn events = parts.map (fun part ↦ (scan part).1) ∧
    ∃ shares : Multiset (List Batch), st.workers.Rel Worker.HasMerged shares ∧
      shares.bind Multiset.ofList = (parts.flatten : Multiset Batch)

theorem cell?_start (p : Pool) (s : Store) (sources : List (List Batch)) :
    (start p s sources).pool.cell? (p.share s).2 = some ⟨s, 1 + sources.length⟩ :=
  Pool.cell?_iterate_retain (p.cell?_share s) sources.length

theorem running_cons_le (w : Worker) (workers : Multiset Worker) :
    running (w ::ₘ workers) ≤ running workers + 1 := by
  rw [running, running, Multiset.countP_cons]
  split <;> omega

theorem running_cons {w : Worker} (hw : w.isRunning = true) (workers : Multiset Worker) :
    running (w ::ₘ workers) = running workers + 1 := by
  rw [running, running, Multiset.countP_cons_of_pos (p := fun w ↦ w.isRunning = true) workers hw]

theorem hasMerged_starts (sources : List (List Batch)) :
    ∃ shares : Multiset (List Batch),
      (sources.map Worker.start : Multiset Worker).Rel Worker.HasMerged shares ∧
        shares.bind Multiset.ofList = 0 := by
  induction sources with
  | nil => exact ⟨0, Multiset.Rel.zero, Multiset.zero_bind _⟩
  | cons source sources ih =>
    obtain ⟨shares, hshares, hbatches⟩ := ih
    refine ⟨[] ::ₘ shares, hshares.cons (Worker.hasMerged_start source), ?_⟩
    rw [Multiset.cons_bind, hbatches]
    rfl

theorem holds_start (p : Pool) (s : Store) (sources : List (List Batch)) :
    Holds (p.share s).2 s sources [] (start p s sources) := by
  have hcell := cell?_start p s sources
  refine ⟨?_, ?_, ?_, [], rfl, hasMerged_starts sources⟩
  · intro c hc
    rw [hcell] at hc
    obtain rfl := Option.some.inj hc
    rfl
  · rw [Pool.holders, hcell]
    have hcount := Multiset.countP_le_card (fun w : Worker ↦ w.isRunning = true)
      (sources.map Worker.start : Multiset Worker)
    rw [Multiset.coe_card, List.length_map] at hcount
    exact hcount.trans (Nat.le_add_left _ 1)
  · have hsource : Worker.source ∘ Worker.start = id := rfl
    rw [start, Multiset.map_coe, List.map_map, hsource, List.map_id]

/-- A step that merges nothing leaves the content as it is. -/
theorem Holds.of_merged?_eq_none {q : Pool} {workers : Multiset Worker}
    (hst : Holds h s sources events ⟨p, workers⟩) (he : e.merged? = none)
    (hcontent : ∀ c, q.cell? h = some c → ∃ c', p.cell? h = some c' ∧ c.content = c'.content)
    (hholders : running workers ≤ q.holders h) :
    Holds h s sources (events ++ [e]) ⟨q, workers⟩ := by
  have hmerged : mergedIn (events ++ [e]) = mergedIn events := by
    rw [mergedIn_append, mergedIn_singleton, he, Option.toList_none, List.append_nil]
  refine ⟨?_, hholders, hst.source, ?_⟩
  · intro c hc
    obtain ⟨c', hc', heq⟩ := hcontent c hc
    rw [heq, storeAfter, hmerged]
    exact hst.content c' hc'
  · rw [hmerged]
    exact hst.merged

theorem Holds.read {workers : Multiset Worker} (hst : Holds h s sources events ⟨p, workers⟩)
    (he : e.merged? = none) : Holds h s sources (events ++ [e]) ⟨p, workers⟩ :=
  hst.of_merged?_eq_none he (fun c hc ↦ ⟨c, hc, rfl⟩) hst.running_le

theorem Holds.release {workers : Multiset Worker} (hst : Holds h s sources events ⟨p, workers⟩)
    (he : e.merged? = none) (hp : running workers < p.holders h) :
    Holds h s sources (events ++ [e]) ⟨p.release h, workers⟩ := by
  refine hst.of_merged?_eq_none he ?_ ?_
  · intro c hc
    rw [Pool.cell?_release, Option.bind_eq_some_iff] at hc
    obtain ⟨c', hc', hc⟩ := hc
    split at hc
    · exact absurd hc.symm (Option.some_ne_none c)
    · obtain rfl := Option.some.inj hc
      exact ⟨c', hc', rfl⟩
  · rw [Pool.holders_release]
    exact Nat.le_sub_one_of_lt hp

theorem Holds.work {w w' : Worker} {workers : Multiset Worker} {seen? : Option Store}
    (hw : Worker.Step w seen? w') (hst : Holds h s sources events ⟨p, w ::ₘ workers⟩) :
    Holds h s sources (events ++ [.work seen?]) ⟨p.receive h seen?, w' ::ₘ workers⟩ := by
  obtain ⟨hcontent, hholders, hsource, parts, hparts, shares, hshares, hbatches⟩ := hst
  refine ⟨?_, ?_, ?_, ?_⟩
  · intro c hc
    rw [storeAfter_append]
    cases seen? with
    | none => exact hcontent c hc
    | some t =>
      obtain ⟨c', hc', rfl⟩ := Option.map_eq_some_iff.mp ((p.cell?_mergeLocal h t).symm.trans hc)
      exact congrArg (Store.merge · t) (hcontent c' hc')
  · calc running (w' ::ₘ workers) ≤ running workers + 1 := running_cons_le w' workers
      _ = running (w ::ₘ workers) := (running_cons hw.isRunning workers).symm
      _ ≤ p.holders h := hholders
      _ = (p.receive h seen?).holders h := by
        cases seen? with
        | none => rfl
        | some t => exact (p.holders_mergeLocal h t).symm
  · rw [Multiset.map_cons, hw.source_eq, ← Multiset.map_cons]
    exact hsource
  · -- The worker that makes the step has a share of its own, and the part is added to it.
    obtain ⟨share, rest, hshare, hrest, rfl⟩ := Multiset.rel_cons_left.mp hshares
    obtain ⟨new, hnew, hshare'⟩ := hw.hasMerged hshare
    refine ⟨parts ++ new, ?_, (share ++ new.flatten) ::ₘ rest, hrest.cons hshare', ?_⟩
    · rw [mergedIn_append, mergedIn_singleton, hparts, List.map_append, ← hnew]
      rfl
    · rw [Multiset.cons_bind] at hbatches ⊢
      rw [List.flatten_append, ← Multiset.coe_add, ← Multiset.coe_add, ← hbatches]
      ac_rfl

/-- What holds is preserved by every step. -/
theorem Step.holds (hstep : Step h st e st') (hst : Holds h s sources events st) :
    Holds h s sources (events ++ [e]) st' := by
  cases hstep with
  | work hw => exact hst.work hw
  | snapshot _ => exact hst.read rfl
  | bounds _ id => exact hst.read rfl
  | size _ => exact hst.read rfl
  | isEmpty _ => exact hst.read rfl
  | retain _ =>
    refine hst.of_merged?_eq_none rfl ?_ (hst.running_le.trans (Pool.holders_le_retain _ h))
    intro c hc
    rw [Pool.cell?_retain] at hc
    obtain ⟨c', hc', rfl⟩ := Option.map_eq_some_iff.mp hc
    exact ⟨c', hc', rfl⟩
  | release hp => exact hst.release rfl hp
  | intoStore hp => exact hst.release rfl hp

theorem Run.holds (hrun : Run h st events' st') (hst : Holds h s sources events st) :
    Holds h s sources (events ++ events') st' := by
  induction hrun generalizing events with
  | refl st =>
    rw [List.append_nil]
    exact hst
  | step hstep _ ih =>
    have := ih (hstep.holds hst)
    rwa [List.append_assoc] at this

/-! ## What is read -/

theorem Holds.snapshot_eq (hst : Holds h s sources events st) (hp : 0 < st.pool.holders h) :
    st.pool.snapshot h = storeAfter s events := by
  obtain ⟨c, hc, -⟩ := Pool.exists_cell?_of_holders_pos hp
  rw [Pool.snapshot_eq hc]
  exact hst.content c hc

/-- What is read of the store is what the events so far make of it. -/
theorem Step.shows (hstep : Step h st e st') (hst : Holds h s sources events st) :
    e.Shows (storeAfter s events) := by
  cases hstep with
  | work _ => trivial
  | snapshot hp => exact hst.snapshot_eq hp
  | bounds hp id => exact congrArg (Store.bounds · id) (hst.snapshot_eq hp)
  | size hp => exact congrArg Store.size (hst.snapshot_eq hp)
  | isEmpty hp => exact congrArg Store.isEmpty (hst.snapshot_eq hp)
  | retain _ => trivial
  | release _ => trivial
  | intoStore hp => exact hst.snapshot_eq (Nat.zero_lt_of_lt hp)

/-- The store is taken back by moving it out if there is no other handle, and by copying it if there
is one, through which the same content is seen on. -/
theorem Step.intoStore_eq {t : Store} (hstep : Step h st (.intoStore t) st') :
    ∃ c, st.pool.cell? h = some c ∧ t = c.content ∧ st'.workers = st.workers ∧
      st'.pool.cell? h =
        if c.holders = 1 then none else some { c with holders := c.holders - 1 } := by
  cases hstep with
  | intoStore hp =>
    obtain ⟨c, hc, hpos⟩ := Pool.exists_cell?_of_holders_pos (Nat.zero_lt_of_lt hp)
    refine ⟨c, hc, Pool.snapshot_eq hc, rfl, ?_⟩
    have hone : c.holders ≤ 1 ↔ c.holders = 1 := by omega
    exact (Pool.cell?_release _ h).trans (by rw [hc, Option.bind_some, if_congr hone rfl rfl])

end Session

end AffineQuant
