import AffineQuant.Calibration.Pass
import AffineQuant.Proofs.Binary.Order
import AffineQuant.Proofs.Store.Handoff
import Mathlib.Data.Set.Basic

/-!
# Stores built from samples

However a store is built from samples, by recording sets of them, by passes of one or several
workers and by merging such stores, the bounds of a tensor are the hull of its samples: two of
them, neither NaN, that enclose all the others but for NaN (`Bounds.IsHull`).

## Summaries

Hulls are joined when bounds are united, and that is all that any of these operations does. A set
of samples that are all NaN has no hull, and a tensor with nothing else has no bounds.
`Bounds.Summarizes` puts the two cases into one statement about what was looked up, so that the
operations have one lemma each, without a distinction of usable and unusable sets. It is about sets
of samples, so neither order nor repetition matters; which of two zeros is found, it leaves open.

A store that is built has no bounds recorded from elsewhere (`Built`). Bounds that were given
directly need not be in order and may have an end that is NaN, and for these another description
is needed.

## Reloading

It follows when such a store can be reloaded. An infinite sample is an end of any hull that it is
in, so the bounds are finite exactly if no sample was infinite, and only finite bounds have a text
that is read again (`Built.exists_read_iff`).
-/

namespace AffineQuant

open Binary

/-! ## Hulls -/

namespace Bounds

variable {a b : Bounds} {S T : Set Single} {x : Single}

/-- The bounds are samples of the set and enclose all its samples but for NaN. -/
structure IsHull (b : Bounds) (S : Set Single) : Prop where
  min_mem : b.min ∈ S
  max_mem : b.max ∈ S
  min_isNaN : b.min.isNaN = false
  max_isNaN : b.max.isNaN = false
  encloses : ∀ x ∈ S, x.isNaN = false → b.min ≤ x ∧ x ≤ b.max

theorem isHull_point (hx : x.isNaN = false) : (point x).IsHull {x} := by
  refine ⟨rfl, rfl, hx, hx, fun y hy _ ↦ ?_⟩
  obtain rfl : y = x := hy
  exact ⟨(le_iff_lowPlace_le hx hx).mpr le_rfl, (le_iff_lowPlace_le hx hx).mpr le_rfl⟩

theorem IsHull.union (ha : a.IsHull S) (hb : b.IsHull T) : (a.union b).IsHull (S ∪ T) := by
  have hmin : (a.union b).min.isNaN = false := by
    rcases least_eq_or a.min b.min with h | h
    · exact (congrArg isNaN h).trans ha.min_isNaN
    · exact (congrArg isNaN h).trans hb.min_isNaN
  have hmax : (a.union b).max.isNaN = false := by
    rcases greatest_eq_or a.max b.max with h | h
    · exact (congrArg isNaN h).trans ha.max_isNaN
    · exact (congrArg isNaN h).trans hb.max_isNaN
  have hlow : (a.union b).min.lowPlace = a.min.lowPlace ⊓ b.min.lowPlace := lowPlace_least _ _
  have hhigh : (a.union b).max.highPlace = a.max.highPlace ⊔ b.max.highPlace :=
    highPlace_greatest _ _
  refine ⟨?_, ?_, hmin, hmax, fun x hx hnan ↦ ?_⟩
  · rcases least_eq_or a.min b.min with h | h
    · exact Or.inl (Set.mem_of_eq_of_mem h ha.min_mem)
    · exact Or.inr (Set.mem_of_eq_of_mem h hb.min_mem)
  · rcases greatest_eq_or a.max b.max with h | h
    · exact Or.inl (Set.mem_of_eq_of_mem h ha.max_mem)
    · exact Or.inr (Set.mem_of_eq_of_mem h hb.max_mem)
  · -- Places turn least and greatest into minimum and maximum, in which the bounds are found.
    rw [le_iff_lowPlace_le hmin hnan, le_iff_highPlace_le hnan hmax, hlow, hhigh]
    rcases hx with hx | hx
    · obtain ⟨hlo, hhi⟩ := ha.encloses x hx hnan
      exact ⟨inf_le_left.trans ((le_iff_lowPlace_le ha.min_isNaN hnan).mp hlo),
        ((le_iff_highPlace_le hnan ha.max_isNaN).mp hhi).trans le_sup_left⟩
    · obtain ⟨hlo, hhi⟩ := hb.encloses x hx hnan
      exact ⟨inf_le_right.trans ((le_iff_lowPlace_le hb.min_isNaN hnan).mp hlo),
        ((le_iff_highPlace_le hnan hb.max_isNaN).mp hhi).trans le_sup_right⟩

theorem IsHull.union_right (ha : a.IsHull S) (hT : ∀ x ∈ T, x.isNaN = true) :
    a.IsHull (S ∪ T) := by
  refine ⟨Or.inl ha.min_mem, Or.inl ha.max_mem, ha.min_isNaN, ha.max_isNaN, ?_⟩
  rintro x (hx | hx) hnan
  · exact ha.encloses x hx hnan
  · exact absurd (hT x hx) (by rw [hnan]; exact Bool.false_ne_true)

theorem IsHull.isFinite_iff (h : b.IsHull S) :
    b.IsFinite ↔ ∀ x ∈ S, ∀ negative, x ≠ .inf negative := by
  constructor
  · rintro ⟨hmin, hmax⟩ x hx negative rfl
    obtain ⟨hlo, hhi⟩ := h.encloses _ hx rfl
    exact absurd (isFinite_of_le_of_le hmin hmax hlo hhi) Bool.false_ne_true
  · intro hS
    exact ⟨isFinite_of_ne_inf h.min_isNaN (hS _ h.min_mem),
      isFinite_of_ne_inf h.max_isNaN (hS _ h.max_mem)⟩

/-- What is known of the samples of a tensor: their hull, or nothing if all of them are NaN. -/
def Summarizes (o : Option Bounds) (S : Set Single) : Prop :=
  o.elim (∀ x ∈ S, x.isNaN = true) fun b ↦ b.IsHull S

theorem Summarizes.isSome_iff {o : Option Bounds} (h : Summarizes o S) :
    o.isSome = true ↔ ∃ x ∈ S, x.isNaN = false := by
  cases o with
  | none =>
    refine iff_of_false Bool.false_ne_true ?_
    rintro ⟨x, hx, hnan⟩
    exact Bool.false_ne_true (hnan.symm.trans (h x hx))
  | some b => exact iff_of_true rfl ⟨b.min, IsHull.min_mem h, IsHull.min_isNaN h⟩

theorem Summarizes.exists_isHull {o : Option Bounds} (h : Summarizes o S) (hx : x ∈ S)
    (hnan : x.isNaN = false) : ∃ b, o = some b ∧ b.IsHull S := by
  obtain ⟨b, rfl⟩ := Option.isSome_iff_exists.mp (h.isSome_iff.mpr ⟨x, hx, hnan⟩)
  exact ⟨b, rfl, h⟩

/-- The bounds of two sets of samples together. -/
def join (o p : Option Bounds) : Option Bounds :=
  p.elim o fun b ↦ some (o.elim b fun a ↦ a.union b)

theorem Summarizes.join {o p : Option Bounds} (ho : Summarizes o S) (hp : Summarizes p T) :
    Summarizes (join o p) (S ∪ T) := by
  cases o with
  | none =>
    cases p with
    | none =>
      rintro x (hx | hx)
      · exact ho x hx
      · exact hp x hx
    | some b => exact Set.union_comm T S ▸ IsHull.union_right hp ho
  | some a =>
    cases p with
    | none => exact IsHull.union_right ho hp
    | some b => exact IsHull.union ho hp

theorem ofSamples?_append_singleton (samples : List Single) (x : Single) :
    ofSamples? (samples ++ [x]) =
      join (ofSamples? samples) (if x.isNaN then none else some (point x)) := by
  rw [ofSamples?, List.filter_append, List.foldl_append, ← ofSamples?]
  cases hx : x.isNaN with
  | false =>
    rw [List.filter_cons_of_pos (by rw [hx]; rfl)]
    rfl
  | true =>
    rw [List.filter_cons_of_neg (by rw [hx]; exact Bool.false_ne_true)]
    rfl

theorem summarizes_ofSamples? (samples : List Single) :
    Summarizes (ofSamples? samples) {x | x ∈ samples} := by
  -- The samples are folded from the left, so the last one is joined last.
  induction samples using List.reverseRecOn with
  | nil => exact fun x hx ↦ absurd hx List.not_mem_nil
  | append_singleton samples x ih =>
    have hset : {y | y ∈ samples ++ [x]} = {y | y ∈ samples} ∪ {x} := by
      ext y
      simp [or_comm]
    rw [ofSamples?_append_singleton, hset]
    refine ih.join ?_
    cases hx : x.isNaN with
    | false => exact isHull_point hx
    | true =>
      intro y hy
      obtain rfl : y = x := hy
      exact hx

end Bounds

/-! ## Stores -/

namespace Store

variable {s t : Store} {xs ys : List (TensorId × Single)}

/-- The store knows of every tensor what its samples tell. -/
def Summarizes (s : Store) (xs : List (TensorId × Single)) : Prop :=
  ∀ id, Bounds.Summarizes (s.find? id) {x | (id, x) ∈ xs}

theorem summarizes_empty : (∅ : Store).Summarizes [] :=
  fun _ _ hx ↦ absurd hx List.not_mem_nil

private theorem setOf_mem_append (id : TensorId) (xs ys : List (TensorId × Single)) :
    {x | (id, x) ∈ xs ++ ys} = {x | (id, x) ∈ xs} ∪ {x | (id, x) ∈ ys} := by
  ext x
  simp

theorem Summarizes.merge (hs : s.Summarizes xs) (ht : t.Summarizes ys) :
    (s.merge t).Summarizes (xs ++ ys) := by
  intro id
  rw [setOf_mem_append, Store.merge, find?_recordAll s t.nodup]
  exact (hs id).join (ht id)

theorem Summarizes.perm (hs : s.Summarizes xs) (h : xs.Perm ys) : s.Summarizes ys := by
  intro id
  have hset : {x | (id, x) ∈ ys} = {x | (id, x) ∈ xs} := by
    ext x
    exact h.mem_iff.symm
  rw [hset]
  exact hs id

/-- The samples of a set with their tensor. -/
def labelled (id : TensorId) (samples : List Single) : List (TensorId × Single) :=
  samples.map fun x ↦ (id, x)

/-- The store after samples were recorded; it is the same store if that failed. -/
def afterSamples (s : Store) (id : TensorId) (samples : List Single) : Store :=
  (s.recordSamples id samples).toOption.getD s

theorem find?_afterSamples (s : Store) (id other : TensorId) (samples : List Single) :
    (s.afterSamples id samples).find? other =
      if other = id then Bounds.join (s.find? id) (Bounds.ofSamples? samples)
      else s.find? other := by
  rw [afterSamples, recordSamples]
  cases Bounds.ofSamples? samples with
  | none =>
    change s.find? other = if other = id then s.find? id else s.find? other
    split
    · next h => exact congrArg s.find? h
    · rfl
  | some b => exact s.find?_record id other b

/-- Recording samples joins what they tell, whether or not any of them is usable. -/
theorem Summarizes.afterSamples (hs : s.Summarizes xs) (id : TensorId) (samples : List Single) :
    (s.afterSamples id samples).Summarizes (xs ++ labelled id samples) := by
  intro other
  rw [setOf_mem_append, find?_afterSamples]
  split
  · next h =>
    subst h
    have hset : {x | (other, x) ∈ labelled other samples} = {x | x ∈ samples} := by
      ext x
      simp [labelled]
    rw [hset]
    exact (hs other).join (Bounds.summarizes_ofSamples? samples)
  · next h =>
    have hset : {x | (other, x) ∈ labelled id samples} = ∅ := by
      ext x
      simp [labelled, Ne.symm h]
    rw [hset, Set.union_empty]
    exact hs other

/-! ## Passes -/

/-- The samples of batches with their tensors. -/
def labelledBatches (batches : List Batch) : List (TensorId × Single) :=
  batches.flatMap fun b ↦ labelled b.id b.samples

theorem observe_fst (o : Observed) (b : Batch) :
    (observe o b).1 = o.1.afterSamples b.id b.samples := by
  rw [observe, Store.afterSamples]
  cases o.1.recordSamples b.id b.samples <;> rfl

theorem Summarizes.foldl_observe (batches : List Batch) (o : Observed) (ho : o.1.Summarizes xs) :
    (batches.foldl observe o).1.Summarizes (xs ++ labelledBatches batches) := by
  induction batches generalizing o xs with
  | nil =>
    rw [labelledBatches, List.flatMap_nil, List.append_nil]
    exact ho
  | cons b batches ih =>
    have hstep := ho.afterSamples b.id b.samples
    rw [← observe_fst] at hstep
    have h := ih (observe o b) hstep
    rwa [List.append_assoc] at h

theorem summarizes_scan (p : Plan) : p.scan.1.Summarizes (labelledBatches p.batches) := by
  induction p with
  | worker batches => exact summarizes_empty.foldl_observe batches (∅, ∅)
  | join left right ihl ihr =>
    rw [Plan.batches, labelledBatches, List.flatMap_append]
    exact ihl.merge ihr

theorem Summarizes.calibrate (hs : s.Summarizes xs) (batches : List Batch) :
    (calibrate s batches).1.Summarizes (xs ++ labelledBatches batches) :=
  hs.merge (summarizes_scan (.worker batches))

theorem Summarizes.calibrateParallel (hs : s.Summarizes xs) (schedule : Schedule)
    (batches : List Batch) :
    (calibrateParallel schedule s batches).1.Summarizes (xs ++ labelledBatches batches) :=
  hs.merge ((summarizes_scan (schedule.plan batches)).perm
    ((schedule.perm batches).flatMap_right _))

/-! ## Stores that are built -/

/-- The stores that come from the empty one by recording samples, by passes and by merging, each
with the samples that went into it. -/
inductive Built : Store → List (TensorId × Single) → Prop
  | empty : Built ∅ []
  | recordSamples {s : Store} {xs : List (TensorId × Single)} (h : Built s xs) (id : TensorId)
      (samples : List Single) :
      Built (s.afterSamples id samples) (xs ++ labelled id samples)
  | calibrate {s : Store} {xs : List (TensorId × Single)} (h : Built s xs) (batches : List Batch) :
      Built (calibrate s batches).1 (xs ++ labelledBatches batches)
  | calibrateParallel {s : Store} {xs : List (TensorId × Single)} (h : Built s xs)
      (schedule : Schedule) (batches : List Batch) :
      Built (calibrateParallel schedule s batches).1 (xs ++ labelledBatches batches)
  | merge {s t : Store} {xs ys : List (TensorId × Single)} (h : Built s xs) (h' : Built t ys) :
      Built (s.merge t) (xs ++ ys)

namespace Built

/-- **Hulls.** The bounds of every tensor of a store are the hull of its samples. -/
theorem summarizes (h : Built s xs) : s.Summarizes xs := by
  induction h with
  | empty => exact summarizes_empty
  | recordSamples _ id samples ih => exact ih.afterSamples id samples
  | calibrate _ batches ih => exact ih.calibrate batches
  | calibrateParallel _ schedule batches ih => exact ih.calibrateParallel schedule batches
  | merge _ _ ih ih' => exact ih.merge ih'

theorem isHull (h : Built s xs) {id : TensorId} {b : Bounds} (hb : s.find? id = some b) :
    b.IsHull {x | (id, x) ∈ xs} := by
  have := h.summarizes id
  rwa [hb] at this

theorem exists_find? (h : Built s xs) {id : TensorId} {x : Single} (hx : (id, x) ∈ xs)
    (hnan : x.isNaN = false) : ∃ b, s.find? id = some b := by
  obtain ⟨b, hb, -⟩ := (h.summarizes id).exists_isHull hx hnan
  exact ⟨b, hb⟩

theorem isFinite_iff (h : Built s xs) :
    (∀ id b, s.find? id = some b → b.IsFinite) ↔ ∀ p ∈ xs, ∀ negative, p.2 ≠ .inf negative := by
  constructor
  · rintro hfinite ⟨id, x⟩ hx negative rfl
    obtain ⟨b, hb⟩ := h.exists_find? hx rfl
    exact (h.isHull hb).isFinite_iff.mp (hfinite id b hb) _ hx negative rfl
  · intro hxs id b hb
    exact (h.isHull hb).isFinite_iff.mpr fun x hx ↦ hxs (id, x) hx

/-- **Reloading.** A store that was built from samples can be reloaded from the text of its table
exactly if no sample was infinite. -/
theorem exists_read_iff (h : Built s xs) :
    (∃ t, Table.read s.toTable.write = .ok t) ↔ ∀ p ∈ xs, ∀ negative, p.2 ≠ .inf negative := by
  have hentries : (∀ e ∈ s.toTable.entries, e.2.IsFinite) ↔
      ∀ id b, s.find? id = some b → b.IsFinite :=
    ⟨fun hall id b hb ↦ hall (id, b) (s.mem_toTable_iff.mpr hb),
      fun hall e he ↦ hall e.1 e.2 (s.mem_toTable_iff.mp he)⟩
  rw [← h.isFinite_iff, ← hentries, Table.read_write]
  by_cases hall : ∀ e ∈ s.toTable.entries, e.2.IsFinite
  · rw [if_pos hall]
    exact ⟨fun _ ↦ hall, fun _ ↦ ⟨_, rfl⟩⟩
  · rw [if_neg hall]
    exact ⟨fun ⟨_, ht⟩ ↦ (nomatch ht), fun hall' ↦ absurd hall' hall⟩

end Built

/-- A store after samples were recorded and a pass went over two more sets of them. There are NaNs
among the samples, and one tensor has nothing else. -/
def afterPass : Store :=
  (calibrate ((∅ : Store).afterSamples ⟨7⟩ [.ofBits 0x80000000, .nan])
    [⟨⟨7⟩, [.ofBits 0x7f7fffff, .ofBits 1]⟩, ⟨⟨8⟩, [.nan]⟩]).1

/-- The samples of that store. -/
def passSamples : List (TensorId × Single) :=
  [(⟨7⟩, .ofBits 0x80000000), (⟨7⟩, .nan), (⟨7⟩, .ofBits 0x7f7fffff), (⟨7⟩, .ofBits 1), (⟨8⟩, .nan)]

theorem exists_read_afterPass :
    Built afterPass passSamples ∧ ∃ t, Table.read afterPass.toTable.write = .ok t := by
  have h : Built afterPass passSamples := (Built.empty.recordSamples _ _).calibrate _
  exact ⟨h, h.exists_read_iff.mpr (by decide)⟩

/-- A store with an infinite sample. The text of its table has a `null` in the place of a bound
and is refused. -/
theorem read_afterInfinity :
    Built ((∅ : Store).afterSamples ⟨1⟩ [.inf false]) [(⟨1⟩, .inf false)] ∧
      Table.read ((∅ : Store).afterSamples ⟨1⟩ [.inf false]).toTable.write =
        .error .malformedTable := by
  refine ⟨Built.empty.recordSamples ⟨1⟩ [.inf false], ?_⟩
  rw [Table.read_write, if_neg]
  intro hall
  have hmem : (⟨1⟩, Bounds.point (.inf false)) ∈
      ((∅ : Store).afterSamples ⟨1⟩ [.inf false]).toTable.entries := (mem_toTable_iff _).mpr rfl
  exact absurd (hall _ hmem) (by decide)

end Store

end AffineQuant
