import AffineQuant.Proofs.Calibration.Schedule
import AffineQuant.Proofs.Store.Hull

/-!
# Independence of the history

Bounds may be recorded directly, in any order of their ends and with ends that are NaN, and from
recorded ones stores are made by clearing and merging. Whatever was done, a store knows of a tensor
what the entries since the last clearing say together: the lowest of their minima and the highest
of their maxima, where NaN counts only if there is nothing else (`Recorded.comprises`).

## Extremes of a set

The first entry of a tensor is stored as it is, and only later ones go through `least` and
`greatest`. That this makes no difference is due to the extremes being those of a set, however its
elements were compared (`IsLowest`, `IsHighest`): a single entry has them, and they are kept when
sets are united. The content of a store would not be enough here, since it does not show that the
ends of the bounds are ends of some entries.

## Histories

`Recorded` follows the operations and keeps the list of entries that went in. Clearing empties the
list; a merge appends that of the other store, but takes the entries of the other store in an order
of which nothing is known, as a hash table would give them. Two histories with the same entries lead
to the same bounds, but for the sign of a zero, and what concerns one tensor changes no other
(`Recorded.history_independent`).
-/

namespace AffineQuant

open Binary

/-! ## Extremes of a set -/

namespace Binary

variable {f : Format} {x y : Binary f} {S T : Set (Binary f)}

/-- The number belongs to the set, and but for NaN nothing in the set is below it. NaN itself is
the lowest only where there is nothing else. -/
structure IsLowest (x : Binary f) (S : Set (Binary f)) : Prop where
  mem : x ∈ S
  le : ∀ y ∈ S, y.isNaN = false → x ≤ y

/-- The number belongs to the set, and but for NaN nothing in the set is above it. -/
structure IsHighest (x : Binary f) (S : Set (Binary f)) : Prop where
  mem : x ∈ S
  le : ∀ y ∈ S, y.isNaN = false → y ≤ x

theorem isLowest_iff : x.IsLowest S ↔ x ∈ S ∧ ∀ y ∈ S, x.lowPlace ≤ y.lowPlace := by
  constructor
  · rintro ⟨hmem, hle⟩
    exact ⟨hmem, fun y hy ↦ le_or_isNaN_iff_lowPlace.mp (hle y hy)⟩
  · rintro ⟨hmem, hle⟩
    exact ⟨hmem, fun y hy ↦ le_or_isNaN_iff_lowPlace.mpr (hle y hy)⟩

theorem isHighest_iff : x.IsHighest S ↔ x ∈ S ∧ ∀ y ∈ S, y.highPlace ≤ x.highPlace := by
  constructor
  · rintro ⟨hmem, hle⟩
    exact ⟨hmem, fun y hy ↦ ge_or_isNaN_iff_highPlace.mp (hle y hy)⟩
  · rintro ⟨hmem, hle⟩
    exact ⟨hmem, fun y hy ↦ ge_or_isNaN_iff_highPlace.mpr (hle y hy)⟩

theorem isLowest_singleton (x : Binary f) : x.IsLowest {x} :=
  isLowest_iff.mpr ⟨rfl, fun y hy ↦ by rw [Set.mem_singleton_iff.mp hy]⟩

theorem isHighest_singleton (x : Binary f) : x.IsHighest {x} :=
  isHighest_iff.mpr ⟨rfl, fun y hy ↦ by rw [Set.mem_singleton_iff.mp hy]⟩

theorem IsLowest.least (hx : x.IsLowest S) (hy : y.IsLowest T) : (x.least y).IsLowest (S ∪ T) := by
  rw [isLowest_iff] at hx hy ⊢
  constructor
  · rcases least_eq_or x y with h | h
    · rw [h]
      exact Or.inl hx.1
    · rw [h]
      exact Or.inr hy.1
  · rw [lowPlace_least]
    rintro z (hz | hz)
    · exact inf_le_left.trans (hx.2 z hz)
    · exact inf_le_right.trans (hy.2 z hz)

theorem IsHighest.greatest (hx : x.IsHighest S) (hy : y.IsHighest T) :
    (x.greatest y).IsHighest (S ∪ T) := by
  rw [isHighest_iff] at hx hy ⊢
  constructor
  · rcases greatest_eq_or x y with h | h
    · rw [h]
      exact Or.inl hx.1
    · rw [h]
      exact Or.inr hy.1
  · rw [highPlace_greatest]
    rintro z (hz | hz)
    · exact (hx.2 z hz).trans le_sup_left
    · exact (hy.2 z hz).trans le_sup_right

theorem IsLowest.isNaN_iff (hx : x.IsLowest S) : x.isNaN = true ↔ ∀ y ∈ S, y.isNaN = true := by
  constructor
  · intro hnan y hy
    by_contra hy'
    have hx' := (isNaN_of_le (hx.le y hy (Bool.not_eq_true _ ▸ hy'))).1
    rw [hnan] at hx'
    exact Bool.false_ne_true hx'.symm
  · intro hS
    exact hS x hx.mem

theorem IsHighest.isNaN_iff (hx : x.IsHighest S) : x.isNaN = true ↔ ∀ y ∈ S, y.isNaN = true := by
  constructor
  · intro hnan y hy
    have hle := (isHighest_iff.mp hx).2 y hy
    rwa [highPlace_eq_bot_iff.mpr hnan, le_bot_iff, highPlace_eq_bot_iff] at hle
  · intro hS
    exact hS x hx.mem

/-- Two numbers that are the lowest of one set differ at most in the sign of a zero. -/
theorem IsLowest.unsigned_eq [f.Proper] (hx : x.IsLowest S) (hy : y.IsLowest S) :
    x.unsigned = y.unsigned := by
  rw [isLowest_iff] at hx hy
  exact lowPlace_eq_iff.mp (le_antisymm (hx.2 y hy.1) (hy.2 x hx.1))

theorem IsHighest.unsigned_eq [f.Proper] (hx : x.IsHighest S) (hy : y.IsHighest S) :
    x.unsigned = y.unsigned := by
  rw [isHighest_iff] at hx hy
  exact highPlace_eq_iff.mp (le_antisymm (hy.2 x hx.1) (hx.2 y hy.1))

end Binary

/-! ## United bounds -/

namespace Bounds

variable {a b : Bounds} {o p : Option Bounds} {S T : Set Bounds}

/-- The ends of the bounds are the extreme ends that there are in the set. -/
structure Spans (b : Bounds) (S : Set Bounds) : Prop where
  min : b.min.IsLowest (Bounds.min '' S)
  max : b.max.IsHighest (Bounds.max '' S)

theorem spans_singleton (b : Bounds) : b.Spans {b} := by
  constructor
  · rw [Set.image_singleton]
    exact isLowest_singleton b.min
  · rw [Set.image_singleton]
    exact isHighest_singleton b.max

theorem Spans.union (ha : a.Spans S) (hb : b.Spans T) : (a.union b).Spans (S ∪ T) := by
  constructor
  · rw [Set.image_union]
    exact ha.min.least hb.min
  · rw [Set.image_union]
    exact ha.max.greatest hb.max

theorem Spans.unsigned_eq (ha : a.Spans S) (hb : b.Spans S) : a.unsigned = b.unsigned := by
  rw [unsigned, unsigned, ha.min.unsigned_eq hb.min, ha.max.unsigned_eq hb.max]

/-- What is known of a tensor is all its entries together, or nothing if it has none. -/
def Unites (o : Option Bounds) (S : Set Bounds) : Prop :=
  o.elim (S = ∅) fun b ↦ b.Spans S

theorem Unites.join (ho : Unites o S) (hp : Unites p T) : Unites (join o p) (S ∪ T) := by
  cases o with
  | none =>
    have hS : S = ∅ := ho
    rw [hS, Set.empty_union]
    cases p with
    | none => exact hp
    | some b => exact hp
  | some a =>
    cases p with
    | none =>
      have hT : T = ∅ := hp
      rw [hT, Set.union_empty]
      exact ho
    | some b => exact Spans.union ho hp

theorem Unites.isSome_iff (ho : Unites o S) : o.isSome = true ↔ S.Nonempty := by
  cases o with
  | none =>
    have hS : S = ∅ := ho
    simp [hS]
  | some b =>
    obtain ⟨c, hc, -⟩ := Spans.min ho |>.mem
    exact ⟨fun _ ↦ ⟨c, hc⟩, fun _ ↦ rfl⟩

/-- Two pieces of knowledge agree if they exist together and their bounds do. -/
theorem map_unsigned_eq_of (hiff : o.isSome = true ↔ p.isSome = true)
    (h : ∀ a b, o = some a → p = some b → a.unsigned = b.unsigned) :
    o.map unsigned = p.map unsigned := by
  cases o with
  | none =>
    cases p with
    | none => rfl
    | some b => exact absurd (hiff.mpr rfl) Bool.false_ne_true
  | some a =>
    cases p with
    | none => exact absurd (hiff.mp rfl) Bool.false_ne_true
    | some b => exact congrArg some (h a b rfl rfl)

theorem Unites.map_unsigned_eq (ho : Unites o S) (hp : Unites p S) :
    o.map unsigned = p.map unsigned := by
  refine map_unsigned_eq_of (ho.isSome_iff.trans hp.isSome_iff.symm) ?_
  rintro a b rfl rfl
  exact Spans.unsigned_eq ho hp

end Bounds

/-! ## Stores -/

namespace Store

variable {s t : Store} {l l' : List (TensorId × Bounds)} {id other : TensorId}

/-- The bounds that a list has for a tensor. -/
def boundsIn (l : List (TensorId × Bounds)) (id : TensorId) : Set Bounds := {b | (id, b) ∈ l}

theorem boundsIn_append (l l' : List (TensorId × Bounds)) (id : TensorId) :
    boundsIn (l ++ l') id = boundsIn l id ∪ boundsIn l' id := by
  ext b
  exact List.mem_append

theorem boundsIn_self (id : TensorId) (b : Bounds) : boundsIn [(id, b)] id = {b} := by
  ext c
  simp [boundsIn]

theorem boundsIn_of_ne (h : other ≠ id) (b : Bounds) : boundsIn [(id, b)] other = ∅ := by
  ext c
  simp [boundsIn, h]

theorem boundsIn_perm (h : l.Perm l') (id : TensorId) : boundsIn l id = boundsIn l' id := by
  ext b
  exact h.mem_iff

/-- The store knows of every tensor what the entries of a list say together. -/
def Comprises (s : Store) (l : List (TensorId × Bounds)) : Prop :=
  ∀ id, Bounds.Unites (s.find? id) (boundsIn l id)

theorem comprises_empty : (∅ : Store).Comprises [] :=
  fun _ ↦ Set.eq_empty_of_forall_notMem fun _ ↦ List.not_mem_nil

theorem Comprises.record (hs : s.Comprises l) (id : TensorId) (b : Bounds) :
    (s.record id b).Comprises (l ++ [(id, b)]) := by
  intro other
  rw [boundsIn_append, find?_record]
  by_cases h : other = id
  · subst h
    rw [if_pos rfl, boundsIn_self]
    exact (hs other).join (p := some b) b.spans_singleton
  · rw [if_neg h, boundsIn_of_ne h, Set.union_empty]
    exact hs other

theorem Comprises.recordAll (hs : s.Comprises l) (l' : List (TensorId × Bounds)) :
    (s.recordAll l').Comprises (l ++ l') := by
  induction l' generalizing s l with
  | nil =>
    rw [List.append_nil]
    exact hs
  | cons e l' ih =>
    have h := ih (hs.record e.1 e.2)
    rwa [List.append_assoc] at h

/-- Samples are recorded as the entry that they amount to, if they amount to one. -/
theorem afterSamples_eq (s : Store) (id : TensorId) (samples : List Single) :
    s.afterSamples id samples = s.recordAll (Option.toList <| Batch.entry? ⟨id, samples⟩) := by
  have h := observe_fst (s, ∅) ⟨id, samples⟩
  rw [observe_eq] at h
  exact h.symm

/-- What a merge adds is what the other store comprises, in whatever order its entries come. -/
theorem Comprises.merge (hs : s.Comprises l) (ht : t.Comprises l')
    {entries : List (TensorId × Bounds)} (h : entries.Perm t.entries) :
    (s.recordAll entries).Comprises (l ++ l') := by
  intro id
  have hnodup : (entries.map Prod.fst).Nodup := (h.map Prod.fst).nodup_iff.mpr t.nodup
  rw [boundsIn_append, find?_recordAll s hnodup, t.lookup_of_perm h]
  exact (hs id).join (ht id)

/-! ## Histories -/

/-- The stores that come from the empty one by recording, clearing and merging, each with the
entries that it was given since it was last cleared. A merge takes the entries of the other store
in an order of which nothing is known; their own order is the one of `Store.merge`. -/
inductive Recorded : Store → List (TensorId × Bounds) → Prop
  | empty : Recorded ∅ []
  | record {s : Store} {l : List (TensorId × Bounds)} (h : Recorded s l) (id : TensorId)
      (b : Bounds) : Recorded (s.record id b) (l ++ [(id, b)])
  | recordSamples {s : Store} {l : List (TensorId × Bounds)} (h : Recorded s l) (id : TensorId)
      (samples : List Single) :
      Recorded (s.afterSamples id samples) (l ++ (Option.toList <| Batch.entry? ⟨id, samples⟩))
  | ofList (l : List (TensorId × Bounds)) : Recorded (ofList l) l
  | clear {s : Store} {l : List (TensorId × Bounds)} (h : Recorded s l) : Recorded s.clear []
  | merge {s t : Store} {l l' entries : List (TensorId × Bounds)} (h : Recorded s l)
      (h' : Recorded t l') (hentries : entries.Perm t.entries) :
      Recorded (s.recordAll entries) (l ++ l')

namespace Recorded

/-- A store comprises what was recorded. -/
theorem comprises (h : Recorded s l) : s.Comprises l := by
  induction h with
  | empty => exact comprises_empty
  | record _ id b ih => exact ih.record id b
  | recordSamples _ id samples ih =>
    rw [afterSamples_eq]
    exact ih.recordAll _
  | ofList l => exact comprises_empty.recordAll l
  | clear _ _ => exact comprises_empty
  | merge _ _ hentries ih ih' => exact ih.merge ih' hentries

theorem spans (h : Recorded s l) {b : Bounds} (hb : s.find? id = some b) :
    b.Spans (boundsIn l id) := by
  have := h.comprises id
  rwa [hb] at this

theorem contains_iff (h : Recorded s l) : s.contains id = true ↔ ∃ b, (id, b) ∈ l :=
  (h.comprises id).isSome_iff

theorem agrees_of_perm (h : Recorded s l) (h' : Recorded t l') (hl : l.Perm l') : s.Agrees t := by
  intro id
  have ht := h'.comprises id
  rw [← boundsIn_perm hl] at ht
  exact (h.comprises id).map_unsigned_eq ht

theorem find?_merge_of_notMem (h : Recorded t l') (s : Store)
    {entries : List (TensorId × Bounds)} (hentries : entries.Perm t.entries)
    (hid : ∀ b, (id, b) ∉ l') : (s.recordAll entries).find? id = s.find? id := by
  have hnodup : (entries.map Prod.fst).Nodup := (hentries.map Prod.fst).nodup_iff.mpr t.nodup
  have hnone : t.find? id = none := by
    cases hb : t.find? id with
    | none => rfl
    | some b =>
      obtain ⟨c, hc, -⟩ := (h.spans hb).min.mem
      exact absurd hc (hid c)
  rw [find?_recordAll s hnodup, t.lookup_of_perm hentries, hnone, Option.elim_none]

/-- **Independence of the history.** A tensor has bounds if it was given an entry since the store
was last cleared. The bounds are the extremes of those entries, and NaN only if all of them are. So
stores agree that were given the same entries, whatever the order and the grouping; and what
concerns one tensor changes no other. -/
theorem history_independent (h : Recorded s l) :
    (∀ id, s.contains id = true ↔ ∃ b, (id, b) ∈ l) ∧
    (∀ id b, s.find? id = some b →
      b.min.IsLowest {x | ∃ c, (id, c) ∈ l ∧ c.min = x} ∧
      b.max.IsHighest {x | ∃ c, (id, c) ∈ l ∧ c.max = x} ∧
      (b.min.isNaN = true ↔ ∀ c, (id, c) ∈ l → c.min.isNaN = true) ∧
      (b.max.isNaN = true ↔ ∀ c, (id, c) ∈ l → c.max.isNaN = true)) ∧
    (∀ t l', Recorded t l' → l.Perm l' → s.Agrees t) ∧
    (∀ id other, other ≠ id →
      (∀ b, (s.record id b).find? other = s.find? other) ∧
        ∀ samples, (s.afterSamples id samples).find? other = s.find? other) ∧
    ∀ t l' entries id, Recorded t l' → entries.Perm t.entries → (∀ b, (id, b) ∉ l') →
      (s.recordAll entries).find? id = s.find? id := by
  refine ⟨fun id ↦ h.contains_iff, ?_, fun t l' ↦ h.agrees_of_perm, ?_, ?_⟩
  · intro id b hb
    have hspans := h.spans hb
    refine ⟨hspans.min, hspans.max, hspans.min.isNaN_iff.trans ?_, hspans.max.isNaN_iff.trans ?_⟩
    · exact Set.forall_mem_image
    · exact Set.forall_mem_image
  · intro id other hother
    refine ⟨fun b ↦ ?_, fun samples ↦ ?_⟩
    · rw [find?_record, if_neg hother]
    · rw [find?_afterSamples, if_neg hother]
  · intro t l' entries id ht hentries hid
    exact ht.find?_merge_of_notMem s hentries hid

end Recorded

/-- The entries of the store below: an upside-down interval, one without a lower end and a single
sample for one tensor, and nothing but NaN for another. -/
def mixedEntries : List (TensorId × Bounds) :=
  [(⟨1⟩, ⟨.nan, 3⟩), (⟨1⟩, ⟨2, 1⟩), (⟨2⟩, ⟨.nan, .nan⟩), (⟨1⟩, ⟨0, 0⟩)]

/-- A store that was cleared once, given two entries, and merged with a store that was made from a
list and then given samples. -/
def mixed : Store :=
  ((((∅ : Store).record ⟨1⟩ ⟨-5, 5⟩).clear.record ⟨1⟩ ⟨.nan, 3⟩).record ⟨1⟩ ⟨2, 1⟩).merge
    ((ofList [(⟨2⟩, ⟨.nan, .nan⟩)]).afterSamples ⟨1⟩ [.nan, 0])

theorem history_independent_mixed :
    Recorded mixed mixedEntries ∧
      mixed.find? ⟨1⟩ = some ⟨0, 3⟩ ∧ mixed.find? ⟨2⟩ = some ⟨.nan, .nan⟩ ∧
      (0 : Single).IsLowest {x | ∃ c, (⟨1⟩, c) ∈ mixedEntries ∧ c.min = x} ∧
      (∀ c, (⟨2⟩, c) ∈ mixedEntries → c.min.isNaN = true) ∧
      mixed.Agrees (ofList mixedEntries.reverse) := by
  have hmixed : Recorded mixed mixedEntries :=
    (((Recorded.empty.record _ _).clear.record _ _).record _ _).merge
      ((Recorded.ofList _).recordSamples _ _) (List.Perm.refl _)
  have hone : mixed.find? ⟨1⟩ = some ⟨0, 3⟩ := by decide +kernel
  have htwo : mixed.find? ⟨2⟩ = some ⟨.nan, .nan⟩ := by decide +kernel
  obtain ⟨-, hspans, hagrees, -⟩ := Recorded.history_independent hmixed
  refine ⟨hmixed, hone, htwo, (hspans _ _ hone).1, (hspans _ _ htwo).2.2.1.mp rfl, ?_⟩
  exact hagrees _ _ (Recorded.ofList _) mixedEntries.reverse_perm.symm

end Store

end AffineQuant
