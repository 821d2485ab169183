import AffineQuant.Proofs.Store.History
import Mathlib.Data.List.Sort

/-!
# Canonical tables

The entries of a store stand in an order of which nothing is known, and its table in ascending
order. This file says that the table shows nothing of the store but what can be looked up in it, and
what becomes of a table that is made into a store and back.

## Ascending tables

Since a store has one entry for each tensor, the order is strict, and a table in strict order is
determined by the set of its entries (`Table.IsAscending.eq_of_mem_iff`). Sorting is used through
this fact only. With it two tables are equal as soon as they are ascending and list the same, and
so the table of a store depends on what can be looked up in it and on nothing else
(`Store.eq_toTable_iff`).

## Normal forms

The other way round, a table may list a tensor several times and in any order. Its store unites
these entries, one after another (`Store.find?_recordAll_eq_foldl`), and the table of that store is
a normal form of the given one: ascending tables are their own normal forms, and tables with the
same entries in another order have the same one, up to the sign of a zero, as unions have
(`Store.toTable_canonical`). That sign is the only part of the order that may be seen.
-/

namespace AffineQuant

/-! ## Unions of several bounds -/

/-- The union of all bounds of a list, from the left; there is none of an empty list. -/
def Bounds.unionOf? (bs : List Bounds) : Option Bounds := bs.foldl (fun o b ↦ join o (some b)) none

/-! ## Ascending tables -/

namespace Table

variable {t t' : Table}

/-- The tensors are listed in ascending order, and so each of them once. -/
def IsAscending (t : Table) : Prop := t.entries.Pairwise fun a b ↦ a.1.raw < b.1.raw

instance : Std.Irrefl fun a b : Entry ↦ a.1.raw < b.1.raw := ⟨fun a ↦ UInt64.lt_irrefl a.1.raw⟩

instance : Std.Antisymm fun a b : Entry ↦ a.1.raw < b.1.raw :=
  ⟨fun _ _ h h' ↦ absurd h' (UInt64.lt_asymm h)⟩

/-- An ascending table is determined by the set of its entries. -/
theorem IsAscending.eq_of_mem_iff (h : t.IsAscending) (h' : t'.IsAscending)
    (hmem : ∀ e, e ∈ t.entries ↔ e ∈ t'.entries) : t = t' := by
  obtain ⟨entries⟩ := t
  obtain ⟨entries'⟩ := t'
  exact congrArg mk (List.Pairwise.eq_of_mem_iff h h' hmem)

theorem IsAscending.nodup (h : t.IsAscending) : (t.entries.map Prod.fst).Nodup := by
  refine List.pairwise_map.mpr (h.imp ?_)
  rintro a b hlt heq
  rw [heq] at hlt
  exact UInt64.lt_irrefl _ hlt

theorem isAscending_mergeSort {entries : List Entry} (h : (entries.map Prod.fst).Nodup) :
    (Table.mk (entries.mergeSort fun a b ↦ decide (a.1 ≤ b.1))).IsAscending := by
  have hle : (entries.mergeSort fun a b ↦ decide (a.1 ≤ b.1)).Pairwise
      fun a b ↦ decide (a.1 ≤ b.1) = true := by
    refine List.pairwise_mergeSort ?_ ?_ entries
    · intro a b c hab hbc
      exact decide_eq_true (UInt64.le_trans (of_decide_eq_true hab) (of_decide_eq_true hbc))
    · intro a b
      rw [Bool.or_eq_true, decide_eq_true_iff, decide_eq_true_iff]
      exact UInt64.le_total a.1.raw b.1.raw
  have hne : (entries.mergeSort fun a b ↦ decide (a.1 ≤ b.1)).Pairwise fun a b ↦ a.1 ≠ b.1 := by
    rw [← List.pairwise_map]
    exact ((List.mergeSort_perm entries _).map Prod.fst).nodup_iff.mpr h
  refine hle.imp₂ (fun a b hle hne ↦ ?_) hne
  exact UInt64.lt_of_le_of_ne (of_decide_eq_true hle) fun heq ↦ hne (congrArg TensorId.mk heq)

/-- The bounds that a table lists for a tensor, in its order. -/
def boundsOf (t : Table) (id : TensorId) : List Bounds :=
  (t.entries.filter fun e ↦ e.1 = id).map Prod.snd

/-- The table with all zeros counted as positive. -/
def unsigned (t : Table) : Table := ⟨t.entries.map fun e ↦ (e.1, e.2.unsigned)⟩

theorem IsAscending.unsigned (h : t.IsAscending) : t.unsigned.IsAscending :=
  List.pairwise_map.mpr h

end Table

/-! ## Tables of stores -/

namespace Store

variable {s s' : Store} {t t' : Table} {id : TensorId} {b : Bounds}

theorem isAscending_toTable (s : Store) : s.toTable.IsAscending :=
  Table.isAscending_mergeSort s.nodup

theorem eq_toTable_iff :
    t = s.toTable ↔ t.IsAscending ∧ ∀ id b, (id, b) ∈ t.entries ↔ s.find? id = some b := by
  constructor
  · rintro rfl
    exact ⟨s.isAscending_toTable, fun id b ↦ s.mem_toTable_iff⟩
  · rintro ⟨hascending, hmem⟩
    refine hascending.eq_of_mem_iff s.isAscending_toTable ?_
    rintro ⟨id, b⟩
    rw [hmem, mem_toTable_iff]

theorem mergeSort_eq_toTable {entries : List Entry} (h : entries.Perm s.entries) :
    Table.mk (entries.mergeSort fun a b ↦ decide (a.1 ≤ b.1)) = s.toTable := by
  refine eq_toTable_iff.mpr ⟨?_, fun id b ↦ ?_⟩
  · exact Table.isAscending_mergeSort ((h.map Prod.fst).nodup_iff.mpr s.nodup)
  · rw [(List.mergeSort_perm entries _).mem_iff, h.mem_iff, find?, lookup_eq_some_iff s.nodup]

theorem toTable_eq_of_find?_eq (h : ∀ id, s'.find? id = s.find? id) : s'.toTable = s.toTable := by
  refine eq_toTable_iff.mpr ⟨s'.isAscending_toTable, fun id b ↦ ?_⟩
  rw [mem_toTable_iff, h]

theorem mem_unsigned_toTable_iff :
    (id, b) ∈ s.toTable.unsigned.entries ↔ (s.find? id).map Bounds.unsigned = some b := by
  rw [Table.unsigned, List.mem_map, Option.map_eq_some_iff]
  constructor
  · rintro ⟨⟨id', c⟩, hc, heq⟩
    obtain ⟨rfl, rfl⟩ := Prod.mk.inj heq
    exact ⟨c, s.mem_toTable_iff.mp hc, rfl⟩
  · rintro ⟨c, hc, rfl⟩
    exact ⟨(id, c), s.mem_toTable_iff.mpr hc, rfl⟩

theorem Agrees.unsigned_toTable (h : s.Agrees s') : s.toTable.unsigned = s'.toTable.unsigned := by
  refine s.isAscending_toTable.unsigned.eq_of_mem_iff s'.isAscending_toTable.unsigned ?_
  rintro ⟨id, b⟩
  rw [mem_unsigned_toTable_iff, mem_unsigned_toTable_iff, h id]

/-! ## Stores of tables -/

theorem find?_recordAll_eq_foldl (s : Store) (t : Table) (id : TensorId) :
    (s.recordAll t.entries).find? id =
      (t.boundsOf id).foldl (fun o b ↦ Bounds.join o (some b)) (s.find? id) := by
  obtain ⟨entries⟩ := t
  induction entries generalizing s with
  | nil => rfl
  | cons e entries ih =>
    have hstep : s.recordAll (e :: entries) = (s.record e.1 e.2).recordAll entries := rfl
    have hmore : (Table.mk (e :: entries)).boundsOf id =
        if e.1 = id then e.2 :: (Table.mk entries).boundsOf id
        else (Table.mk entries).boundsOf id := by
      simp only [Table.boundsOf, List.filter_cons, decide_eq_true_eq]
      split <;> rfl
    rw [hstep, ih, find?_record, hmore]
    by_cases h : e.1 = id
    · rw [if_pos h, if_pos h.symm, h]
      rfl
    · rw [if_neg h, if_neg (Ne.symm h)]

theorem find?_toStore (t : Table) (id : TensorId) :
    t.toStore.find? id = Bounds.unionOf? (t.boundsOf id) :=
  find?_recordAll_eq_foldl ∅ t id

-- The entries of a tensor need not stand together.
example : (Table.mk [(⟨9⟩, ⟨1, 1⟩), (⟨2⟩, ⟨0, 3⟩), (⟨9⟩, ⟨-2, 0⟩)]).toStore.find? ⟨9⟩ =
    some ⟨-2, 1⟩ := by decide +kernel

theorem toTable_toStore (h : t.IsAscending) : t.toStore.toTable = t := by
  refine (eq_toTable_iff.mpr ⟨h, fun id b ↦ ?_⟩).symm
  rw [Table.toStore, find?_ofList h.nodup, lookup_eq_some_iff h.nodup]

theorem agrees_toStore (h : t'.entries.Perm t.entries) : t'.toStore.Agrees t.toStore :=
  agrees_recordAll ∅ h

/-- **Canonical tables.** The table of a store is ascending and lists what is found in the store,
and nothing else is: the order of the entries and the history have no part in it. The table of the
store of a table is ascending as well and has, for each tensor that the table lists, the union of
all its entries, which are the extremes of their ends. It is the same for another order of the
entries, up to the sign of a zero, and for an ascending table it is the table itself. -/
theorem toTable_canonical (s : Store) :
    s.toTable.IsAscending ∧
    (∀ id b, (id, b) ∈ s.toTable.entries ↔ s.find? id = some b) ∧
    (∀ entries : List Entry, entries.Perm s.entries →
      Table.mk (entries.mergeSort fun a b ↦ decide (a.1 ≤ b.1)) = s.toTable) ∧
    (∀ s' : Store, (∀ id, s'.find? id = s.find? id) → s'.toTable = s.toTable) ∧
    ∀ t : Table,
      t.toStore.toTable.IsAscending ∧
      (∀ id b, (id, b) ∈ t.toStore.toTable.entries ↔ Bounds.unionOf? (t.boundsOf id) = some b) ∧
      (∀ id, (∃ b, (id, b) ∈ t.toStore.toTable.entries) ↔ ∃ b, (id, b) ∈ t.entries) ∧
      (∀ id b, (id, b) ∈ t.toStore.toTable.entries → b.Spans (boundsIn t.entries id)) ∧
      (∀ t' : Table, t'.entries.Perm t.entries →
        t'.toStore.toTable.unsigned = t.toStore.toTable.unsigned) ∧
      (t.IsAscending → t.toStore.toTable = t) := by
  refine ⟨s.isAscending_toTable, fun id b ↦ s.mem_toTable_iff, fun entries ↦ mergeSort_eq_toTable,
    fun s' ↦ toTable_eq_of_find?_eq, fun t ↦ ?_⟩
  have hrecorded : Recorded t.toStore t.entries := Recorded.ofList t.entries
  refine ⟨t.toStore.isAscending_toTable, fun id b ↦ ?_, fun id ↦ ?_, fun id b hb ↦ ?_,
    fun t' h ↦ (agrees_toStore h).unsigned_toTable, toTable_toStore⟩
  · rw [mem_toTable_iff, find?_toStore]
  · simp only [mem_toTable_iff]
    rw [← hrecorded.contains_iff, contains, Option.isSome_iff_exists]
  · exact hrecorded.spans (t.toStore.mem_toTable_iff.mp hb)

end Store

end AffineQuant
