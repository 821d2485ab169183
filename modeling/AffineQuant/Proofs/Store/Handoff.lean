import AffineQuant.Proofs.Json.Field
import AffineQuant.Store.Table

/-!
# Handing on a store

A store is handed on as the text of its table, and a store is built from that text again. There are
three steps between the two stores, and each of them is settled for itself.

## Through text

The text of a table is always well formed, and the table is found again exactly if all bounds are
finite; otherwise there is a `null` in the place of a number and the text is refused
(`Table.read_write`). This is an equation for every table, so the loss of a table with an infinite
bound is a statement as well and not only a case that is left out. Entries are taken apart before
their keys are known, which adds conditions on what is kept of them (`Entry.ofJson?_toJson`); what
is written for a number meets these in any case.

## Through entries

A table of a store has the entries of the store in another order. Recording entries of different
tensors joins each of them once (`find?_recordAll`), in whatever order, so the new store answers
every query as the old one did (`find?_toStore_toTable`). That each tensor has one entry is the
invariant that every `Store` carries, and this is where it is needed: with two entries for a tensor,
a store would answer with the first and the store of its table with their union.
-/

namespace AffineQuant

/-! ## Entries -/

/-- Both bounds are finite. -/
def Bounds.IsFinite (b : Bounds) : Prop := b.min.isFinite = true ∧ b.max.isFinite = true

instance (b : Bounds) : Decidable b.IsFinite := inferInstanceAs (Decidable (_ ∧ _))

theorem TensorId.ofJson?_toJson (id : TensorId) : ofJson? id.toJson = some id := by
  rw [ofJson?, toJson, Json.word?_ofInt le_rfl (UInt64.toNat_lt id.raw), Option.map_some,
    UInt64.ofNat_toNat]

namespace Entry

theorem isWellFormed_toJson (e : Entry) : e.toJson.IsWellFormed := by
  refine Json.isWellFormed_record fun m hm ↦ ?_
  simp only [List.mem_cons, List.not_mem_nil, or_false] at hm
  rcases hm with rfl | rfl | rfl
  · exact Json.isWellFormed_ofInt _
  · exact Json.isWellFormed_ofBinary _
  · exact Json.isWellFormed_ofBinary _

/-- An entry is found again if its bounds are finite. -/
theorem ofJson?_toJson (room : ℕ) (e : Entry) :
    ofJson? room e.toJson = if e.2.IsFinite then some e else none := by
  obtain ⟨id, lo, hi⟩ := e
  -- The key of the tensor is taken out, and what is kept of the entry are the two bounds.
  have hread : ofJson? room (toJson (id, ⟨lo, hi⟩)) = (Json.ofBinary lo).single?.bind fun lo ↦
      (Json.ofBinary hi).single?.bind fun hi ↦ some (id, ⟨lo, hi⟩) := by
    rw [toJson, Json.record, ofJson?, Json.named?_map_unitsOf]
    simp [Json.member?, Json.required, TensorId.ofJson?_toJson, Json.isDefinite_ofBinary,
      Json.depth_ofBinary]
  rw [hread]
  by_cases hlo : lo.isFinite = true
  · by_cases hhi : hi.isFinite = true
    · rw [Json.single?_ofBinary hlo, Json.single?_ofBinary hhi]
      exact (if_pos ⟨hlo, hhi⟩).symm
    · rw [Json.single?_ofBinary hlo, Json.single?_ofBinary_eq_none hhi]
      exact (if_neg fun h : Bounds.IsFinite ⟨lo, hi⟩ ↦ hhi h.2).symm
  · rw [Json.single?_ofBinary_eq_none hlo]
    exact (if_neg fun h : Bounds.IsFinite ⟨lo, hi⟩ ↦ hlo h.1).symm

end Entry

/-! ## Tables -/

namespace Table

theorem isWellFormed_toJson (t : Table) : t.toJson.IsWellFormed := by
  refine Json.isWellFormed_record fun m hm ↦ ?_
  rw [List.mem_singleton] at hm
  subst hm
  refine Json.areItemsWellFormed fun v hv ↦ ?_
  obtain ⟨e, -, rfl⟩ := List.mem_map.mp hv
  exact e.isWellFormed_toJson

theorem mapM_ofJson?_toJson (room : ℕ) (entries : List Entry) :
    (entries.map Entry.toJson).mapM (Entry.ofJson? room) =
      if ∀ e ∈ entries, e.2.IsFinite then some entries else none := by
  induction entries with
  | nil => exact (if_pos fun e he ↦ absurd he List.not_mem_nil).symm
  | cons e entries ih =>
    have hcons := List.forall_mem_cons (p := fun e : Entry ↦ e.2.IsFinite) (a := e) (l := entries)
    rw [List.map_cons, List.mapM_cons, ih, Entry.ofJson?_toJson]
    by_cases he : e.2.IsFinite
    · by_cases hrest : ∀ e ∈ entries, e.2.IsFinite
      · rw [if_pos he, if_pos hrest, if_pos (hcons.mpr ⟨he, hrest⟩)]
        rfl
      · rw [if_pos he, if_neg hrest, if_neg fun h ↦ hrest (hcons.mp h).2]
        rfl
    · rw [if_neg he, if_neg fun h ↦ he (hcons.mp h).1]
      rfl

theorem ofJson?_toJson (t : Table) :
    ofJson? t.toJson = if ∀ e ∈ t.entries, e.2.IsFinite then some t else none := by
  have hfields : t.toJson.fields? ["entries"] =
      some [some (.array (t.entries.map Entry.toJson))] := by
    rw [toJson, Json.record, Json.fields?, Json.named?_map_unitsOf]
    simp [Json.member?]
  rw [ofJson?, hfields]
  simp only [Option.bind_eq_bind, Option.bind_some, mapM_ofJson?_toJson]
  split <;> rfl

/-- **Tables through text.** A table is read as it was written if all its bounds are finite, and
otherwise its text is refused. -/
theorem read_write (t : Table) :
    read t.write = if ∀ e ∈ t.entries, e.2.IsFinite then .ok t else .error .malformedTable := by
  rw [read, write, Json.parse?_spread t.isWellFormed_toJson, Option.bind_some, ofJson?_toJson]
  by_cases h : ∀ e ∈ t.entries, e.2.IsFinite
  · rw [if_pos h, if_pos h]
  · rw [if_neg h, if_neg h]

end Table

/-! ## Stores -/

namespace Store

variable {id : TensorId} {b : Bounds} {l : List Entry}

theorem lookup_eq_none (h : id ∉ l.map Prod.fst) : l.lookup id = none := by
  induction l with
  | nil => rfl
  | cons e l ih =>
    rw [List.map_cons, List.mem_cons, not_or] at h
    rw [List.lookup_cons, beq_eq_false_iff_ne.mpr h.1]
    exact ih h.2

theorem lookup_eq_some_iff (h : (l.map Prod.fst).Nodup) :
    l.lookup id = some b ↔ (id, b) ∈ l := by
  induction l with
  | nil => simp
  | cons e l ih =>
    rw [List.map_cons, List.nodup_cons] at h
    rw [List.lookup_cons, List.mem_cons]
    by_cases hid : id = e.1
    · subst hid
      rw [beq_self_eq_true]
      refine ⟨fun hb ↦ Or.inl (Prod.ext rfl (Option.some.inj hb).symm), ?_⟩
      rintro (heq | hmem)
      · exact congrArg some (congrArg Prod.snd heq).symm
      · exact absurd (List.mem_map_of_mem hmem) h.1
    · rw [beq_eq_false_iff_ne.mpr hid]
      refine (ih h.2).trans ⟨Or.inr, fun hb ↦ hb.resolve_left fun heq ↦ ?_⟩
      exact hid (congrArg Prod.fst heq)

/-- Recording entries of different tensors joins each of them once. -/
theorem find?_recordAll (s : Store) (h : (l.map Prod.fst).Nodup) (id : TensorId) :
    (s.recordAll l).find? id = (l.lookup id).elim (s.find? id)
      fun b ↦ some ((s.find? id).elim b fun a ↦ a.union b) := by
  induction l generalizing s with
  | nil => rfl
  | cons e l ih =>
    rw [List.map_cons, List.nodup_cons] at h
    have hstep : s.recordAll (e :: l) = (s.record e.1 e.2).recordAll l := rfl
    rw [hstep, ih _ h.2, find?_record, List.lookup_cons]
    by_cases hid : id = e.1
    · -- The rest has no entry for the tensor.
      subst hid
      rw [lookup_eq_none h.1, if_pos rfl, beq_self_eq_true]
      rfl
    · rw [if_neg hid, beq_eq_false_iff_ne.mpr hid]

theorem lookup_of_perm (s : Store) (h : l.Perm s.entries) (id : TensorId) :
    l.lookup id = s.find? id := by
  have hnodup : (l.map Prod.fst).Nodup := (h.map Prod.fst).nodup_iff.mpr s.nodup
  refine Option.ext fun b ↦ ?_
  rw [lookup_eq_some_iff hnodup, h.mem_iff, find?, lookup_eq_some_iff s.nodup]

theorem perm_toTable (s : Store) : s.toTable.entries.Perm s.entries := List.mergeSort_perm _ _

theorem mem_toTable_iff (s : Store) :
    (id, b) ∈ s.toTable.entries ↔ s.find? id = some b := by
  rw [s.perm_toTable.mem_iff, find?, lookup_eq_some_iff s.nodup]

theorem find?_ofList (h : (l.map Prod.fst).Nodup) (id : TensorId) :
    (ofList l).find? id = l.lookup id := by
  rw [ofList, find?_recordAll _ h]
  cases l.lookup id <;> rfl

theorem find?_toStore_toTable (s : Store) (id : TensorId) :
    s.toTable.toStore.find? id = s.find? id := by
  have hnodup : (s.toTable.entries.map Prod.fst).Nodup :=
    (s.perm_toTable.map Prod.fst).nodup_iff.mpr s.nodup
  rw [Table.toStore, find?_ofList hnodup, s.lookup_of_perm s.perm_toTable]

/-- A store whose bounds are finite is handed on exactly: its table is read as it was written, and
the store of that table has the same tensors with the same bounds. -/
theorem handoff (s : Store) (h : ∀ id b, s.find? id = some b → b.IsFinite) :
    Table.read s.toTable.write = .ok s.toTable ∧
      ∀ id, s.toTable.toStore.find? id = s.find? id := by
  refine ⟨?_, s.find?_toStore_toTable⟩
  rw [Table.read_write, if_pos]
  rintro ⟨id, b⟩ he
  exact h id b (s.mem_toTable_iff.mp he)

/-- Bounds at the edges of the format, under the least and the greatest tensor number: a negative
zero, the least positive number, and the numbers of greatest magnitude. -/
def extremes : Store :=
  ofList [(⟨18446744073709551615⟩, ⟨.ofBits 0xff7fffff, .ofBits 0x7f7fffff⟩),
    (⟨0⟩, ⟨.ofBits 0x80000000, .ofBits 1⟩)]

theorem handoff_extremes :
    (∀ id b, extremes.find? id = some b → b.IsFinite) ∧
      Table.read extremes.toTable.write = .ok extremes.toTable ∧
        ∀ id, extremes.toTable.toStore.find? id = extremes.find? id := by
  have h : ∀ id b, extremes.find? id = some b → b.IsFinite := by
    intro id b hb
    have hall : ∀ e ∈ extremes.entries, e.2.IsFinite := by decide
    exact hall _ ((lookup_eq_some_iff extremes.nodup).mp hb)
  exact ⟨h, extremes.handoff h⟩

end Store

end AffineQuant
