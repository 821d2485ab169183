import AffineQuant.Proofs.Binary.Order
import AffineQuant.Store.Basic

/-!
# The content of a store

What a store tells about a tensor is an element of a join-semilattice: the extent of its bounds, or
the bottom element if there are none. Taking the union of bounds is joining their extents, so
recording and merging are joins, and whatever was recorded in whatever order, the content is the
join of all contributions (`content_recordAll`, `content_merge`). In particular a merge may go
through the entries of the other store in any order.

## Extents

The semilattice is assembled from those of the library: two linear orders, the one for the minimum
upside down, and a bottom element below their product. Each component has NaN at its lower end, so
that a bound that is NaN tells nothing about that side, which is less than any number does; it is
still more than to have no bounds. Contents are functions of the tensor, ordered pointwise, and
need no finiteness.

## Agreement

Extents do not tell the two zeros apart, and neither does `Store.Agrees`, which says the same in
terms of what can be looked up (`agrees_iff_content_eq`). Equality of stores would be too fine for
two reasons, the signs of zeros and the order of entries. Statements about merging in any order
are proved about contents and then read as agreement.

The order of contents has a meaning as well: a store with the greater content encloses the other
(`encloses_of_content_le`).
-/

namespace AffineQuant

open Binary

/-! ## Extents -/

/-- How far bounds reach to either side. -/
abbrev Extent := (WithTop Line)ᵒᵈ × WithBot Line

namespace Bounds

/-- The extent of bounds; wider bounds have greater extents. -/
def extent (b : Bounds) : Extent := (OrderDual.toDual b.min.lowPlace, b.max.highPlace)

/-- The bounds, zeros counted as positive. -/
def unsigned (b : Bounds) : Bounds := ⟨b.min.unsigned, b.max.unsigned⟩

theorem extent_union (a b : Bounds) : (a.union b).extent = a.extent ⊔ b.extent := by
  rw [union, extent, lowPlace_least, highPlace_greatest]
  rfl

theorem extent_eq_iff {a b : Bounds} : a.extent = b.extent ↔ a.unsigned = b.unsigned := by
  rw [extent, extent, Prod.mk.injEq, OrderDual.toDual_inj, lowPlace_eq_iff, highPlace_eq_iff,
    unsigned, unsigned, mk.injEq]

end Bounds

namespace Store

variable {s t : Store} {l l' : List (TensorId × Bounds)}

/-- What a store tells about a tensor. -/
def content (s : Store) (id : TensorId) : WithBot Extent :=
  (s.find? id).elim ⊥ fun b ↦ b.extent

/-- The stores have entries for the same tensors, with the same bounds up to the sign of a
zero. -/
def Agrees (s t : Store) : Prop :=
  ∀ id, (s.find? id).map Bounds.unsigned = (t.find? id).map Bounds.unsigned

theorem agrees_iff_content_eq : s.Agrees t ↔ s.content = t.content := by
  rw [Agrees, funext_iff]
  refine forall_congr' fun id ↦ ?_
  rw [content, content]
  cases s.find? id <;> cases t.find? id <;> simp [Bounds.extent_eq_iff]

/-! ## Contributions -/

/-- What an entry tells about the tensors: something about its own, nothing about others. -/
def contribution (e : TensorId × Bounds) (id : TensorId) : WithBot Extent :=
  if id = e.1 then (e.2.extent : WithBot Extent) else ⊥

/-- What all entries of a list tell together; a tensor may occur several times. -/
def contentOf (l : List (TensorId × Bounds)) : TensorId → WithBot Extent :=
  (l.map contribution).foldr (· ⊔ ·) ⊥

@[simp] theorem contentOf_nil : contentOf [] = ⊥ := rfl

@[simp] theorem contentOf_cons (e : TensorId × Bounds) (l : List (TensorId × Bounds)) :
    contentOf (e :: l) = contribution e ⊔ contentOf l := rfl

theorem contentOf_append (l l' : List (TensorId × Bounds)) :
    contentOf (l ++ l') = contentOf l ⊔ contentOf l' := by
  induction l with
  | nil => rw [List.nil_append, contentOf_nil, bot_sup_eq]
  | cons e l ih => rw [List.cons_append, contentOf_cons, contentOf_cons, ih, sup_assoc]

theorem contentOf_perm (h : l.Perm l') : contentOf l = contentOf l' :=
  (h.map contribution).foldr_op_eq

/-- A list without entries for a tensor tells nothing about it. -/
theorem contentOf_eq_bot {id : TensorId} (h : id ∉ l.map Prod.fst) : contentOf l id = ⊥ := by
  induction l with
  | nil => rfl
  | cons e l ih =>
    rw [List.map_cons, List.mem_cons, not_or] at h
    rw [contentOf_cons, Pi.sup_apply, contribution, if_neg h.1, ih h.2, bot_sup_eq]

/-- If every tensor has one entry, that is all there is to know about it. -/
theorem contentOf_apply (h : (l.map Prod.fst).Nodup) (id : TensorId) :
    contentOf l id = (l.lookup id).elim ⊥ fun b ↦ (b.extent : WithBot Extent) := by
  induction l with
  | nil => rfl
  | cons e l ih =>
    rw [List.map_cons, List.nodup_cons] at h
    rw [contentOf_cons, Pi.sup_apply, contribution, List.lookup_cons]
    by_cases hid : id = e.1
    · -- The rest of the list has no entry for the tensor of the first one.
      rw [if_pos hid, hid, contentOf_eq_bot h.1, beq_self_eq_true, sup_bot_eq]
      rfl
    · rw [if_neg hid, beq_eq_false_iff_ne.mpr hid, ih h.2, bot_sup_eq]

theorem contentOf_entries (s : Store) : contentOf s.entries = s.content :=
  funext (contentOf_apply s.nodup)

/-! ## Recording joins -/

theorem recordAll_append (s : Store) (l l' : List (TensorId × Bounds)) :
    s.recordAll (l ++ l') = (s.recordAll l).recordAll l' :=
  List.foldl_append

@[simp] theorem content_empty : (∅ : Store).content = ⊥ := rfl

theorem content_record (s : Store) (id : TensorId) (b : Bounds) :
    (s.record id b).content = s.content ⊔ contribution (id, b) := by
  funext other
  rw [Pi.sup_apply, contribution, content, content, find?_record]
  by_cases h : other = id
  · subst h
    rw [if_pos rfl, if_pos rfl]
    cases s.find? other with
    | none => exact (bot_sup_eq _).symm
    | some a => exact congrArg WithBot.some (a.extent_union b)
  · rw [if_neg h, if_neg h, sup_bot_eq]

theorem content_recordAll (s : Store) (l : List (TensorId × Bounds)) :
    (s.recordAll l).content = s.content ⊔ contentOf l := by
  induction l generalizing s with
  | nil => rw [contentOf_nil, sup_bot_eq, recordAll, List.foldl_nil]
  | cons e l ih =>
    have hstep : s.recordAll (e :: l) = (s.record e.1 e.2).recordAll l := rfl
    rw [hstep, ih, content_record, contentOf_cons, sup_assoc]

theorem content_ofList (l : List (TensorId × Bounds)) : (ofList l).content = contentOf l := by
  rw [ofList, content_recordAll, content_empty, bot_sup_eq]

/-- Entries may be recorded in any order. -/
theorem agrees_recordAll (s : Store) (h : l.Perm l') : (s.recordAll l).Agrees (s.recordAll l') := by
  rw [agrees_iff_content_eq, content_recordAll, content_recordAll, contentOf_perm h]

theorem content_merge (s t : Store) : (s.merge t).content = s.content ⊔ t.content := by
  rw [merge, content_recordAll, contentOf_entries]

/-! ## Wider stores -/

/-- The store has bounds wherever the other one has, and they reach at least as far. An end that is
NaN may give way to any other. -/
def Encloses (s t : Store) : Prop :=
  ∀ id b, t.find? id = some b → ∃ c, s.find? id = some c ∧
    (b.min.isNaN = false → c.min ≤ b.min) ∧ (b.max.isNaN = false → b.max ≤ c.max)

theorem encloses_of_content_le (h : t.content ≤ s.content) : s.Encloses t := by
  intro id b hb
  have hle := h id
  rw [content, content, hb] at hle
  cases hc : s.find? id with
  | none =>
    rw [hc] at hle
    exact absurd (le_bot_iff.mp hle) WithBot.coe_ne_bot
  | some c =>
    rw [hc] at hle
    have hextent := WithBot.coe_le_coe.mp hle
    exact ⟨c, rfl, Binary.le_or_isNaN_iff_lowPlace.mpr hextent.1,
      Binary.ge_or_isNaN_iff_highPlace.mpr hextent.2⟩

theorem content_le_foldl_merge (s : Store) (l : List Store) :
    s.content ≤ (l.foldl merge s).content := by
  induction l generalizing s with
  | nil => exact le_rfl
  | cons t l ih =>
    have hmerge : s.content ≤ (s.merge t).content := by
      rw [content_merge]
      exact le_sup_left
    exact hmerge.trans (ih (s.merge t))

end Store

end AffineQuant
