import AffineQuant.AffineCode
import AffineQuant.MulShift

/-!
# The store of calibrated bounds

A store is a finite map from tensors to bounds. Recording bounds for a tensor that is already
there takes the union, so a store remembers what was recorded and not in which order; its
entries stand in the order of first recording, which no query shows.

## The invariant

Every tensor has one entry (`Store.nodup`). `upsert` keeps it because it changes the list of
tensors only by appending one that is missing (`map_fst_upsert`). Nothing else has to be shown,
since every other change of a store is made of recordings: `recordAll`, `ofList` and `merge` are
folds of `record`.

## Queries

Two stores are told apart by what `find?` finds, and `find?_record` says what a recording does to
it: the bounds of one tensor are joined, and all others stay as they were. The lookups that have
to find something (`bounds`, `code`, `codeFor`) fail for a tensor that is not known, and those of
a code also for bounds that have none.
-/

namespace AffineQuant

/-- Joins the bounds to the entry of the tensor, or appends an entry. -/
def upsert (id : TensorId) (b : Bounds) : List (TensorId × Bounds) → List (TensorId × Bounds)
  | [] => [(id, b)]
  | e :: rest => if e.1 = id then (id, e.2.union b) :: rest else e :: upsert id b rest

theorem map_fst_upsert (id : TensorId) (b : Bounds) (l : List (TensorId × Bounds)) :
    (upsert id b l).map Prod.fst =
      if id ∈ l.map Prod.fst then l.map Prod.fst else l.map Prod.fst ++ [id] := by
  induction l with
  | nil => rfl
  | cons e rest ih =>
    by_cases h : e.1 = id
    · simp [upsert, h]
    · have h' : ¬id = e.1 := fun k ↦ h k.symm
      by_cases k : id ∈ rest.map Prod.fst
      · rw [if_pos k] at ih
        simp only [upsert, if_neg h, List.map_cons, ih]
        rw [if_pos (List.mem_cons_of_mem _ k)]
      · rw [if_neg k] at ih
        simp only [upsert, if_neg h, List.map_cons, ih]
        rw [if_neg (by simpa [h'] using k)]
        rfl

theorem nodup_map_fst_upsert (id : TensorId) (b : Bounds) {l : List (TensorId × Bounds)}
    (h : (l.map Prod.fst).Nodup) : ((upsert id b l).map Prod.fst).Nodup := by
  rw [map_fst_upsert]
  split
  · exact h
  · next k =>
    rw [List.nodup_append]
    exact ⟨h, by simp, fun a ha c hc ↦ by simp at hc; rintro rfl; exact k (hc ▸ ha)⟩

/-- Joining bounds changes what is found for that tensor and for no other. -/
theorem lookup_upsert (id other : TensorId) (b : Bounds) (l : List (TensorId × Bounds)) :
    (upsert id b l).lookup other =
      if other = id then some ((l.lookup id).elim b fun a ↦ a.union b) else l.lookup other := by
  induction l with
  | nil =>
    by_cases h : other = id
    · subst h
      rw [upsert, List.lookup_cons, beq_self_eq_true, if_pos rfl]
      rfl
    · rw [upsert, List.lookup_cons, beq_eq_false_iff_ne.mpr h, if_neg h]
  | cons e rest ih =>
    obtain ⟨k, a⟩ := e
    by_cases hk : k = id
    · subst hk
      rw [upsert, if_pos rfl]
      by_cases h : other = k
      · subst h
        rw [List.lookup_cons, List.lookup_cons, beq_self_eq_true, if_pos rfl]
        rfl
      · rw [if_neg h, List.lookup_cons, List.lookup_cons, beq_eq_false_iff_ne.mpr h]
    · have hid : (id == k) = false := beq_eq_false_iff_ne.mpr fun h ↦ hk h.symm
      rw [upsert, if_neg hk, List.lookup_cons, List.lookup_cons, List.lookup_cons, hid, ih]
      by_cases h : other = id
      · subst h
        rw [if_pos rfl, if_pos rfl, hid]
      · rw [if_neg h, if_neg h]

/-- Bounds by tensor. -/
structure Store where
  entries : List (TensorId × Bounds)
  nodup : (entries.map Prod.fst).Nodup

namespace Store

def empty : Store := ⟨[], List.nodup_nil⟩

instance : EmptyCollection Store := ⟨empty⟩
instance : Inhabited Store := ⟨empty⟩

/-- The bounds of a tensor, if it has any. -/
def find? (s : Store) (id : TensorId) : Option Bounds := s.entries.lookup id

def contains (s : Store) (id : TensorId) : Bool := (s.find? id).isSome

def size (s : Store) : Nat := s.entries.length

def isEmpty (s : Store) : Bool := s.entries.isEmpty

/-- Joins bounds to those of a tensor. -/
def record (s : Store) (id : TensorId) (b : Bounds) : Store :=
  ⟨upsert id b s.entries, nodup_map_fst_upsert id b s.nodup⟩

/-- What is found after bounds were recorded. -/
theorem find?_record (s : Store) (id other : TensorId) (b : Bounds) :
    (s.record id b).find? other =
      if other = id then some ((s.find? id).elim b fun a ↦ a.union b) else s.find? other :=
  lookup_upsert id other b s.entries

@[simp] theorem find?_empty (id : TensorId) : (∅ : Store).find? id = none := rfl

/-- The store after everything that was recorded is dropped. -/
def clear (_ : Store) : Store := ∅

/-- Joins the bounds of a sample set to those of a tensor; a set without a usable sample
leaves the store as it is and fails. -/
def recordSamples (s : Store) (id : TensorId) (samples : List Single) : Except Failure Store :=
  match Bounds.ofSamples? samples with
  | none => .error (.emptySamples id)
  | some b => .ok (s.record id b)

/-- Records entries one after another. -/
def recordAll (s : Store) (entries : List (TensorId × Bounds)) : Store :=
  entries.foldl (fun s e ↦ s.record e.1 e.2) s

/-- The store of a list of entries, in which a tensor may occur several times. -/
def ofList (entries : List (TensorId × Bounds)) : Store := (∅ : Store).recordAll entries

/-- Records all entries of another store. -/
def merge (s t : Store) : Store := s.recordAll t.entries

/-- The bounds of a tensor, which has to be known. -/
def bounds (s : Store) (id : TensorId) : Except Failure Bounds :=
  match s.find? id with
  | none => .error (.unknownTensor id)
  | some b => .ok b

/-- The code of a tensor with the given number of bits. -/
def code (s : Store) (id : TensorId) (bits : Nat) : Except Failure AffineCode := do
  AffineCode.derive (← s.bounds id) bits

theorem code_eq {s : Store} {id : TensorId} {b : Bounds} (h : s.find? id = some b) (bits : Nat) :
    s.code id bits = AffineCode.derive b bits := by
  rw [code, bounds, h]
  rfl

/-- The code of a tensor for the activations of a target. -/
def codeFor (s : Store) (id : TensorId) (t : Target) : Except Failure AffineCode :=
  s.code id t.activationBits.toNat

end Store

/-- The multiply–shift pair of a value for the registers of a target. -/
def Target.encode (t : Target) (value : Single) (signed : Bool) : Except Failure MulShift :=
  MulShift.encode value t.mulBits.toNat t.maxShift.toNat signed

end AffineQuant
