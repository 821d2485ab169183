import AffineQuant.Calibration.Pass

/-!
# Stores shared between workers

A pool holds the stores that several holders share. Holders know a store by its handle, and each
operation here is one critical section: it takes the lock of one store, reads or changes it, and
releases the lock. An interleaving of such operations is a sequence of them.

## Holders

A cell counts its holders. `share` makes a cell with one holder, `retain` adds one and `release`
takes one away; the last one to leave takes the cell with it, while the others go on seeing what
they share. `intoStore` gives up a handle for the content, which the last holder moves out and
any other copies.

## Passes

A worker of a pass observes its share of the batches without the lock and then merges its local
store in a single critical section (`mergeLocal`). `calibrate` is the pass in which the workers
come to their merges in the order of the list.
-/

namespace AffineQuant

/-- A shared store and the number of its holders. -/
structure Cell where
  content : Store
  holders : Nat

/-- The stores that are shared at a time; a cell without holders is gone. -/
structure Pool where
  cells : List (Option Cell)

/-- The place of a store in the pool. -/
abbrev Handle := Nat

namespace Pool

def empty : Pool := ⟨[]⟩

instance : EmptyCollection Pool := ⟨empty⟩

/-- The cell behind a handle. -/
def cell? (p : Pool) (h : Handle) : Option Cell := p.cells[h]?.join

/-- Shares a store: a new cell with one holder. -/
def share (p : Pool) (s : Store) : Pool × Handle :=
  (⟨p.cells ++ [some ⟨s, 1⟩]⟩, p.cells.length)

@[simp] theorem cell?_share (p : Pool) (s : Store) :
    (p.share s).1.cell? (p.share s).2 = some ⟨s, 1⟩ := by
  simp [share, cell?]

private def update (p : Pool) (h : Handle) (f : Cell → Option Cell) : Pool :=
  ⟨p.cells.modify h fun c ↦ c.bind f⟩

private theorem cell?_update (p : Pool) (h : Handle) (f : Cell → Option Cell) :
    (p.update h f).cell? h = (p.cell? h).bind f := by
  rw [update, cell?, cell?, List.getElem?_modify_eq]
  cases p.cells[h]? <;> rfl

/-- One more holder. -/
def retain (p : Pool) (h : Handle) : Pool :=
  p.update h fun c ↦ some { c with holders := c.holders + 1 }

@[simp] theorem cell?_retain (p : Pool) (h : Handle) :
    (p.retain h).cell? h = (p.cell? h).map fun c ↦ { c with holders := c.holders + 1 } := by
  rw [retain, cell?_update]
  cases p.cell? h <;> rfl

/-- One holder less; the last one takes the cell away. -/
def release (p : Pool) (h : Handle) : Pool :=
  p.update h fun c ↦ if c.holders ≤ 1 then none else some { c with holders := c.holders - 1 }

@[simp] theorem cell?_release (p : Pool) (h : Handle) :
    (p.release h).cell? h = (p.cell? h).bind fun c ↦
      if c.holders ≤ 1 then none else some { c with holders := c.holders - 1 } :=
  p.cell?_update h _

/-- The content at this moment. -/
def snapshot (p : Pool) (h : Handle) : Store := ((p.cell? h).map Cell.content).getD ∅

theorem snapshot_eq {p : Pool} {h : Handle} {c : Cell} (hc : p.cell? h = some c) :
    p.snapshot h = c.content := by
  rw [snapshot, hc]
  rfl

/-- Merges a local store into the shared one. -/
def mergeLocal (p : Pool) (h : Handle) (seen : Store) : Pool :=
  p.update h fun c ↦ some { c with content := c.content.merge seen }

@[simp] theorem cell?_mergeLocal (p : Pool) (h : Handle) (seen : Store) :
    (p.mergeLocal h seen).cell? h =
      (p.cell? h).map fun c ↦ { c with content := c.content.merge seen } := by
  rw [mergeLocal, cell?_update]
  cases p.cell? h <;> rfl

def bounds (p : Pool) (h : Handle) (id : TensorId) : Except Failure Bounds :=
  (p.snapshot h).bounds id

def size (p : Pool) (h : Handle) : Nat := (p.snapshot h).size

def isEmpty (p : Pool) (h : Handle) : Bool := (p.snapshot h).isEmpty

/-- Gives up a handle for the content: it is moved out by the last holder and copied by any
other. -/
def intoStore (p : Pool) (h : Handle) : Pool × Store := (p.release h, p.snapshot h)

/-- A pass by several workers on a shared store: each worker merges its local store when its
share is done, in the order of the list. -/
def calibrate (p : Pool) (h : Handle) (shares : List (List Batch)) : Pool × Report :=
  (shares.map scan).foldl (fun (acc : Pool × Report) (o : Observed) ↦
    (acc.1.mergeLocal h o.1, acc.2.combine o.2)) (p, ∅)

end Pool

end AffineQuant
