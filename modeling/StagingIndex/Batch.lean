import StagingIndex.CacheTree.Collect

/-! # Batches

A batch collects candidates for a new table, in any order: new entries, entries of the present
table, and entries read from stored trees.

* `Batch.add`, `Batch.keepAll`, `Batch.keep`, `Batch.keepUnder` — collect candidates
* `Batch.addTree` — collect the entries of a stored tree -/

namespace StagingIndex

/-- Candidates for a table, in the order in which they were added. -/
structure Batch where
  candidates : List Entry
deriving DecidableEq

namespace Batch

/-- The batch without candidates. -/
def empty : Batch := ⟨[]⟩

/-- How many candidates there are. -/
def size (b : Batch) : Nat := b.candidates.length

/-- Add several candidates. -/
def addAll (b : Batch) (es : List Entry) : Batch := ⟨b.candidates ++ es⟩

/-- Add a candidate. -/
def add (b : Batch) (e : Entry) : Batch := b.addAll [e]

/-- Keep the entries of a table. -/
def keepAll (b : Batch) (t : Table) : Batch := b.addAll t

/-- Keep the entries of a table from one position up to another, as far as there are any. -/
def keep (b : Batch) (t : Table) (first stop : Nat) : Batch :=
  b.addAll ((t.take stop).drop first)

/-- Keep the entries of a table below a directory. -/
def keepUnder (b : Batch) (t : Table) (dir : Bytes) : Batch := b.addAll (t.under dir)

/-- Add the entries of a stored tree below a directory, which may be given with a slash at its end.
Where reading fails, the entries that were read before are added all the same. -/
def addTree {σ : Type} [ObjectDatabase σ] (b : Batch) (dir : Bytes) (stage : Stage) (id : ObjectId)
    (s : σ) : Batch × σ × Except IndexError Unit :=
  match CacheTree.collect stage id dir.dropFinalSlash s with
  | (read, s, r) => (b.addAll read, s, r.map fun _ => ())

end Batch

end StagingIndex
