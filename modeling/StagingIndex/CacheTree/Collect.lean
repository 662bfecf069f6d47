import StagingIndex.CacheTree.Basic
import StagingIndex.Database

/-! # Entries from stored trees

A stored tree is read into entries, one for every name that is not a subtree, with the directories
that were read as a cache tree in which everything is known.

* `CacheTree.collect` — the entries and the cache tree of a stored tree -/

namespace StagingIndex

namespace CacheTree

variable {σ : Type} [ObjectDatabase σ]

/-- What reading gives: the entries that were read, also those before a failure, the database, and
the result. -/
abbrev Reading (σ α : Type) : Type := List Entry × σ × Except IndexError α

/-- Read the items of a listing, with a way to read subtrees. -/
def collectItems (load : ObjectId → Bytes → σ → Reading σ CacheTree) (dir : Bytes)
    (stage : Stage) : List TreeItem → σ → Reading σ (List CacheTree)
  | [], s => ([], s, .ok [])
  | item :: items, s =>
    let path := Bytes.join dir item.name
    if item.mode = .directory then
      match load item.id path s with
      | (read, s, .error e) => (read, s, .error e)
      | (read, s, .ok (.node _ known children)) =>
        match collectItems load dir stage items s with
        | (more, s, r) => (read ++ more, s, r.map (node item.name known children :: ·))
    else
      match collectItems load dir stage items s with
      | (more, s, r) => (Entry.bare path stage item.mode item.id :: more, s, r)

/-- Read the tree of an id as the directory `dir`, in which listings may be nested to the given
depth. -/
def collectWithin (stage : Stage) : Nat → ObjectId → Bytes → σ → Reading σ CacheTree
  | 0, id, _, s => ([], s, .error (.endlessNesting id))
  | depth + 1, id, dir, s =>
    match ObjectDatabase.fetch id s with
    | (.error e, s) => ([], s, .error (.store e))
    | (.ok none, s) => ([], s, .error (.objectNotFound id))
    | (.ok (some object), s) =>
      match Tree.ofObject object with
      | .error e => ([], s, .error (.store e))
      | .ok tree =>
        match collectItems (collectWithin stage depth) dir stage tree.items s with
        | (read, s, r) =>
          (read, s, r.map fun children => node [] (some ⟨read.length, id⟩) (sortByName children))

/-- Read the tree of an id as the directory `dir`. -/
def collect (stage : Stage) (id : ObjectId) (dir : Bytes) (s : σ) : Reading σ CacheTree :=
  collectWithin stage (ObjectDatabase.nesting s + 1) id dir s

end CacheTree

end StagingIndex
