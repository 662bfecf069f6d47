import StagingIndex.Error
import StagingIndex.Search

/-! # The entry table

The entries of an index in increasing order of path and stage. A slash is a byte like any other, so
what is below a directory stands together, and every lookup is a binary search.

* `Table.find`, `Table.stages`, `Table.under` — lookups
* `Table.conflictPaths` — the paths that are in conflict
* `Table.checkStages`, `Table.checkDirectory`, `Table.checkAll` — no path is merged and in conflict
  at once, and none is both a file and a directory
* `Table.sorted`, `Table.unify` — candidates in order, equal keys made one
* `Table.normalize` — a table from candidates in any order -/

namespace StagingIndex

/-- Entries in increasing order of path and stage. -/
abbrev Table : Type := List Entry

/-- What a batch of candidates makes of two entries with the same key. -/
inductive DuplicatePolicy where
  /-- The batch fails. -/
  | reject
  /-- The one that was added last stays. -/
  | lastWins
deriving DecidableEq, Repr

namespace Table

/-! ## Lookups -/

/-- Whether an entry stands before a path. -/
def isBefore (p : Bytes) (e : Entry) : Bool := compare e.path p == .lt

/-- Where a path is, at its lowest stage, or where it would have to go. -/
def locate (t : Table) (p : Bytes) : Search.Place :=
  let i := Search.partitionPoint (isBefore p) t
  match t[i]? with
  | some e => if e.path = p then .present i else .absent i
  | none => .absent i

/-- The entry of a path at its lowest stage. -/
def find (t : Table) (p : Bytes) : Option Entry :=
  match t.locate p with
  | .present i => t[i]?
  | .absent _ => none

/-- The merged entry of a path. -/
def findMerged (t : Table) (p : Bytes) : Option Entry := (t.find p).filter (·.stage = .merged)

/-- The run of entries that starts where `isBefore` ends and goes on while `inside` holds. -/
def run (before inside : Entry → Bool) (t : Table) : List Entry :=
  let rest := t.drop (Search.partitionPoint before t)
  rest.take (Search.partitionPoint inside rest)

/-- All entries of a path, in the order of their stages. -/
def stages (t : Table) (p : Bytes) : List Entry := run (isBefore p) (fun e => e.path = p) t

/-- All entries below a directory, which may be given with or without a slash at its end. Below the
directory without a name is the whole table. -/
def under (t : Table) (dir : Bytes) : List Entry :=
  if dir.dropFinalSlash = [] then t
  else
    let base := dir.dropFinalSlash ++ [Bytes.slash]
    run (isBefore base) (fun e => e.path.beginsWith base) t

/-- Whether some path is in conflict. -/
def hasConflicts (t : Table) : Bool := t.any (·.stage.isConflict)

/-- Leave out elements that are equal to the one before them. -/
def dedup : List Bytes → List Bytes
  | p :: q :: ps => if p = q then dedup (q :: ps) else p :: dedup (q :: ps)
  | ps => ps

/-- The paths in conflict, each once, in the order of the table. -/
def conflictPaths (t : Table) : List Bytes :=
  dedup ((t.filter (·.stage.isConflict)).map (·.path))

/-- Drop the sizes of racy entries. -/
def smudge (cutoff : Timestamp) (t : Table) : Table := t.map (Entry.smudge cutoff)

/-! ## Checks -/

/-- No path is merged and in conflict at once: the stages of one path are either one entry or do
not start with the merged one. -/
def checkStages (t : Table) (p : Bytes) : Except IndexError Unit :=
  match t.stages p with
  | e :: _ :: _ => if e.stage = .merged then .error (.mixedStages p) else .ok ()
  | _ => .ok ()

/-- A path is not the directory of other paths. -/
def checkNotDirectory (t : Table) (p : Bytes) : Except IndexError Unit :=
  if (t.under p).isEmpty then .ok () else .error (.fileAndDirectory p)

/-- A path is not the directory of other paths, and none of its own directories is a path. -/
def checkDirectory (t : Table) (p : Bytes) : Except IndexError Unit := do
  t.checkNotDirectory p
  match p.ancestors.find? fun d => (t.find d).isSome with
  | some d => .error (.fileAndDirectory d)
  | none => .ok ()

/-- Check every path of a table, in order. -/
def checkAll (t : Table) : Except IndexError Unit :=
  (dedup (t.map (·.path))).forM fun p => do
    t.checkStages p
    t.checkNotDirectory p

/-! ## Tables from candidates -/

/-- Entries put into order; those with the same key keep the order they came in. -/
def sorted (es : List Entry) : List Entry :=
  es.mergeSort fun a b => (compare a.key b.key).isLE

/-- Make one of neighbours with the same key. -/
def unify (policy : DuplicatePolicy) : List Entry → Except IndexError (List Entry)
  | a :: b :: es =>
    if a.key = b.key then
      match policy with
      | .reject => .error (.duplicateEntry b.path b.stage)
      | .lastWins => unify policy (b :: es)
    else (unify policy (b :: es)).map (a :: ·)
  | es => .ok es

/-- Check the paths of candidates, in the order in which they were added. -/
def checkPaths (es : List Entry) : Except IndexError Unit :=
  es.forM fun e =>
    match Path.fault? e.path with
    | some fault => .error (.invalidPath e.path fault)
    | none => .ok ()

/-- The table that candidates make, in whatever order they were added. -/
def normalize (policy : DuplicatePolicy) (es : List Entry) : Except IndexError Table := do
  checkPaths es
  let t ← unify policy (sorted es)
  checkAll t
  return t

end Table

end StagingIndex
