import StagingIndex.Table

/-! # Edits

Edits change a table in one pass. They may be queued in any order: they are applied by path, and
for one path removals come before additions.

* `Edit` — one change
* `Edit.merge` — apply changes in order to a table
* `Edit.apply` — apply a queue of changes, checking what was added -/

namespace StagingIndex

/-- One change of a table. -/
inductive Edit where
  /-- Put an entry in, in place of one with the same key. -/
  | add (entry : Entry)
  /-- Take out all stages of a path. -/
  | remove (path : Bytes)
  /-- Take out all entries whose path begins with `base`, which ends in a slash. -/
  | removeBelow (base : Bytes)
deriving DecidableEq

namespace Edit

/-- Take out everything below a directory, which may be given without a slash at its end. -/
def removeTree (dir : Bytes) : Edit := removeBelow dir.withFinalSlash

/-- The path that an edit is applied at. -/
def path : Edit → Bytes
  | add e => e.path
  | remove p => p
  | removeBelow base => base

/-- The rank among edits at one path: removals first, then additions by stage. -/
def rank : Edit → Nat
  | add e => 1 + e.stage.toNat
  | remove _ => 0
  | removeBelow _ => 0

/-- Path, then rank: the order in which edits are applied. -/
instance : Ord Edit := ⟨compareLex (compareOn path) (compareOn rank)⟩

/-- Edits put into order; those that tie keep the order they were queued in. -/
def sorted (edits : List Edit) : List Edit :=
  edits.mergeSort fun a b => (compare a b).isLE

/-- What merging edits into a table gives. -/
structure Merged where
  /-- The new table. -/
  entries : List Entry
  /-- Paths below whose directories something changed. -/
  touched : List Bytes
  /-- Paths that were added, in order. -/
  added : List Bytes

/-- Whether the first of some edits adds an entry with a key. -/
def addsKey (k : EntryKey) : List Edit → Bool
  | add e :: _ => e.key = k
  | _ => false

/-- Merge edits, which are in order, into the entries of a table. Of several additions with the same
key the last one counts. An addition that repeats the content already there touches nothing. -/
def merge : List Edit → List Entry → Merged
  | [], old => ⟨old, [], []⟩
  | remove p :: edits, old =>
    let (before, rest) := old.span (Table.isBefore p)
    let (gone, rest) := rest.span fun e => e.path = p
    let m := merge edits rest
    ⟨before ++ m.entries, gone.map (·.path) ++ m.touched, m.added⟩
  | removeBelow base :: edits, old =>
    let (before, rest) := old.span (Table.isBefore base)
    let (gone, rest) := rest.span fun e => e.path.beginsWith base
    let m := merge edits rest
    ⟨before ++ m.entries, gone.map (·.path) ++ m.touched, m.added⟩
  | add e :: edits, old =>
    let (before, rest) := old.span fun o => compare o.key e.key == .lt
    let (same, rest) := match rest with
      | o :: rest => if o.key = e.key then ([o], rest) else ([], o :: rest)
      | [] => ([], [])
    let m := merge edits rest
    let touched := if same.any fun o => o.sameContent e then [] else [e.path]
    let entries := if addsKey e.key edits then m.entries else e :: m.entries
    ⟨before ++ entries, touched ++ m.touched, e.path :: m.added⟩

/-- Check the paths of additions, in the order in which they were queued. -/
def checkPaths (edits : List Edit) : Except IndexError Unit :=
  Table.checkPaths (edits.filterMap fun | add e => some e | _ => none)

/-- Apply a queue of edits. Only the paths that were added are checked against the new table. -/
def apply (edits : List Edit) (t : Table) : Except IndexError Merged := do
  checkPaths edits
  let m := merge (sorted edits) t
  (Table.dedup m.added).forM fun p => do
    Table.checkStages m.entries p
    Table.checkDirectory m.entries p
  return m

end Edit

end StagingIndex
