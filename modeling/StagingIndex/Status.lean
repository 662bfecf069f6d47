import StagingIndex.Table

/-! # Status

How the working tree differs from a table, as far as stat data tell. Only entries without marks
that are not in conflict are looked at, one after another, until one look fails.

* `StatSource` — what is asked of a working tree
* `Entry.isExamined` — entries whose file is looked at
* `Entry.judge` — what a look at the file says
* `Status.compute` — all entries of a table, sorted out -/

namespace StagingIndex

/-- What is asked of a working tree. It may change between two looks, so each gives the next
state. -/
class StatSource (σ : Type) where
  /-- Look at the file of a path, without following a link at its end; `none` stands for a missing
  file. -/
  stat : Bytes → σ → Except FileFault (Option Stat) × σ

/-- A working tree that stays as it is, given by what a look at each path says. -/
instance : StatSource (Bytes → Except FileFault (Option Stat)) where
  stat p answers := (answers p, answers)

/-- How a file differs from its entry. -/
inductive FileChange where
  /-- It is of the same kind, but looks different. -/
  | modified
  /-- It is of another kind. -/
  | typeChanged
deriving DecidableEq, Repr

/-- The kinds of files that are told apart. -/
inductive FileKind where
  | file
  | symlink
  | directory
deriving DecidableEq, Repr

/-- The kind of file that a mode asks for. -/
def Mode.fileKind : Mode → FileKind
  | regular => .file
  | executable => .file
  | symlink => .symlink
  | gitlink => .directory
  | directory => .directory

/-- What a look at the file of an entry says. -/
inductive Verdict where
  | clean
  | missing
  | changed (change : FileChange)
  /-- The file looks the same, which proves nothing. -/
  | racy
deriving DecidableEq, Repr

namespace Entry

/-- Whether the file of an entry is looked at. -/
def isExamined (e : Entry) : Bool :=
  !e.stage.isConflict && !e.flags.assumeValid && !e.flags.skipWorktree && !e.flags.intentToAdd

/-- What stat data say about an entry, where `none` stands for a missing file. Nested repositories
are only looked at for their kind. -/
def judge (cutoff : Timestamp) (e : Entry) : Option Stat → Verdict
  | none => .missing
  | some s =>
    if s.entryMode?.map Mode.fileKind ≠ some e.mode.fileKind then .changed .typeChanged
    else if e.mode = .gitlink then .clean
    else if !e.statMatches s then .changed .modified
    else if e.isRacy cutoff then .racy
    else .clean

end Entry

/-- How a working tree differs from a table. -/
structure Status where
  modified : List (Bytes × FileChange)
  deleted : List Bytes
  racy : List Bytes
  conflicts : List Bytes
deriving DecidableEq, Repr

namespace Status

/-- The change of a verdict that is one, with its path. -/
def change? : Bytes × Verdict → Option (Bytes × FileChange)
  | (p, .changed c) => some (p, c)
  | _ => none

/-- The paths with a verdict. -/
def pathsWith (v : Verdict) (judged : List (Bytes × Verdict)) : List Bytes :=
  (judged.filter (·.2 = v)).map (·.1)

section
variable {σ : Type} [StatSource σ]

/-- Look at the files of entries, one after another, until one look fails. -/
def examine (cutoff : Timestamp) :
    List Entry → σ → Except IndexError (List (Bytes × Verdict)) × σ
  | [], s => (.ok [], s)
  | e :: es, s =>
    match StatSource.stat e.path s with
    | (.error fault, s) => (.error (.io e.path fault), s)
    | (.ok stat, s) =>
      match examine cutoff es s with
      | (r, s) => (r.map ((e.path, e.judge cutoff stat) :: ·), s)

/-- Compare a table with a source of stat data. Entries that look the same but changed at or after
the cutoff are racy. -/
def compute (t : Table) (cutoff : Timestamp) (s : σ) : Except IndexError Status × σ :=
  match examine cutoff (t.filter Entry.isExamined) s with
  | (r, s) =>
    (r.map fun judged =>
      { modified := judged.filterMap change?
        deleted := pathsWith .missing judged
        racy := pathsWith .racy judged
        conflicts := t.conflictPaths }, s)

end

/-- How many paths are in the lists. -/
def total (s : Status) : Nat :=
  s.modified.length + s.deleted.length + s.racy.length + s.conflicts.length

/-- Whether there is nothing to look into. -/
def isClean (s : Status) : Bool :=
  s.modified.isEmpty && s.deleted.isEmpty && s.racy.isEmpty && s.conflicts.isEmpty

/-- Whether there are conflicts. -/
def hasConflicts (s : Status) : Bool := !s.conflicts.isEmpty

end Status

end StagingIndex
