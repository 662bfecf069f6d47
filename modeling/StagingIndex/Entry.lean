import StagingIndex.Object

/-! # Entries

An entry records one path at one stage of a merge: what is staged there, and what the working tree
said about the file when it was staged.

* `Stage`, `Timestamp`, `EntryFlags`, `Entry` — the parts of an entry and the entry itself
* `Entry.key` — path, then stage: the order of the table
* `Entry.sameContent` — whether two entries stand for the same name in a tree
* `Stat` — what the working tree says about a file
* `Entry.statMatches` — whether a file still looks as recorded
* `Entry.isRacy` — whether looking the same proves nothing -/

namespace StagingIndex

/-- The place of an entry in a merge. -/
inductive Stage where
  /-- No conflict. -/
  | merged
  /-- The common ancestor. -/
  | base
  /-- Our side. -/
  | ours
  /-- Their side. -/
  | theirs
deriving DecidableEq, Repr

namespace Stage

/-- The number of a stage. -/
def toNat : Stage → Nat
  | merged => 0
  | base => 1
  | ours => 2
  | theirs => 3

/-- The stage of a number. -/
def ofNat? : Nat → Option Stage
  | 0 => some merged
  | 1 => some base
  | 2 => some ours
  | 3 => some theirs
  | _ => none

@[simp] theorem ofNat?_toNat (s : Stage) : ofNat? s.toNat = some s := by
  cases s <;> rfl

/-- Stages of a path that still has to be resolved. -/
def isConflict (s : Stage) : Bool := s ≠ merged

instance : Ord Stage := ⟨fun a b => compare a.toNat b.toNat⟩

end Stage

/-- A moment in seconds and nanoseconds, thirty-two bits each. -/
structure Timestamp where
  seconds : UInt32
  nanos : UInt32
deriving DecidableEq, Repr

namespace Timestamp

/-- The moment that stands for no time at all. -/
def zero : Timestamp := ⟨0, 0⟩

/-- The moment that many nanoseconds after the epoch. Moments before it count as zero, and seconds
wrap around. -/
def ofNanoseconds (n : Int) : Timestamp :=
  ⟨UInt32.ofNat (n.toNat / 1000000000), UInt32.ofNat (n.toNat % 1000000000)⟩

instance : Ord Timestamp := ⟨compareLex (compareOn seconds) (compareOn nanos)⟩

end Timestamp

/-- Marks that change how an entry is treated. -/
structure EntryFlags where
  /-- The file is taken to be unchanged without a look. -/
  assumeValid : Bool
  /-- The file is outside the part of the working tree that is checked out. -/
  skipWorktree : Bool
  /-- The path is tracked, but not yet part of any tree. -/
  intentToAdd : Bool
deriving DecidableEq, Repr

namespace EntryFlags

/-- No marks. -/
def none : EntryFlags := ⟨false, false, false⟩

/-- Marks that need the second word of flags in a file. -/
def needsExtended (f : EntryFlags) : Bool := f.skipWorktree || f.intentToAdd

end EntryFlags

/-- One path at one stage. -/
structure Entry where
  path : Bytes
  stage : Stage
  mode : Mode
  id : ObjectId
  ctime : Timestamp
  mtime : Timestamp
  dev : UInt32
  ino : UInt32
  uid : UInt32
  gid : UInt32
  size : UInt32
  flags : EntryFlags
deriving DecidableEq

/-- What the working tree says about a file. -/
structure Stat where
  ctime : Timestamp
  mtime : Timestamp
  dev : UInt32
  ino : UInt32
  /-- The type of the file and its permissions. -/
  mode : UInt32
  uid : UInt32
  gid : UInt32
  size : UInt64
deriving DecidableEq, Repr

/-- The mode that a file would be staged with. -/
def Stat.entryMode? (s : Stat) : Option Mode :=
  let type := s.mode &&& 0o170000
  if type = 0o100000 then
    some (if s.mode &&& 0o111 ≠ 0 then .executable else .regular)
  else if type = 0o120000 then some .symlink
  else if type = 0o40000 then some .directory
  else none

/-- What the table is ordered by. -/
structure EntryKey where
  path : Bytes
  stage : Stage
deriving DecidableEq, Repr

instance : Ord EntryKey := ⟨compareLex (compareOn EntryKey.path) (compareOn EntryKey.stage)⟩

namespace Entry

/-- An entry that records no stat data and carries no marks. -/
def bare (path : Bytes) (stage : Stage) (mode : Mode) (id : ObjectId) : Entry where
  path
  stage
  mode
  id
  ctime := .zero
  mtime := .zero
  dev := 0
  ino := 0
  uid := 0
  gid := 0
  size := 0
  flags := .none

/-- Path, then stage. -/
def key (e : Entry) : EntryKey := ⟨e.path, e.stage⟩

/-- Whether two entries stand for the same name in a tree. -/
def sameContent (a b : Entry) : Bool :=
  a.path = b.path && a.stage = b.stage && a.mode = b.mode && a.id = b.id &&
    a.flags.intentToAdd = b.flags.intentToAdd

/-! ## Stat data -/

/-- Record what the working tree says. Of the size only the low thirty-two bits are kept. -/
def withStat (e : Entry) (s : Stat) : Entry :=
  { e with
    ctime := s.ctime
    mtime := s.mtime
    dev := s.dev
    ino := s.ino
    uid := s.uid
    gid := s.gid
    size := s.size.toUInt32 }

/-- Whether the file is still of the recorded type. A nested repository is a directory. -/
def modeMatches (e : Entry) (s : Stat) : Bool :=
  match s.entryMode? with
  | some actual => actual = e.mode || (e.mode = .gitlink && actual = .directory)
  | none => false

/-- Whether a file still looks as recorded. -/
def statMatches (e : Entry) (s : Stat) : Bool :=
  e.modeMatches s && e.mtime = s.mtime && e.ctime = s.ctime && e.size = s.size.toUInt32 &&
    e.ino = s.ino && e.dev = s.dev && e.uid = s.uid && e.gid = s.gid

/-- Changed at or after a moment from which on equal stat data do not prove equal content. The zero
moment stands for none. -/
def isRacy (e : Entry) (cutoff : Timestamp) : Bool :=
  cutoff ≠ .zero && (compare cutoff e.mtime).isLE

/-- An entry whose size is dropped if it is racy, so that no later look can find it unchanged. -/
def smudge (cutoff : Timestamp) (e : Entry) : Entry :=
  if e.size ≠ 0 && e.isRacy cutoff then { e with size := 0 } else e

end Entry

end StagingIndex
