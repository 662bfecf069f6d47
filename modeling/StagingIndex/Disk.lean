import StagingIndex.FileSystem.Change

/-! # The index file and its lock file

An index uses two paths: that of the index file and that of its lock file. Each leads to a file, to
something else, or to nothing, and a file stays the same file when a name is taken from it and given
to another one. Creating the lock file where there is nothing, and renaming it over the index file,
are single steps.

* `Disk` — what the two paths lead to
* `Disk.fingerprint`, `Disk.content` — what can be seen of the index file
* `Disk.createLock`, `Disk.overwrite`, `Disk.publish`, `Disk.removeLock` — the steps of a writer
* `FileSystem.disk`, `FileSystem.withDisk` — the two paths within a file system -/

namespace StagingIndex

/-- What tells one state of the index file from another without reading it. -/
structure Fingerprint where
  mtime : Timestamp
  size : Nat
deriving DecidableEq, Repr

/-- What can be given the name that a path ends in. -/
inductive Naming where
  | anything
  /-- Directories alone, as a slash follows the name. -/
  | directories
  /-- Nothing, as every directory has the name, or there is none. -/
  | nothing
deriving DecidableEq, Repr

/-- What can be given the name that a path ends in. -/
def Naming.ofPath (path : Bytes) : Naming :=
  if FileSystem.endsInDots path then .nothing
  else if path.getLast? = some Bytes.slash then .directories
  else .anything

/-- What is at the end of a path. -/
structure PathEnd where
  /-- What the last name leads to. -/
  link : Link
  /-- What is found there when symbolic links are followed. -/
  found : Link
deriving DecidableEq, Repr

/-- The end of a path that leads to something which is no symbolic link. -/
def PathEnd.direct (l : Link) : PathEnd := ⟨l, l⟩

/-- What the two paths of an index lead to. Files and directories are known by their positions in
the lists of all there ever were. -/
structure Disk where
  index : PathEnd
  lock : PathEnd
  directories : List Directory
  files : List StoredFile
  /-- Why the path of the index file cannot be followed, if so. -/
  indexFault : Option FileFault
  /-- Why the path of the lock file cannot be followed to a directory, if so. -/
  lockFault : Option FileFault
  /-- What can be given the name of the index file. -/
  naming : Naming
deriving DecidableEq, Repr

namespace Disk

/-- The ending that makes the path of the lock file. -/
def lockSuffix : Bytes := Bytes.ofString ".lock"

/-- The path of the lock file of an index file. -/
def lockPath (path : Bytes) : Bytes := path ++ lockSuffix

/-! ## Seeing -/

/-- Size and last change of what the path of the index leads to. -/
def fingerprint (d : Disk) : Except FileFault (Option Fingerprint) :=
  match d.indexFault with
  | some fault => .error fault
  | none =>
    match d.index.found with
    | .file n => .ok (d.files[n]?.map fun f => ⟨f.mtime, f.bytes.length⟩)
    | .directory n => .ok (d.directories[n]?.map fun dir => ⟨dir.mtime, FileSystem.directorySize⟩)
    | _ => .ok none

/-- The bytes of the index file, if there is one. -/
def content (d : Disk) : Except FileFault (Option Bytes) :=
  match d.indexFault with
  | some fault => .error fault
  | none =>
    match d.index.found with
    | .file n => .ok (d.files[n]?.map StoredFile.bytes)
    | .directory _ => .error .isDirectory
    | _ => .ok none

/-! ## The steps of a writer -/

/-- Why there is no new lock file. -/
inductive LockFault where
  /-- There is something in its place already. -/
  | held
  | refused (fault : FileFault)
deriving DecidableEq, Repr

/-- Create the lock file where there is nothing, and give its number. -/
def createLock (d : Disk) (now : Timestamp) : Except LockFault (Nat × Disk) :=
  match d.lockFault with
  | some fault => .error (.refused fault)
  | none =>
    match d.lock.link with
    | .missing =>
      let n := d.files.length
      .ok (n, { d with lock := .direct (.file n), files := d.files ++ [⟨[], false, now, now⟩] })
    | _ => .error .held

/-- Write bytes over the beginning of a file, whatever paths lead to it. -/
def overwrite (d : Disk) (number : Nat) (bytes : Bytes) (now : Timestamp) : Disk :=
  { d with files := d.files.modify number fun f =>
      { f with bytes := bytes ++ f.bytes.drop bytes.length, mtime := now, ctime := now } }

/-- Whether there are names in a directory. -/
def isOccupied (d : Disk) (dir : Nat) : Bool :=
  match d.directories[dir]? with
  | some dir => !dir.isEmpty
  | none => false

/-- Why one thing cannot take the place of another, if so. A directory can only take the place of an
empty one, and other things can take the place of all but directories. -/
def replaceFault? (d : Disk) : Link → Link → Option FileFault
  | .missing, _ => some .notFound
  | .directory _, .missing => none
  | .directory _, .directory n => if d.isOccupied n then some .notEmpty else none
  | .directory _, _ => some .notDirectory
  | _, old =>
    if d.naming = .directories then some .notDirectory
    else if old.isDirectory then some .isDirectory
    else none

/-- Why what is at the path of the lock file cannot be given the name of the index file, if so. -/
def publishFault? (d : Disk) : Option FileFault :=
  match d.lockFault with
  | some fault => some fault
  | none => if d.naming = .nothing then some .busy else d.replaceFault? d.lock.link d.index.link

/-- Give the lock file the name of the index file, in place of what had it before, even of a symbolic
link that could not be followed. -/
def publish (d : Disk) : Except FileFault Disk :=
  match d.publishFault? with
  | some fault => .error fault
  | none => .ok { d with index := d.lock, lock := .direct .missing, indexFault := none }

/-- Remove the lock file. -/
def removeLock (d : Disk) : Disk :=
  if d.lock.link.isDirectory then d else { d with lock := .direct .missing }

end Disk

/-! ## Within a file system -/

namespace FileSystem

/-- The fault of a step that failed. -/
def fault? {α : Type} : Except FileFault α → Option FileFault
  | .ok _ => none
  | .error fault => some fault

/-- What is at the end of a path; nothing, where the path cannot be followed. -/
def pathEnd (fs : FileSystem) (path : Bytes) : PathEnd where
  link := ((fs.resolve .kept path).toOption).getD .missing
  found := ((fs.resolve .followed path).toOption).getD .missing

/-- The two paths of an index file. -/
def disk (fs : FileSystem) (path : Bytes) : Disk where
  index := fs.pathEnd path
  lock := fs.pathEnd (Disk.lockPath path)
  directories := fs.directories
  files := fs.files
  indexFault := fault? (fs.resolve .followed path)
  lockFault := fault? (fs.locate .kept (Disk.lockPath path))
  naming := .ofPath path

/-- The file system after a step on the two paths of an index file. -/
def withDisk (fs : FileSystem) (path : Bytes) (d : Disk) (now : Timestamp) : FileSystem :=
  ({ fs with files := d.files }.relinkAt path d.index.link now).relinkAt (Disk.lockPath path)
    d.lock.link now

end FileSystem

end StagingIndex
