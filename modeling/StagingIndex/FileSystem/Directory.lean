import StagingIndex.Error

/-! # Directories

A directory says what each name in it leads to. Files and directories are known by numbers, so they
stay the same when a name is taken from them and another one is given to them.

* `Link` — what a name leads to
* `StoredFile`, `Directory` — what the numbers stand for
* `Directory.link`, `Directory.set` — look a name up, and change what it leads to -/

namespace StagingIndex

/-- A file, with the times of the last change of its bytes and of the last change at all. -/
structure StoredFile where
  bytes : Bytes
  executable : Bool
  mtime : Timestamp
  ctime : Timestamp
deriving DecidableEq, Repr

/-- What a name leads to. -/
inductive Link where
  | missing
  | file (number : Nat)
  | directory (number : Nat)
  /-- A symbolic link: the path that it stands for, and when it was made. -/
  | symlink (target : Bytes) (made : Timestamp)
deriving DecidableEq, Repr

namespace Link

/-- Whether there is a directory. -/
def isDirectory : Link → Bool
  | directory _ => true
  | _ => false

/-- Whether there is a file or a directory. -/
def isFound : Link → Bool
  | file _ => true
  | directory _ => true
  | _ => false

end Link

/-- A directory, with the times of the last change of its names and of the last change at all. Names
that are not listed lead to nothing. -/
structure Directory where
  /-- The directory above. -/
  parent : Nat
  entries : List (Bytes × Link)
  mtime : Timestamp
  ctime : Timestamp
deriving DecidableEq, Repr

namespace Directory

/-- A directory without names, made at a moment below another one. -/
def new (parent : Nat) (now : Timestamp) : Directory := ⟨parent, [], now, now⟩

/-- A directory whose names have all been taken away. -/
def clear (d : Directory) (now : Timestamp) : Directory := new d.parent now

/-- Whether no name leads anywhere. -/
def isEmpty (d : Directory) : Bool := d.entries.isEmpty

/-- What a name leads to. -/
def link (d : Directory) (name : Bytes) : Link := (d.entries.lookup name).getD .missing

/-- Let a name lead to something else. -/
def set (d : Directory) (name : Bytes) (l : Link) (now : Timestamp) : Directory :=
  let others := d.entries.filter (·.1 ≠ name)
  ⟨d.parent, if l = .missing then others else (name, l) :: others, now, now⟩

end Directory

end StagingIndex
