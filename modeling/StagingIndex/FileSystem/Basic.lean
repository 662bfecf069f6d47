import StagingIndex.FileSystem.Directory

/-! # File systems

Directories, files and symbolic links, as far as paths and stat data show them. Directories lead to
each other by names, from an outermost one on, and a path is followed name by name.

* `FileSystem` — the directories and files by their numbers
* `FileSystem.locate`, `FileSystem.resolve` — the place that a path leads to, and what is there
* `FileSystem.stat` — stat data of a path -/

namespace StagingIndex

/-- All directories and all files there ever were. The first directory is the outermost one. -/
structure FileSystem where
  directories : List Directory
  files : List StoredFile
deriving DecidableEq, Repr

/-- Where a path leads. -/
inductive Place where
  /-- To a directory, by dots. -/
  | inside (directory : Nat)
  /-- To a name in a directory, whether or not that leads anywhere. -/
  | entry (directory : Nat) (name : Bytes)
deriving DecidableEq, Repr

/-- What happens at a symbolic link that a path ends in. Links before that are always followed. -/
inductive LastLink where
  | kept
  | followed
deriving DecidableEq, Repr

namespace FileSystem

/-- The number of the outermost directory. -/
def outermost : Nat := 0

/-- A file system with nothing in it but its outermost directory, above which is that directory
again. -/
def empty : FileSystem := ⟨[.new outermost .zero], []⟩

/-- The directory above another one. -/
def parentOf (fs : FileSystem) (dir : Nat) : Nat :=
  match fs.directories[dir]? with
  | some d => d.parent
  | none => outermost

/-- What a name in a directory leads to. -/
def linkIn (fs : FileSystem) (dir : Nat) (name : Bytes) : Link :=
  match fs.directories[dir]? with
  | some d => d.link name
  | none => .missing

/-- What is at a place. -/
def linkAt (fs : FileSystem) : Place → Link
  | .inside dir => .directory dir
  | .entry dir name => fs.linkIn dir name

/-! ## Paths -/

/-- The name of a directory in itself. -/
def selfName : Bytes := Bytes.ofString "."

/-- The name of the directory above. -/
def parentName : Bytes := Bytes.ofString ".."

/-- The greatest length of a name. -/
def maxName : Nat := 255

/-- The length from which on a path is too long to be followed at all. -/
def maxPath : Nat := 4096

/-- How many symbolic links are followed on the way along one path. -/
def maxLinks : Nat := 40

/-- The names of a path that lead somewhere else. -/
def names (path : Bytes) : List Bytes :=
  path.components.filter fun name => name ≠ [] && name ≠ selfName

/-- The name that a path ends in, whether or not a slash follows. -/
def lastName? (path : Bytes) : Option Bytes := (path.components.filter (· ≠ [])).getLast?

/-- Whether a path ends in a name that every directory has, or in none. -/
def endsInDots (path : Bytes) : Bool :=
  match lastName? path with
  | some name => name = selfName || name = parentName
  | none => true

/-- Whether a path begins with a slash. -/
def isAbsolute (path : Bytes) : Bool := path.head? = some Bytes.slash

/-- A path as seen from a directory. One that begins with a slash is seen from everywhere alike. -/
def seenFrom (dir path : Bytes) : Bytes :=
  if isAbsolute path then path else dir ++ Bytes.slash :: path

/-- Follow names from a directory, where `through` goes on from symbolic links. Wherever a name is
followed there must be a directory, and so there must be before a slash at the end. Nothing needs to
be where the last name leads. -/
def walkWith (fs : FileSystem) (last : LastLink)
    (through : Nat → List Bytes → Except FileFault Place) (here : Nat) :
    List Bytes → Except FileFault Place
  | [] => .ok (.inside here)
  | name :: more =>
    if name = [] ∨ name = selfName then walkWith fs last through here more
    else if name = parentName then walkWith fs last through (fs.parentOf here) more
    else if maxName < name.length then .error .nameTooLong
    else
      match fs.linkIn here name with
      | .missing => if more = [] then .ok (.entry here name) else .error .notFound
      | .file _ => if more = [] then .ok (.entry here name) else .error .notDirectory
      | .directory n =>
        if more.all (· = []) then .ok (.entry here name) else walkWith fs last through n more
      | .symlink target _ =>
        if more = [] ∧ last = .kept then .ok (.entry here name)
        else through (if isAbsolute target then outermost else here) (target.components ++ more)

/-- Follow names from a directory, and up to so many symbolic links on the way. -/
def walk (fs : FileSystem) (last : LastLink) : Nat → Nat → List Bytes → Except FileFault Place
  | 0, here, names => fs.walkWith last (fun _ _ => .error .tooManyLinks) here names
  | links + 1, here, names => fs.walkWith last (fs.walk last links) here names

/-- The place that a path leads to. -/
def locate (fs : FileSystem) (last : LastLink) (path : Bytes) : Except FileFault Place :=
  if Bytes.nul ∈ path then .error (.other "file name contained an unexpected NUL byte")
  else if maxPath ≤ path.length then .error .nameTooLong
  else fs.walk last maxLinks outermost path.components

/-- What a path leads to. Where a directory is missing on the way, so is everything in it. -/
def resolve (fs : FileSystem) (last : LastLink) (path : Bytes) : Except FileFault Link :=
  match fs.locate last path with
  | .ok place => .ok (fs.linkAt place)
  | .error .notFound => .ok .missing
  | .error fault => .error fault

/-! ## Stat data -/

/-- The mode of a directory. -/
def directoryMode : UInt32 := 0o40755

/-- The mode of a symbolic link. -/
def linkMode : UInt32 := 0o120777

/-- The mode of a file. -/
def fileMode (executable : Bool) : UInt32 := if executable then 0o100755 else 0o100644

/-- The size that is shown for a directory. -/
def directorySize : Nat := 4096

/-- Stat data of what a name leads to. The size of a symbolic link is the length of its target. -/
def statOf (fs : FileSystem) : Link → Option Stat
  | .missing => none
  | .file n => fs.files[n]?.map fun f =>
    ⟨f.ctime, f.mtime, 0, UInt32.ofNat n, fileMode f.executable, 0, 0,
      UInt64.ofNat f.bytes.length⟩
  | .directory n => fs.directories[n]?.map fun d =>
    ⟨d.ctime, d.mtime, 0, UInt32.ofNat n, directoryMode, 0, 0, UInt64.ofNat directorySize⟩
  | .symlink target made =>
    some ⟨made, made, 0, 0, linkMode, 0, 0, UInt64.ofNat target.length⟩

/-- Stat data of a path, if there is anything; a symbolic link at its end is not followed. -/
def stat (fs : FileSystem) (path : Bytes) : Except FileFault (Option Stat) :=
  (fs.resolve .kept path).map fs.statOf

end FileSystem

end StagingIndex
