import StagingIndex.FileSystem.Basic

/-! # Changing a file system

What can be done to the things that paths lead to. Where something is in the way, nothing is done.

* `FileSystem.relink`, `FileSystem.relinkAt` — let a name lead to something else
* `FileSystem.makeDirectories` — make a directory and those above it
* `FileSystem.write`, `FileSystem.changeFile`, `FileSystem.makeLink` — files and symbolic links
* `FileSystem.setTime` — times
* `FileSystem.removeFile`, `FileSystem.removeAll` — take things away -/

namespace StagingIndex

namespace FileSystem

/-! ## Names -/

/-- Let a name in a directory lead to something else. -/
def relink (fs : FileSystem) (dir : Nat) (name : Bytes) (l : Link) (now : Timestamp) :
    FileSystem :=
  if fs.linkIn dir name = l then fs
  else { fs with directories := fs.directories.modify dir (·.set name l now) }

/-- Let a place lead to something else; what dots lead to stays. -/
def put (fs : FileSystem) (place : Place) (l : Link) (now : Timestamp) : FileSystem :=
  match place with
  | .entry dir name => fs.relink dir name l now
  | .inside _ => fs

/-- Let the name that a path ends in lead to something else. -/
def relinkAt (fs : FileSystem) (path : Bytes) (l : Link) (now : Timestamp) : FileSystem :=
  match fs.locate .kept path with
  | .ok place => fs.put place l now
  | .error _ => fs

/-! ## Directories -/

/-- Make an empty directory. -/
def makeDirectory (fs : FileSystem) (dir : Nat) (name : Bytes) (now : Timestamp) : FileSystem :=
  { fs with directories := fs.directories ++ [Directory.new dir now] }.relink dir name
    (.directory fs.directories.length) now

/-- The directory that a name in a directory leads to, if it leads to one. -/
def directoryIn? (fs : FileSystem) (dir : Nat) (name : Bytes) : Option Nat :=
  match (fs.walk .followed maxLinks dir [name]).map fs.linkAt with
  | .ok (.directory n) => some n
  | _ => none

/-- Make the directories along names from a directory on, as far as they are missing. -/
def makeAlong (now : Timestamp) (fs : FileSystem) (here : Nat) : List Bytes → FileSystem
  | [] => fs
  | name :: more =>
    if name = parentName then makeAlong now fs (fs.parentOf here) more
    else if maxName < name.length then fs
    else if fs.linkIn here name = .missing then
      makeAlong now (fs.makeDirectory here name now) fs.directories.length more
    else
      match fs.directoryIn? here name with
      | some n => makeAlong now fs n more
      | none => fs

/-- Make a directory and the directories above it, as far as they are missing. A directory is not
made by the name it has in itself: where a path ends in that, the one before must be there. -/
def makeDirectories (fs : FileSystem) (path : Bytes) (now : Timestamp) : FileSystem :=
  makeAlong now fs outermost
    (if lastName? path = some selfName then (names path).dropLast else names path)

/-- Make the directories above a path, as far as they are missing. -/
def makeParents (fs : FileSystem) (path : Bytes) (now : Timestamp) : FileSystem :=
  makeAlong now fs outermost (names path).dropLast

/-! ## Files and symbolic links -/

/-- Write a file: a new one, or in place of the bytes of the file that is there. -/
def write (fs : FileSystem) (path bytes : Bytes) (now : Timestamp) : FileSystem :=
  match fs.locate .followed path with
  | .error _ => fs
  | .ok place =>
    match fs.linkAt place with
    | .missing =>
      { fs.put place (.file fs.files.length) now with
        files := fs.files ++ [⟨bytes, false, now, now⟩] }
    | .file n =>
      { fs with files := fs.files.modify n fun f => { f with bytes, mtime := now, ctime := now } }
    | _ => fs

/-- Change the file that a path leads to. -/
def changeFile (fs : FileSystem) (path : Bytes) (f : StoredFile → StoredFile) : FileSystem :=
  match fs.resolve .followed path with
  | .ok (.file n) => { fs with files := fs.files.modify n f }
  | _ => fs

/-- Change the bytes of the file that a path leads to. -/
def changeBytes (fs : FileSystem) (path : Bytes) (f : Bytes → Bytes) (now : Timestamp) :
    FileSystem :=
  fs.changeFile path fun file => { file with bytes := f file.bytes, mtime := now, ctime := now }

/-- Cut a file to a length, or fill it up with zeros. -/
def truncate (fs : FileSystem) (path : Bytes) (length : Nat) (now : Timestamp) : FileSystem :=
  fs.changeBytes path (fun s => s.take length ++ List.replicate (length - s.length) 0) now

/-- Change the bits of one byte of a file; a negative position counts from the end. -/
def flip (fs : FileSystem) (path : Bytes) (position : Int) (bits : UInt8) (now : Timestamp) :
    FileSystem :=
  fs.changeBytes path (fun s =>
    s.modify (if position < 0 then position + s.length else position).toNat (· ^^^ bits)) now

/-- Make a symbolic link where there is nothing yet. -/
def makeLink (fs : FileSystem) (path target : Bytes) (now : Timestamp) : FileSystem :=
  match fs.resolve .kept path with
  | .ok .missing => fs.relinkAt path (.symlink target now) now
  | _ => fs

/-- Set when a file or directory was last changed. -/
def setTime (fs : FileSystem) (path : Bytes) (mtime now : Timestamp) : FileSystem :=
  match fs.resolve .followed path with
  | .ok (.directory n) =>
    { fs with directories := fs.directories.modify n fun d => { d with mtime, ctime := now } }
  | _ => fs.changeFile path fun file => { file with mtime, ctime := now }

/-! ## Taking away -/

/-- Remove a file or symbolic link, and tell whether there was one. -/
def removeFile (fs : FileSystem) (path : Bytes) (now : Timestamp) : Bool × FileSystem :=
  match fs.resolve .kept path with
  | .ok (.file _) => (true, fs.relinkAt path .missing now)
  | .ok (.symlink _ _) => (true, fs.relinkAt path .missing now)
  | _ => (false, fs)

/-- Remove what a path leads to, with everything below it. A directory that was named by dots is
emptied, but stays. -/
def removeAll (fs : FileSystem) (path : Bytes) (now : Timestamp) : FileSystem :=
  match fs.locate .kept path with
  | .ok (.entry dir name) => fs.relink dir name .missing now
  | .ok (.inside dir) => { fs with directories := fs.directories.modify dir (·.clear now) }
  | .error _ => fs

end FileSystem

end StagingIndex
