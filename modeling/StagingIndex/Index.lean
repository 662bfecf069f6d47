import StagingIndex.Batch
import StagingIndex.CacheTree.Materialize
import StagingIndex.Disk
import StagingIndex.Edit
import StagingIndex.Image.File
import StagingIndex.Settings
import StagingIndex.Status

/-! # The index

An index is a table with its cache tree, bound to a file. Tables are replaced by batches, edited by
queues of edits, filled from stored trees and from the file; the cache tree follows. The file is
written in steps: a lock is taken, the image is written into the lock file, and the lock file takes
the place of the index file.

The clock is outside: times are arguments. So are log output, the flushing of files, of which only the
setting is kept, and threads that share a database. Documents and settings that cannot be parsed are
refused without words.

* `Index.replace`, `Index.edit`, `Index.readTree` — change the table
* `Index.writeTree` — materialize the table
* `Index.look`, `Index.load`, `Index.read` — take over the file
* `Index.lock`, `Index.write`, `Index.publish`, `Index.settle`, `Index.unlock` — write the file -/

namespace StagingIndex

/-- A table with its cache tree, bound to a file. -/
structure Index where
  path : Bytes
  /-- The version the next file is written in, as far as the entries allow. -/
  version : Version
  table : Table
  cache : CacheTree
  /-- The file as it was when last read or committed. -/
  snapshot : Option Fingerprint
  settings : Settings

namespace Index

/-- An index without entries, which knows nothing of its file. -/
def new (path : Bytes) (settings : Settings) : Index where
  path
  version := settings.version
  table := []
  cache := .empty
  snapshot := none
  settings

/-- The path of the lock file. -/
def lockPath (ix : Index) : Bytes := Disk.lockPath ix.path

/-- The tree object of the whole table, if it is known. -/
def cachedTree (ix : Index) : Option ObjectId := ix.cache.known.map (·.id)

/-- Ask for a version for the next file. -/
def setVersion (ix : Index) (version : Version) : Index := { ix with version }

/-! ## Changing the table -/

/-- Put a table in place of the present one; directories in which they differ are forgotten. -/
def replaceTable (ix : Index) (t : Table) : Index :=
  { ix with table := t, cache := ix.cache.invalidateChanges ix.table t }

/-- Replace the table by the candidates of a batch. -/
def replace (ix : Index) (b : Batch) : Except IndexError Index :=
  (Table.normalize ix.settings.duplicatePolicy b.candidates).map ix.replaceTable

/-- Apply a queue of edits to the table. -/
def edit (ix : Index) (edits : List Edit) : Except IndexError Index :=
  (Edit.apply edits ix.table).map fun m =>
    { ix with table := m.entries, cache := ix.cache.invalidateAll m.touched }

section
variable {σ : Type} [ObjectDatabase σ]

/-- Replace the table by the entries of a stored tree, with all its directories known. -/
def readTree (ix : Index) (id : ObjectId) (s : σ) : Except IndexError Index × σ :=
  match CacheTree.collect .merged id [] s with
  | (_, s, .error e) => (.error e, s)
  | (read, s, .ok cache) =>
    ((Table.normalize .reject read).map fun table => { ix with table, cache }, s)

/-- Materialize the table as tree objects, and give the name of the root. Only directories that are
not known are written. -/
def writeTree (ix : Index) (s : σ) : Index × σ × Except IndexError ObjectId :=
  if ix.table.conflictPaths = [] then
    match ix.cache.update ix.table s with
    | (cache, s, r) => ({ ix with cache }, s, r)
  else (ix, s, .error (.unresolvedConflict ix.table.conflictPaths))

end

/-! ## Reading the file -/

/-- Look at the file without reading it. -/
def look (ix : Index) (d : Disk) : Except IndexError (Option Fingerprint) :=
  match d.fingerprint with
  | .error fault => .error (.io ix.path fault)
  | .ok seen => .ok seen

/-- Take over the content of the file, after a look at it has seen `seen`. No file stands for an
index without entries. -/
def load (ix : Index) (seen : Option Fingerprint) (d : Disk) : Except IndexError Index :=
  match d.content with
  | .error fault => .error (.io ix.path fault)
  | .ok none => .ok (new ix.path ix.settings)
  | .ok (some file) =>
    (Image.decode file).map fun image =>
      { ix with
        version := image.version
        table := image.entries
        cache := image.cache
        snapshot := seen }

/-- Look at the file and take over its content. -/
def read (ix : Index) (d : Disk) : Except IndexError Index := do
  let seen ← ix.look d
  ix.load seen d

/-- A new index with the content of its file. -/
def openFile (path : Bytes) (settings : Settings) (d : Disk) : Except IndexError Index :=
  (new path settings).read d

/-- Whether the file is another one than was last read or committed. -/
def isOutdated (ix : Index) (d : Disk) : Except IndexError Bool :=
  (ix.look d).map fun seen => seen ≠ ix.snapshot

/-! ## Writing the file -/

/-- The right to write the file, held while the lock file is there. -/
structure Lock where
  /-- The lock file that was created. -/
  file : Nat
deriving DecidableEq, Repr

/-- A lock into whose file an image has been written. -/
structure Written where
  file : Nat
deriving DecidableEq, Repr

/-- Take the lock. -/
def lock (ix : Index) (d : Disk) (now : Timestamp) : Except IndexError (Lock × Disk) :=
  match d.createLock now with
  | .error .held => .error (.lockContention ix.lockPath)
  | .error (.refused fault) => .error (.io ix.lockPath fault)
  | .ok (n, d) => .ok (⟨n⟩, d)

/-- The index as it is written at a moment. Entries that changed within the present second lose
their size first, and the version is made to fit the entries. -/
def settled (ix : Index) (now : Timestamp) : Index :=
  let table := ix.table.smudge ⟨now.seconds, 0⟩
  { ix with table, version := Image.effectiveVersion ix.version table }

/-- The image of an index. -/
def image (ix : Index) : Bytes := Image.encode ix.version ix.table ix.cache

/-- Write the index into the lock file. -/
def write (ix : Index) (l : Lock) (d : Disk) (now : Timestamp) : Index × Written × Disk :=
  let ix := ix.settled now
  (ix, ⟨l.file⟩, d.overwrite l.file ix.image now)

/-- Put the lock file in the place of the index file. Where that fails the lock file stays. -/
def publish (ix : Index) (_ : Written) (d : Disk) : Except IndexError Disk :=
  match d.publish with
  | .error fault => .error (.io ix.path fault)
  | .ok d => .ok d

/-- Remember the file as it is after it was published. -/
def settle (ix : Index) (d : Disk) : Index :=
  { ix with snapshot := (d.fingerprint.toOption).bind id }

/-- Publish what was written, and remember the file. -/
def commit (ix : Index) (w : Written) (d : Disk) : Except IndexError (Index × Disk) :=
  (ix.publish w d).map fun d => (ix.settle d, d)

/-- Give up the lock; the index file stays as it is. -/
def unlock (d : Disk) : Disk := d.removeLock

/-- Take the lock, write, and commit. -/
def save (ix : Index) (d : Disk) (now : Timestamp) : Index × Disk × Except IndexError Unit :=
  match ix.lock d now with
  | .error e => (ix, d, .error e)
  | .ok (l, d) =>
    match ix.write l d now with
    | (ix, w, d) =>
      match ix.commit w d with
      | .error e => (ix, d, .error e)
      | .ok (ix, d) => (ix, d, .ok ())

/-! ## Looking at the index -/

/-- The moment from which on changes are racy: that of the last change of the file, as it was when
last read or committed. -/
def cutoff (ix : Index) : Timestamp := (ix.snapshot.map (·.mtime)).getD .zero

/-- Compare the table with a working tree that stays as it is. -/
def status (ix : Index) (answers : Bytes → Except FileFault (Option Stat)) :
    Except IndexError Status :=
  (Status.compute ix.table ix.cutoff answers).1

/-- The index as diagnostics show it. -/
def describe (ix : Index) : String :=
  let tree := match ix.cachedTree with
    | some id => "Some(" ++ id.describe ++ ")"
    | none => "None"
  "Index \x7b path: " ++ Text.quotedText ix.path ++ s!", version: V{ix.version.toWord}" ++
    s!", entries: {ix.table.length}, cached_tree: " ++ tree ++ " \x7d"

end Index

end StagingIndex
