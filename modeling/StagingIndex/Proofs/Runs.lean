import Mathlib
import StagingIndex.Proofs.Decoding
import StagingIndex.Proofs.Merge
import StagingIndex.Index

/-! # Runs of calls

An index is used by one call after another, in any order, and any of them may fail. What others do
meanwhile to the database and to the files is a call as well, so a file that is read may hold any
bytes, and a tree that is read may be any stored object.

* `Session`, `Call` — an index in use, and the calls on it
* `Session.perform`, `Session.run` — one call, and calls one after another
* `Session.perform_invariant` — every call keeps the conditions of a table
* `Session.run_invariant` — they hold in every state, and calls that fail leave the table alone -/

namespace StagingIndex

/-! ## Calls -/

/-- An index in use, with its database and its files. -/
structure Session (σ : Type) where
  index : Index
  database : σ
  disk : Disk

/-- The calls on an index, with all that others do meanwhile. -/
inductive Call (σ : Type) where
  /-- Replace the table by what a batch has collected. -/
  | replace (batch : Batch)
  /-- Apply a queue of edits. -/
  | edit (edits : List Edit)
  /-- Ask for a version for the next file. -/
  | setVersion (version : Version)
  /-- Materialize the table. -/
  | writeTree
  /-- Replace the table by a stored tree. -/
  | readTree (id : ObjectId)
  /-- Take over the file. -/
  | read
  | lock (now : Timestamp)
  | write (lock : Index.Lock) (now : Timestamp)
  /-- Writing stops with a fault of the file system, after the sizes of entries were dropped. -/
  | spoiledWrite (now : Timestamp) (fault : FileFault)
  | commit (written : Index.Written)
  | unlock
  /-- The database and the files are changed by others. -/
  | meanwhile (database : σ) (disk : Disk)

/-- Whether a call stops in the middle of writing. -/
def Call.isSpoiledWrite {σ : Type} : Call σ → Bool
  | spoiledWrite _ _ => true
  | _ => false

/-- Two paths that lead to nothing, in a directory where files can be created. -/
def Disk.vacant : Disk where
  index := .direct .missing
  lock := .direct .missing
  directories := []
  files := []
  indexFault := none
  lockFault := none
  naming := .anything

namespace Session

variable {σ : Type}

/-- A new index in use. -/
def start (path : Bytes) (settings : Settings) (database : σ) (disk : Disk) : Session σ :=
  ⟨.new path settings, database, disk⟩

/-- The session after a call that gives a new index if it succeeds. -/
def take (s : Session σ) : Except IndexError Index → Session σ × Except IndexError Unit
  | .ok index => ({ s with index }, .ok ())
  | .error e => (s, .error e)

variable [ObjectDatabase σ]

/-- Perform a call. -/
def perform (s : Session σ) : Call σ → Session σ × Except IndexError Unit
  | .replace batch => s.take (s.index.replace batch)
  | .edit edits => s.take (s.index.edit edits)
  | .setVersion version => s.take (.ok (s.index.setVersion version))
  | .writeTree =>
    match s.index.writeTree s.database with
    | (index, database, r) => ({ s with index, database }, r.map fun _ => ())
  | .readTree id =>
    match s.index.readTree id s.database with
    | (r, database) => { s with database }.take r
  | .read => s.take (s.index.read s.disk)
  | .lock now =>
    match s.index.lock s.disk now with
    | .ok (_, disk) => ({ s with disk }, .ok ())
    | .error e => (s, .error e)
  | .write lock now =>
    match s.index.write lock s.disk now with
    | (index, _, disk) => ({ s with index, disk }, .ok ())
  | .spoiledWrite now fault =>
    ({ s with index := { s.index with table := s.index.table.smudge ⟨now.seconds, 0⟩ } },
      .error (.io s.index.lockPath fault))
  | .commit written =>
    match s.index.commit written s.disk with
    | .ok (index, disk) => ({ s with index, disk }, .ok ())
    | .error e => (s, .error e)
  | .unlock => ({ s with disk := Index.unlock s.disk }, .ok ())
  | .meanwhile database disk => ({ s with database, disk }, .ok ())

/-- Perform calls one after another, whether or not they succeed. -/
def run (s : Session σ) (calls : List (Call σ)) : Session σ :=
  calls.foldl (fun s c => (s.perform c).1) s

@[simp] theorem run_nil (s : Session σ) : s.run [] = s := rfl

@[simp] theorem run_cons (s : Session σ) (c : Call σ) (calls : List (Call σ)) :
    s.run (c :: calls) = (s.perform c).1.run calls := rfl

end Session

/-! ## The table -/

/-- Dropping sizes changes no key. -/
@[simp] theorem Entry.key_smudge (cutoff : Timestamp) (e : Entry) :
    (e.smudge cutoff).key = e.key := by
  rw [smudge]
  split <;> rfl

/-- Dropping sizes changes no condition of a table. -/
theorem Table.Invariant.smudge {t : Table} (h : t.Invariant) (cutoff : Timestamp) :
    Table.Invariant (t.smudge cutoff) := by
  have hpath : ∀ e : Entry, (e.smudge cutoff).path = e.path := fun e =>
    congrArg EntryKey.path (e.key_smudge cutoff)
  have hstage : ∀ e : Entry, (e.smudge cutoff).stage = e.stage := fun e =>
    congrArg EntryKey.stage (e.key_smudge cutoff)
  refine ⟨?_, ?_, ?_, ?_⟩
  · refine List.pairwise_map.2 (h.sorted.imp ?_)
    intro a b hab
    simpa using hab
  · simpa [Table.smudge, hpath] using h.valid
  · simpa [Table.smudge, hpath, hstage] using h.unmixed
  · simpa [Table.smudge, hpath] using h.separate

namespace Index

variable {ix ix' : Index}

/-- What a batch makes a table satisfies the conditions of one. -/
theorem replace_invariant {b : Batch} (h : ix.replace b = .ok ix') : ix'.table.Invariant := by
  obtain ⟨t, ht, rfl⟩ := Check.map_eq_ok.1 h
  exact Table.normalize_invariant ht

/-- What edits make of a table satisfies the conditions if the table does. -/
theorem edit_invariant {edits : List Edit} (ht : ix.table.Invariant)
    (h : ix.edit edits = .ok ix') : ix'.table.Invariant := by
  obtain ⟨m, hm, rfl⟩ := Check.map_eq_ok.1 h
  exact Edit.apply_invariant ht hm

/-- What is read from a stored tree satisfies the conditions of a table. -/
theorem readTree_invariant {σ : Type} [ObjectDatabase σ] {id : ObjectId} {s : σ}
    (h : (ix.readTree id s).1 = .ok ix') : ix'.table.Invariant := by
  rw [readTree] at h
  split at h
  · cases h
  · obtain ⟨t, ht, rfl⟩ := Check.map_eq_ok.1 h
    exact Table.normalize_invariant ht

/-- Reading gives a new index, where there is no file, or the content of a file. -/
theorem read_eq_ok {d : Disk} (h : ix.read d = .ok ix') :
    ix' = new ix.path ix.settings ∨ ∃ file image seen, Image.decode file = .ok image ∧
      ix' = { ix with
        version := image.version, table := image.entries, cache := image.cache,
        snapshot := seen } := by
  simp only [read, Check.bind_eq_ok] at h
  obtain ⟨seen, -, h⟩ := h
  rw [load] at h
  split at h
  · cases h
  · cases h
    exact Or.inl rfl
  · obtain ⟨image, himage, rfl⟩ := Check.map_eq_ok.1 h
    exact Or.inr ⟨_, image, seen, himage, rfl⟩

/-- What is read from a file satisfies the conditions of a table. -/
theorem read_invariant {d : Disk} (h : ix.read d = .ok ix') : ix'.table.Invariant := by
  rcases read_eq_ok h with rfl | ⟨file, image, seen, himage, rfl⟩
  · exact Table.invariant_nil
  · exact Image.decode_invariant himage

/-- Materializing changes no entry. -/
@[simp] theorem table_writeTree {σ : Type} [ObjectDatabase σ] (s : σ) :
    (ix.writeTree s).1.table = ix.table := by
  rw [writeTree]
  split <;> rfl

end Index

namespace Session

variable {σ : Type} [ObjectDatabase σ] {s : Session σ}

/-- Every call keeps the conditions of a table. -/
theorem perform_invariant (h : s.index.table.Invariant) (c : Call σ) :
    (s.perform c).1.index.table.Invariant := by
  -- Calls that give a new index or nothing need a look at the new index alone.
  have htake : ∀ (s : Session σ) (r : Except IndexError Index), s.index.table.Invariant →
      (∀ ix, r = .ok ix → ix.table.Invariant) → (s.take r).1.index.table.Invariant := by
    intro s r hs hr
    cases r with
    | ok ix => exact hr ix rfl
    | error e => exact hs
  cases c with
  | replace batch => exact htake _ _ h fun ix => Index.replace_invariant
  | edit edits => exact htake _ _ h fun ix => Index.edit_invariant h
  | setVersion version => exact h
  | writeTree => simpa only [perform, Index.table_writeTree] using h
  | readTree id =>
    exact htake _ _ h fun ix => Index.readTree_invariant
  | read => exact htake _ _ h fun ix => Index.read_invariant
  | lock now =>
    simp only [perform]
    split <;> exact h
  | write lock now => exact h.smudge _
  | spoiledWrite now fault => exact h.smudge _
  | commit written =>
    simp only [perform]
    split
    · rename_i index disk hc
      obtain ⟨d, -, hd⟩ := Check.map_eq_ok.1 hc
      cases hd
      exact h
    · exact h
  | unlock => exact h
  | meanwhile database disk => exact h

/-- Calls one after another keep the conditions of a table. -/
theorem run_keeps_invariant (h : s.index.table.Invariant) (calls : List (Call σ)) :
    (s.run calls).index.table.Invariant := by
  induction calls generalizing s with
  | nil => exact h
  | cons c calls ih => exact ih (perform_invariant h c)

/-- A call that fails leaves the table as it was, if it does not stop in the middle of writing. -/
theorem table_of_perform_error {c : Call σ} {e : IndexError} (hc : c.isSpoiledWrite = false)
    (h : (s.perform c).2 = .error e) : (s.perform c).1.index.table = s.index.table := by
  have htake : ∀ (s : Session σ) (r : Except IndexError Index), (s.take r).2 = .error e →
      (s.take r).1.index.table = s.index.table := by
    intro s r hr
    cases r with
    | ok ix => cases hr
    | error e => rfl
  cases c with
  | replace batch => exact htake _ _ h
  | edit edits => exact htake _ _ h
  | setVersion version => rfl
  | writeTree => exact Index.table_writeTree s.database
  | readTree id => exact htake _ _ h
  | read => exact htake _ _ h
  | lock now =>
    simp only [perform]
    split <;> rfl
  | write lock now => cases h
  | spoiledWrite now fault => cases hc
  | commit written =>
    simp only [perform] at h ⊢
    split at h
    · cases h
    · rfl
  | unlock => rfl
  | meanwhile database disk => rfl

/-- Whatever calls were made of a new index: its table is strictly sorted, its paths are paths, none
is merged and in conflict at once, and none is a directory of another; and a call that fails, unless
it stops in the middle of writing, leaves the table as it was. -/
theorem run_invariant (path : Bytes) (settings : Settings) (database : σ) (disk : Disk)
    (calls : List (Call σ)) :
    ((start path settings database disk).run calls).index.table.Invariant ∧
      ∀ (c : Call σ) (e : IndexError), c.isSpoiledWrite = false →
        (((start path settings database disk).run calls).perform c).2 = .error e →
          (((start path settings database disk).run calls).perform c).1.index.table =
            ((start path settings database disk).run calls).index.table :=
  ⟨run_keeps_invariant Table.invariant_nil calls, fun _ _ hc h => table_of_perform_error hc h⟩

/-- With a file `a` staged, an edit that adds `a/b` is refused, and `a` stays as it was. -/
theorem run_invariant_of_refused_edit :
    ((start [] .standard MemoryDatabase.empty .vacant).run
        [.replace ⟨[.bare [0x61] .merged .regular .null]⟩]).index.table.Invariant ∧
      (((start [] .standard MemoryDatabase.empty .vacant).run
          [.replace ⟨[.bare [0x61] .merged .regular .null]⟩]).perform
            (.edit [.add (.bare [0x61, 0x2f, 0x62] .merged .regular .null)])).2 =
        .error (.fileAndDirectory [0x61]) ∧
      (((start [] .standard MemoryDatabase.empty .vacant).run
          [.replace ⟨[.bare [0x61] .merged .regular .null]⟩]).perform
            (.edit [.add (.bare [0x61, 0x2f, 0x62] .merged .regular .null)])).1.index.table =
        ((start [] .standard MemoryDatabase.empty .vacant).run
          [.replace ⟨[.bare [0x61] .merged .regular .null]⟩]).index.table := by
  have hrefused : (((start [] .standard MemoryDatabase.empty .vacant).run
      [.replace ⟨[.bare [0x61] .merged .regular .null]⟩]).perform
        (.edit [.add (.bare [0x61, 0x2f, 0x62] .merged .regular .null)])).2 =
      .error (.fileAndDirectory [0x61]) := by
    decide +kernel
  obtain ⟨hinv, htable⟩ := run_invariant [] .standard MemoryDatabase.empty .vacant
    [.replace ⟨[.bare [0x61] .merged .regular .null]⟩]
  exact ⟨hinv, hrefused, htable _ _ rfl hrefused⟩

end Session

end StagingIndex
