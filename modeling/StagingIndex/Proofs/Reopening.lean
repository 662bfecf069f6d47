import Mathlib
import StagingIndex.Proofs.ImageCodec
import StagingIndex.Proofs.NestedDirectories

/-! # What is saved and opened again

An index that was made by batches, edits and materializing has a cache tree that passes all checks
of the reader but one: the reader limits the levels of directories, and nothing limits them before.
So an index is opened again as it was saved, unless its cache tree has too many levels; then the
file that was saved cannot be opened at all.

* `Disk.Ready` — nothing stands in the way of a writer
* `Index.Regular` — what batches, edits and materializing keep
* `Session.openFile_save` — what is opened after saving
* `Session.openFile_save_tooDeep` — an index that cannot be opened after it was saved -/

namespace StagingIndex

/-! ## Files -/

namespace Disk

/-- Nothing stands in the way of a writer: both paths can be followed, no one has the lock, and a
file can be given the name of the index file. -/
structure Ready (d : Disk) : Prop where
  indexFault : d.indexFault = none
  lockFault : d.lockFault = none
  unlocked : d.lock.link = .missing
  naming : d.naming = .anything
  replaceable : d.index.link.isDirectory = false

/-- Two paths that lead to nothing are ready. -/
theorem vacant_ready : vacant.Ready := ⟨rfl, rfl, rfl, rfl, rfl⟩

/-- The files after a new file has taken the name of the index file. -/
def withIndexFile (d : Disk) (bytes : Bytes) (now : Timestamp) : Disk :=
  { d with
    index := .direct (.file d.files.length)
    lock := .direct .missing
    files := d.files ++ [⟨bytes, false, now, now⟩] }

variable {d : Disk}

/-- What can be seen of the new file. -/
theorem fingerprint_withIndexFile (h : d.indexFault = none) (bytes : Bytes) (now : Timestamp) :
    (d.withIndexFile bytes now).fingerprint = .ok (some ⟨now, bytes.length⟩) := by
  simp [fingerprint, withIndexFile, h, PathEnd.direct]

/-- The bytes of the new file. -/
theorem content_withIndexFile (h : d.indexFault = none) (bytes : Bytes) (now : Timestamp) :
    (d.withIndexFile bytes now).content = .ok (some bytes) := by
  simp [content, withIndexFile, h, PathEnd.direct]

/-- A lock file is created, written and published where nothing stands in the way. -/
theorem Ready.publish_overwrite (h : d.Ready) (bytes : Bytes) (now : Timestamp) :
    ∃ d', d.createLock now = .ok (d.files.length, d') ∧
      (d'.overwrite d.files.length bytes now).publish = .ok (d.withIndexFile bytes now) := by
  -- The lock file is the last of the files, and publishing links the other path to it.
  refine ⟨{ d with
    lock := .direct (.file d.files.length)
    files := d.files ++ [⟨[], false, now, now⟩] }, ?_, ?_⟩
  · simp [createLock, h.lockFault, h.unlocked]
  · have hfiles : (d.files ++ [(⟨[], false, now, now⟩ : StoredFile)]).modify d.files.length
        (fun f => { f with
          bytes := bytes ++ f.bytes.drop bytes.length, mtime := now, ctime := now }) =
        d.files ++ [⟨bytes, false, now, now⟩] := by
      rw [List.modify_eq_take_cons_drop (by simp)]
      simp
    have hfault : ∀ files, Disk.publishFault? { d with
        lock := .direct (.file d.files.length), files } = none := by
      intro files
      simp [publishFault?, h.lockFault, h.naming, PathEnd.direct, replaceFault?, h.replaceable]
    rw [overwrite, hfiles, publish, hfault]
    simp only [withIndexFile, h.indexFault]

end Disk

namespace Index

variable {ix : Index} {d : Disk}

/-- Where nothing stands in the way, the image of the index takes the place of the index file. -/
theorem save_of_ready (ix : Index) (hd : d.Ready) (now : Timestamp) :
    ix.save d now =
      ({ ix.settled now with snapshot := some ⟨now, (ix.settled now).image.length⟩ },
        d.withIndexFile (ix.settled now).image now, .ok ()) := by
  obtain ⟨d', hlock, hpublish⟩ := hd.publish_overwrite (ix.settled now).image now
  have hseen := Disk.fingerprint_withIndexFile hd.indexFault (ix.settled now).image now
  simp only [save, lock, hlock, write, commit, publish, hpublish, Except.map, settle, hseen]
  rfl

/-- What is opened is what the file is read as. -/
theorem openFile_withIndexFile (hd : d.indexFault = none) (path file : Bytes) (now : Timestamp)
    (settings : Settings) :
    openFile path settings (d.withIndexFile file now) =
      (Image.decode file).map fun image =>
        { path, settings, version := image.version, table := image.entries, cache := image.cache,
          snapshot := some ⟨now, file.length⟩ } := by
  simp only [openFile, read, look, Disk.fingerprint_withIndexFile hd, load,
    Disk.content_withIndexFile hd, bind, Except.bind]
  rfl

end Index

/-! ## Dropped sizes -/

/-- Dropping sizes changes no content. -/
theorem Entry.content_smudge (cutoff : Timestamp) (e : Entry) :
    (e.smudge cutoff).content = e.content := by
  rw [smudge]
  split <;> rfl

/-- Dropping sizes changes no content below a directory. -/
theorem Table.sameContents_smudge (t : Table) (cutoff : Timestamp) (base : Bytes) :
    SameContents (beginning (t.smudge cutoff) base) (beginning t base) := by
  have hpath : ∀ e : Entry, (e.smudge cutoff).path = e.path := fun e =>
    congrArg EntryContent.path (e.content_smudge cutoff)
  simp [SameContents, beginning, smudge, List.filter_map, Function.comp_def, hpath,
    Entry.content_smudge]

/-! ## What batches, edits and materializing keep -/

namespace Index

variable {ix : Index} {d : Disk}

/-- Besides what makes an index sound, its cache tree is in order throughout, and the root has no
name. -/
structure Regular (ix : Index) : Prop extends ix.Sound where
  inOrder : ix.InOrder
  root : ix.cache.name = []

/-- A new index is regular. -/
theorem new_regular (path : Bytes) (settings : Settings) : (new path settings).Regular where
  toSound := new_sound path settings
  inOrder := CacheTree.all_unknown List.Pairwise.nil
  root := rfl

/-- With a database that accepts everything materializing succeeds and puts everything in order, or
there are conflicts and it changes nothing. -/
theorem Regular.writeTree_inOrder_of_accepts {σ : Type} [ObjectDatabase σ] [AcceptsListings σ]
    (h : ix.Regular) (s : σ) : (ix.writeTree s).1.InOrder := by
  by_cases hconf : ix.table.conflictPaths = []
  · exact h.writeTree_inOrder (h.writeTree_isOk (acceptsFrom_true (σ := σ))
      (Table.conflictPaths_eq_nil_iff.1 hconf) trivial)
  · rw [Index.writeTree, if_neg hconf]
    exact h.inOrder

/-- The nodes of a regular index have the shape that a reader asks for. -/
theorem Regular.shaped (h : ix.Regular) : ix.cache.All (fun _ n => n.Shaped) [] :=
  (h.inOrder.and h.wellNamed).imp fun _ _ ⟨hsorted, hnamed⟩ =>
    ⟨hsorted, fun c hc => (hnamed c hc).2⟩

/-- The cache tree of a regular index agrees with the table as it is written. -/
theorem Regular.verify_settled (h : ix.Regular) (now : Timestamp) :
    ix.cache.verify (ix.settled now).table = .ok () := by
  refine CacheTree.verify_of_truthful (h.invariant.smudge _).sorted (h.truthful.imp ?_) h.wellNamed
  intro b n hright k hk
  rw [hright k hk]
  exact Table.exact_congr (Table.sameContents_smudge ix.table _ b).symm b

/-- A regular index is opened again as it was saved, unless its cache tree has too many levels; then
the file that was saved is not accepted. -/
theorem Regular.openFile_saved (h : ix.Regular) (hn : ix.table.length < 2 ^ 32)
    (hl : ∀ e ∈ ix.table, e.path.length < 2 ^ 64) (hb : ix.cache.body.length < 2 ^ 32)
    (hd : d.Ready) (now : Timestamp) (path : Bytes) (settings : Settings) :
    ∃ saved after, ix.save d now = (saved, after, .ok ()) ∧
      saved.table = ix.table.smudge ⟨now.seconds, 0⟩ ∧ saved.cache = ix.cache ∧
      saved.version = Image.effectiveVersion ix.version saved.table ∧
      openFile path settings after =
        if ix.cache.height ≤ CacheTree.maxDepth then .ok { saved with path, settings }
        else .error (.corruptCacheTree .tooDeep) := by
  refine ⟨_, _, save_of_ready ix hd now, rfl, rfl, rfl, ?_⟩
  -- Dropping sizes changes neither the number of entries nor their paths.
  have hlength : (ix.settled now).table.length < 2 ^ 32 := by
    rwa [settled, Table.smudge, List.length_map]
  have hpaths : ∀ e ∈ (ix.settled now).table, e.path.length < 2 ^ 64 := by
    intro e he
    obtain ⟨f, hf, rfl⟩ := List.mem_map.1 he
    have hpath : (f.smudge ⟨now.seconds, 0⟩).path = f.path :=
      congrArg EntryContent.path (f.content_smudge _)
    rw [hpath]
    exact hl f hf
  have hdecode : Image.decode (ix.settled now).image =
      if ix.cache.height ≤ CacheTree.maxDepth then
        .ok ⟨(ix.settled now).version, (ix.settled now).table, ix.cache⟩
      else .error (.corruptCacheTree .tooDeep) :=
    Image.decode_encode_written (h.invariant.smudge ⟨now.seconds, 0⟩) hlength hpaths rfl h.root
      (h.verify_settled now) h.shaped hb
  rw [openFile_withIndexFile hd.indexFault, hdecode]
  by_cases hlevels : ix.cache.height ≤ CacheTree.maxDepth
  · rw [if_pos hlevels, if_pos hlevels]
    rfl
  · rw [if_neg hlevels, if_neg hlevels]
    rfl

end Index

namespace Session

variable {σ : Type} [ObjectDatabase σ] {s : Session σ}

/-- No plain call gives the root a name. -/
theorem cache_name_perform {c : Call σ} (hc : c.isPlain = true) :
    (s.perform c).1.index.cache.name = s.index.cache.name := by
  rcases s.perform_eq_of_isPlain hc with rfl | ⟨version, table, paths, hindex⟩
  · simp only [perform, Index.writeTree]
    split
    · exact CacheTree.name_materialize _ _ _ _
    · rfl
  · rw [hindex]
    exact CacheTree.name_invalidateAll _ _

/-- With a database that accepts everything batches, edits and materializing keep an index
regular. -/
theorem perform_regular [AcceptsListings σ] (h : s.index.Regular) {c : Call σ}
    (hc : c.isPlain = true) : (s.perform c).1.index.Regular where
  toSound := perform_sound h.toSound hc (forgetsEnough_of_inOrder h.toSound h.inOrder hc)
  inOrder := by
    by_cases hw : c = .writeTree
    · subst hw
      exact h.writeTree_inOrder_of_accepts s.database
    · exact perform_inOrder_of_ne h.inOrder hc hw
  root := (cache_name_perform hc).trans h.root

/-- Runs of batches, edits and materializing keep an index regular. -/
theorem run_regular [AcceptsListings σ] (h : s.index.Regular) {calls : List (Call σ)}
    (hc : ∀ c ∈ calls, c.isPlain = true) : (s.run calls).index.Regular := by
  induction calls generalizing s with
  | nil => exact h
  | cons c calls ih =>
    exact ih (perform_regular h (hc c (by simp))) fun d hd => hc d (List.mem_cons_of_mem _ hd)

/-- After every run of batches, edits and materializing with a database that accepts everything, an
index that is saved is opened again as it was saved, with the entries as they are after dropping
sizes, the same cache tree, and the version that fits the entries; unless its cache tree has more
levels than are read, and then what was saved cannot be opened. The lengths of paths are numbers of
64 bits. -/
theorem openFile_save [AcceptsListings σ] (path : Bytes) (settings opening : Settings)
    (database : σ) (disk : Disk) (calls : List (Call σ)) (hplain : ∀ c ∈ calls, c.isPlain = true)
    (hn : ((start path settings database disk).run calls).index.table.length < 2 ^ 32)
    (hl : ∀ e ∈ ((start path settings database disk).run calls).index.table,
      e.path.length < 2 ^ 64)
    (hb : ((start path settings database disk).run calls).index.cache.body.length < 2 ^ 32)
    {d : Disk} (hd : d.Ready) (now : Timestamp) :
    ∃ saved after,
      ((start path settings database disk).run calls).index.save d now = (saved, after, .ok ()) ∧
      saved.table =
        ((start path settings database disk).run calls).index.table.smudge ⟨now.seconds, 0⟩ ∧
      saved.cache = ((start path settings database disk).run calls).index.cache ∧
      saved.version = Image.effectiveVersion
        ((start path settings database disk).run calls).index.version saved.table ∧
      Index.openFile path opening after =
        if ((start path settings database disk).run calls).index.cache.height ≤
            CacheTree.maxDepth then
          .ok { saved with path, settings := opening }
        else .error (.corruptCacheTree .tooDeep) :=
  (run_regular (Index.new_regular path settings) hplain).openFile_saved hn hl hb hd now path opening

/-! ## A file in nested directories -/

/-- A file `f` that is only meant to be added, below so many directories `a`, one in another. -/
def nestedFile (levels : Nat) : Entry :=
  { Entry.bare (Bytes.baseOf [] (List.replicate levels [0x61]) ++ [0x66]) .merged .regular .null
    with flags := ⟨false, false, true⟩ }

/-- The file is staged and the index materialized. -/
def nestedCalls (levels : Nat) : List (Call TreeLog) :=
  [.replace ⟨[nestedFile levels]⟩, .writeTree]

/-- The session after these calls. -/
def nestedRun (levels : Nat) : Session TreeLog :=
  (start [] .standard (TreeLog.mk []) .vacant).run (nestedCalls levels)

/-- The calls stay away from files. -/
theorem isPlain_nestedCalls (levels : Nat) : ∀ c ∈ nestedCalls levels, c.isPlain = true := by
  simp [nestedCalls, Call.isPlain]

/-- The file is the table, and every directory has its node. -/
theorem nestedRun_eq (levels : Nat) :
    (nestedRun levels).index.table = [nestedFile levels] ∧
      (nestedRun levels).index.cache.name = [] ∧
      CacheTree.Nested (List.replicate levels [0x61]) (nestedRun levels).index.cache := by
  have hdirectory : ∀ c ∈ List.replicate levels [(0x61 : UInt8)], Path.IsComponent c := by
    intro c hc
    rw [List.eq_of_mem_replicate hc]
    exact ⟨by decide, by decide, by decide⟩
  have hfile : Path.IsComponent [0x66] := ⟨by decide, by decide, by decide⟩
  have hmerged : (nestedFile levels).stage = .merged := rfl
  have hpath : (nestedFile levels).path =
      Bytes.baseOf [] (List.replicate levels [0x61]) ++ [0x66] := rfl
  have hrun := run_nested [] .standard (TreeLog.mk []) .vacant hmerged hdirectory hfile hpath
  rw [nestedRun, nestedCalls]
  exact hrun

/-- The file has a path of an odd length. -/
theorem length_path_nestedFile (levels : Nat) :
    (nestedFile levels).path.length = 2 * levels + 1 := by
  simp [nestedFile, Entry.bare, Bytes.baseOf_eq, Nat.mul_comm]

/-- The index has as many levels as there are directories. -/
theorem height_nestedRun (levels : Nat) : (nestedRun levels).index.cache.height = levels :=
  (nestedRun_eq levels).2.2.height.trans List.length_replicate

/-- The written form of the cache tree is as short as the number of levels. -/
theorem length_body_nestedRun (levels : Nat) :
    (nestedRun levels).index.cache.body.length = 38 * levels + 37 := by
  obtain ⟨-, hname, hnested⟩ := nestedRun_eq levels
  rw [hnested.length_body, hname]
  simp
  omega

/-- With one directory the index is opened again. -/
theorem openFile_save_nested :
    ∃ saved after, (nestedRun 1).index.save .vacant ⟨1, 0⟩ = (saved, after, .ok ()) ∧
      Index.openFile [] .standard after = .ok { saved with path := [], settings := .standard } := by
  have htable : (nestedRun 1).index.table = [nestedFile 1] := (nestedRun_eq 1).1
  have hn : (nestedRun 1).index.table.length < 2 ^ 32 := by
    rw [htable]
    decide
  have hl : ∀ e ∈ (nestedRun 1).index.table, e.path.length < 2 ^ 64 := by
    rw [htable]
    decide
  have hb : (nestedRun 1).index.cache.body.length < 2 ^ 32 := by
    rw [length_body_nestedRun]
    decide
  have hlevels : (nestedRun 1).index.cache.height ≤ CacheTree.maxDepth := by
    rw [height_nestedRun]
    decide
  rw [nestedRun] at hn hl hb hlevels ⊢
  obtain ⟨saved, after, hsave, -, -, -, hopen⟩ := openFile_save [] .standard .standard
    (TreeLog.mk []) .vacant (nestedCalls 1) (isPlain_nestedCalls 1) hn hl hb
    Disk.vacant_ready ⟨1, 0⟩
  rw [if_pos hlevels] at hopen
  exact ⟨saved, after, hsave, hopen⟩

/-- With 4097 directories the index is saved, and the file cannot be opened. -/
theorem openFile_save_tooDeep :
    (∀ c ∈ nestedCalls 4097, c.isPlain = true) ∧ (nestedRun 4097).index.table.length < 2 ^ 32 ∧
      (∀ e ∈ (nestedRun 4097).index.table, e.path.length < 2 ^ 64) ∧
      (nestedRun 4097).index.cache.body.length < 2 ^ 32 ∧ Disk.vacant.Ready ∧
      ∃ saved after, (nestedRun 4097).index.save .vacant ⟨1, 0⟩ = (saved, after, .ok ()) ∧
        Index.openFile [] .standard after = .error (.corruptCacheTree .tooDeep) := by
  have htable : (nestedRun 4097).index.table = [nestedFile 4097] := (nestedRun_eq 4097).1
  -- The levels are too many to compute with; only their number is used.
  have hn : (nestedRun 4097).index.table.length < 2 ^ 32 := by
    rw [htable, List.length_singleton]
    decide
  have hl : ∀ e ∈ (nestedRun 4097).index.table, e.path.length < 2 ^ 64 := by
    rw [htable]
    intro e he
    rw [List.mem_singleton.1 he, length_path_nestedFile]
    decide
  have hb : (nestedRun 4097).index.cache.body.length < 2 ^ 32 := by
    rw [length_body_nestedRun]
    decide
  have hregular : (nestedRun 4097).index.Regular :=
    run_regular (Index.new_regular [] .standard) (isPlain_nestedCalls 4097)
  obtain ⟨saved, after, hsave, -, -, -, hopen⟩ :=
    hregular.openFile_saved hn hl hb Disk.vacant_ready ⟨1, 0⟩ [] .standard
  rw [height_nestedRun, if_neg (by decide)] at hopen
  exact ⟨isPlain_nestedCalls 4097, hn, hl, hb, Disk.vacant_ready, saved, after, hsave, hopen⟩

end Session

end StagingIndex
