import Mathlib
import StagingIndex.Proofs.Examination
import StagingIndex.Proofs.Reopening

/-! # Entries without a size

An entry that changed within the second in which it is written loses its size, so that no file looks
like it any more. But of the size of a file only the low thirty-two bits are compared. So an entry
without a size does look like some files: those that differ from what was recorded in nothing but a
size that is a multiple of `2 ^ 32`, and an emptied file foremost. It looks like no others, in memory
as well as after the index was saved and read back.

* `Entry.statMatches_unsized_iff` — the files that an entry without a size looks like
* `Table.Doubts` — what a table without the size of an entry says of its file
* `Image.entries_of_decode` — the entries that are read of a file that was written
* `Index.content_of_save` — the file after an index was saved
* `Index.doubts_saved` — dropping sizes, saving and reading back
* `Index.isClean_emptied` — an emptied file that is found clean -/

namespace StagingIndex

namespace Entry

variable {e : Entry} {cutoff : Timestamp}

/-- An entry without its size. -/
def unsized (e : Entry) : Entry := { e with size := 0 }

/-- An entry that changed at or after the cutoff loses its size. -/
theorem smudge_eq_unsized (hcutoff : cutoff ≠ .zero)
    (hracy : (compare cutoff e.mtime).isLE = true) (hsize : e.size ≠ 0) :
    e.smudge cutoff = e.unsized := by
  rw [smudge, if_pos]
  · rfl
  · simp [isRacy, hcutoff, hracy, hsize]

/-- An entry without its size looks like a file if its low thirty-two bits of the size are zero and it
is as recorded in everything else. -/
theorem statMatches_unsized_iff {s : Stat} :
    e.unsized.statMatches s = true ↔
      s.size.toUInt32 = 0 ∧ e.statMatches { s with size := e.size.toUInt64 } = true := by
  have hmode : e.unsized.modeMatches s = e.modeMatches { s with size := e.size.toUInt64 } := rfl
  have hlow : e.size = e.size.toUInt64.toUInt32 := (UInt32.toUInt32_toUInt64 e.size).symm
  simp only [statMatches, Bool.and_eq_true, decide_eq_true_eq, hmode, ← hlow]
  simp only [unsized, eq_comm (a := (0 : UInt32))]
  tauto

end Entry

namespace Table

variable {t : Table} {e : Entry} {cutoff : Timestamp}

/-- What a table without the size of an entry says of its file: it only looks as recorded if the low
thirty-two bits of its size are zero, and only then its path is left out of a status, whatever the
cutoff is and whatever source is asked, if its file is looked at for more than its kind. -/
structure Doubts (t : Table) (e : Entry) : Prop where
  size_eq_zero : ∀ f ∈ t, f.key = e.key → ∀ s, f.statMatches s = true → s.size.toUInt32 = 0
  listed : ∀ f ∈ t, f.key = e.key → f.isExamined = true → f.mode ≠ .gitlink →
    ∀ {σ : Type} [StatSource σ] (cutoff : Timestamp) (source : σ) (st : Status),
      (Status.compute t cutoff (Observed.start source)).1 = .ok st → e.path ∉ st.lists.flatten →
        ∃ s, (e.path, .ok (some s)) ∈
            (Status.compute t cutoff (Observed.start source)).2.answers ∧
          s.size.toUInt32 = 0

/-- A table in which an entry has lost its size doubts its file. -/
theorem Invariant.doubts (ht : t.Invariant) (he : ∀ f ∈ t, f.key = e.key → f = e.unsized) :
    t.Doubts e where
  size_eq_zero := by
    intro f hf hkey s hmatches
    rw [he f hf hkey] at hmatches
    exact (Entry.statMatches_unsized_iff.1 hmatches).1
  listed := by
    intro f hf hkey hx hgit σ _ cutoff source st hst hout
    obtain rfl := he f hf hkey
    obtain ⟨s, hanswer, -, hclean⟩ :=
      ((Observed.classifies_of_compute ht hst).not_listed_iff _ hf hx).1 hout
    rcases hclean with hmode | ⟨hmatches, -⟩
    · exact absurd hmode hgit
    · exact ⟨s, hanswer, (Entry.statMatches_unsized_iff.1 hmatches).1⟩

/-- After sizes were dropped the entries with a key are what has become of the one that had it. -/
theorem IsSorted.eq_smudge {f : Entry} (hs : t.IsSorted) (he : e ∈ t) (hf : f ∈ t.smudge cutoff)
    (hkey : f.key = e.key) : f = e.smudge cutoff := by
  obtain ⟨g, hg, rfl⟩ := List.mem_map.1 hf
  rw [Entry.key_smudge] at hkey
  rw [hs.eq_of_key hg he hkey]

end Table

/-! ## What is read of a file that was written -/

namespace Image

variable {version requested : Version} {t : Table} {cache : CacheTree} {image : Image}

/-- The records of the first entries come first. -/
theorem records_append (version : Version) (previous : Bytes) (es fs : List Entry) :
    ∃ rest, records version previous (es ++ fs) = records version previous es ++ rest := by
  induction es generalizing previous with
  | nil => exact ⟨_, rfl⟩
  | cons e es ih =>
    obtain ⟨rest, h⟩ := ih e.path
    exact ⟨rest, by rw [List.cons_append, records, records, h, List.append_assoc]⟩

/-- Of a file that was written for a table, whatever its cache tree is, as many entries are read as a
word can say. -/
theorem entries_of_decode (ht : t.Invariant) (hl : ∀ e ∈ t, e.path.length < 2 ^ 64)
    (hv : version = effectiveVersion requested t) (h : decode (encode version t cache) = .ok image) :
    image.entries = t.take (t.length % 2 ^ 32) := by
  set u := t.take (t.length % 2 ^ 32) with hu
  have hsub : u.Sublist t := List.take_sublist _ _
  have hcount : u.length = t.length % 2 ^ 32 :=
    List.length_take_of_le (Nat.mod_le _ _)
  have hword : UInt32.ofNat u.length = UInt32.ofNat t.length := by
    rw [hcount, ← UInt32.toNat_inj]
    simp
  obtain ⟨rest, hrest⟩ := records_append version [] u (t.drop (t.length % 2 ^ 32))
  rw [hu, List.take_append_drop, ← hu] at hrest
  have hcontent : content version t cache = signature ++ (Bytes.ofWord32 version.toWord ++
      (Bytes.ofWord32 (UInt32.ofNat u.length) ++ records version [] u)) ++
        (rest ++ treeExtension cache) := by
    simp only [content, hrest, hword, List.append_assoc]
  have htable : Reader.Reads readTable 0 (signature ++ (Bytes.ofWord32 version.toWord ++
      (Bytes.ofWord32 (UInt32.ofNat u.length) ++ records version [] u))) (version, u) := by
    refine reads_table 0 (ht.sublist hsub) ?_ ?_ ?_
    · rw [hcount]
      exact Nat.mod_lt _ (by decide)
    · exact fun _ => strippable_of_length (by decide) fun e he => hl e (hsub.subset he)
    · intro h e he
      exact needsExtended_of_effectiveVersion (hv ▸ h) e (hsub.subset he)
  rw [decode, encode, Trailer.detach?_attach, hcontent] at h
  split at h
  · cases h
  · simp only [htable (rest ++ treeExtension cache)] at h
    obtain ⟨read, -, rfl⟩ := Check.map_eq_ok.1 h
    rfl

end Image

/-! ## Saving and reading back -/

/-- A lock file that was created, written and published is the index file. -/
theorem Disk.content_of_publish {d d₁ d₂ : Disk} {n : Nat} {bytes : Bytes} {now : Timestamp}
    (hlock : d.createLock now = .ok (n, d₁))
    (hpublish : (d₁.overwrite n bytes now).publish = .ok d₂) : d₂.content = .ok (some bytes) := by
  rw [createLock] at hlock
  split at hlock
  · cases hlock
  · split at hlock
    · cases hlock
      rw [publish] at hpublish
      split at hpublish
      · cases hpublish
      · cases hpublish
        simp [content, overwrite, PathEnd.direct]
    · cases hlock

namespace Index

variable {ix : Index} {e : Entry} {cutoff : Timestamp}

/-- A lock is taken by creating the lock file. -/
theorem createLock_of_lock {d d' : Disk} {now : Timestamp} {l : Lock}
    (h : ix.lock d now = .ok (l, d')) : d.createLock now = .ok (l.file, d') := by
  rw [lock] at h
  split at h
  · cases h
  · cases h
  · cases h
    assumption

/-- The file is published by giving the lock file its name. -/
theorem publish_of_publish {d d' : Disk} {w : Written} (h : ix.publish w d = .ok d') :
    d.publish = .ok d' := by
  rw [publish] at h
  split at h
  · cases h
  · cases h
    assumption

/-- After saving, the entries in memory have lost their sizes, and the file is the image of them. -/
theorem content_of_save {d after : Disk} {now : Timestamp} {saved : Index}
    (h : ix.save d now = (saved, after, .ok ())) :
    saved.table = ix.table.smudge ⟨now.seconds, 0⟩ ∧
      after.content = .ok (some (ix.settled now).image) := by
  rw [save] at h
  split at h
  · cases h
  · rename_i l d₁ hlock
    simp only [write, commit] at h
    split at h
    · cases h
    · rename_i hcommit
      cases h
      obtain ⟨d₂, hpublish, hd₂⟩ := Check.map_eq_ok.1 hcommit
      cases hd₂
      exact ⟨rfl, Disk.content_of_publish (createLock_of_lock hlock) (publish_of_publish hpublish)⟩

/-- What is read back after saving are the entries as they were written, or as many of them as a word
can say. -/
theorem table_of_read {d after : Disk} {now : Timestamp} {saved reader back : Index}
    (ht : ix.table.Invariant) (hl : ∀ f ∈ ix.table, f.path.length < 2 ^ 64)
    (hsave : ix.save d now = (saved, after, .ok ())) (hread : reader.read after = .ok back) :
    back.table = saved.table.take (ix.table.length % 2 ^ 32) := by
  obtain ⟨hsaved, hcontent⟩ := content_of_save hsave
  simp only [read, Check.bind_eq_ok, load, hcontent] at hread
  obtain ⟨seen, -, hload⟩ := hread
  obtain ⟨image, himage, rfl⟩ := Check.map_eq_ok.1 hload
  have hpaths : ∀ f ∈ ix.table.smudge ⟨now.seconds, 0⟩, f.path.length < 2 ^ 64 := by
    intro f hf
    obtain ⟨g, hg, rfl⟩ := List.mem_map.1 hf
    have hpath : (g.smudge ⟨now.seconds, 0⟩).path = g.path :=
      congrArg EntryKey.path (g.key_smudge _)
    rw [hpath]
    exact hl g hg
  have hentries : image.entries = (ix.table.smudge ⟨now.seconds, 0⟩).take
      ((ix.table.smudge ⟨now.seconds, 0⟩).length % 2 ^ 32) :=
    Image.entries_of_decode (ht.smudge _) hpaths rfl himage
  rw [hsaved]
  simpa [Table.smudge] using hentries

/-- An entry with a size that changed at or after a moment loses it when sizes are dropped at that
moment, as is done whenever an index is written. From then on the table in memory, the index that was
saved and whatever index reads its file doubt the file of the entry. -/
theorem doubts_saved (ht : ix.table.Invariant) (hl : ∀ f ∈ ix.table, f.path.length < 2 ^ 64)
    (he : e ∈ ix.table) (hcutoff : cutoff ≠ .zero) (hracy : (compare cutoff e.mtime).isLE = true)
    (hsize : e.size ≠ 0) :
    e.unsized ∈ ix.table.smudge cutoff ∧ (ix.table.smudge cutoff).Doubts e ∧
      ∀ now : Timestamp, (⟨now.seconds, 0⟩ : Timestamp) = cutoff →
        (∀ l d, (ix.write l d now).1.table = ix.table.smudge cutoff) ∧
        ∀ d saved after, ix.save d now = (saved, after, .ok ()) →
          saved.table = ix.table.smudge cutoff ∧
          ∀ reader back : Index, reader.read after = .ok back →
            (ix.table.length < 2 ^ 32 → back.table = saved.table) ∧ back.table.Doubts e := by
  have hunsized := Entry.smudge_eq_unsized hcutoff hracy hsize
  have heq : ∀ f ∈ ix.table.smudge cutoff, f.key = e.key → f = e.unsized := fun f hf hkey =>
    (ht.sorted.eq_smudge he hf hkey).trans hunsized
  refine ⟨List.mem_map.2 ⟨e, he, hunsized⟩, (ht.smudge cutoff).doubts heq, ?_⟩
  rintro now rfl
  refine ⟨fun _ _ => rfl, fun d saved after hsave => ?_⟩
  have hsaved := (content_of_save hsave).1
  refine ⟨hsaved, fun reader back hread => ?_⟩
  have hback := table_of_read ht hl hsave hread
  have hlength : saved.table.length = ix.table.length := by
    rw [hsaved, Table.smudge, List.length_map]
  have hsub : back.table.Sublist (ix.table.smudge ⟨now.seconds, 0⟩) := by
    rw [hback, hsaved]
    exact List.take_sublist _ _
  constructor
  · intro hn
    rw [hback, Nat.mod_eq_of_lt hn, ← hlength, List.take_length]
  · exact ((ht.smudge _).sublist hsub).doubts fun f hf => heq f (hsub.subset hf)

/-! ## A file that changes while it is written -/

/-- A file of five bytes that changed at the second second. -/
def fiveBytesLong : Stat := ⟨⟨2, 0⟩, ⟨2, 0⟩, 0, 0, 0o100644, 0, 0, 5⟩

/-- The same file after it was emptied within that second. -/
def emptied : Stat := { fiveBytesLong with size := 0 }

/-- The file `f` as it was staged. -/
def stagedFile : Entry := (Entry.bare [0x66] .merged .regular .null).withStat fiveBytesLong

/-- An index with this file. -/
def stagedIndex : Index := { new [] .standard with table := [stagedFile] }

/-- A batch of the file makes the index. -/
theorem replace_stagedFile : (new [] .standard).replace ⟨[stagedFile]⟩ = .ok stagedIndex := by
  have hnormalize : Table.normalize .reject [stagedFile] = .ok [stagedFile] := by cbv
  have h := congrArg (Except.map (new [] .standard).replaceTable) hnormalize
  rwa [Except.map, replaceTable, new, CacheTree.invalidateChanges, CacheTree.invalidateAll_empty]
    at h

/-- The index is regular. -/
theorem stagedIndex_regular : stagedIndex.Regular where
  invariant := replace_invariant replace_stagedFile
  truthful := CacheTree.all_unknown (CacheTree.truthful_of_none rfl)
  wellNamed := (new_regular [] .standard).wellNamed
  settled := (new_regular [] .standard).settled
  inOrder := (new_regular [] .standard).inOrder
  root := rfl

/-- The index is saved within that second, and opened again as it was saved. -/
theorem openFile_stagedIndex :
    ∃ saved after back, stagedIndex.save .vacant ⟨2, 5⟩ = (saved, after, .ok ()) ∧
      openFile [] .standard after = .ok back ∧ saved.table = [stagedFile.unsized] ∧
      back.table = [stagedFile.unsized] ∧ back.cutoff = ⟨2, 5⟩ := by
  obtain ⟨saved, after, hsave, htable, -, -, hopen⟩ :=
    stagedIndex_regular.openFile_saved (by decide) (by decide) (by cbv) Disk.vacant_ready ⟨2, 5⟩ []
      .standard
  rw [if_pos (by decide)] at hopen
  refine ⟨saved, after, _, hsave, hopen, htable, htable, ?_⟩
  rw [save_of_ready _ Disk.vacant_ready] at hsave
  cases hsave
  rfl

/-- Its file was staged within the second in which it was saved, so both the index and what is opened
again doubt it. -/
theorem doubts_saved_staged :
    stagedIndex.table.Invariant ∧ stagedFile ∈ stagedIndex.table ∧ stagedFile.size ≠ 0 ∧
      (compare ⟨2, 0⟩ stagedFile.mtime).isLE = true ∧
      ∃ saved after back, stagedIndex.save .vacant ⟨2, 5⟩ = (saved, after, .ok ()) ∧
        openFile [] .standard after = .ok back ∧ saved.table = stagedIndex.table.smudge ⟨2, 0⟩ ∧
        back.table = saved.table ∧ (stagedIndex.table.smudge ⟨2, 0⟩).Doubts stagedFile ∧
        back.table.Doubts stagedFile := by
  have ht := stagedIndex_regular.invariant
  have he : stagedFile ∈ stagedIndex.table := List.mem_singleton_self _
  have hcutoff : (⟨2, 0⟩ : Timestamp) ≠ .zero := by decide
  have hracy : (compare ⟨2, 0⟩ stagedFile.mtime).isLE = true := by decide
  have hsize : stagedFile.size ≠ 0 := by decide
  obtain ⟨saved, after, back, hsave, hopen, -⟩ := openFile_stagedIndex
  obtain ⟨-, hdoubts, hwrite⟩ := doubts_saved ht (by decide) he hcutoff hracy hsize
  obtain ⟨hsaved, hread⟩ := (hwrite ⟨2, 5⟩ rfl).2 .vacant saved after hsave
  obtain ⟨hback, hagain⟩ := hread _ back hopen
  exact ⟨ht, he, hsize, hracy, saved, after, back, hsave, hopen, hsaved, hback (by decide), hdoubts,
    hagain⟩

/-- But emptied within that second, the file looks as it is recorded, and a status of what is opened
again finds it clean. -/
theorem isClean_emptied :
    (new [] .standard).replace ⟨[stagedFile]⟩ = .ok stagedIndex ∧
      stagedFile ∈ stagedIndex.table ∧ stagedFile.size ≠ 0 ∧
      (compare ⟨2, 0⟩ stagedFile.mtime).isLE = true ∧
      ∃ saved after back, stagedIndex.save .vacant ⟨2, 5⟩ = (saved, after, .ok ()) ∧
        openFile [] .standard after = .ok back ∧
        (∃ f ∈ saved.table, f.key = stagedFile.key ∧ f.statMatches emptied = true) ∧
        (∃ f ∈ back.table, f.key = stagedFile.key ∧ f.statMatches emptied = true) ∧
        back.status (fun _ => .ok (some emptied)) = .ok ⟨[], [], [], []⟩ := by
  obtain ⟨saved, after, back, hsave, hopen, hsaved, hback, hcutoff⟩ := openFile_stagedIndex
  have hlooks : stagedFile.unsized.statMatches emptied = true := by decide
  refine ⟨replace_stagedFile, List.mem_singleton_self _, by decide, by decide, saved, after, back,
    hsave, hopen, ?_, ?_, ?_⟩
  · exact ⟨stagedFile.unsized, by simp [hsaved], rfl, hlooks⟩
  · exact ⟨stagedFile.unsized, by simp [hback], rfl, hlooks⟩
  · rw [status, hback, hcutoff]
    decide +kernel

end Index

end StagingIndex
