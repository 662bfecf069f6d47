import Mathlib
import StagingIndex.Proofs.CountedRuns

/-! # Changes after a file was read

A change forgets along the names of directories, the reader's check joins these names to paths. The
two agree as long as every subdirectory has a name: whatever is changed after a file was read, the
cache tree still passes the check, and so does the one in the file that is written next. A
subdirectory without a name is checked as the directory that it is in, but no change reaches it.

* `CacheTree.height_forgetAlong`, `CacheTree.length_body_forgetAlong_le` — forgetting makes no tree too
  large to be written
* `Index.Presentable`, `Index.Passes` — a cache tree that a reader accepts, now and when it is written
* `Session.passes_of_changes` — changes after reading a file leave such a cache tree
* `Session.not_passes_of_nameless` — a file after which they do not -/

namespace StagingIndex

/-! ## The size of a tree that forgets -/

namespace CacheTree

variable {ts : List CacheTree} {i : Nat}

/-- A node that knows nothing is written in no more bytes. -/
theorem length_header_none_le (name : Bytes) (known : Option Known) (n : Nat) :
    (header name none n).length ≤ (header name known n).length := by
  cases known with
  | none => exact Nat.le_refl _
  | some k =>
    simp only [header, List.length_append, List.length_cons, List.length_nil, k.id.length_bytes]
    omega

/-- If a subdirectory becomes no longer, neither do all together. -/
theorem length_bodies_modify_le {f : CacheTree → CacheTree}
    (hf : ∀ t, (f t).body.length ≤ t.body.length) :
    (bodies (ts.modify i f)).length ≤ (bodies ts).length := by
  induction ts generalizing i with
  | nil => simp
  | cons t ts ih =>
    cases i with
    | zero =>
      have := hf t
      simp only [List.modify_zero_cons, bodies, List.length_append]
      omega
    | succ i =>
      have : (bodies (ts.modify i f)).length ≤ (bodies ts).length := ih
      simp only [List.modify_succ_cons, bodies, List.length_append]
      omega

/-- A tree that forgets is written in no more bytes. -/
theorem length_body_forgetAlong_le (names : List Bytes) (t : CacheTree) :
    (forgetAlong names t).body.length ≤ t.body.length := by
  induction names generalizing t with
  | nil =>
    cases t with
    | node own known children =>
      have := length_header_none_le own known children.length
      simp only [forgetAlong, forget, body, List.length_append]
      omega
  | cons name names ih =>
    cases t with
    | node own known children =>
      have hheader := length_header_none_le own known children.length
      simp only [forgetAlong]
      split
      · rename_i i hi
        have : (bodies (children.modify i (forgetAlong names))).length ≤ (bodies children).length :=
          length_bodies_modify_le ih
        simp only [body, List.length_append, List.length_modify]
        omega
      · simp only [body, List.length_append]
        omega

/-- If a subdirectory keeps its levels, so do all together. -/
theorem heights_modify {f : CacheTree → CacheTree} (hf : ∀ t, (f t).height = t.height) :
    heights (ts.modify i f) = heights ts := by
  induction ts generalizing i with
  | nil => simp
  | cons t ts ih =>
    cases i with
    | zero => simp only [List.modify_zero_cons, heights, hf]
    | succ i => simp only [List.modify_succ_cons, heights, ih]

/-- A tree that forgets keeps its levels. -/
theorem height_forgetAlong (names : List Bytes) (t : CacheTree) :
    (forgetAlong names t).height = t.height := by
  induction names generalizing t with
  | nil =>
    cases t
    rfl
  | cons name names ih =>
    cases t with
    | node own known children =>
      simp only [forgetAlong]
      split
      · simp only [height, heights_modify ih]
      · rfl

end CacheTree

/-! ## What a reader accepts -/

namespace Index

variable {ix ix' : Index}

/-- A cache tree of a form and of a size that a reader accepts, with the right counts and a name for
every subdirectory. -/
structure Presentable (ix : Index) : Prop extends ix.Fit (fun _ => True) where
  named : ix.cache.All (fun _ n => n.Named) []
  root : ix.cache.name = []
  height : ix.cache.height ≤ CacheTree.maxDepth
  body : ix.cache.body.length < 2 ^ 32

/-- The cache tree passes the reader's check, and whatever file the index writes is read as it was
written. The number of entries is written in 32 bits, and the lengths of paths are numbers of 64. -/
structure Passes (ix : Index) : Prop where
  verified : ix.cache.verify ix.table = .ok ()
  reread : ix.table.length < 2 ^ 32 → (∀ e ∈ ix.table, e.path.length < 2 ^ 64) → ∀ now,
    Image.decode (ix.settled now).image =
      .ok ⟨(ix.settled now).version, (ix.settled now).table, ix.cache⟩

/-- A presentable cache tree passes. -/
theorem Presentable.passes (h : ix.Presentable) : ix.Passes where
  verified := CacheTree.verify_of_fits h.invariant.sorted h.named h.fits
  reread := by
    intro hn hl now
    have hfit := h.toFit.smudge ⟨now.seconds, 0⟩ (ix.settled now).version
    have hlength : (ix.settled now).table.length < 2 ^ 32 := by
      rwa [settled, Table.smudge, List.length_map]
    have hpaths : ∀ e ∈ (ix.settled now).table, e.path.length < 2 ^ 64 := by
      intro e he
      obtain ⟨f, hf, rfl⟩ := List.mem_map.1 he
      have hpath : (f.smudge ⟨now.seconds, 0⟩).path = f.path :=
        congrArg EntryContent.path (f.content_smudge _)
      rw [hpath]
      exact hl f hf
    exact Image.decode_encode hfit.invariant hlength hpaths rfl h.root
      (CacheTree.verify_of_fits hfit.invariant.sorted h.named hfit.fits)
      (h.fits.imp fun _ _ hfits => hfits.toShaped) h.height h.body

/-- What is read is presentable if every subdirectory has a name. -/
theorem presentable_of_read {d : Disk} (h : ix.read d = .ok ix')
    (hn : ix'.cache.All (fun _ n => n.Named) []) : ix'.Presentable := by
  rcases read_eq_ok h with rfl | ⟨file, image, seen, himage, rfl⟩
  · exact {
      toFit := new_fit ix.path ix.settings, named := hn, root := rfl, height := Nat.zero_le _
      body := Image.length_body_empty }
  · have hread := Image.readable_of_decode himage
    exact {
      invariant := hread.invariant
      fits := CacheTree.fits_of_verify_of_named hread.invariant.sorted hread.shaped hn hread.verified
      named := hn, root := hread.root, height := hread.height, body := hread.body }

/-- An index that is fit after a change is as presentable as before. -/
theorem Presentable.of_fit (h : ix.Presentable) {paths : List Bytes}
    (hc : ix'.cache = ix.cache.invalidateAll paths) (hf : ix'.Fit fun _ => True) :
    ix'.Presentable where
  toFit := hf
  named := hc ▸ CacheTree.all_invalidateAll CacheTree.named_kept h.named paths
  root := hc ▸ (CacheTree.name_invalidateAll ix.cache paths).trans h.root
  height := hc ▸ CacheTree.invalidateAll_induction
    (fun names t ht => (CacheTree.height_forgetAlong names t).trans_le ht) h.height paths
  body := hc ▸ CacheTree.invalidateAll_induction
    (fun names t ht => (CacheTree.length_body_forgetAlong_le names t).trans_lt ht) h.body paths

end Index

/-- Batches and edits. -/
def Call.isChange {σ : Type} : Call σ → Bool
  | replace _ => true
  | edit _ => true
  | _ => false

namespace Session

variable {σ : Type} [ObjectDatabase σ] {s : Session σ}

/-- Batches and edits, whether or not they succeed, keep an index presentable. -/
theorem perform_presentable (h : s.index.Presentable) {c : Call σ} (hc : c.isChange = true) :
    (s.perform c).1.index.Presentable := by
  cases c with
  | replace batch =>
    simp only [perform]
    cases hr : s.index.replace batch with
    | error e => exact h
    | ok ix =>
      have hf := h.toFit.replace hr
      obtain ⟨t, -, rfl⟩ := Check.map_eq_ok.1 hr
      exact h.of_fit rfl hf
  | edit edits =>
    simp only [perform]
    cases hr : s.index.edit edits with
    | error e => exact h
    | ok ix =>
      have hf := h.toFit.edit hr
      obtain ⟨m, -, rfl⟩ := Check.map_eq_ok.1 hr
      exact h.of_fit rfl hf
  | _ => cases hc

/-- Batches and edits in any number keep an index presentable. -/
theorem run_presentable (h : s.index.Presentable) {calls : List (Call σ)}
    (hc : ∀ c ∈ calls, c.isChange = true) : (s.run calls).index.Presentable := by
  induction calls generalizing s with
  | nil => exact h
  | cons c calls ih =>
    exact ih (perform_presentable h (hc c (by simp))) fun d hd => hc d (List.mem_cons_of_mem _ hd)

/-- After a file was read whose cache tree has a name for every subdirectory, the cache tree passes
the reader's check whatever batches and edits follow, and so does the one in the file that is written
then. -/
theorem passes_of_changes {ix ix' : Index} {disk : Disk} (hread : ix.read disk = .ok ix')
    (hnamed : ix'.cache.All (fun _ n => n.Named) []) (database : σ) (calls : List (Call σ))
    (hcalls : ∀ c ∈ calls, c.isChange = true) :
    ((⟨ix', database, disk⟩ : Session σ).run calls).index.Passes :=
  (run_presentable (Index.presentable_of_read hread hnamed) hcalls).passes

/-- An index as it is when the file of a program that counted `a/x` below `a` has been read. -/
def foreignIndex : Index :=
  { Index.new [] .standard with
    version := Image.foreignImage.version
    table := Image.foreignImage.entries
    cache := Image.foreignImage.cache
    snapshot := some ⟨.zero, (Trailer.attach Image.foreignContent).length⟩ }

/-- After this file was read, a file `a/y` is added, and the cache tree still passes. -/
theorem passes_of_changes_foreign :
    (Index.new [] .standard).read
        (Disk.vacant.withIndexFile (Trailer.attach Image.foreignContent) .zero) = .ok foreignIndex ∧
      foreignIndex.cache.All (fun _ n => n.Named) [] ∧
      ((⟨foreignIndex, .empty, Disk.vacant.withIndexFile (Trailer.attach Image.foreignContent)
        .zero⟩ : Session MemoryDatabase).run [.edit [.add (placeholder [0x61, 0x2f, 0x79] false)]]).index.Passes := by
  have hread : Index.openFile [] .standard
      (Disk.vacant.withIndexFile (Trailer.attach Image.foreignContent) .zero) =
        .ok foreignIndex := by
    rw [Index.openFile_withIndexFile rfl, Image.decode_foreign]
    rfl
  rw [Index.openFile] at hread
  have hnamed : foreignIndex.cache.All (fun _ n => n.Named) [] := by
    simp [foreignIndex, Image.foreignImage, CacheTree.All, CacheTree.AllBelow, CacheTree.Named]
  exact ⟨hread, hnamed, passes_of_changes hread hnamed _ _ (by decide)⟩

/-! ## A subdirectory without a name -/

/-- A file without entries in version 2, with a cache tree that knows the root to be without entries
under a subdirectory without a name. -/
def namelessContent : Bytes :=
  Image.signature ++ [0, 0, 0, 2] ++ [0, 0, 0, 0] ++
    Image.treeSignature ++ [0, 0, 0, 0x2b] ++
      ([0, 0x2d, 0x31, 0x20, 0x31, 0x0a] ++ [0, 0x30, 0x20, 0x30, 0x0a] ++ List.replicate 32 5)

/-- The cache tree that is read of it. -/
def namelessCache : CacheTree := .node [] none [.node [] (some ⟨0, .filled 5⟩) []]

/-- The written form of this cache tree is one. -/
theorem parse_nameless : CacheTree.parse namelessCache.body = .ok namelessCache := by
  have hchild : CacheTree.Writable (.node [] (some ⟨0, .filled 5⟩) []) := {
    sorted := List.Pairwise.nil, delimited := by simp, count := by simp, subtrees := by simp }
  have hroot : CacheTree.Writable namelessCache := {
    sorted := List.pairwise_singleton _ _
    delimited := by simp [namelessCache, CacheTree.Delimited]
    count := by simp [namelessCache]
    subtrees := by simp [namelessCache] }
  have hall : namelessCache.All (fun _ n => n.Writable) [] := ⟨hroot, ⟨hchild, trivial⟩, trivial⟩
  exact CacheTree.parse_body rfl hall (by decide)

/-- The file is accepted. -/
theorem decode_nameless :
    Image.decode (Trailer.attach namelessContent) = .ok ⟨.v2, [], namelessCache⟩ := by
  have hcontent : namelessContent = Image.content .v2 [] namelessCache := by cbv
  have hversion : Version.v2 = Image.effectiveVersion .v2 [] := by decide
  have hcheck : Image.readCache [] namelessCache.body = .ok namelessCache := by
    rw [Image.readCache, parse_nameless]
    rfl
  rw [hcontent]
  change Image.decode (Image.encode .v2 [] namelessCache) = _
  rw [Image.decode_encode_eq Table.invariant_nil (by decide) (fun h => by cases h) hversion (by cbv),
    if_neg (by decide), hcheck]
  rfl

/-- An index as it is when this file has been read. -/
def namelessIndex : Index :=
  { Index.new [] .standard with
    version := .v2
    cache := namelessCache
    snapshot := some ⟨.zero, (Trailer.attach namelessContent).length⟩ }

/-- The same after a file `a` is added. -/
def namelessEdited : Index := { namelessIndex with table := [placeholder [0x61] false] }

/-- This file is accepted, and a file `a` can be added then. But now the cache tree does not pass, and
the file that is written is not accepted: both take the subdirectory for the root. -/
theorem not_passes_of_nameless :
    (Index.new [] .standard).read
        (Disk.vacant.withIndexFile (Trailer.attach namelessContent) .zero) = .ok namelessIndex ∧
      namelessIndex.edit [.add (placeholder [0x61] false)] = .ok namelessEdited ∧
      namelessEdited.cache.verify namelessEdited.table =
        .error (.corruptCacheTree (.wrongCount [] 0 1)) ∧
      Image.decode (namelessEdited.settled .zero).image =
        .error (.corruptCacheTree (.wrongCount [] 0 1)) := by
  have hread : Index.openFile [] .standard
      (Disk.vacant.withIndexFile (Trailer.attach namelessContent) .zero) = .ok namelessIndex := by
    rw [Index.openFile_withIndexFile rfl, decode_nameless]
    rfl
  have hedit : Edit.apply [.add (placeholder [0x61] false)] [] =
      .ok ⟨[placeholder [0x61] false], [[0x61]], [[0x61]]⟩ := by
    cbv
  have hwritten : (namelessEdited.settled .zero).image =
      Image.encode .v2 [placeholder [0x61] false] namelessCache := by
    rfl
  have hkept : namelessCache.invalidateAll [[0x61]] = namelessCache := by cbv
  have hverify : namelessCache.verify [placeholder [0x61] false] =
      .error (.corruptCacheTree (.wrongCount [] 0 1)) := by
    cbv
  refine ⟨hread, ?_, hverify, ?_⟩
  · have htable : namelessIndex.table = [] := rfl
    have hcache : namelessIndex.cache = namelessCache := rfl
    rw [Index.edit, htable, hedit, Except.map, hcache, hkept]
    rfl
  · have ht : Table.Invariant [placeholder [0x61] false] := Table.invariant_singleton (by decide)
    have hversion : Version.v2 = Image.effectiveVersion .v2 [placeholder [0x61] false] := by decide
    have hcheck : Image.readCache [placeholder [0x61] false] namelessCache.body =
        .error (.corruptCacheTree (.wrongCount [] 0 1)) := by
      simp only [Image.readCache, parse_nameless, hverify]
      rfl
    rw [hwritten, Image.decode_encode_eq ht (by decide) (fun h => by cases h) hversion (by cbv),
      if_neg (by decide), hcheck]
    rfl

end Session

end StagingIndex
