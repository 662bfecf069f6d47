import Mathlib
import StagingIndex.Proofs.Flattening
import StagingIndex.Proofs.Gathering

/-! # Reading stored trees that were not written here

A stored tree can be any sequence of items. Reading it checks the entries as a table, but not the
listings from which they come: their order within a directory is lost, a subdirectory may be listed
twice, and the name of a file may have slashes in it. The cache tree that is read with the table is
what a reader of the index file expects exactly if all listings are nestable.

* `Index.wellFormed_iff_of_readTree` — the cache trees that are read
* `Index.readTree_twice` — a subdirectory that is listed twice -/

namespace StagingIndex

namespace Index

open CacheTree (WellFormed)

variable {σ : Type} [ObjectDatabase σ] {ix ix' : Index} {id : ObjectId} {s : σ}

/-- After a stored tree was read, the cache tree is well-formed, with the right counts for the table,
exactly if all listings that were fetched are nestable, as recording tells, which changes nothing else.
And then it passes the reader's check, also after it was written and read back, if it does not have
too many levels, and its written form is not too long for a length of 32 bits. -/
theorem wellFormed_iff_of_readTree (h : (ix.readTree id s).1 = .ok ix') :
    ix.readTree id s = ((ix.readTree id (Recorded.start s)).1,
        (ix.readTree id (Recorded.start s)).2.database) ∧
    (ix'.cache.All (WellFormed ix'.table) [] ↔
      ∀ o ∈ (ix.readTree id (Recorded.start s)).2.fetched, ∀ tree, Tree.ofObject o = .ok tree →
        tree.Nestable) ∧
    (ix'.cache.All (WellFormed ix'.table) [] → ix'.cache.height ≤ CacheTree.maxDepth →
      ix'.cache.body.length < 2 ^ 32 → ix'.Passes) := by
  have hrecorded := Recorded.readTree_eq ix id (Recorded.start s)
  rw [Recorded.database_start] at hrecorded
  refine ⟨hrecorded, ?_⟩
  rw [hrecorded, readTree] at h
  rw [readTree]
  rcases hcollect : CacheTree.collect .merged id [] (Recorded.start s) with ⟨es, r, e | cache⟩
  · rw [hcollect] at h
    cases h
  · rw [hcollect] at h
    obtain ⟨t, ht, rfl⟩ := Check.map_eq_ok.1 h
    obtain ⟨tree, cs, trees, hgathers, rfl, hfetched⟩ := CacheTree.gathers_of_collect hcollect
    refine ⟨?_, fun hwell hheight hbody => ?_⟩
    · rw [Tree.forall_ofObject_iff hfetched]
      refine hgathers.wellFormed_iff (Table.perm_of_normalize ht) ?_ id
      exact (Tree.forall_ofObject_iff hfetched).1 fun _ _ _ => Tree.nul_notMem_of_ofObject
    · exact Presentable.passes {
        invariant := Table.normalize_invariant ht
        fits := hwell.imp fun _ _ hn => hn.toFits
        named := hwell.imp fun _ _ hn => hn.named
        root := rfl, height := hheight, body := hbody }

/-! ## Two subdirectories -/

/-- A listing of one file without content. -/
def fileTree (name : Bytes) : Tree := ⟨[⟨.regular, name, .null⟩]⟩

/-- A listing of two subdirectories: `x` with a file `a`, and one of a given name with a file `b`. -/
def pairTree (name : Bytes) : Tree :=
  ⟨[⟨.directory, [0x78], (fileTree [0x61]).id⟩, ⟨.directory, name, (fileTree [0x62]).id⟩]⟩

/-- The three listings. -/
def pairObjects (name : Bytes) : List Object :=
  [fileTree [0x61], fileTree [0x62], pairTree name].map Tree.toObject

/-- A database in memory that has them. -/
def pairDatabase (name : Bytes) : MemoryDatabase := MemoryDatabase.empty.writeAll (pairObjects name)

/-- The entries that are read. -/
def pairTable (name : Bytes) : Table :=
  [Entry.bare [0x78, 0x2f, 0x61] .merged .regular .null,
    Entry.bare (Bytes.join name [0x62]) .merged .regular .null]

/-- The nodes that are read. -/
def pairNodes (name : Bytes) : List CacheTree :=
  [.node [0x78] (some ⟨1, (fileTree [0x61]).id⟩) [],
    .node name (some ⟨1, (fileTree [0x62]).id⟩) []]

/-- The listing of one file is read as one entry. -/
theorem collectWithin_fileTree {d : MemoryDatabase} {name : Bytes}
    (hget : d.get? (fileTree name).id = some (fileTree name).toObject) (hnul : Bytes.nul ∉ name)
    (depth : Nat) (dir : Bytes) :
    CacheTree.collectWithin .merged (depth + 1) (fileTree name).id dir d =
      ([Entry.bare (Bytes.join dir name) .merged .regular .null], d,
        .ok (.node [] (some ⟨1, (fileTree name).id⟩) [])) := by
  have hitems : CacheTree.collectItems (CacheTree.collectWithin .merged depth) dir .merged
      (fileTree name).items d =
        ([Entry.bare (Bytes.join dir name) .merged .regular .null], d, .ok []) := rfl
  rw [CacheTree.collectWithin_of_get? hget (by simpa [fileTree] using hnul) hitems]
  simp [CacheTree.sortByName]

/-- The two subdirectories are read one after the other, whatever the second one is called. -/
theorem collect_pairTree {name : Bytes} (hnul : Bytes.nul ∉ name)
    (hn : Object.NoCollisions (pairObjects name)) (hnull : ∀ o ∈ pairObjects name, o.id ≠ .null) :
    CacheTree.collect .merged (pairTree name).id [] (pairDatabase name) =
      (pairTable name, pairDatabase name,
        .ok (.node [] (some ⟨2, (pairTree name).id⟩) (CacheTree.sortByName (pairNodes name)))) := by
  have hget : ∀ t ∈ [fileTree [0x61], fileTree [0x62], pairTree name],
      (pairDatabase name).get? t.id = some t.toObject := by
    intro t ht
    have ho : t.toObject ∈ pairObjects name := List.mem_map_of_mem ht
    have := MemoryDatabase.get?_of_noCollisions hn ho (hnull _ ho) []
    rwa [List.append_nil] at this
  have hnesting : ObjectDatabase.nesting (pairDatabase name) = (pairDatabase name).size + 3 := by
    have hall : (pairObjects name).countP (fun o => o.id ≠ .null) = (pairObjects name).length :=
      List.countP_eq_length.2 fun o ho => decide_eq_true (hnull o ho)
    have := MemoryDatabase.writes_writeAll (pairObjects name) .empty
    change (pairDatabase name).size + (pairDatabase name).writes = _
    rw [pairDatabase, this, hall]
    rfl
  have hitems : CacheTree.collectItems
      (CacheTree.collectWithin .merged ((pairDatabase name).size + 2 + 1)) [] .merged
        (pairTree name).items (pairDatabase name) =
          (pairTable name, pairDatabase name, .ok (pairNodes name)) := by
    simp only [pairTree, CacheTree.collectItems, if_pos]
    rw [collectWithin_fileTree (hget _ (by simp)) (by decide)]
    simp only
    rw [collectWithin_fileTree (hget _ (by simp)) (by decide)]
    rfl
  rw [CacheTree.collect, hnesting]
  exact CacheTree.collectWithin_of_get? (hget _ (by simp)) (by simpa [pairTree] using ⟨by decide, hnul⟩)
    hitems

/-- An index as it is when the two subdirectories have been read. -/
def pairIndex (name : Bytes) : Index :=
  { new [] .standard with
    table := pairTable name
    cache := .node [] (some ⟨2, (pairTree name).id⟩) (pairNodes name) }

/-- Reading the two subdirectories gives this index, if their names and their entries are in order. -/
theorem readTree_pairTree {name : Bytes} (hnul : Bytes.nul ∉ name)
    (hn : Object.NoCollisions (pairObjects name)) (hnull : ∀ o ∈ pairObjects name, o.id ≠ .null)
    (hle : (compare [0x78] name).isLE = true)
    (ht : Table.normalize .reject (pairTable name) = .ok (pairTable name)) :
    ((new [] .standard).readTree (pairTree name).id (pairDatabase name)).1 = .ok (pairIndex name) := by
  have hsort : CacheTree.sortByName (pairNodes name) = pairNodes name :=
    List.mergeSort_of_pairwise (by simpa [pairNodes] using hle)
  rw [readTree, collect_pairTree hnul hn hnull, hsort]
  simp only [ht]
  rfl

/-- With `x` and `y` all nodes are well-formed, and each of the two counts its one entry. -/
theorem wellFormed_pairIndex :
    (pairIndex [0x79]).cache.All (WellFormed (pairIndex [0x79]).table) [] := by
  have hchild : ∀ (name : Bytes) (id : ObjectId),
      ((pairTable [0x79]).beginning (Bytes.below [] name)).length = 1 →
        WellFormed (pairTable [0x79]) (Bytes.below [] name) (.node name (some ⟨1, id⟩) []) := by
    intro name id hcount
    exact {
      sorted := List.Pairwise.nil
      delimited := by simp
      counted := fun _ k hk => by
        cases hk
        exact hcount.symm
      named := by simp [CacheTree.Named] }
  have hsorted : compare ([0x78] : Bytes) [0x79] = .lt := by decide
  have hdelimited : CacheTree.Delimited [0x78] ∧ CacheTree.Delimited [0x79] := by
    simp [CacheTree.Delimited, Bytes.slash, Bytes.nul]
  have hroot : WellFormed (pairTable [0x79]) [] (pairIndex [0x79]).cache := {
    sorted := by simpa [CacheTree.SiblingsSorted, pairIndex, pairNodes] using hsorted
    delimited := by simpa [pairIndex, pairNodes] using hdelimited
    counted := fun _ k hk => by
      cases hk
      decide
    named := by simp [CacheTree.Named, pairIndex, pairNodes] }
  exact ⟨hroot, ⟨hchild _ _ (by decide), trivial⟩, ⟨hchild _ _ (by decide), trivial⟩, trivial⟩

/-- So the listings that were read are nestable, and the cache tree passes. -/
theorem wellFormed_iff_of_readTree_pair :
    ((new [] .standard).readTree (pairTree [0x79]).id (pairDatabase [0x79])).1 =
        .ok (pairIndex [0x79]) ∧
      (∀ o ∈ ((new [] .standard).readTree (pairTree [0x79]).id
          (Recorded.start (pairDatabase [0x79]))).2.fetched, ∀ tree, Tree.ofObject o = .ok tree →
            tree.Nestable) ∧
      (pairIndex [0x79]).Passes := by
  have hread : ((new [] .standard).readTree (pairTree [0x79]).id (pairDatabase [0x79])).1 =
      .ok (pairIndex [0x79]) :=
    readTree_pairTree (by decide) (by decide +kernel) (by decide +kernel) (by decide) (by cbv)
  have hbody : (pairIndex [0x79]).cache.body.length < 2 ^ 32 := by
    simp only [pairIndex, pairNodes, CacheTree.body, CacheTree.bodies, CacheTree.header,
      List.length_append, List.length_cons, ObjectId.length_bytes]
    cbv
  obtain ⟨-, hiff, hpasses⟩ := wellFormed_iff_of_readTree hread
  exact ⟨hread, hiff.1 wellFormed_pairIndex, hpasses wellFormed_pairIndex (by decide) hbody⟩

/-- With `x` listed twice the entries are accepted as well, but the cache tree that is read has the
same name twice among the subdirectories of the root, and each of them counts one of two entries. -/
theorem readTree_twice :
    ((new [] .standard).readTree (pairTree [0x78]).id (pairDatabase [0x78])).1 =
        .ok (pairIndex [0x78]) ∧
      ¬ CacheTree.SiblingsSorted (pairIndex [0x78]).cache ∧
      (pairIndex [0x78]).cache.verify (pairIndex [0x78]).table =
        .error (.corruptCacheTree (.wrongCount [0x78] 1 2)) := by
  refine ⟨readTree_pairTree (by decide) (by decide +kernel) (by decide +kernel) (by decide) (by cbv), ?_, ?_⟩
  · simp [CacheTree.SiblingsSorted, pairIndex, pairNodes]
  · rw [pairIndex, pairNodes]
    generalize (fileTree [0x61]).id = p
    generalize (fileTree [0x62]).id = q
    generalize (pairTree [0x78]).id = r
    cbv

end Index

end StagingIndex
