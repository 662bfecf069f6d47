import Mathlib
import StagingIndex.Index
import StagingIndex.Proofs.ForgottenDirectories

/-! # Replacing a table

When a table is replaced, the old and the new one are compared entry by entry in the order of their
keys. The paths that are named are those of the keys at which the two show different contents, each
key once; so a directory stays known just when its entries have the contents they had.

* `Table.contentAt` — what a table shows at a key
* `Table.exists_changedKeys` — the keys at which two tables differ
* `Table.sameContents_iff` — below a directory nothing differs if no path that is named is below it
* `Index.knows_replaceTable` — what is known after replacing a table -/

namespace StagingIndex

namespace Table

/-! ## Keys -/

/-- The content that a table has at a key, if it has an entry there. -/
def contentAt (t : Table) (k : EntryKey) : Option EntryContent :=
  (t.find? fun e => e.key = k).map Entry.content

variable {t u old new : Table} {k : EntryKey} {base : Bytes}

@[simp] theorem contentAt_nil (k : EntryKey) : contentAt [] k = none := rfl

/-- The first entry is the one at its key. -/
theorem contentAt_cons (e : Entry) (t : List Entry) (k : EntryKey) :
    contentAt (e :: t) k = if e.key = k then some e.content else contentAt t k := by
  by_cases h : e.key = k <;> simp [contentAt, h]

/-- A table has content at the keys of its entries. -/
theorem contentAt_ne_none_iff : contentAt t k ≠ none ↔ k ∈ t.map Entry.key := by
  simp [contentAt]

/-- There is nothing at a key that comes before all entries. -/
theorem contentAt_of_lt (h : ∀ e ∈ t, compare k e.key = .lt) : contentAt t k = none := by
  by_contra hne
  obtain ⟨e, he, rfl⟩ := List.mem_map.1 (contentAt_ne_none_iff.1 hne)
  simpa using h e he

/-- After the first entry of a sorted table there is nothing at its key. -/
theorem IsSorted.contentAt_tail {e : Entry} (h : IsSorted (e :: t)) : contentAt t e.key = none :=
  contentAt_of_lt (List.pairwise_cons.1 h).1

/-- In a sorted table that starts after a key there is nothing at the key. -/
theorem IsSorted.contentAt_of_lt_head {e : Entry} (h : IsSorted (e :: t))
    (hk : compare k e.key = .lt) : contentAt (e :: t) k = none := by
  refine contentAt_of_lt (List.forall_mem_cons.2 ⟨hk, fun f hf => ?_⟩)
  exact Std.TransCmp.lt_trans hk ((List.pairwise_cons.1 h).1 f hf)

/-- Below a directory the contents are those of the whole table. -/
theorem contentAt_beginning (hb : k.path.beginsWith base = true) :
    contentAt (t.beginning base) k = contentAt t k := by
  rw [contentAt, beginning, List.find?_filter, contentAt]
  congr 2
  funext e
  by_cases h : e.key = k
  · subst h
    simpa [Entry.key] using hb
  · simp [h]

/-- Tables with the same contents have the same content at each key. -/
theorem SameContents.contentAt_eq (h : SameContents t u) (k : EntryKey) :
    contentAt t k = contentAt u k := by
  have hmap : ∀ t : List Entry, contentAt t k =
      (t.map Entry.content).find? fun c => decide ((⟨c.path, c.stage⟩ : EntryKey) = k) := by
    intro t
    rw [List.find?_map]
    rfl
  rw [hmap, hmap, h]

/-! ## Differences -/

/-- The paths that are named when two sorted tables are compared are those of the keys at which they
have different contents, each key once. -/
theorem exists_changedKeys (ho : IsSorted old) (hn : IsSorted new) :
    ∃ keys : List EntryKey, keys.Nodup ∧ keys.map EntryKey.path = CacheTree.changedPaths old new ∧
      ∀ k, k ∈ keys ↔ contentAt old k ≠ contentAt new k := by
  fun_induction CacheTree.changedPaths old new with
  | case1 new =>
    refine ⟨new.map Entry.key, hn.nodup_key, by simp [Entry.key], fun k => ?_⟩
    rw [contentAt_nil, ← contentAt_ne_none_iff, ne_comm]
  | case2 old _ =>
    refine ⟨old.map Entry.key, ho.nodup_key, by simp [Entry.key], fun k => ?_⟩
    rw [contentAt_nil, ← contentAt_ne_none_iff]
  | case3 a old b new hc ih =>
    -- The key of `a` is in the old table alone.
    obtain ⟨keys, hnodup, hpaths, hkeys⟩ := ih ho.of_cons hn
    have hnew := hn.contentAt_of_lt_head hc
    refine ⟨a.key :: keys, List.nodup_cons.2 ⟨?_, hnodup⟩, by rw [List.map_cons, hpaths]; rfl, ?_⟩
    · rw [hkeys, ho.contentAt_tail, hnew]
      simp
    · intro k
      rw [List.mem_cons, hkeys, contentAt_cons a]
      by_cases hk : a.key = k
      · subst hk
        simp [hnew]
      · simp [hk, Ne.symm hk]
  | case4 a old b new hc ih =>
    -- The key of `b` is in the new table alone.
    obtain ⟨keys, hnodup, hpaths, hkeys⟩ := ih ho hn.of_cons
    have hold := ho.contentAt_of_lt_head (Std.OrientedCmp.gt_iff_lt.1 hc)
    refine ⟨b.key :: keys, List.nodup_cons.2 ⟨?_, hnodup⟩, by rw [List.map_cons, hpaths]; rfl, ?_⟩
    · rw [hkeys, hn.contentAt_tail, hold]
      simp
    · intro k
      rw [List.mem_cons, hkeys, contentAt_cons b]
      by_cases hk : b.key = k
      · subst hk
        simp [hold]
      · simp [hk, Ne.symm hk]
  | case5 a old b new hc hs ih =>
    -- The same key with the same content is not named.
    obtain ⟨keys, hnodup, hpaths, hkeys⟩ := ih ho.of_cons hn.of_cons
    have hk : a.key = b.key := Std.LawfulEqOrd.eq_of_compare hc
    refine ⟨keys, hnodup, hpaths, fun k => ?_⟩
    rw [hkeys, contentAt_cons a, contentAt_cons b, hk]
    have hold := ho.contentAt_tail
    rw [hk] at hold
    by_cases hbk : b.key = k
    · subst hbk
      simp [hold, hn.contentAt_tail, Entry.sameContent_iff.1 hs]
    · simp [hbk]
  | case6 a old b new hc hs ih =>
    -- The same key with another content.
    obtain ⟨keys, hnodup, hpaths, hkeys⟩ := ih ho.of_cons hn.of_cons
    have hk : a.key = b.key := Std.LawfulEqOrd.eq_of_compare hc
    refine ⟨b.key :: keys, List.nodup_cons.2 ⟨?_, hnodup⟩, by rw [List.map_cons, hpaths]; rfl, ?_⟩
    · rw [hkeys, hn.contentAt_tail, ← hk, ho.contentAt_tail]
      simp
    · intro k
      rw [List.mem_cons, hkeys, contentAt_cons a, contentAt_cons b, hk]
      by_cases hbk : b.key = k
      · subst hbk
        simpa using fun h => hs (Entry.sameContent_iff.2 h)
      · simp [hbk, Ne.symm hbk]

/-- The differences between two sorted tables are counted right. -/
theorem changeCount_eq (ho : IsSorted old) (hn : IsSorted new) :
    CacheTree.changeCount old new = {k | contentAt old k ≠ contentAt new k}.ncard := by
  obtain ⟨keys, hnodup, hpaths, hkeys⟩ := exists_changedKeys ho hn
  have hset : {k | contentAt old k ≠ contentAt new k} = (keys.toFinset : Set EntryKey) := by
    ext k
    simp [hkeys]
  rw [hset, Set.ncard_coe_finset, List.toFinset_card_of_nodup hnodup, CacheTree.changeCount, ← hpaths,
    List.length_map]

/-- Below a directory two sorted tables have the same contents if no path that is named is below it. -/
theorem sameContents_iff (ho : IsSorted old) (hn : IsSorted new) :
    SameContents (beginning old base) (beginning new base) ↔
      ∀ p ∈ CacheTree.changedPaths old new, p.beginsWith base = false := by
  refine ⟨fun h p hp => ?_, sameContents_of_changedPaths⟩
  obtain ⟨keys, -, hpaths, hkeys⟩ := exists_changedKeys ho hn
  rw [← hpaths, List.mem_map] at hp
  obtain ⟨k, hk, rfl⟩ := hp
  rw [← Bool.not_eq_true]
  intro hb
  -- At the key both have what they have below the directory.
  refine (hkeys k).1 hk ?_
  rw [← contentAt_beginning hb, h.contentAt_eq, contentAt_beginning hb]

end Table

/-! ## The cache tree -/

namespace Index

/-- When a table is replaced, a directory is known afterwards just if it was known before, and then to
be the same, and its entries agree with the old ones in path, stage, mode, object and whether they are
only meant to be added. The same names lead to nodes as before, siblings stay in order, and what is
counted is the number of keys that are in one table alone or have different contents. -/
theorem knows_replaceTable {ix : Index} {new : Table} (ho : ix.table.Invariant)
    (hn : new.Invariant) (hs : ix.InOrder) :
    (∀ dir k, (ix.replaceTable new).cache.Knows dir k ↔
      ix.cache.Knows dir k ∧
        Table.SameContents (ix.table.beginning (Bytes.asBase dir))
          (new.beginning (Bytes.asBase dir))) ∧
      (∀ names, (ix.replaceTable new).cache.HasNode names ↔ ix.cache.HasNode names) ∧
      (ix.replaceTable new).InOrder ∧
      CacheTree.changeCount ix.table new =
        {k | Table.contentAt ix.table k ≠ Table.contentAt new k}.ncard := by
  have hvalid : ∀ p ∈ CacheTree.changedPaths ix.table new, Path.IsValid p := fun p hp =>
    ho.isValid_of_mem_changedPaths hn hp
  refine ⟨fun dir k => ?_, fun names => ?_, ?_, Table.changeCount_eq ho.sorted hn.sorted⟩
  · rw [Table.sameContents_iff ho.sorted hn.sorted]
    exact CacheTree.knows_invalidateAll hvalid hs
  · exact CacheTree.hasNode_invalidateAll hs
  · exact CacheTree.all_invalidateAll CacheTree.siblingsSorted_kept hs _

/-- Files `a/x` and `b/y`, with everything known of both directories. -/
def twoDirectories : Index where
  path := []
  version := .v2
  table := [.bare [0x61, 0x2f, 0x78] .merged .regular .null,
    .bare [0x62, 0x2f, 0x79] .merged .regular .null]
  cache := .node [] (some ⟨2, .null⟩)
    [.node [0x61] (some ⟨1, .null⟩) [], .node [0x62] (some ⟨1, .null⟩) []]
  snapshot := none
  settings := .standard

theorem twoDirectories_invariant : twoDirectories.table.Invariant := by
  have h : Table.normalize .reject twoDirectories.table = .ok twoDirectories.table := by cbv
  exact Table.normalize_invariant h

theorem twoDirectories_inOrder : twoDirectories.InOrder := by
  simp [InOrder, twoDirectories, CacheTree.All, CacheTree.AllBelow, CacheTree.SiblingsSorted]
  decide

theorem knows_twoDirectories : twoDirectories.cache.Knows [0x61] ⟨1, .null⟩ :=
  ⟨.node [0x61] (some ⟨1, .null⟩) [], by cbv, rfl⟩

/-- A file `b` in the place of the directory, and `a/x` of another size. -/
def fileForDirectory : Table :=
  [{ Entry.bare [0x61, 0x2f, 0x78] .merged .regular .null with size := 1 },
    .bare [0x62] .merged .regular .null]

/-- When the directory `b` becomes a file, `a` stays known and the root is forgotten; two keys
differ. -/
theorem knows_replaceTable_fileForDirectory :
    twoDirectories.table.Invariant ∧ fileForDirectory.Invariant ∧ twoDirectories.InOrder ∧
      (twoDirectories.replaceTable fileForDirectory).cache.Knows [0x61] ⟨1, .null⟩ ∧
      (∀ k, ¬ (twoDirectories.replaceTable fileForDirectory).cache.Knows [] k) ∧
      {k | Table.contentAt twoDirectories.table k ≠ Table.contentAt fileForDirectory k}.ncard = 2 := by
  have hn : fileForDirectory.Invariant := by
    have h : Table.normalize .reject fileForDirectory = .ok fileForDirectory := by cbv
    exact Table.normalize_invariant h
  obtain ⟨hknows, -, -, hcount⟩ :=
    knows_replaceTable twoDirectories_invariant hn twoDirectories_inOrder
  refine ⟨twoDirectories_invariant, hn, twoDirectories_inOrder,
    (hknows _ _).2 ⟨knows_twoDirectories, by decide⟩, fun k hk => ?_, ?_⟩
  · have := ((hknows [] k).1 hk).2
    revert this
    decide
  · rw [← hcount]
    cbv

end Index

end StagingIndex
