import Mathlib
import StagingIndex.Proofs.Flattening
import StagingIndex.Proofs.IncrementalUpdate
import StagingIndex.Proofs.LatestEntries

/-! # Trees depend on what is committed

A tree lists paths, modes and ids of the entries that are not only meant to be added. Such entries may
make directories of their own, and these may be nested, but nothing of them comes into a listing: their
own listings come out empty. So tables that commit the same make the same tree of every directory,
whatever else is in them.

* `Table.Commits` — what counts for a tree
* `Table.committed_eq_iff` — the same is kept of tables that commit the same
* `Table.treeAt_congr` — directories of tables that commit the same make the same trees
* `CacheTree.update_eq_of_commits` — and so do the tables -/

namespace StagingIndex

namespace Table

variable {base path : Bytes} {mode : Mode} {id : ObjectId} {t u : Table} {o : Entry}

/-- The table has an entry with this content that is not only meant to be added. -/
def Commits (t : Table) (path : Bytes) (mode : Mode) (id : ObjectId) : Prop :=
  ∃ e ∈ t, e.flags.intentToAdd = false ∧ e.path = path ∧ e.mode = mode ∧ e.id = id

/-! ## What is kept -/

/-- What is kept of a table is what it commits, and nothing else. -/
theorem mem_committed_iff :
    o ∈ committed t ↔ ∃ path mode id, t.Commits path mode id ∧ o = Entry.bare path .merged mode id := by
  simp only [committed, List.mem_map, List.mem_filter, Bool.not_eq_eq_eq_not, Bool.not_true]
  constructor
  · rintro ⟨e, ⟨he, hi⟩, rfl⟩
    exact ⟨_, _, _, ⟨e, he, hi, rfl, rfl, rfl⟩, rfl⟩
  · rintro ⟨_, _, _, ⟨e, he, hi, rfl, rfl, rfl⟩, rfl⟩
    exact ⟨e, ⟨he, hi⟩, rfl⟩

/-- A path, a mode and an id are kept of a table that commits them. -/
theorem bare_mem_committed_iff : Entry.bare path .merged mode id ∈ committed t ↔ t.Commits path mode id := by
  rw [mem_committed_iff]
  constructor
  · rintro ⟨p, m, i, h, heq⟩
    obtain ⟨rfl, -, rfl, rfl, -⟩ := Entry.mk.inj heq
    exact h
  · exact fun h => ⟨_, _, _, h, rfl⟩

/-- What is kept of a table without conflicts is in the order of the table. -/
theorem IsSorted.committed (hs : IsSorted t) (hm : ∀ e ∈ t, e.stage = .merged) :
    IsSorted (committed t) := by
  have hkey : ∀ e ∈ t, (Entry.bare e.path .merged e.mode e.id).key = e.key := fun e he =>
    congrArg (EntryKey.mk e.path) (hm e he).symm
  refine List.pairwise_map.2 ((hs.sublist List.filter_sublist).imp_of_mem fun ha hb hab => ?_)
  rwa [hkey _ (List.mem_of_mem_filter ha), hkey _ (List.mem_of_mem_filter hb)]

/-- The same is kept of tables without conflicts just if they commit the same. -/
theorem committed_eq_iff (ht : IsSorted t) (hu : IsSorted u) (htm : ∀ e ∈ t, e.stage = .merged)
    (hum : ∀ e ∈ u, e.stage = .merged) :
    committed t = committed u ↔ ∀ path mode id, t.Commits path mode id ↔ u.Commits path mode id := by
  constructor
  · intro h path mode id
    rw [← bare_mem_committed_iff, ← bare_mem_committed_iff, h]
  · intro h
    refine eq_of_mem_iff (ht.committed htm) (hu.committed hum) fun o => ?_
    simp only [mem_committed_iff, h]

/-- What is kept of the entries below a directory is below it. -/
theorem committed_beginning (t : Table) (base : Bytes) :
    committed (t.beginning base) = (committed t).beginning base := by
  rw [committed, committed, beginning, beginning, List.filter_map, List.filter_filter,
    List.filter_filter]
  refine congrArg (List.map _) (List.filter_congr fun e _ => ?_)
  exact Bool.and_comm _ _

/-! ## Trees -/

/-- What is kept of the entries below a directory is listed as these are. -/
theorem listing_committed (hs : IsSorted t) (base : Bytes) :
    listing base (committed (t.beginning base)) = listing base (t.beginning base) := by
  obtain ⟨trees, h⟩ := exists_listed base (hs.sublist List.filter_sublist : IsSorted (t.beginning base))
    fun e he => (mem_beginning.1 he).2
  obtain ⟨kept, hkept, -⟩ := h.exists_kept
  exact hkept.listing_eq

/-- Each directory has the same tree in tables without conflicts that commit the same. -/
theorem treeAt_congr (ht : IsSorted t) (hu : IsSorted u) (htm : ∀ e ∈ t, e.stage = .merged)
    (hum : ∀ e ∈ u, e.stage = .merged)
    (h : ∀ path mode id, t.Commits path mode id ↔ u.Commits path mode id) (base : Bytes) :
    t.treeAt base = u.treeAt base := by
  have hkept : committed t = committed u := (committed_eq_iff ht hu htm hum).2 h
  rw [treeAt, treeAt, ← listing_committed ht, ← listing_committed hu, committed_beginning,
    committed_beginning, hkept]

end Table

namespace CacheTree

variable {T U : Table}

/-- Tables without conflicts that commit the same paths, modes and ids are materialized to the same
tree from an empty cache tree, with any databases that store all listings; and with a database that
may refuse some, either of them comes to this tree if it comes to any. -/
theorem update_eq_of_commits (hT : T.Invariant) (hU : U.Invariant) (hTm : ∀ e ∈ T, e.stage = .merged)
    (hUm : ∀ e ∈ U, e.stage = .merged)
    (h : ∀ path mode id, T.Commits path mode id ↔ U.Commits path mode id) :
    ∃ root, (∀ {σ : Type} [ObjectDatabase σ] [AcceptsListings σ] (s : σ),
        (empty.update T s).2.2 = .ok root ∧ (empty.update U s).2.2 = .ok root) ∧
      ∀ {σ : Type} [ObjectDatabase σ] [NamesListings σ] (s : σ) (id : ObjectId),
        (empty.update T s).2.2 = .ok id ∨ (empty.update U s).2.2 = .ok id → id = root := by
  have htree : T.treeAt [] = U.treeAt [] := Table.treeAt_congr hT.sorted hU.sorted hTm hUm h []
  refine ⟨(T.treeAt []).id, fun s => ⟨update_empty hT.sorted hTm s, ?_⟩, fun s id hid => ?_⟩
  · rw [htree]
    exact update_empty hU.sorted hUm s
  · rcases hid with hid | hid
    · exact eq_of_update_empty hT.sorted hid
    · rw [htree]
      exact eq_of_update_empty hU.sorted hid

open Session (placeholder)

/-- A file `a/x`, and below `b/c` one that is only meant to be added. -/
def addedBelow : Table :=
  [placeholder [0x61, 0x2f, 0x78] false, placeholder [0x62, 0x2f, 0x63, 0x2f, 0x79] true]

/-- The same file with a size, taken to be unchanged, and beside it one that is only meant to be
added. -/
def addedBeside : Table :=
  [{ placeholder [0x61, 0x2f, 0x78] false with size := 7, flags := ⟨true, false, false⟩ },
    placeholder [0x61, 0x2f, 0x7a] true]

/-- These tables are materialized to the same tree. -/
theorem update_eq_addedBeside :
    addedBelow.Invariant ∧ addedBeside.Invariant ∧
      (∀ path mode id, addedBelow.Commits path mode id ↔ addedBeside.Commits path mode id) ∧
      ∃ root, (empty.update addedBelow (TreeLog.mk [])).2.2 = .ok root ∧
        (empty.update addedBeside (TreeLog.mk [])).2.2 = .ok root := by
  have hT : Table.normalize .reject addedBelow = .ok addedBelow := by cbv
  have hU : Table.normalize .reject addedBeside = .ok addedBeside := by cbv
  have hT := Table.normalize_invariant hT
  have hU := Table.normalize_invariant hU
  have hTm : ∀ e ∈ addedBelow, e.stage = .merged := by decide
  have hUm : ∀ e ∈ addedBeside, e.stage = .merged := by decide
  have h := (Table.committed_eq_iff hT.sorted hU.sorted hTm hUm).1 rfl
  obtain ⟨root, hroot, -⟩ := update_eq_of_commits hT hU hTm hUm h
  exact ⟨hT, hU, h, root, hroot (TreeLog.mk [])⟩

end CacheTree

end StagingIndex
