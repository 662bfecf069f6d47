import Mathlib
import StagingIndex.CacheTree.Collect
import StagingIndex.Proofs.CachedRuns
import StagingIndex.Proofs.StoredTrees

/-! # Stored trees are read back as the table

What a database in memory has stored under a name it gives for that name, whatever is written later.
So the trees that materializing a table has stored are there when they are read, and reading walks
through the directories as materializing did: it finds the same files, with their whole paths, in the
order of the table.

* `MemoryDatabase.get?_writeAll` — what a database in memory gives
* `Object.NoCollisions` — different objects have different names
* `Table.committed` — what trees keep of a table
* `Table.Listed.collectItems_eq` — the items of a directory are read as the entries below it
* `Table.Listed.exists_kept` — what trees keep of a table is listed as the table is
* `Index.readTree_writeTree` — a materialized table is read back, and makes the same tree again -/

namespace StagingIndex

/-! ## Databases in memory -/

/-- Objects of which no two have the same name. -/
def Object.NoCollisions (os : List Object) : Prop := ∀ a ∈ os, ∀ b ∈ os, a.id = b.id → a = b

instance (os : List Object) : Decidable (Object.NoCollisions os) :=
  inferInstanceAs (Decidable (∀ a ∈ os, ∀ b ∈ os, a.id = b.id → a = b))

namespace MemoryDatabase

variable {d : MemoryDatabase} {os : List Object}

/-- Store objects one after another. -/
def writeAll (os : List Object) (d : MemoryDatabase) : MemoryDatabase :=
  os.foldl (fun d o => (d.write o).2) d

@[simp] theorem writeAll_cons (o : Object) (os : List Object) (d : MemoryDatabase) :
    d.writeAll (o :: os) = (d.write o).2.writeAll os := rfl

@[simp] theorem writeAll_append (os more : List Object) (d : MemoryDatabase) :
    d.writeAll (os ++ more) = (d.writeAll os).writeAll more := List.foldl_append

/-- An object that is stored can be had, unless there was one of its name before. -/
theorem get?_write (o : Object) (d : MemoryDatabase) {id : ObjectId} (hid : id ≠ .null) :
    (d.write o).2.get? id = (d.get? id).or (if o.id = id then some o else none) := by
  by_cases hnull : o.id = .null
  · have hne : o.id ≠ id := fun h => hid (h ▸ hnull)
    rw [write_of_null hnull, if_neg hne, Option.or_none]
  · have hobjects : (d.write o).2.objects =
        if (d.get? o.id).isSome then d.objects else d.objects ++ [(o.id, o)] := by
      rw [write_of_ne hnull]
      rfl
    rw [get?, hobjects]
    split
    · rename_i hsome
      by_cases hid : o.id = id
      · obtain ⟨a, ha⟩ := Option.isSome_iff_exists.1 (hid ▸ hsome)
        rw [ha]
        exact ha
      · rw [if_neg hid, Option.or_none]
        rfl
    · rw [List.lookup_append]
      by_cases hid : o.id = id
      · simp [get?, hid]
      · have hne : (id == o.id) = false := beq_eq_false_iff_ne.2 (Ne.symm hid)
        simp [get?, hid, List.lookup_cons, hne]

/-- Of objects that are stored the first one of a name can be had, unless there was one before. -/
theorem get?_writeAll (os : List Object) (d : MemoryDatabase) {id : ObjectId} (hid : id ≠ .null) :
    (d.writeAll os).get? id = (d.get? id).or (os.find? (·.id = id)) := by
  induction os generalizing d with
  | nil => simp [writeAll]
  | cons o os ih =>
    rw [writeAll_cons, ih, get?_write o d hid, Option.or_assoc]
    by_cases hid : o.id = id
    · simp [hid]
    · simp [hid]

/-- Every object that is stored is counted. -/
theorem writes_writeAll (os : List Object) (d : MemoryDatabase) :
    (d.writeAll os).writes = d.writes + os.countP fun o => o.id ≠ .null := by
  induction os generalizing d with
  | nil => rfl
  | cons o os ih =>
    rw [writeAll_cons, ih, List.countP_cons]
    by_cases hnull : o.id = .null
    · simp [write_of_null hnull, hnull]
    · simp only [write_of_ne hnull, hnull, ne_eq, not_false_eq_true, decide_true, if_true]
      omega

/-- Objects of different names can be had once they are stored, whatever is stored after them. -/
theorem get?_of_noCollisions (h : Object.NoCollisions os) {o : Object} (ho : o ∈ os)
    (hnull : o.id ≠ .null) (more : List Object) :
    (empty.writeAll (os ++ more)).get? o.id = some o := by
  have hnone : empty.get? o.id = none := rfl
  rw [get?_writeAll _ _ hnull, hnone, Option.none_or, List.find?_append]
  -- The first object of the name is the one itself.
  cases hf : os.find? (·.id = o.id) with
  | none =>
    have := List.find?_eq_none.1 hf o ho
    simp at this
  | some a =>
    have hid : a.id = o.id := by simpa using List.find?_some hf
    rw [h a (List.mem_of_find?_eq_some hf) o ho hid, Option.some_or]

/-- To store listings is to store the objects that hold them. -/
theorem insertAll_eq (trees : List Tree) (d : MemoryDatabase) :
    insertAll trees d = d.writeAll (trees.map Tree.toObject) := by
  induction trees generalizing d with
  | nil => rfl
  | cons t trees ih => exact ih _

end MemoryDatabase

/-- There is nothing to put into order. -/
@[simp] theorem Tree.ofList_nil : Tree.ofList [] = Tree.empty := by
  simp [ofList, empty]

/-- A database that has stored listings takes trees to be as deep as there are listings. -/
theorem MemoryDatabase.length_le_nesting {trees : List Tree} (hn : ∀ t ∈ trees, t.id ≠ .null)
    (d : MemoryDatabase) (after : List Object) :
    trees.length ≤ ObjectDatabase.nesting ((insertAll trees d).writeAll after) := by
  rw [insertAll_eq]
  have h₁ := writes_writeAll after (d.writeAll (trees.map Tree.toObject))
  have h₂ := writes_writeAll (trees.map Tree.toObject) d
  have hall : (trees.map Tree.toObject).countP (fun o => o.id ≠ .null) = trees.length := by
    rw [List.countP_map, List.countP_eq_length]
    exact fun t ht => decide_eq_true (hn t ht)
  change _ ≤ MemoryDatabase.size _ + MemoryDatabase.writes _
  omega

/-- A listing whose object is that of the empty one has no items. -/
theorem Tree.eq_empty_of_toObject {t : Tree} (h : t.toObject = Tree.empty.toObject) :
    t = Tree.empty := by
  have hbytes : t.items.flatMap TreeItem.bytes = [] := congrArg Object.data h
  cases t with
  | mk items =>
    cases items with
    | nil => rfl
    | cons item items =>
      rw [List.flatMap_cons, List.append_eq_nil_iff] at hbytes
      exact absurd hbytes.1 item.bytes_ne_nil

/-- A listing that a database in memory has is fetched, and its items are read. -/
theorem CacheTree.collectWithin_of_get? {d : MemoryDatabase} {t : Tree}
    (hget : d.get? t.id = some t.toObject) (hnul : ∀ item ∈ t.items, Bytes.nul ∉ item.name)
    {depth : Nat} {dir : Bytes} {es : List Entry} {children : List CacheTree}
    (hitems : collectItems (collectWithin .merged depth) dir .merged t.items d =
      (es, d, .ok children)) :
    collectWithin .merged (depth + 1) t.id dir d =
      (es, d, .ok (.node [] (some ⟨es.length, t.id⟩) (sortByName children))) := by
  have hfetch : ObjectDatabase.fetch t.id d = (.ok (some t.toObject), d) := by
    rw [← hget]
    rfl
  simp only [collectWithin, hfetch, Tree.ofObject_toObject hnul, hitems]
  rfl

/-! ## What trees keep -/

namespace Table

open CacheTree (fileItem subtreeItem collectItems collectWithin)

variable {base name : Bytes} {e : Entry} {es t : Table} {items : List TreeItem} {trees : List Tree}

/-- What trees keep of a table: of the entries that are not only meant to be added, the path, the mode
and the id. -/
def committed (t : Table) : Table :=
  (t.filter fun e => !e.flags.intentToAdd).map fun e => Entry.bare e.path .merged e.mode e.id

@[simp] theorem committed_append (t u : Table) : committed (t ++ u) = committed t ++ committed u := by
  simp [committed]

/-- What is kept was an entry. -/
theorem mem_committed {o : Entry} (h : o ∈ committed t) : ∃ e ∈ t, e.path = o.path := by
  obtain ⟨e, he, rfl⟩ := List.mem_map.1 h
  exact ⟨e, List.mem_of_mem_filter he, rfl⟩

/-- What is kept is merged. -/
theorem stage_of_mem_committed {o : Entry} (h : o ∈ committed t) : o.stage = .merged := by
  obtain ⟨e, -, rfl⟩ := List.mem_map.1 h
  rfl

/-- What is kept of a table in which all entries are merged is a table. -/
theorem Invariant.committed (h : Invariant t) (hs : Storable t) : Invariant t.committed where
  sorted := by
    refine List.pairwise_map.2 ((hs.ordered.sublist List.filter_sublist).imp ?_)
    intro a b hab
    exact EntryKey.compare_eq_lt_iff.2 (Or.inl hab)
  valid := by
    intro o ho
    obtain ⟨e, he, hp⟩ := mem_committed ho
    exact hp ▸ h.valid e he
  unmixed := fun _ _ b hb _ _ => stage_of_mem_committed hb
  separate := by
    intro a ha b hb
    obtain ⟨d, hd, hdp⟩ := mem_committed ha
    obtain ⟨e, he, hep⟩ := mem_committed hb
    rw [← hdp, ← hep]
    exact h.separate d hd e he

/-- The entries below a subdirectory are listed as one item before what follows them. -/
theorem listing_append {inside rest : Table} (hn : Bytes.slash ∉ name) (hne : inside ≠ [])
    (hin : ∀ e ∈ inside, e.path.beginsWith (Bytes.below base name) = true)
    (hout : ∀ e ∈ rest, e.path.beginsWith (Bytes.below base name) = false) :
    listing base (inside ++ rest) =
      subtreeItem name (exact (Bytes.below base name) inside) ++ listing base rest := by
  obtain ⟨e, inner, rfl⟩ := List.exists_cons_of_ne_nil hne
  obtain ⟨r, hr⟩ := Bytes.beginsWith_below_iff.1 (hin e List.mem_cons_self)
  have htake : (rest.takeWhile fun o => o.path.beginsWith (Bytes.below base name)) = [] := by
    cases rest with
    | nil => rfl
    | cons o rest => simp [hout o]
  have hdrop : (rest.dropWhile fun o => o.path.beginsWith (Bytes.below base name)) = rest := by
    cases rest with
    | nil => rfl
    | cons o rest => simp [hout o]
  rw [List.cons_append, listing_subtree (Bytes.afterPrefix?_eq_some_iff.2 hr) hn,
    ← List.cons_append, List.takeWhile_append_of_pos hin, htake, List.append_nil,
    List.dropWhile_append_of_pos fun o ho => hin o (List.mem_cons_of_mem _ ho), hdrop]

/-- What lists the entries below a directory is made by them. -/
theorem Listed.listing_eq (h : Listed base es items trees) : listing base es = items := by
  induction h with
  | nil => exact listing_nil _
  | file hp hn _ ih =>
    rw [listing_file (Bytes.afterPrefix?_eq_some_iff.2 hp) (Bytes.splitAt?_eq_none_iff.2 hn), ih]
  | subtree hn hne hin hout _ _ ih₁ ih₂ =>
    rw [listing_append hn hne hin hout, exact, ih₁, ih₂]

/-- What is kept of a table is listed as the table is, with no other listings: a directory in which
nothing is kept is listed in neither. -/
theorem Listed.exists_kept (h : Listed base es items trees) :
    ∃ kept, Listed base (committed es) items kept ∧ kept ⊆ trees := by
  induction h with
  | nil => exact ⟨[], .nil, List.Subset.refl _⟩
  | @file base name e es items trees hp hn _ ih =>
    obtain ⟨kept, hkept, hsub⟩ := ih
    refine ⟨kept, ?_, hsub⟩
    rw [fileItem]
    by_cases hi : e.flags.intentToAdd = true
    · simpa [committed, hi] using hkept
    · have hcons : committed (e :: es) =
          Entry.bare e.path .merged e.mode e.id :: committed es := by
        simp [committed, hi]
      rw [if_neg hi, hcons]
      exact @Listed.file base name (Entry.bare e.path .merged e.mode e.id) _ _ _ hp hn hkept
  | @subtree base name inside rest items₁ items₂ trees₁ trees₂ hn _ hin hout _ _ ih₁ ih₂ =>
    obtain ⟨kept₁, h₁, hsub₁⟩ := ih₁
    obtain ⟨kept₂, h₂, hsub₂⟩ := ih₂
    have hin' : ∀ o ∈ committed inside, o.path.beginsWith (Bytes.below base name) = true := by
      intro o ho
      obtain ⟨e, he, hp⟩ := mem_committed ho
      exact hp ▸ hin e he
    have hout' : ∀ o ∈ committed rest, o.path.beginsWith (Bytes.below base name) = false := by
      intro o ho
      obtain ⟨e, he, hp⟩ := mem_committed ho
      exact hp ▸ hout e he
    rw [committed_append]
    by_cases hnone : committed inside = []
    · have hitems : items₁ = [] := by
        rw [hnone] at h₁
        exact h₁.listing_eq.symm.trans (listing_nil _)
      rw [hnone, hitems, Tree.ofList_nil, subtreeItem, if_pos rfl]
      exact ⟨kept₂, h₂, fun t ht => by simp [hsub₂ ht]⟩
    · refine ⟨_, .subtree hn hnone hin' hout' h₁ h₂, ?_⟩
      exact List.append_subset.2 ⟨fun t ht => List.mem_append_left _ (hsub₁ ht),
        fun t ht => List.mem_append_right _ (List.cons_subset_cons _ hsub₂ ht)⟩

/-! ## Reading -/

/-- The listings can be had from a database, and the empty one is the only one of its name. -/
structure Stored (trees : List Tree) (d : MemoryDatabase) : Prop where
  get?_eq : ∀ t ∈ trees, d.get? t.id = some t.toObject
  eq_empty : ∀ t ∈ trees, t.id = Tree.empty.id → t = Tree.empty

/-- Some listings of those that are stored. -/
theorem Stored.subset {d : MemoryDatabase} {more : List Tree} (h : Stored trees d)
    (hs : more ⊆ trees) : Stored more d where
  get?_eq := fun t ht => h.get?_eq t (hs ht)
  eq_empty := fun t ht => h.eq_empty t (hs ht)

/-- A subdirectory with paths below it has a name. -/
theorem Storable.name_ne_nil (hes : Storable es) (hne : es ≠ [])
    (hin : ∀ e ∈ es, e.path.beginsWith (Bytes.below base name) = true) (hb : Bytes.IsBase base)
    (hn : Bytes.slash ∉ name) : name ≠ [] := by
  obtain ⟨e, he⟩ := List.exists_mem_of_ne_nil es hne
  obtain ⟨rest, hrest⟩ := Bytes.beginsWith_below_iff.1 (hin e he)
  exact ((hrest ▸ hes.valid e he).name hb hn).1

/-- A stored listing is fetched, and its items are read. -/
theorem Listed.collectWithin_eq (h : Listed base es items trees) (hes : Storable es)
    {d : MemoryDatabase}
    (hget : d.get? (Tree.ofList items).id = some (Tree.ofList items).toObject) {depth : Nat}
    {dir : Bytes} {children : List CacheTree}
    (hitems : collectItems (collectWithin .merged depth) dir .merged items d =
      (committed es, d, .ok children)) :
    collectWithin .merged (depth + 1) (Tree.ofList items).id dir d =
      (committed es, d, .ok (.node [] (some ⟨(committed es).length, (Tree.ofList items).id⟩)
        (CacheTree.sortByName children))) := by
  rw [h.ofList_eq hes] at hget ⊢
  exact CacheTree.collectWithin_of_get? hget (h.nul_notMem hes) hitems

/-- The items of a directory of which all listings are stored are read as the entries below it, of
which only what trees keep is left. As deep as the listings are nested, one of them is stored for each
level. -/
theorem Listed.collectItems_eq (h : Listed base es items trees) (hes : Storable es)
    {d : MemoryDatabase} (hd : Stored trees d) (depth : Nat) (hdepth : trees.length ≤ depth)
    (dir : Bytes) (hdir : Bytes.asBase dir = base) :
    ∃ children, collectItems (collectWithin .merged depth) dir .merged items d =
      (committed es, d, .ok children) := by
  induction h generalizing depth dir with
  | nil => exact ⟨[], rfl⟩
  | @file base name e es items trees hp hn _ ih =>
    obtain ⟨children, hchildren⟩ := ih (hes.sublist (List.sublist_cons_self e es)) hd depth hdepth dir
      hdir
    refine ⟨children, ?_⟩
    rw [fileItem]
    by_cases hi : e.flags.intentToAdd = true
    · simpa [committed, hi] using hchildren
    · have hpath : Bytes.join dir name = e.path := by
        rw [hp, ← hdir, Bytes.join_eq]
      rw [if_neg hi, List.singleton_append, collectItems, if_neg (hes.files e List.mem_cons_self),
        hchildren, hpath]
      simp [committed, hi]
  | @subtree base name inside rest items₁ items₂ trees₁ trees₂ hn hne hin hout hlisted₁ _ ih₁ ih₂ =>
    have hes₁ := hes.sublist (List.sublist_append_left inside rest)
    have hes₂ := hes.sublist (List.sublist_append_right inside rest)
    have hd₁ : Stored trees₁ d := hd.subset (List.subset_append_left _ _)
    have hd₂ : Stored trees₂ d := hd.subset fun t ht => by simp [ht]
    rw [List.length_append, List.length_cons] at hdepth
    obtain ⟨depth, rfl⟩ : ∃ n, depth = n + 1 := ⟨depth - 1, by omega⟩
    have hname := hes₁.name_ne_nil hne hin (hdir ▸ Bytes.isBase_asBase dir) hn
    have hbelow : Bytes.asBase (Bytes.join dir name) = Bytes.below base name := by
      rw [Bytes.asBase_join dir hname, hdir]
    obtain ⟨children₁, h₁⟩ := ih₁ hes₁ hd₁ depth (by omega) _ hbelow
    obtain ⟨children₂, h₂⟩ := ih₂ hes₂ hd₂ (depth + 1) (by omega) dir hdir
    rw [committed_append, subtreeItem]
    split
    · -- The subdirectory is not listed, so nothing of it was kept.
      rename_i hempty
      have hroot := hd.eq_empty (Tree.ofList items₁) (by simp) hempty
      obtain rfl : items₁ = [] := congrArg Tree.items ((hlisted₁.ofList_eq hes₁).symm.trans hroot)
      have hnone : committed inside = [] := (congrArg Prod.fst h₁).symm
      rw [hnone, List.nil_append, List.nil_append]
      exact ⟨children₂, h₂⟩
    · have hload := hlisted₁.collectWithin_eq hes₁ (hd.get?_eq _ (by simp)) h₁
      rw [List.singleton_append, collectItems, if_pos rfl, hload]
      simp only [h₂]
      exact ⟨_, rfl⟩

/-- What a database in memory has stored can be had later, if no two names are the same. -/
theorem stored_writeAll {before : List Object} (after : List Object)
    (hn : ∀ t ∈ trees, t.id ≠ .null)
    (h : Object.NoCollisions (Tree.empty.toObject :: before ++ trees.map Tree.toObject)) :
    Stored trees ((insertAll trees (MemoryDatabase.empty.writeAll before)).writeAll after) where
  get?_eq := by
    intro t ht
    have hobjects : Object.NoCollisions (before ++ trees.map Tree.toObject) :=
      fun a ha b hb => h a (List.mem_cons_of_mem _ ha) b (List.mem_cons_of_mem _ hb)
    have hget := MemoryDatabase.get?_of_noCollisions hobjects
      (List.mem_append_right _ (List.mem_map_of_mem ht)) (hn t ht) after
    rwa [MemoryDatabase.writeAll_append, MemoryDatabase.writeAll_append,
      ← MemoryDatabase.insertAll_eq] at hget
  eq_empty := by
    intro t ht hid
    refine Tree.eq_empty_of_toObject (h _ ?_ _ List.mem_cons_self hid)
    exact List.mem_append_right _ (List.mem_map_of_mem ht)

/-- The root of a table is read as what trees keep of it. -/
theorem Listed.collect_eq (h : Listed [] es items trees) (hes : Storable es) {d : MemoryDatabase}
    (hd : Stored (trees ++ [Tree.ofList items]) d)
    (hdepth : trees.length ≤ ObjectDatabase.nesting d) :
    ∃ root, CacheTree.collect .merged (Tree.ofList items).id [] d =
      (committed es, d, .ok root) := by
  obtain ⟨children, hchildren⟩ := h.collectItems_eq hes
    (hd.subset (List.subset_append_left _ _)) _ hdepth [] rfl
  exact ⟨_, h.collectWithin_eq hes (hd.get?_eq _ (by simp)) hchildren⟩

end Table

namespace Index

open Session (placeholder)

section
variable {ix : Index} {items : List TreeItem} {trees : List Tree}

/-- A table of which nothing is known is materialized if its listings are accepted. -/
theorem writeTree_of_listed {σ : Type} [ObjectDatabase σ] (h : Table.Listed [] ix.table items trees)
    (hm : ∀ e ∈ ix.table, e.stage = .merged) (hc : ix.cache = .empty)
    (hacc : Accepts σ (trees ++ [Tree.ofList items])) (s : σ) :
    ∃ cache, ix.writeTree s =
      ({ ix with cache }, insertAll (trees ++ [Tree.ofList items]) s, .ok (Tree.ofList items).id) := by
  obtain ⟨cache, hupdate⟩ := h.update_eq hm hacc s
  rw [writeTree, if_pos (Table.conflictPaths_eq_nil_iff.2 hm), hc, hupdate]
  exact ⟨cache, rfl⟩

/-- With a database in memory it is not if one of them has the name that stands for no object. -/
theorem writeTree_refused (h : Table.Listed [] ix.table items trees)
    (hm : ∀ e ∈ ix.table, e.stage = .merged) (hc : ix.cache = .empty)
    (hnull : ∃ t ∈ trees ++ [Tree.ofList items], t.id = .null) (d : MemoryDatabase) :
    (ix.writeTree d).2.2 = .error (.store .nullName) := by
  rw [writeTree, if_pos (Table.conflictPaths_eq_nil_iff.2 hm), hc]
  exact h.update_refused hm hnull d

end

/-- What is stored for a table is read as what trees keep of it, whatever is stored later. -/
theorem readTree_of_listed {t : Table} {items : List TreeItem} {trees : List Tree}
    (h : Table.Listed [] t items trees) (ht : t.Invariant) (hes : Table.Storable t)
    (hnamed : ∀ tree ∈ trees ++ [Tree.ofList items], tree.id ≠ .null) {before : List Object}
    (hn : Object.NoCollisions
      (Tree.empty.toObject :: before ++ (trees ++ [Tree.ofList items]).map Tree.toObject))
    {d : MemoryDatabase}
    (hd : d = insertAll (trees ++ [Tree.ofList items]) (MemoryDatabase.empty.writeAll before))
    (after : List Object) :
    ∃ root, CacheTree.collect .merged (Tree.ofList items).id [] (d.writeAll after) =
        (t.committed, d.writeAll after, .ok root) ∧
      ∀ other : Index, other.readTree (Tree.ofList items).id (d.writeAll after) =
        (.ok { other with table := t.committed, cache := root }, d.writeAll after) := by
  subst hd
  have hnesting := MemoryDatabase.length_le_nesting hnamed (MemoryDatabase.empty.writeAll before) after
  have hdepth := Nat.le_trans (List.sublist_append_left trees _).length_le hnesting
  obtain ⟨root, hroot⟩ := h.collect_eq hes (Table.stored_writeAll after hnamed hn) hdepth
  refine ⟨root, hroot, fun other => ?_⟩
  simp only [readTree, hroot, (ht.committed hes).normalize_eq]
  rfl

/-- Materializing a table of which nothing is known gives a name, unless one of the listings to be
stored has the name that stands for no object. Reading the tree of the name that it gives, whatever is
stored later, gives what trees keep of the table, in order. It becomes the table of any index that
reads the tree, and makes the same tree again. -/
theorem readTree_writeTree (ix : Index) (ht : ix.table.Invariant)
    (hm : ∀ e ∈ ix.table, e.stage = .merged) (hf : ∀ e ∈ ix.table, e.mode ≠ .directory)
    (hc : ix.cache = .empty) (before : List Object)
    (hn : Object.NoCollisions
      (Tree.empty.toObject :: before ++ ix.table.written.map Tree.toObject)) :
    (∀ fault, (ix.writeTree (MemoryDatabase.empty.writeAll before)).2.2 = .error fault ↔
      fault = .store .nullName ∧ ∃ t ∈ ix.table.written, t.id = .null) ∧
    ∀ id, (ix.writeTree (MemoryDatabase.empty.writeAll before)).2.2 = .ok id →
      ∃ cache d, ix.writeTree (MemoryDatabase.empty.writeAll before) = ({ ix with cache }, d, .ok id) ∧
        ix.table.committed.IsSorted ∧
        (∀ after, ∃ root,
          CacheTree.collect .merged id [] (d.writeAll after) =
            (ix.table.committed, d.writeAll after, .ok root) ∧
          ∀ other : Index, other.readTree id (d.writeAll after) =
            (.ok { other with table := ix.table.committed, cache := root }, d.writeAll after)) ∧
        (∀ (other : Index) (again : MemoryDatabase), other.table = ix.table.committed →
          other.cache = .empty → (other.writeTree again).2.2 = .ok id) ∧
        ∀ {σ : Type} [ObjectDatabase σ] [AcceptsListings σ] (other : Index) (s : σ),
          other.table = ix.table.committed → other.cache = .empty →
            (other.writeTree s).2.2 = .ok id := by
  have hes := ht.storable hm hf
  obtain ⟨trees, hlisted⟩ := Table.exists_listed [] ht.sorted (by simp)
  rw [hlisted.written_eq hm] at hn ⊢
  by_cases hnull : ∃ t ∈ trees ++ [Tree.ofList (Table.listing [] ix.table)], t.id = .null
  · rw [writeTree_refused hlisted hm hc hnull]
    refine ⟨fun fault => ⟨fun h => ⟨(Except.error.inj h).symm, hnull⟩, fun h => by rw [h.1]⟩, ?_⟩
    intro id hid
    cases hid
  · have hnamed : ∀ t ∈ trees ++ [Tree.ofList (Table.listing [] ix.table)], t.id ≠ .null :=
      fun t ht hid => hnull ⟨t, ht, hid⟩
    obtain ⟨cache, hwrite⟩ := writeTree_of_listed hlisted hm hc
      (MemoryDatabase.accepts_iff.2 hnamed) (MemoryDatabase.empty.writeAll before)
    rw [hwrite]
    refine ⟨fun fault => iff_of_false nofun fun h => hnull h.2, ?_⟩
    rintro _ ⟨⟩
    -- What is kept has the same listing of the root, and no listings that the table does not have.
    obtain ⟨kept, hkept, hsub⟩ := hlisted.exists_kept
    have hm' : ∀ e ∈ ix.table.committed, e.stage = .merged :=
      fun e he => Table.stage_of_mem_committed he
    have hagain : ∀ {σ : Type} [ObjectDatabase σ],
        Accepts σ (kept ++ [Tree.ofList (Table.listing [] ix.table)]) → ∀ (other : Index) (s : σ),
          other.table = ix.table.committed → other.cache = .empty →
            (other.writeTree s).2.2 = .ok (Tree.ofList (Table.listing [] ix.table)).id := by
      intro σ _ hacc other s htable hcache
      rw [← htable] at hkept hm'
      obtain ⟨cache', hwrite'⟩ := writeTree_of_listed hkept hm' hcache hacc s
      rw [hwrite']
    refine ⟨cache, _, rfl, (ht.committed hes).sorted, readTree_of_listed hlisted ht hes hnamed hn rfl,
      hagain (MemoryDatabase.accepts_iff.2 fun t ht => hnamed t ?_),
      hagain (accepts_of_acceptsListings _)⟩
    exact List.mem_append.2 ((List.mem_append.1 ht).imp_left fun h => hsub h)

/-- A file `a-`, below `a` a file `x` and one that is only meant to be added, and below `b` nothing
but such a file. -/
def partlyAdded : Index where
  __ := new [] .standard
  table := [placeholder [0x61, 0x2d] false, placeholder [0x61, 0x2f, 0x78] false,
    placeholder [0x61, 0x2f, 0x79] true, placeholder [0x62, 0x2f, 0x7a] true]

/-- The listings of `a`, of `b` and of the root have names of their own, beside the blob without
content, and none has the name that stands for no object. -/
theorem names_partlyAdded (ht : partlyAdded.table.Invariant)
    (hm : ∀ e ∈ partlyAdded.table, e.stage = .merged)
    (hf : ∀ e ∈ partlyAdded.table, e.mode ≠ .directory) :
    Object.NoCollisions
        (Tree.empty.toObject :: [.ofBlob []] ++ partlyAdded.table.written.map Tree.toObject) ∧
      ∀ t ∈ partlyAdded.table.written, t.id ≠ .null := by
  have hz := @Table.Listed.file (Bytes.below [] [0x62]) [0x7a] (placeholder [0x62, 0x2f, 0x7a] true)
    _ _ _ rfl (by decide) .nil
  have hy := @Table.Listed.file (Bytes.below [] [0x61]) [0x79] (placeholder [0x61, 0x2f, 0x79] true)
    _ _ _ rfl (by decide) .nil
  have hx := @Table.Listed.file (Bytes.below [] [0x61]) [0x78] (placeholder [0x61, 0x2f, 0x78] false)
    _ _ _ rfl (by decide) hy
  have hb := Table.Listed.subtree (by decide) (by simp) (by decide) (by decide) hz
    (@Table.Listed.nil [])
  have ha := Table.Listed.subtree (by decide) (by simp) (by decide) (by decide) hx hb
  have hroot := @Table.Listed.file [] [0x61, 0x2d] (placeholder [0x61, 0x2d] false) _ _ _ rfl
    (by decide) ha
  have hwritten : partlyAdded.table.written = _ := hroot.written_eq hm
  rw [hwritten, hroot.ofList_eq (ht.storable hm hf)]
  exact ⟨by decide +kernel, by decide +kernel⟩

/-- These files are materialized, and read back as the two that were added. -/
theorem readTree_writeTree_partlyAdded :
    partlyAdded.table.Invariant ∧ partlyAdded.cache = .empty ∧
      ∃ id cache d, partlyAdded.writeTree (MemoryDatabase.empty.writeAll [.ofBlob []]) =
          ({ partlyAdded with cache }, d, .ok id) ∧
        ∃ root, (new [] .standard).readTree id d =
          (.ok { new [] .standard with
            table := [Entry.bare [0x61, 0x2d] .merged .regular .null,
              Entry.bare [0x61, 0x2f, 0x78] .merged .regular .null]
            cache := root }, d) := by
  have hnormal : Table.normalize .reject partlyAdded.table = .ok partlyAdded.table := by cbv
  have ht := Table.normalize_invariant hnormal
  have hm : ∀ e ∈ partlyAdded.table, e.stage = .merged := by decide
  have hf : ∀ e ∈ partlyAdded.table, e.mode ≠ .directory := by decide
  obtain ⟨hn, hnamed⟩ := names_partlyAdded ht hm hf
  obtain ⟨hfails, hread⟩ := readTree_writeTree partlyAdded ht hm hf rfl [.ofBlob []] hn
  cases hr : (partlyAdded.writeTree (MemoryDatabase.empty.writeAll [.ofBlob []])).2.2 with
  | error fault =>
    obtain ⟨-, t, hwritten, hnull⟩ := (hfails fault).1 hr
    exact absurd hnull (hnamed t hwritten)
  | ok id =>
    obtain ⟨cache, d, hwrite, -, hroot, -⟩ := hread id hr
    obtain ⟨root, -, hroot⟩ := hroot []
    exact ⟨ht, rfl, id, cache, d, hwrite, root, hroot (new [] .standard)⟩

end Index

end StagingIndex
