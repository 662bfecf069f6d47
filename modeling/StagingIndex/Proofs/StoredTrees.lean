import Mathlib
import StagingIndex.Proofs.CacheCounts
import StagingIndex.Proofs.TreeCodec

/-! # What materializing stores

From an empty cache tree every directory is listed, and its listing is stored after those of its
subdirectories. A listing comes out in its order, because the paths of a table are in order: a file
counts as its name and a subdirectory as its name with a slash, and these are beginnings of paths.

* `Table.Listed` — the entries below a directory, with the items that list them and the listings of
  the subdirectories
* `Table.Listed.update_eq` — materializing stores these listings, and that of the root last
* `Table.Listed.update_refused` — or a database in memory refuses one of them, which has no name
* `Table.written` — the listings that are stored
* `Table.Listed.pairwise_sortKey` — the items are in order -/

namespace StagingIndex

variable {σ : Type} [ObjectDatabase σ]

/-- Store listings one after another. -/
def insertAll (trees : List Tree) (s : σ) : σ :=
  trees.foldl (fun s t => (ObjectDatabase.insertTree t s).2) s

@[simp] theorem insertAll_cons (t : Tree) (more : List Tree) (s : σ) :
    insertAll (t :: more) s = insertAll more (ObjectDatabase.insertTree t s).2 := rfl

@[simp] theorem insertAll_append (trees more : List Tree) (s : σ) :
    insertAll (trees ++ more) s = insertAll more (insertAll trees s) := List.foldl_append

/-- A database stores each of some listings under its name, whatever it was given before. -/
def Accepts (σ : Type) [ObjectDatabase σ] (trees : List Tree) : Prop :=
  ∀ t ∈ trees, ∀ s : σ, (ObjectDatabase.insertTree t s).1 = .ok t.id

/-- A database that accepts every listing accepts these. -/
theorem accepts_of_acceptsListings [AcceptsListings σ] (trees : List Tree) : Accepts σ trees :=
  fun t _ s => AcceptsListings.insertTree_fst t s

/-- A database in memory accepts listings if none of them has the name that stands for no object. -/
theorem MemoryDatabase.accepts_iff {trees : List Tree} :
    Accepts MemoryDatabase trees ↔ ∀ t ∈ trees, t.id ≠ .null := by
  refine ⟨fun h t ht hid => ?_, fun h t ht d => congrArg Prod.fst (write_of_ne (h t ht) d)⟩
  have hwrite : (empty.write t.toObject).1 = .ok t.id := h t ht empty
  rw [write_of_null hid] at hwrite
  cases hwrite

namespace Bytes

/-- Where one string is before another, a beginning of it is before one of the other, unless it begins
with that one. -/
theorem isPrefix_or_lt {x y r s : Bytes} (h : compare (x ++ r) (y ++ s) = .lt) :
    y <+: x ∨ compare x y = .lt := by
  induction x generalizing y with
  | nil =>
    cases y with
    | nil => exact Or.inl (List.prefix_refl [])
    | cons b y => exact Or.inr (by simp)
  | cons a x ih =>
    cases y with
    | nil => exact Or.inl List.nil_prefix
    | cons b y =>
      rw [List.cons_append, List.cons_append, List.compare_cons_cons] at h
      rw [List.compare_cons_cons, List.cons_prefix_cons]
      cases hab : compare a b with
      | lt => exact Or.inr rfl
      | gt => simp [hab] at h
      | eq =>
        obtain rfl : a = b := Std.LawfulEqOrd.eq_of_compare hab
        rw [hab] at h
        rcases ih h with hpre | hlt
        · exact Or.inl ⟨rfl, hpre⟩
        · exact Or.inr hlt

end Bytes

/-- All listings are recorded. -/
theorem TreeLog.insertAll_eq (trees : List Tree) (l : TreeLog) :
    insertAll trees l = ⟨l.trees ++ trees⟩ := by
  induction trees generalizing l with
  | nil => simp [insertAll]
  | cons t trees ih => simp [ih, ObjectDatabase.insertTree]

namespace Table

open CacheTree (fileItem subtreeItem list materialize unknown)

/-! ## Directories -/

/-- The entries below a directory, with the items that list them, and the listings of the directories
below it, each after those of its own subdirectories. -/
inductive Listed : Bytes → Table → List TreeItem → List Tree → Prop
  | nil {base : Bytes} : Listed base [] [] []
  | file {base name : Bytes} {e : Entry} {es : Table} {items : List TreeItem} {trees : List Tree}
      (hp : e.path = base ++ name) (hn : Bytes.slash ∉ name) (h : Listed base es items trees) :
      Listed base (e :: es) (fileItem name e ++ items) trees
  | subtree {base name : Bytes} {inside rest : Table} {items₁ items₂ : List TreeItem}
      {trees₁ trees₂ : List Tree} (hn : Bytes.slash ∉ name) (hne : inside ≠ [])
      (hin : ∀ e ∈ inside, e.path.beginsWith (Bytes.below base name) = true)
      (hout : ∀ e ∈ rest, e.path.beginsWith (Bytes.below base name) = false)
      (h₁ : Listed (Bytes.below base name) inside items₁ trees₁)
      (h₂ : Listed base rest items₂ trees₂) :
      Listed base (inside ++ rest)
        (subtreeItem name ⟨inside.length, (Tree.ofList items₁).id⟩ ++ items₂)
        (trees₁ ++ Tree.ofList items₁ :: trees₂)

variable {base name : Bytes} {e : Entry} {es : Table} {items : List TreeItem} {trees : List Tree}

/-- Where the next entry is not below the directory, there is nothing left to list. -/
theorem list_outside {more : List Entry}
    (hmore : ∀ o ∈ more.head?, o.path.beginsWith base = false) (s : σ) :
    list [] more base s = ([], s, .ok ([], 0)) := by
  cases more with
  | nil => exact CacheTree.list_nil [] base s
  | cons o more =>
    have ho : o.path.afterPrefix? base = none := by
      rw [Option.eq_none_iff_forall_ne_some]
      intro rest hrest
      have hnot := hmore o rfl
      rw [Bytes.afterPrefix?_eq_some_iff.1 hrest, ← Bool.not_eq_true, Bytes.beginsWith_iff] at hnot
      exact hnot (List.prefix_append base rest)
    rw [list]
    split
    · rfl
    · simp_all

/-- Entries that start below a subdirectory are those below it, and the rest. -/
theorem cut_subtree {rest : Bytes} (hs : IsSorted (e :: es))
    (hp : e.path.afterPrefix? base = some (name ++ Bytes.slash :: rest)) :
    ∃ inside rest, (e :: es).takeWhile (fun o => o.path.beginsWith (Bytes.below base name)) =
        e :: inside ∧
      es.dropWhile (fun o => o.path.beginsWith (Bytes.below base name)) = rest ∧
      es = inside ++ rest ∧ (∀ o ∈ e :: inside, o.path.beginsWith (Bytes.below base name) = true) ∧
      ∀ o ∈ rest, o.path.beginsWith (Bytes.below base name) = false := by
  have he : e.path.beginsWith (Bytes.below base name) = true := beginsWith_below hp
  refine ⟨_, _, List.takeWhile_cons_of_pos (by simpa using he), rfl,
    List.takeWhile_append_dropWhile.symm, ?_, ?_⟩
  · rw [List.forall_mem_cons]
    refine ⟨he, fun o ho => ?_⟩
    exact List.mem_takeWhile_imp (p := fun o : Entry => o.path.beginsWith (Bytes.below base name)) ho
  · intro o ho
    have hrest := dropWhile_beginsWith hs rfl he
    rw [List.dropWhile_cons_of_pos (by simpa using he)] at hrest
    rw [hrest, List.mem_filter] at ho
    simpa using ho.2

/-- Entries that are in order below a directory can be listed. -/
theorem exists_listed (base : Bytes) {es : Table} (hs : es.IsSorted)
    (hb : ∀ e ∈ es, e.path.beginsWith base = true) :
    ∃ trees, Listed base es (listing base es) trees := by
  fun_induction listing base es with
  | case1 base => exact ⟨[], .nil⟩
  | case2 base e es hp =>
    obtain ⟨rest, hrest⟩ := Bytes.beginsWith_iff.1 (hb e (by simp))
    rw [Bytes.afterPrefix?_eq_some_iff.2 hrest.symm] at hp
    cases hp
  | case3 base e es rest hp hsplit ih =>
    obtain ⟨trees, htrees⟩ := ih hs.of_cons fun f hf => hb f (List.mem_cons_of_mem _ hf)
    exact ⟨trees, .file (Bytes.afterPrefix?_eq_some_iff.1 hp) (Bytes.splitAt?_eq_none_iff.1 hsplit)
      htrees⟩
  | case4 base e es below hp name r hsplit inside ih₁ =>
    rename_i ih₂
    obtain ⟨rfl, hn⟩ := Bytes.eq_append_of_splitAt? hsplit
    obtain ⟨inner, rest, hinside, hrest, rfl, hin, hout⟩ := cut_subtree hs hp
    rw [show inside = e :: inner from hinside] at ih₁ ⊢
    rw [hrest] at ih₂ ⊢
    have hs₁ : Table.IsSorted (e :: inner) :=
      hs.sublist (List.cons_sublist_cons.2 (List.sublist_append_left _ _))
    have hs₂ : Table.IsSorted rest := hs.of_cons.sublist (List.sublist_append_right _ _)
    obtain ⟨trees₁, htrees₁⟩ := ih₁ hs₁ hin
    obtain ⟨trees₂, htrees₂⟩ := ih₂ hs₂ fun o ho => hb o (by simp [ho])
    exact ⟨_, .subtree hn (List.cons_ne_nil e inner) hin hout htrees₁ htrees₂⟩

/-- A subdirectory begins with an entry below it. -/
theorem exists_first {inside : Table} (hne : inside ≠ [])
    (hin : ∀ e ∈ inside, e.path.beginsWith (Bytes.below base name) = true) :
    ∃ e inner rest, inside = e :: inner ∧
      e.path.afterPrefix? base = some (name ++ Bytes.slash :: rest) := by
  obtain ⟨e, inner, rfl⟩ := List.exists_cons_of_ne_nil hne
  obtain ⟨rest, hrest⟩ := Bytes.beginsWith_below_iff.1 (hin e List.mem_cons_self)
  exact ⟨e, inner, rest, rfl, Bytes.afterPrefix?_eq_some_iff.2 hrest⟩

/-- What follows a subdirectory is not below it, also where nothing more is below the directory. -/
theorem outside_append {rest : Table} {more : List Entry}
    (hout : ∀ e ∈ rest, e.path.beginsWith (Bytes.below base name) = false)
    (hmore : ∀ o ∈ more.head?, o.path.beginsWith base = false) :
    ∀ o ∈ (rest ++ more).head?, o.path.beginsWith (Bytes.below base name) = false := by
  intro o ho
  cases rest with
  | cons f rest =>
    cases ho
    exact hout _ List.mem_cons_self
  | nil =>
    rw [← Bool.not_eq_true]
    intro hbelow
    have := hmore o ho
    rw [Bytes.beginsWith_of_below hbelow] at this
    cases this

/-- Where nothing is known, merged entries below a directory are listed whatever follows them, and
the listings of the subdirectories are stored on the way. -/
theorem Listed.list_eq (h : Listed base es items trees) (hm : ∀ e ∈ es, e.stage = .merged)
    (hacc : Accepts σ trees) (more : List Entry)
    (hmore : ∀ o ∈ more.head?, o.path.beginsWith base = false) (s : σ) :
    ∃ children,
      list [] (es ++ more) base s = (children, insertAll trees s, .ok (items, es.length)) := by
  induction h generalizing more s with
  | nil => exact ⟨[], list_outside hmore s⟩
  | file hp hn _ ih =>
    obtain ⟨hme, hms⟩ := List.forall_mem_cons.1 hm
    obtain ⟨children, hchildren⟩ := ih hms hacc more hmore s
    refine ⟨children, ?_⟩
    rw [List.cons_append, CacheTree.list_file (Bytes.afterPrefix?_eq_some_iff.2 hp) hme hn,
      hchildren]
    rfl
  | @subtree base name inside rest items₁ items₂ trees₁ trees₂ hn hne hin hout _ _ ih₁ ih₂ =>
    obtain ⟨hm₁, hm₂⟩ := List.forall_mem_append.1 hm
    obtain ⟨hacc₁, hacc⟩ := List.forall_mem_append.1 hacc
    obtain ⟨hroot, hacc₂⟩ := List.forall_mem_cons.1 hacc
    obtain ⟨children₁, h₁⟩ := ih₁ hm₁ hacc₁ (rest ++ more) (outside_append hout hmore) s
    obtain ⟨children₂, h₂⟩ := ih₂ hm₂ hacc₂ more hmore
      (ObjectDatabase.insertTree (Tree.ofList items₁) (insertAll trees₁ s)).2
    obtain ⟨e, inner, r, rfl, hp⟩ := exists_first hne hin
    rw [List.cons_append] at h₁
    have hstep := CacheTree.list_unknown hp (hm₁ e List.mem_cons_self) hn
      (CacheTree.takeChild_nil name) h₁ (hroot _)
    have hdrop : (inner ++ (rest ++ more)).drop ((e :: inner).length - 1) = rest ++ more := by
      simp
    have happend : e :: inner ++ rest ++ more = e :: (inner ++ (rest ++ more)) := by simp
    rw [hdrop, h₂] at hstep
    rw [happend, insertAll_append, insertAll_cons, List.length_append]
    exact ⟨_, hstep⟩

/-- With a database in memory a directory is not materialized if its listing, or one below it, has the
name that stands for no object. -/
theorem materialize_null {more : List Entry} {d : MemoryDatabase} {n : Nat} (name : Bytes)
    (hnull : ∃ t ∈ trees ++ [Tree.ofList items], t.id = .null)
    (hrefused : (∃ t ∈ trees, t.id = .null) →
      ∃ children d', list [] more base d = (children, d', .error (.store .nullName)))
    (hlisted : Accepts MemoryDatabase trees →
      ∃ children, list [] more base d = (children, insertAll trees d, .ok (items, n))) :
    ∃ t d', materialize (unknown name) more base d = (t, d', .error (.store .nullName)) := by
  by_cases hbelow : ∃ t ∈ trees, t.id = .null
  · obtain ⟨children, d', hlist⟩ := hrefused hbelow
    exact ⟨_, _, CacheTree.materialize_unlisted name hlist⟩
  · have hacc : Accepts MemoryDatabase trees :=
      MemoryDatabase.accepts_iff.2 fun t ht hid => hbelow ⟨t, ht, hid⟩
    obtain ⟨children, hlist⟩ := hlisted hacc
    have hown : (Tree.ofList items).id = .null := by
      obtain ⟨t, ht, hid⟩ := hnull
      rcases List.mem_append.1 ht with ht | ht
      · exact absurd ⟨t, ht, hid⟩ hbelow
      · exact List.mem_singleton.1 ht ▸ hid
    exact ⟨_, _, CacheTree.materialize_refused name hlist
      (MemoryDatabase.write_of_null hown (insertAll trees d))⟩

/-- With a database in memory listing a directory fails if one of the listings below it has the name
that stands for no object. -/
theorem Listed.list_refused (h : Listed base es items trees) (hm : ∀ e ∈ es, e.stage = .merged)
    (hnull : ∃ t ∈ trees, t.id = .null) (more : List Entry)
    (hmore : ∀ o ∈ more.head?, o.path.beginsWith base = false) (d : MemoryDatabase) :
    ∃ children d', list [] (es ++ more) base d = (children, d', .error (.store .nullName)) := by
  induction h generalizing more d with
  | nil => simp at hnull
  | file hp hn _ ih =>
    obtain ⟨hme, hms⟩ := List.forall_mem_cons.1 hm
    obtain ⟨children, d', hchildren⟩ := ih hms hnull more hmore d
    refine ⟨children, d', ?_⟩
    rw [List.cons_append, CacheTree.list_file (Bytes.afterPrefix?_eq_some_iff.2 hp) hme hn,
      hchildren]
    rfl
  | @subtree base name inside rest items₁ items₂ trees₁ trees₂ hn hne hin hout h₁ _ ih₁ ih₂ =>
    obtain ⟨hm₁, hm₂⟩ := List.forall_mem_append.1 hm
    have hafter := outside_append hout hmore
    obtain ⟨e, inner, r, rfl, hp⟩ := exists_first hne hin
    have hme := hm₁ e List.mem_cons_self
    have happend : e :: inner ++ rest ++ more = e :: (inner ++ (rest ++ more)) := by simp
    rw [happend]
    by_cases hfirst : ∃ t ∈ trees₁ ++ [Tree.ofList items₁], t.id = .null
    · -- The subdirectory is not materialized, and ends the listing.
      obtain ⟨child, d', hchild⟩ := materialize_null name hfirst
        (fun hnull₁ => ih₁ hm₁ hnull₁ (rest ++ more) hafter d)
        fun hacc => h₁.list_eq hm₁ hacc (rest ++ more) hafter d
      have htaken : (CacheTree.takeChild [] name).1 = unknown name :=
        congrArg Prod.fst (CacheTree.takeChild_nil name)
      rw [List.cons_append, ← htaken] at hchild
      exact ⟨_, _, CacheTree.list_unfinished hp hme hn hchild⟩
    · -- It is, and the listing that has no name follows.
      have hacc : Accepts MemoryDatabase (trees₁ ++ [Tree.ofList items₁]) :=
        MemoryDatabase.accepts_iff.2 fun t ht hid => hfirst ⟨t, ht, hid⟩
      obtain ⟨hacc₁, hown⟩ := List.forall_mem_append.1 hacc
      have hnull₂ : ∃ t ∈ trees₂, t.id = .null := by
        obtain ⟨t, ht, hid⟩ := hnull
        rw [← List.singleton_append, ← List.append_assoc, List.mem_append] at ht
        rcases ht with ht | ht
        · exact absurd ⟨t, ht, hid⟩ hfirst
        · exact ⟨t, ht, hid⟩
      obtain ⟨children, hlist⟩ := h₁.list_eq hm₁ hacc₁ (rest ++ more) hafter d
      rw [List.cons_append] at hlist
      have hstep := CacheTree.list_unknown hp hme hn (CacheTree.takeChild_nil name) hlist
        (hown _ (List.mem_singleton.2 rfl) _)
      obtain ⟨children', d', hrest⟩ := ih₂ hm₂ hnull₂ more hmore
        (ObjectDatabase.insertTree (Tree.ofList items₁) (insertAll trees₁ d)).2
      have hdrop : (inner ++ (rest ++ more)).drop ((e :: inner).length - 1) = rest ++ more := by
        simp
      rw [hdrop, hrest] at hstep
      exact ⟨_, _, hstep⟩

/-- Materializing a whole table of which nothing is known stores the listings of its directories and
then that of the root. -/
theorem Listed.update_eq (h : Listed [] es items trees) (hm : ∀ e ∈ es, e.stage = .merged)
    (hacc : Accepts σ (trees ++ [Tree.ofList items])) (s : σ) :
    ∃ cache, CacheTree.empty.update es s =
      (cache, insertAll (trees ++ [Tree.ofList items]) s, .ok (Tree.ofList items).id) := by
  obtain ⟨hacc, hroot⟩ := List.forall_mem_append.1 hacc
  obtain ⟨children, hchildren⟩ := h.list_eq hm hacc [] (by simp) s
  rw [List.append_nil] at hchildren
  have hid := hroot _ (List.mem_singleton.2 rfl) (insertAll trees s)
  rw [CacheTree.update_eq_map, CacheTree.empty, CacheTree.materialize_unknown [] hchildren hid,
    insertAll_append]
  exact ⟨_, rfl⟩

/-- With a database in memory it fails if one of these listings has the name that stands for no
object. -/
theorem Listed.update_refused (h : Listed [] es items trees) (hm : ∀ e ∈ es, e.stage = .merged)
    (hnull : ∃ t ∈ trees ++ [Tree.ofList items], t.id = .null) (d : MemoryDatabase) :
    (CacheTree.empty.update es d).2.2 = .error (.store .nullName) := by
  obtain ⟨t, d', hroot⟩ := materialize_null [] hnull
    (fun hbelow => h.list_refused hm hbelow [] (by simp) d)
    fun hacc => h.list_eq hm hacc [] (by simp) d
  rw [List.append_nil] at hroot
  rw [CacheTree.update_eq_map, CacheTree.empty, hroot]
  rfl

/-- The listings that materializing a table stores if nothing is known, in the order in which they
are stored. -/
def written (t : Table) : List Tree := (CacheTree.empty.update t (TreeLog.mk [])).2.1.trees

/-- What is stored are the listings of the directories and then that of the root. -/
theorem Listed.written_eq (h : Listed [] es items trees) (hm : ∀ e ∈ es, e.stage = .merged) :
    written es = trees ++ [Tree.ofList items] := by
  obtain ⟨cache, hcache⟩ := h.update_eq hm (accepts_of_acceptsListings _) (TreeLog.mk [])
  rw [written, hcache, TreeLog.insertAll_eq, List.nil_append]

/-! ## Order -/

/-- Entries that trees can hold: their paths are increasing, and none of them is itself a
directory. -/
structure Storable (es : Table) : Prop where
  ordered : es.Pairwise fun a b => compare a.path b.path = .lt
  valid : ∀ e ∈ es, Path.IsValid e.path
  files : ∀ e ∈ es, e.mode ≠ .directory

/-- Some entries of those that trees can hold. -/
theorem Storable.sublist {fs : Table} (h : Storable es) (hs : fs.Sublist es) : Storable fs where
  ordered := h.ordered.sublist hs
  valid := fun e he => h.valid e (hs.subset he)
  files := fun e he => h.files e (hs.subset he)

/-- The entries of a table are such ones if all are merged and none is a directory. -/
theorem Invariant.storable (h : Invariant es) (hm : ∀ e ∈ es, e.stage = .merged)
    (hf : ∀ e ∈ es, e.mode ≠ .directory) : Storable es where
  ordered := by
    refine List.Pairwise.imp_of_mem ?_ h.sorted
    intro a b ha hb hab
    rcases EntryKey.compare_eq_lt_iff.1 hab with hlt | ⟨-, hlt⟩
    · exact hlt
    · simp [Entry.key, hm a ha, hm b hb] at hlt
  valid := h.valid
  files := hf

/-- An item stands for an entry, which is the file of that name or below the subdirectory of that
name. -/
inductive Shows (base : Bytes) : TreeItem → Entry → Prop
  | file {name : Bytes} {e : Entry} (hn : Bytes.slash ∉ name) (hp : e.path = base ++ name)
      (hm : e.mode ≠ .directory) : Shows base ⟨e.mode, name, e.id⟩ e
  | subtree {name rest : Bytes} {id : ObjectId} {e : Entry} (hn : Bytes.slash ∉ name)
      (hp : e.path = base ++ (name ++ Bytes.slash :: rest)) :
      Shows base ⟨.directory, name, id⟩ e

/-- An item that lists a directory stands for every entry below it. -/
theorem shows_of_mem_subtreeItem {k : CacheTree.Known} {item : TreeItem}
    (hi : item ∈ subtreeItem name k) (hn : Bytes.slash ∉ name)
    (he : e.path.beginsWith (Bytes.below base name) = true) : Shows base item e := by
  rw [subtreeItem] at hi
  split at hi
  · cases hi
  · obtain ⟨rest, hrest⟩ := Bytes.beginsWith_below_iff.1 he
    rw [List.mem_singleton.1 hi]
    exact .subtree hn hrest

/-- An item that lists a file stands for it. -/
theorem shows_of_mem_fileItem {item : TreeItem} (hi : item ∈ fileItem name e)
    (hn : Bytes.slash ∉ name) (hp : e.path = base ++ name) (hf : e.mode ≠ .directory) :
    Shows base item e := by
  rw [fileItem] at hi
  split at hi
  · cases hi
  · rw [List.mem_singleton.1 hi]
    exact .file hn hp hf

/-- Every item stands for one of the entries. -/
theorem Listed.exists_shows (h : Listed base es items trees) (hf : ∀ e ∈ es, e.mode ≠ .directory)
    {item : TreeItem} (hi : item ∈ items) : ∃ e ∈ es, Shows base item e := by
  induction h with
  | nil => cases hi
  | @file base name e es items trees hp hn _ ih =>
    rcases List.mem_append.1 hi with hi | hi
    · exact ⟨e, List.mem_cons_self, shows_of_mem_fileItem hi hn hp (hf e List.mem_cons_self)⟩
    · obtain ⟨o, ho, hshows⟩ := ih (fun o ho => hf o (List.mem_cons_of_mem _ ho)) hi
      exact ⟨o, List.mem_cons_of_mem _ ho, hshows⟩
  | @subtree base name inside rest items₁ items₂ trees₁ trees₂ hn hne hin _ _ _ _ ih₂ =>
    rcases List.mem_append.1 hi with hi | hi
    · obtain ⟨o, ho⟩ := List.exists_mem_of_ne_nil inside hne
      exact ⟨o, List.mem_append_left _ ho, shows_of_mem_subtreeItem hi hn (hin o ho)⟩
    · obtain ⟨o, ho, hshows⟩ := ih₂ (fun o ho => hf o (List.mem_append_right _ ho)) hi
      exact ⟨o, List.mem_append_right _ ho, hshows⟩

/-- Items come in the order of the entries for which they stand. -/
theorem Shows.isLE_sortKey {a b : TreeItem} {d e : Entry} (ha : Shows base a d)
    (hb : Shows base b e) (h : compare d.path e.path = .lt) :
    (compare a.sortKey b.sortKey).isLE = true := by
  -- What follows the base in the path of the first entry starts with the key of its item.
  obtain ⟨r, hd⟩ : ∃ r, d.path = base ++ (a.sortKey ++ r) := by
    cases ha with
    | file _ hp hm => exact ⟨[], by simp [TreeItem.sortKey, hm, hp]⟩
    | @subtree name rest _ _ _ hp => exact ⟨rest, by simp [TreeItem.sortKey, hp]⟩
  rw [hd] at h
  cases hb with
  | @file name _ hn hp hm =>
    -- The second one has nothing after it, so the first key can only come before it.
    rw [hp, Bytes.compare_append_left] at h
    rw [show TreeItem.sortKey ⟨e.mode, name, e.id⟩ = name from if_neg hm]
    have hle := Bytes.compare_of_isPrefix (List.prefix_append a.sortKey r)
    exact Std.TransCmp.isLE_trans hle (by rw [h]; rfl)
  | @subtree name rest id _ hn hp =>
    rw [hp, Bytes.compare_append_left, show name ++ Bytes.slash :: rest =
      (name ++ [Bytes.slash]) ++ rest by simp] at h
    rw [show TreeItem.sortKey ⟨.directory, name, id⟩ = name ++ [Bytes.slash] from if_pos rfl]
    rcases Bytes.isPrefix_or_lt h with hpre | hlt
    · -- A name with a slash after it begins no key but its own.
      cases ha with
      | file hm _ hf =>
        rw [TreeItem.sortKey, if_neg hf] at hpre
        exact absurd (hpre.subset (by simp)) hm
      | @subtree name' _ _ _ hm _ =>
        rw [TreeItem.sortKey, if_pos rfl] at hpre ⊢
        have hown : (Bytes.below [] name').beginsWith (Bytes.below [] name') = true :=
          Bytes.beginsWith_iff.2 (List.prefix_refl _)
        obtain rfl : name' = name := Bytes.name_eq_of_below hm hn hown (Bytes.beginsWith_iff.2 hpre)
        simp
    · rw [hlt]
      rfl

/-- The items of a directory are in order. -/
theorem Listed.pairwise_sortKey (h : Listed base es items trees) (hes : Storable es) :
    items.Pairwise fun a b => (compare a.sortKey b.sortKey).isLE = true := by
  induction h with
  | nil => exact List.Pairwise.nil
  | @file base name e es items trees hp hn hlisted ih =>
    have hes' := hes.sublist (List.sublist_cons_self e es)
    refine List.pairwise_append.2 ⟨?_, ih hes', ?_⟩
    · rw [fileItem]
      split <;> simp
    · intro a ha b hb
      have hshows := shows_of_mem_fileItem ha hn hp (hes.files e List.mem_cons_self)
      obtain ⟨o, ho, hshows'⟩ := hlisted.exists_shows hes'.files hb
      exact hshows.isLE_sortKey hshows' ((List.pairwise_cons.1 hes.ordered).1 o ho)
  | @subtree base name inside rest items₁ items₂ trees₁ trees₂ hn hne hin _ _ hlisted₂ _ ih₂ =>
    have hes' := hes.sublist (List.sublist_append_right inside rest)
    refine List.pairwise_append.2 ⟨?_, ih₂ hes', ?_⟩
    · rw [subtreeItem]
      split <;> simp
    · intro a ha b hb
      obtain ⟨d, hd⟩ := List.exists_mem_of_ne_nil inside hne
      obtain ⟨o, ho, hshows⟩ := hlisted₂.exists_shows hes'.files hb
      exact (shows_of_mem_subtreeItem ha hn (hin d hd)).isLE_sortKey hshows
        ((List.pairwise_append.1 hes.ordered).2.2 d hd o ho)

/-- A listing is made of the items as they come. -/
theorem Listed.ofList_eq (h : Listed base es items trees) (hes : Storable es) :
    Tree.ofList items = ⟨items⟩ :=
  congrArg Tree.mk (List.mergeSort_of_pairwise (h.pairwise_sortKey hes))

/-- No name in a listing has a zero byte. -/
theorem Listed.nul_notMem (h : Listed base es items trees) (hes : Storable es) :
    ∀ item ∈ items, Bytes.nul ∉ item.name := by
  intro item hi hnul
  obtain ⟨e, he, hshows⟩ := h.exists_shows hes.files hi
  have hvalid := (hes.valid e he).nul_notMem
  cases hshows with
  | file _ hp _ => exact hvalid (by simp [hp, hnul])
  | subtree _ hp => exact hvalid (by simp [hp, hnul])

end Table

end StagingIndex
