import Mathlib
import StagingIndex.Proofs.AcceptedBatches
import StagingIndex.Proofs.DirectoryItems

/-! # Collapsed directories

A directory can be put into a table as one entry that names its tree, in place of the entries below
it. Such an entry is listed as a file, and it stands elsewhere in the table: `a` comes before `a-b`,
and what is below `a` comes after it. But in the directory that holds it the items are the same, and
then the directories further up have the same subtrees; the others have the same entries as before. So
nothing changes on the way up to the root.

* `Table.outside`, `Table.collapse` — the table with one entry for a directory
* `Table.StandsFor` — an entry that stands for a directory
* `Table.StandsFor.normalize_eq_collapse` — the entry and those outside of the directory make a table
* `Table.StandsFor.treeAt_collapse` — the directories that the entry is in keep their trees
* `CacheTree.update_collapse` — so does the root -/

namespace StagingIndex

namespace Bytes

/-- Names that lead on to a subdirectory begin with its name. -/
theorem eq_of_baseOf_eq_below {base n m : Bytes} {names : List Bytes} (hn : slash ∉ n) (hm : slash ∉ m)
    (h : baseOf base (n :: names) = below base m) : n = m := by
  have hself : (below base m).beginsWith (below base m) = true := by simp
  have hnames : (below base m).beginsWith (baseOf base (n :: names)) = true := by rw [h, hself]
  exact name_eq_of_below hn hm (beginsWith_below_of_baseOf hnames) hself

/-- Where more than one name leads on to a path with a slash, the path is below the first. -/
theorem beginsWith_below_of_baseOf_cons {base n m path : Bytes} {names : List Bytes}
    (h : path ++ [slash] = baseOf base (n :: m :: names)) : path.beginsWith (below base n) = true := by
  obtain ⟨init, last, heq⟩ : ∃ init last, m :: names = init ++ [last] :=
    ⟨_, _, (List.dropLast_append_getLast (List.cons_ne_nil m names)).symm⟩
  have hpath : path ++ [slash] = baseOf (below base n) init ++ last ++ [slash] := by
    rw [h, ← baseOf_append_singleton, ← heq]
    rfl
  have hnames : path.beginsWith (baseOf base (n :: init)) = true := by
    rw [List.append_cancel_right hpath, beginsWith_iff]
    exact List.prefix_append _ last
  exact beginsWith_below_of_baseOf hnames

end Bytes

/-- A directory of a path is a path. -/
theorem Path.IsValid.directory {dir rest : Bytes} (h : IsValid (dir ++ Bytes.slash :: rest)) :
    IsValid dir := by
  obtain ⟨-, hnul, houter, hcomponents⟩ := isValid_iff.1 h
  have hsub : ∀ c ∈ dir.components, componentFault? c = none := fun c hc =>
    hcomponents c (by rw [Bytes.components_append_slash]; exact List.mem_append_left _ hc)
  -- Before and after an outer slash there is a component without bytes.
  have hempty : [] ∉ dir.components := fun hc => by simpa [componentFault?] using hsub [] hc
  have hne : dir ≠ [] := by
    rintro rfl
    exact hempty (by simp [Bytes.components])
  refine isValid_iff.2 ⟨hne, fun hm => hnul (List.mem_append_left _ hm), ?_, hsub⟩
  rintro (hhead | hlast)
  · obtain ⟨tail, rfl⟩ := List.head?_eq_some_iff.1 hhead
    exact houter (Or.inl rfl)
  · obtain ⟨init, rfl⟩ := List.getLast?_eq_some_iff.1 hlast
    refine hempty ?_
    rw [Bytes.components_append_slash]
    exact List.mem_append_right _ (by simp [Bytes.components])

namespace Table

variable {T : Table} {base name dir : Bytes} {e o : Entry} {item : TreeItem}

/-- The entries that are not below a directory. -/
def outside (T : Table) (dir : Bytes) : List Entry :=
  T.filter fun o => !o.path.beginsWith (dir ++ [Bytes.slash])

/-- A table with an entry in place of all entries below its path. -/
def collapse (T : Table) (e : Entry) : Table := sorted (e :: T.outside e.path)

@[simp] theorem mem_outside :
    o ∈ T.outside dir ↔ o ∈ T ∧ o.path.beginsWith (dir ++ [Bytes.slash]) = false := by
  simp only [outside, List.mem_filter, Bool.not_eq_eq_eq_not, Bool.not_true]

@[simp] theorem mem_collapse : o ∈ T.collapse e ↔ o = e ∨ o ∈ T.outside e.path := by
  rw [collapse, mem_sorted, List.mem_cons]

/-- An entry that stands for a directory: one that is listed, for a directory with entries and with the
tree that these make, which is not empty. -/
structure StandsFor (T : Table) (e : Entry) : Prop where
  merged : e.stage = .merged
  directory : e.mode = .directory
  listed : e.flags.intentToAdd = false
  found : ∃ o ∈ T, o.path.beginsWith (e.path ++ [Bytes.slash]) = true
  id_eq : e.id = (T.treeAt (e.path ++ [Bytes.slash])).id
  ne_empty : e.id ≠ Tree.empty.id

namespace StandsFor

/-! ## The table -/

/-- No entry has the path of the directory. -/
theorem path_ne (h : T.StandsFor e) (hT : T.Invariant) (ho : o ∈ T) : o.path ≠ e.path := by
  intro hp
  obtain ⟨i, hi, hb⟩ := h.found
  have := hT.separate o ho i hi
  rw [hp, hb] at this
  cases this

/-- The entry and those outside of the directory are acceptable. -/
theorem acceptable (h : T.StandsFor e) (hT : T.Invariant) (hm : ∀ o ∈ T, o.stage = .merged) :
    Acceptable .reject (e :: T.outside e.path) where
  valid := by
    refine List.forall_mem_cons.2 ⟨?_, fun o ho => hT.valid o (mem_outside.1 ho).1⟩
    obtain ⟨i, hi, hb⟩ := h.found
    obtain ⟨rest, hrest⟩ := Bytes.beginsWith_iff.1 hb
    have hv := hT.valid i hi
    rw [← hrest, List.append_assoc, List.singleton_append] at hv
    exact hv.directory
  distinct := by
    refine Or.inr (List.nodup_cons.2 ⟨fun hk => ?_, ?_⟩)
    · obtain ⟨o, ho, hk⟩ := List.mem_map.1 hk
      exact h.path_ne hT (mem_outside.1 ho).1 (congrArg EntryKey.path hk)
    · exact hT.sorted.nodup_key.sublist (List.filter_sublist.map _)
  unmixed := by
    intro a _ b hb _ _
    rcases List.mem_cons.1 hb with rfl | hb
    · exact h.merged
    · exact hm b (mem_outside.1 hb).1
  separate := by
    intro a ha b hb
    obtain ⟨i, hi, hbelow⟩ := h.found
    rcases List.mem_cons.1 ha with rfl | ha <;> rcases List.mem_cons.1 hb with rfl | hb
    · rw [← Bool.not_eq_true, Bytes.beginsWith_iff]
      intro hpre
      have := hpre.length_le
      simp at this
    · exact (mem_outside.1 hb).2
    · -- What is above the directory is above the entries below it.
      rw [← Bool.not_eq_true]
      intro hpre
      have hsep := hT.separate a (mem_outside.1 ha).1 i hi
      rw [← Bool.not_eq_true, Bytes.beginsWith_iff] at hsep
      rw [Bytes.beginsWith_iff] at hpre hbelow
      exact hsep (hpre.trans ((List.prefix_append _ _).trans hbelow))
    · exact hT.separate a (mem_outside.1 ha).1 b (mem_outside.1 hb).1

/-- The entry and those outside of the directory make the table. -/
theorem normalize_eq_collapse (h : T.StandsFor e) (hT : T.Invariant) (hm : ∀ o ∈ T, o.stage = .merged)
    (policy : DuplicatePolicy) : normalize policy (e :: T.outside e.path) = .ok (T.collapse e) :=
  (h.acceptable hT hm).normalize_eq

/-- The table satisfies its conditions. -/
theorem invariant (h : T.StandsFor e) (hT : T.Invariant) (hm : ∀ o ∈ T, o.stage = .merged) :
    (T.collapse e).Invariant :=
  normalize_invariant (h.normalize_eq_collapse hT hm .reject)

/-- No path of the table is in conflict. -/
theorem stage_eq (h : T.StandsFor e) (hm : ∀ o ∈ T, o.stage = .merged) :
    ∀ o ∈ T.collapse e, o.stage = .merged := by
  intro o ho
  rcases mem_collapse.1 ho with rfl | ho
  · exact h.merged
  · exact hm o (mem_outside.1 ho).1

/-! ## Directories -/

/-- What is below a directory that the entry is in, by the name that leads there, is not below it by
another name. -/
theorem beginsWith_eq_false {names : List Bytes} {m p : Bytes} (hn : Bytes.slash ∉ name)
    (hm : Bytes.slash ∉ m) (hne : m ≠ name) (hp : p.beginsWith (Bytes.baseOf base (name :: names)) = true) :
    p.beginsWith (Bytes.below base m) = false := by
  rw [← Bool.not_eq_true]
  intro hother
  exact hne (Bytes.name_eq_of_below hm hn hother (Bytes.beginsWith_below_of_baseOf hp))

/-- By other names than the one that leads to the entry there are the same entries as before. -/
theorem beginning_collapse_of_ne (h : T.StandsFor e) (hT : T.Invariant)
    (hm : ∀ o ∈ T, o.stage = .merged) {names : List Bytes} (hn : Bytes.slash ∉ name)
    (hp : e.path ++ [Bytes.slash] = Bytes.baseOf base (name :: names)) {m : Bytes}
    (hslash : Bytes.slash ∉ m) (hne : m ≠ name) :
    (T.collapse e).beginning (Bytes.below base m) = T.beginning (Bytes.below base m) := by
  -- Neither the entry nor what it stands for is below the directory of the other name.
  have hout : ∀ {p : Bytes}, p.beginsWith (e.path ++ [Bytes.slash]) = true →
      p.beginsWith (Bytes.below base m) = false := fun hb =>
    beginsWith_eq_false hn hslash hne (hp ▸ hb)
  have he : e.path.beginsWith (Bytes.below base m) = false := by
    have hself : (e.path ++ [Bytes.slash]).beginsWith (Bytes.below base m) = false := hout (by simp)
    rw [← Bool.not_eq_true, Bytes.beginsWith_iff] at hself ⊢
    exact fun hb => hself (hb.trans (List.prefix_append _ _))
  refine eq_of_mem_iff ((h.invariant hT hm).sorted.sublist List.filter_sublist)
    (hT.sorted.sublist List.filter_sublist) fun o => ?_
  rw [mem_beginning, mem_beginning, mem_collapse, mem_outside]
  constructor
  · rintro ⟨rfl | ⟨ho, -⟩, hb⟩
    · rw [he] at hb
      cases hb
    · exact ⟨ho, hb⟩
  · rintro ⟨ho, hb⟩
    refine ⟨Or.inr ⟨ho, ?_⟩, hb⟩
    rw [← Bool.not_eq_true]
    intro hbelow
    rw [hout hbelow] at hb
    cases hb

/-- A directory that the entry is in lists the same by other names than the one that leads to it. -/
theorem lists_collapse_iff_of_ne (h : T.StandsFor e) (hT : T.Invariant)
    (hm : ∀ o ∈ T, o.stage = .merged) {names : List Bytes} (hn : Bytes.slash ∉ name)
    (hp : e.path ++ [Bytes.slash] = Bytes.baseOf base (name :: names)) (hne : item.name ≠ name) :
    (T.collapse e).Lists base ((T.collapse e).beginning base) item ↔
      T.Lists base (T.beginning base) item := by
  have hbelow : ∀ {m}, base <+: Bytes.below base m := fun {m} => by
    rw [Bytes.below, List.append_assoc]
    exact List.prefix_append base _
  have hsame : ∀ {m}, Bytes.slash ∉ m → m ≠ name →
      (T.collapse e).beginning (Bytes.below base m) = T.beginning (Bytes.below base m) :=
    fun hslash hne => h.beginning_collapse_of_ne hT hm hn hp hslash hne
  have htree : ∀ {m}, Bytes.slash ∉ m → m ≠ name →
      (T.collapse e).treeAt (Bytes.below base m) = T.treeAt (Bytes.below base m) := fun hslash hne => by
    rw [treeAt, treeAt, hsame hslash hne]
  constructor
  · intro hlists
    cases hlists with
    | @file m o ho hpo hno hi =>
      obtain ⟨ho, hb⟩ := mem_beginning.1 ho
      rcases mem_collapse.1 ho with rfl | ho
      · -- The entry itself has the name that leads to it.
        rw [hpo] at hp
        exact absurd (Bytes.eq_of_baseOf_eq_below hn hno hp.symm).symm hne
      · exact .file (mem_beginning.2 ⟨(mem_outside.1 ho).1, hb⟩) hpo hno hi
    | @subtree m hno hfound hid =>
      rw [beginning_beginning hbelow, hsame hno hne] at hfound
      rw [htree hno hne] at hid ⊢
      exact .subtree hno (by rwa [beginning_beginning hbelow]) hid
  · intro hlists
    cases hlists with
    | @file m o ho hpo hno hi =>
      obtain ⟨ho, hb⟩ := mem_beginning.1 ho
      refine .file (mem_beginning.2 ⟨mem_collapse.2 (Or.inr (mem_outside.2 ⟨ho, ?_⟩)), hb⟩) hpo hno hi
      -- A file of the directory is not below a subdirectory.
      rw [← Bool.not_eq_true, hp]
      intro hpre
      obtain ⟨rest, hrest⟩ := Bytes.beginsWith_below_iff.1 (Bytes.beginsWith_below_of_baseOf hpre)
      exact hno (List.append_cancel_left (hpo.symm.trans hrest) ▸ by simp)
    | @subtree m hno hfound hid =>
      rw [beginning_beginning hbelow] at hfound
      rw [← htree hno hne] at hid ⊢
      exact .subtree hno (by rwa [beginning_beginning hbelow, hsame hno hne]) hid

/-- A directory that the entry is in, perhaps with other directories between, keeps its tree. -/
theorem treeAt_collapse (h : T.StandsFor e) (hT : T.Invariant) (hm : ∀ o ∈ T, o.stage = .merged)
    {names : List Bytes} (hb : Bytes.IsBase base) (hn : ∀ n ∈ name :: names, Bytes.slash ∉ n)
    (hp : e.path ++ [Bytes.slash] = Bytes.baseOf base (name :: names)) :
    (T.collapse e).treeAt base = T.treeAt base := by
  have hU := h.invariant hT hm
  have hUm := h.stage_eq hm
  have hself : e ∈ T.collapse e := mem_collapse.2 (Or.inl rfl)
  obtain ⟨i, hi, hbelow⟩ := h.found
  -- The induction goes down the directories that lead to the entry, and the trees come back up.
  induction names generalizing base name with
  | nil =>
    refine treeAt_eq_of_lists hU hT hUm hm hb fun item => ?_
    have hname : Bytes.slash ∉ name := hn name List.mem_cons_self
    by_cases hitem : item.name = name
    · subst hitem
      have hpath : e.path = base ++ item.name := List.append_cancel_right hp
      have hid : (T.treeAt (Bytes.below base item.name)).id = e.id := by
        rw [h.id_eq, hp]
        rfl
      rw [lists_name_iff_of_path hU hUm hself hname hpath h.listed,
        lists_name_iff_of_below hT hi hname (Bytes.beginsWith_below_of_baseOf (hp ▸ hbelow)), hid,
        h.directory]
      exact (and_iff_left h.ne_empty).symm
    · exact h.lists_collapse_iff_of_ne hT hm hname hp hitem
  | cons next names ih =>
    refine treeAt_eq_of_lists hU hT hUm hm hb fun item => ?_
    obtain ⟨hname, hnames⟩ := List.forall_mem_cons.1 hn
    by_cases hitem : item.name = name
    · subst hitem
      have htree := ih (Bytes.isBase_below base item.name) hnames hp
      rw [lists_name_iff_of_below hU hself hname (Bytes.beginsWith_below_of_baseOf_cons hp),
        lists_name_iff_of_below hT hi hname (Bytes.beginsWith_below_of_baseOf (hp ▸ hbelow)), htree]
    · exact h.lists_collapse_iff_of_ne hT hm hname hp hitem

/-- The root keeps its tree. -/
theorem treeAt_collapse_root (h : T.StandsFor e) (hT : T.Invariant) (hm : ∀ o ∈ T, o.stage = .merged) :
    (T.collapse e).treeAt [] = T.treeAt [] := by
  obtain ⟨name, names, hnames⟩ := List.exists_cons_of_ne_nil (Bytes.components_ne_nil e.path)
  have hp := Bytes.baseOf_components [] e.path
  rw [hnames, List.nil_append] at hp
  refine h.treeAt_collapse hT hm (Or.inl rfl) (fun n hn => ?_) hp.symm
  exact Bytes.slash_notMem_of_components (hnames ▸ hn)

end StandsFor

end Table

namespace CacheTree

variable {T : Table} {e : Entry}

/-- Where an entry for a directory, with the tree that an empty cache tree yields for what is below it,
is put in place of all entries there, and this tree is not the empty one, the entries that are left and
it make a table. This one is materialized to the same tree as the one before from an empty cache tree,
with any databases that store all listings; and with a database that may refuse some, either of them
comes to this tree if it comes to any. -/
theorem update_collapse (hT : T.Invariant) (hm : ∀ o ∈ T, o.stage = .merged)
    (hfound : ∃ o ∈ T, o.path.beginsWith (e.path ++ [Bytes.slash]) = true)
    (hid : yields (e.path ++ [Bytes.slash]) (T.beginning (e.path ++ [Bytes.slash])) = .ok e.id)
    (hne : e.id ≠ Tree.empty.id) (hstage : e.stage = .merged) (hmode : e.mode = .directory)
    (hlisted : e.flags.intentToAdd = false) :
    (T.collapse e).Invariant ∧
      (∀ o, o ∈ T.collapse e ↔ o = e ∨ o ∈ T ∧ o.path.beginsWith (e.path ++ [Bytes.slash]) = false) ∧
      (∀ policy, Table.normalize policy (e :: T.outside e.path) = .ok (T.collapse e)) ∧
      ∃ root, (∀ {σ : Type} [ObjectDatabase σ] [AcceptsListings σ] (s : σ),
          (empty.update T s).2.2 = .ok root ∧ (empty.update (T.collapse e) s).2.2 = .ok root) ∧
        ∀ {σ : Type} [ObjectDatabase σ] [NamesListings σ] (s : σ) (id : ObjectId),
          (empty.update T s).2.2 = .ok id ∨ (empty.update (T.collapse e) s).2.2 = .ok id →
            id = root := by
  have hbase : Bytes.IsBase (e.path ++ [Bytes.slash]) := Or.inr ⟨e.path, rfl⟩
  have htree : e.id = (T.treeAt (e.path ++ [Bytes.slash])).id :=
    Except.ok.inj (hid.symm.trans (yields_beginning hT.sorted hm hbase))
  have h : T.StandsFor e := ⟨hstage, hmode, hlisted, hfound, htree, hne⟩
  have hU := h.invariant hT hm
  have hroot := h.treeAt_collapse_root hT hm
  refine ⟨hU, fun o => ?_, h.normalize_eq_collapse hT hm, (T.treeAt []).id,
    fun s => ⟨update_empty hT.sorted hm s, ?_⟩, fun s id hid => ?_⟩
  · rw [Table.mem_collapse, Table.mem_outside]
  · rw [← hroot]
    exact update_empty hU.sorted (h.stage_eq hm) s
  · rcases hid with hid | hid
    · exact eq_of_update_empty hT.sorted hid
    · rw [← hroot]
      exact eq_of_update_empty hU.sorted hid

/-- Files `a/b-c` and `a/b/x`. -/
def neighbours : Table :=
  [Entry.bare [0x61, 0x2f, 0x62, 0x2d, 0x63] .merged .regular .null,
    Entry.bare [0x61, 0x2f, 0x62, 0x2f, 0x78] .merged .regular .null]

/-- An entry for the directory `a/b`. -/
def collapsedNeighbour : Entry :=
  Entry.bare [0x61, 0x2f, 0x62] .merged .directory
    (neighbours.treeAt ([0x61, 0x2f, 0x62] ++ [Bytes.slash])).id

/-- The entry comes before the file that the directory came after, and the tree stays the same. -/
theorem update_collapse_neighbours :
    neighbours.Invariant ∧ (neighbours.collapse collapsedNeighbour).Invariant ∧
      (neighbours.collapse collapsedNeighbour).map Entry.path =
        [[0x61, 0x2f, 0x62], [0x61, 0x2f, 0x62, 0x2d, 0x63]] ∧
      ∃ root, (empty.update neighbours (TreeLog.mk [])).2.2 = .ok root ∧
        (empty.update (neighbours.collapse collapsedNeighbour) (TreeLog.mk [])).2.2 = .ok root := by
  have hT : Table.normalize .reject neighbours = .ok neighbours := by cbv
  have hT := Table.normalize_invariant hT
  have hm : ∀ o ∈ neighbours, o.stage = .merged := by decide
  have hbase : Bytes.IsBase ([0x61, 0x2f, 0x62] ++ [Bytes.slash]) := Or.inr ⟨_, rfl⟩
  have hid : yields (collapsedNeighbour.path ++ [Bytes.slash])
      (neighbours.beginning (collapsedNeighbour.path ++ [Bytes.slash])) = .ok collapsedNeighbour.id :=
    yields_beginning hT.sorted hm hbase
  have htree : neighbours.treeAt ([0x61, 0x2f, 0x62] ++ [Bytes.slash]) =
      ⟨[⟨.regular, [0x78], .null⟩]⟩ := by
    have hbelow : neighbours.beginning ([0x61, 0x2f, 0x62] ++ [Bytes.slash]) =
        [Entry.bare [0x61, 0x2f, 0x62, 0x2f, 0x78] .merged .regular .null] := by decide
    have hpath : Bytes.afterPrefix? [0x61, 0x2f, 0x62, 0x2f, 0x78]
        ([0x61, 0x2f, 0x62] ++ [Bytes.slash]) = some [0x78] := by decide
    rw [Table.treeAt, hbelow, Table.listing_file hpath (by decide), Table.listing_nil]
    simp [fileItem, Entry.bare, EntryFlags.none, Tree.ofList]
  have hne : collapsedNeighbour.id ≠ Tree.empty.id := by
    rw [collapsedNeighbour, htree]
    decide +kernel
  obtain ⟨hU, -, -, root, hroot, -⟩ := update_collapse hT hm
    ⟨Entry.bare [0x61, 0x2f, 0x62, 0x2f, 0x78] .merged .regular .null, by decide, by decide⟩ hid hne
    rfl rfl rfl
  -- The order does not depend on the tree.
  have horder : ∀ id : ObjectId,
      (neighbours.collapse (Entry.bare [0x61, 0x2f, 0x62] .merged .directory id)).map Entry.path =
        [[0x61, 0x2f, 0x62], [0x61, 0x2f, 0x62, 0x2d, 0x63]] := fun id => by cbv
  exact ⟨hT, hU, horder _, root, hroot (TreeLog.mk [])⟩

end CacheTree

end StagingIndex
