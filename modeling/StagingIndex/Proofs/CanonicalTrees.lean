import Mathlib
import StagingIndex.Proofs.Alignment
import StagingIndex.Proofs.Recording
import StagingIndex.Proofs.Runs

/-! # Listings that are stored are canonical

No listing is looked at before it is stored. That its names are different is due to the table, in
which no path is a directory of another, and to materializing staying in step with it: a subdirectory
is left only after its last entry. The cache tree has no part in this, whatever it knows.

* `Table.Itemized` — the items that list what is left of a directory
* `Tree.Canonical` — what is expected of a listing of a directory
* `Table.stepsKeep_offers` — what storing such listings keeps, materializing keeps
* `Recorded.canonical_of_mem_offered` — every listing that materializing offers is canonical -/

namespace StagingIndex

/-! ## Names -/

/-- Items of different names stand at different places of a listing. -/
theorem TreeItem.sortKey_ne {a b : TreeItem} (ha : Bytes.slash ∉ a.name) (hb : Bytes.slash ∉ b.name)
    (h : a.name ≠ b.name) : a.sortKey ≠ b.sortKey := by
  rw [sortKey, sortKey]
  split <;> split
  · exact fun heq => h (List.append_cancel_right heq)
  · exact fun heq => hb (heq ▸ by simp)
  · exact fun heq => ha (heq ▸ by simp)
  · exact h

namespace Table

open CacheTree (Known fileItem subtreeItem)

variable {T : Table} {base : Bytes} {left : List Entry} {items : List TreeItem}

/-! ## Items -/

/-- The items that list what is left of a directory: files by what follows its base, unless they are
only meant to be added, and subdirectories by their names, unless they came out empty. -/
inductive Itemized (T : Table) (base : Bytes) : List Entry → List TreeItem → Prop
  | done : Itemized T base [] []
  | file {name : Bytes} {e : Entry} {left : List Entry} {items : List TreeItem}
      (ha : T.Ahead base (e :: left)) (hp : e.path = base ++ name) (hn : Bytes.slash ∉ name)
      (h : Itemized T base left items) : Itemized T base (e :: left) (fileItem name e ++ items)
  | subtree {name : Bytes} {inside left : List Entry} {items : List TreeItem} {k : Known}
      (ha : T.Entered base name inside left) (h : Itemized T base left items) :
      Itemized T base (inside ++ left) (subtreeItem name k ++ items)

/-- An item is due to an entry, which it copies or which is below the subdirectory of its name. -/
inductive DueTo (base : Bytes) : TreeItem → Entry → Prop
  | file {name : Bytes} {e : Entry} (hn : Bytes.slash ∉ name) (hp : e.path = base ++ name) :
      DueTo base ⟨e.mode, name, e.id⟩ e
  | subtree {name : Bytes} {id : ObjectId} {e : Entry} (hn : Bytes.slash ∉ name)
      (hb : e.path.beginsWith (Bytes.below base name) = true) (hid : id ≠ Tree.empty.id) :
      DueTo base ⟨.directory, name, id⟩ e

/-- The item of a file is due to it. -/
theorem dueTo_of_mem_fileItem {item : TreeItem} {name : Bytes} {e : Entry} (hi : item ∈ fileItem name e)
    (hn : Bytes.slash ∉ name) (hp : e.path = base ++ name) : DueTo base item e := by
  rw [fileItem] at hi
  split at hi
  · cases hi
  · rw [List.mem_singleton.1 hi]
    exact .file hn hp

/-- The item of a subdirectory is due to every entry below it. -/
theorem dueTo_of_mem_subtreeItem {item : TreeItem} {name : Bytes} {k : Known} {e : Entry}
    (hi : item ∈ subtreeItem name k) (hn : Bytes.slash ∉ name)
    (hb : e.path.beginsWith (Bytes.below base name) = true) : DueTo base item e := by
  rw [subtreeItem] at hi
  split at hi
  · cases hi
  · rename_i hid
    rw [List.mem_singleton.1 hi]
    exact .subtree hn hb hid

/-- Every item is due to one of the entries that are left. -/
theorem Itemized.exists_dueTo (h : T.Itemized base left items) {item : TreeItem}
    (hi : item ∈ items) : ∃ e ∈ left, DueTo base item e := by
  induction h with
  | done => cases hi
  | @file name e left items ha hp hn _ ih =>
    rcases List.mem_append.1 hi with hi | hi
    · exact ⟨e, List.mem_cons_self, dueTo_of_mem_fileItem hi hn hp⟩
    · obtain ⟨o, ho, hdue⟩ := ih hi
      exact ⟨o, List.mem_cons_of_mem _ ho, hdue⟩
  | @subtree name inside left items k ha _ ih =>
    rcases List.mem_append.1 hi with hi | hi
    · obtain ⟨o, ho⟩ := List.exists_mem_of_ne_nil inside ha.ne_nil
      exact ⟨o, List.mem_append_left _ ho,
        dueTo_of_mem_subtreeItem hi ha.slash (ha.beginsWith ho)⟩
    · obtain ⟨o, ho, hdue⟩ := ih hi
      exact ⟨o, List.mem_append_right _ ho, hdue⟩

/-- In a table without conflicts different entries have different paths. -/
theorem Invariant.path_ne (hT : T.Invariant) (hm : ∀ e ∈ T, e.stage = .merged) {e o : Entry}
    (hs : (e :: left).Sublist T) (ho : o ∈ left) : e.path ≠ o.path := by
  intro hp
  have hlt := (List.pairwise_cons.1 (hT.sorted.sublist hs)).1 o ho
  have he := hm e (hs.subset List.mem_cons_self)
  have ho := hm o (hs.subset (List.mem_cons_of_mem _ ho))
  simp [Entry.key, hp, he, ho] at hlt

/-- The items of a directory have different names: an entry is not before and after another, and no
path is a directory of another. -/
theorem Itemized.pairwise_name (h : T.Itemized base left items) (hT : T.Invariant)
    (hm : ∀ e ∈ T, e.stage = .merged) : items.Pairwise fun a b => a.name ≠ b.name := by
  induction h with
  | done => exact List.Pairwise.nil
  | @file name e left items ha hp hn hleft ih =>
    refine List.pairwise_append.2 ⟨?_, ih, ?_⟩
    · rw [fileItem]
      split <;> simp
    · intro a hia b hib hname
      rw [fileItem] at hia
      split at hia
      · cases hia
      · obtain rfl := List.mem_singleton.1 hia
        obtain ⟨o, ho, hdue⟩ := hleft.exists_dueTo hib
        have hsub := ha.sublist
        cases hdue with
        | @file own _ _ hpo =>
          obtain rfl : name = own := hname
          exact hT.path_ne hm hsub ho (hp.trans hpo.symm)
        | @subtree own _ _ _ hb _ =>
          -- The path of the file would be a directory.
          obtain rfl : name = own := hname
          have := hT.separate e (hsub.subset List.mem_cons_self) o
            (hsub.subset (List.mem_cons_of_mem _ ho))
          rw [hp, ← Bool.not_eq_true] at this
          exact this hb
  | @subtree name inside left items k ha hleft ih =>
    refine List.pairwise_append.2 ⟨?_, ih, ?_⟩
    · rw [subtreeItem]
      split <;> simp
    · intro a hia b hib hname
      rw [subtreeItem] at hia
      split at hia
      · cases hia
      · obtain rfl := List.mem_singleton.1 hia
        obtain ⟨o, ho, hdue⟩ := hleft.exists_dueTo hib
        cases hdue with
        | @file own _ _ hpo =>
          -- The path of a later file would be the directory that has been left.
          obtain rfl : name = own := hname
          obtain ⟨i, hi⟩ := List.exists_mem_of_ne_nil inside ha.ne_nil
          have hsub := ha.ahead.sublist
          have := hT.separate o (hsub.subset (List.mem_append_right _ ho)) i
            (hsub.subset (List.mem_append_left _ hi))
          rw [hpo, ← Bool.not_eq_true] at this
          exact this (ha.beginsWith hi)
        | @subtree own _ _ _ hb _ =>
          obtain rfl : name = own := hname
          have hout := ha.outside o ho
          rw [← Bool.not_eq_true] at hout
          exact hout hb

/-- The name of an item is a component of the path to which it is due. -/
theorem DueTo.valid {item : TreeItem} {e : Entry} (h : DueTo base item e) (hb : Bytes.IsBase base)
    (hv : Path.IsValid e.path) : Path.IsValid item.name ∧ Bytes.slash ∉ item.name := by
  cases h with
  | @file name _ hn hp =>
    rw [hp] at hv
    refine ⟨hv.component (Bytes.mem_components_last hb hn) fun hnul => ?_, hn⟩
    exact hv.nul_notMem (List.mem_append_right _ hnul)
  | @subtree name id _ hn hbelow _ =>
    obtain ⟨rest, hp⟩ := Bytes.beginsWith_below_iff.1 hbelow
    rw [hp] at hv
    refine ⟨hv.component (Bytes.mem_components hb hn) fun hnul => ?_, hn⟩
    exact hv.nul_notMem (by simp [hnul])

end Table

/-! ## Listings -/

/-- What is expected of a listing of the directory with a base: its items are in order, their names
are different, each is a path of one component, and no subdirectory is empty, unless the table has it
so. -/
structure Tree.Canonical (T : Table) (base : Bytes) (t : Tree) : Prop where
  increasing : t.items.Pairwise fun a b => compare a b = .lt
  distinct : t.items.Pairwise fun a b => a.name ≠ b.name
  named : ∀ item ∈ t.items, Path.IsValid item.name ∧ Bytes.slash ∉ item.name
  nonempty : ∀ item ∈ t.items, item.mode = .directory → item.id = Tree.empty.id →
    ∃ e ∈ T, e.path = base ++ item.name ∧ e.mode = .directory ∧ e.id = item.id

namespace Table

variable {T : Table} {base : Bytes} {items : List TreeItem}

/-- The listing that is made of the items of a directory is canonical. -/
theorem Itemized.canonical (h : T.Itemized base (T.beginning base) items) (hT : T.Invariant)
    (hm : ∀ e ∈ T, e.stage = .merged) (hb : Bytes.IsBase base) :
    (Tree.ofList items).Canonical T base := by
  have hperm : (Tree.ofList items).items.Perm items := List.mergeSort_perm items _
  have hdue : ∀ item ∈ (Tree.ofList items).items, ∃ e ∈ T, DueTo base item e := by
    intro item hi
    obtain ⟨e, he, hdue⟩ := h.exists_dueTo (hperm.subset hi)
    exact ⟨e, (mem_beginning.1 he).1, hdue⟩
  have hnamed : ∀ item ∈ (Tree.ofList items).items,
      Path.IsValid item.name ∧ Bytes.slash ∉ item.name := by
    intro item hi
    obtain ⟨e, he, hdue⟩ := hdue item hi
    exact hdue.valid hb (hT.valid e he)
  have hdistinct : (Tree.ofList items).items.Pairwise fun a b => a.name ≠ b.name :=
    (hperm.pairwise_iff fun hab => Ne.symm hab).2 (h.pairwise_name hT hm)
  have hle : (Tree.ofList items).items.Pairwise
      fun a b => (compare a.sortKey b.sortKey).isLE = true :=
    pairwise_mergeSort_compare TreeItem.sortKey items
  refine ⟨?_, hdistinct, hnamed, ?_⟩
  · refine List.Pairwise.imp_of_mem ?_ (hle.and hdistinct)
    rintro a b ha hb ⟨hab, hne⟩
    have hkey := TreeItem.sortKey_ne (hnamed a ha).2 (hnamed b hb).2 hne
    have hlt : compare a.sortKey b.sortKey = .lt := compare_eq_lt_of_ne hab hkey
    exact hlt
  · intro item hi hmode hid
    obtain ⟨e, he, hdue⟩ := hdue item hi
    cases hdue with
    | file _ hp => exact ⟨e, he, hp, hmode, rfl⟩
    | subtree _ _ hne => exact absurd hid hne

variable {σ : Type} [ObjectDatabase σ]

/-- What storing the items of a directory keeps, each step of materializing keeps, and each step of
listing gives the items of what is left. -/
theorem stepsKeep_offers {Q : σ → Prop}
    (hQ : ∀ base items s, Bytes.IsBase base → T.Itemized base (T.beginning base) items → Q s →
      Q (ObjectDatabase.insertTree (Tree.ofList items) s).2) :
    CacheTree.StepsKeep T (fun _ _ (s : σ) r => Q s → Q r.2.1)
      (fun base left _ (s : σ) r => (Q s → Q r.2.1) ∧
        ∀ items n, r.2.2 = .ok (items, n) → T.Itemized base left items) where
  known _ _ := id
  stale _ _ := id
  unlisted _ _ _ hl := hl.1
  refused _ hb _ hl hi hs := by
    have := hQ _ _ _ hb (hl.2 _ _ rfl) (hl.1 hs)
    rwa [hi] at this
  stored _ hb _ hl _ hi hs := by
    have := hQ _ _ _ hb (hl.2 _ _ rfl) (hl.1 hs)
    rwa [hi] at this
  done := by
    refine ⟨id, ?_⟩
    rintro items n h
    cases h
    exact .done
  conflict _ _ := ⟨id, by simp⟩
  file ha hp hn _ hl := by
    refine ⟨hl.1, ?_⟩
    intro items n h
    obtain ⟨⟨items', n'⟩, hr, h⟩ := Check.map_eq_ok.1 h
    cases h
    exact .file ha hp hn (hl.2 items' n' hr)
  unfinished _ hc := ⟨hc, by simp⟩
  subtree ha _ hc _ hl := by
    refine ⟨fun hs => hl.1 (hc hs), ?_⟩
    intro items n h
    obtain ⟨⟨items', n'⟩, hr, h⟩ := Check.map_eq_ok.1 h
    cases h
    exact .subtree ha (hl.2 items' n' hr)

end Table

namespace Recorded

variable {σ : Type} [ObjectDatabase σ] {T : Table}

/-- Every listing that is offered when a table without conflicts is materialized is canonical for a
directory, whatever the cache tree and whatever the database answers; and recording what is offered
changes neither the result nor the cache tree nor the database. -/
theorem canonical_of_mem_offered (hT : T.Invariant) (hm : ∀ e ∈ T, e.stage = .merged) (t : CacheTree)
    (s : σ) :
    t.update T s = ((t.update T (start s)).1, (t.update T (start s)).2.1.database,
        (t.update T (start s)).2.2) ∧
      ∀ tree ∈ (t.update T (start s)).2.1.offered,
        ∃ base, Bytes.IsBase base ∧ tree.Canonical T base := by
  refine ⟨update_eq t T (start s), ?_⟩
  have hkeep := Table.stepsKeep_offers (T := T)
    (Q := fun r : Recorded σ => ∀ tree ∈ r.offered, ∃ base, Bytes.IsBase base ∧ tree.Canonical T base)
    (by
      intro base items r hb h hr tree htree
      rw [insertTree_eq] at htree
      rcases List.mem_append.1 htree with htree | htree
      · exact hr tree htree
      · rw [List.mem_singleton.1 htree]
        exact ⟨base, hb, h.canonical hT hm hb⟩)
  exact (hkeep.materialize hT.sorted t (start s)).1 (by simp)

/-- A file `z` below `c`, and a directory `d` that the table itself has. -/
def laterFiles (id : ObjectId) : Table :=
  [.bare [0x63, 0x2f, 0x7a] .merged .regular .null, .bare [0x64] .merged .directory id]

/-- Before them, below `a`, a file `b/x` and a file `y`. -/
def innerFiles (id : ObjectId) : Table :=
  .bare [0x61, 0x2f, 0x62, 0x2f, 0x78] .merged .regular .null ::
    .bare [0x61, 0x2f, 0x79] .merged .regular .null :: laterFiles id

/-- And before all of them a file `a-`. The directory `d` is one without entries. -/
def nestedFiles : Table := .bare [0x61, 0x2d] .merged .regular .null :: innerFiles Tree.empty.id

/-- A cache tree that knows the directory `c`, by a wrong name, and a directory `d` with three entries,
although there are none. -/
def wrongNodes : CacheTree :=
  .node [] none [.node [0x63] (some ⟨1, .filled 7⟩) [], .node [0x64] (some ⟨3, .null⟩) []]

/-- The listing of `a/b`. -/
def innerListing : Tree := ⟨[⟨.regular, [0x78], .null⟩]⟩

/-- The listing of `a`. -/
def outerListing : Tree := ⟨[⟨.directory, [0x62], innerListing.id⟩, ⟨.regular, [0x79], .null⟩]⟩

/-- The listing of the root. -/
def rootListing : Tree :=
  ⟨[⟨.regular, [0x61, 0x2d], .null⟩, ⟨.directory, [0x61], outerListing.id⟩,
    ⟨.directory, [0x63], .filled 7⟩, ⟨.directory, [0x64], Tree.empty.id⟩]⟩

/-- The listings come out in order. -/
theorem ofList_nestedFiles :
    Tree.ofList innerListing.items = innerListing ∧ Tree.ofList outerListing.items = outerListing ∧
      Tree.ofList rootListing.items = rootListing := by
  have hsorted : ∀ t : Tree, (t.items.Pairwise fun a b => (compare a.sortKey b.sortKey).isLE = true) →
      Tree.ofList t.items = t := by
    intro t ht
    exact congrArg Tree.mk (List.mergeSort_of_pairwise ht)
  refine ⟨hsorted _ (by decide), hsorted _ (by decide), hsorted _ (by decide)⟩

/-- Neither of the directories is empty. -/
theorem subtreeItem_nestedFiles :
    CacheTree.subtreeItem [0x62] ⟨1, innerListing.id⟩ = [⟨.directory, [0x62], innerListing.id⟩] ∧
      CacheTree.subtreeItem [0x61] ⟨2, outerListing.id⟩ = [⟨.directory, [0x61], outerListing.id⟩] ∧
      CacheTree.subtreeItem [0x63] ⟨1, .filled 7⟩ = [⟨.directory, [0x63], .filled 7⟩] := by
  refine ⟨if_neg (by decide +kernel), if_neg (by decide +kernel), if_neg (by decide +kernel)⟩

/-- The directory `a` is listed after `b`, and what follows plays no part. -/
theorem list_innerFiles (id : ObjectId) (s : Recorded TreeLog) : ∃ children,
    CacheTree.list [] (innerFiles id) ([] ++ [0x61] ++ [Bytes.slash]) s =
      (children, (ObjectDatabase.insertTree innerListing s).2, .ok (outerListing.items, 2)) := by
  have hx : CacheTree.list [] (innerFiles id) ([0x61, 0x2f] ++ [0x62] ++ [Bytes.slash]) s =
      ([], s, .ok (innerListing.items, 1)) := by
    cbv
  have hy : ∀ s : Recorded TreeLog, CacheTree.list [] (innerFiles id).tail [0x61, 0x2f] s =
      ([], s, .ok ([⟨.regular, [0x79], .null⟩], 1)) := by
    intro s
    cbv
  have hstored : (ObjectDatabase.insertTree (Tree.ofList innerListing.items) s).1 =
      .ok (Tree.ofList innerListing.items).id := rfl
  have hpath : Bytes.afterPrefix? [0x61, 0x2f, 0x62, 0x2f, 0x78] [0x61, 0x2f] =
      some ([0x62] ++ Bytes.slash :: [0x78]) := by decide
  have hslash : Bytes.slash ∉ ([0x62] : Bytes) := by decide
  have hb := CacheTree.list_unknown hpath rfl hslash (CacheTree.takeChild_nil [0x62]) hx hstored
  rw [Nat.sub_self, List.drop_zero, ofList_nestedFiles.1, subtreeItem_nestedFiles.1] at hb
  rw [show _ :: laterFiles id = (innerFiles id).tail from rfl, hy] at hb
  exact ⟨_, hb⟩

/-- From `c` on everything is listed without storing anything: `c` is known, and what is known of `d`
is not asked for. -/
theorem list_laterFiles (id : ObjectId) (s : Recorded TreeLog) :
    CacheTree.list wrongNodes.children (laterFiles id) [] s =
      ([.node [0x63] (some ⟨1, .filled 7⟩) []], s,
        .ok ([⟨.directory, [0x63], .filled 7⟩, ⟨.directory, [0x64], id⟩], 2)) := by
  have hpath : Bytes.afterPrefix? [0x63, 0x2f, 0x7a] [] =
      some ([0x63] ++ Bytes.slash :: [0x7a]) := rfl
  have hslash : Bytes.slash ∉ ([0x63] : Bytes) := by decide
  have htaken : CacheTree.takeChild wrongNodes.children [0x63] =
      (.node [0x63] (some ⟨1, .filled 7⟩) [], [.node [0x64] (some ⟨3, .null⟩) []]) := by
    cbv
  have hreused : CacheTree.materialize (CacheTree.takeChild wrongNodes.children [0x63]).1
      (laterFiles id) ([] ++ [0x63] ++ [Bytes.slash]) s =
      (.node [0x63] (some ⟨1, .filled 7⟩) [], s, .ok ⟨1, .filled 7⟩) := by
    rw [htaken, CacheTree.materialize]
    rfl
  have hd : CacheTree.list [.node [0x64] (some ⟨3, .null⟩) []]
      [.bare [0x64] .merged .directory id] [] s = ([], s, .ok ([⟨.directory, [0x64], id⟩], 1)) := by
    cbv
  rw [laterFiles, CacheTree.list_subtree hpath rfl hslash hreused, htaken]
  simp only [Nat.sub_self, List.drop_zero, hd, subtreeItem_nestedFiles.2.2]
  rfl

/-- Before that `a` is listed, and `a/b` below it. -/
theorem list_nestedFiles (s : Recorded TreeLog) : ∃ children,
    CacheTree.list wrongNodes.children nestedFiles [] s =
      (children, (ObjectDatabase.insertTree outerListing
          (ObjectDatabase.insertTree innerListing s).2).2, .ok (rootListing.items, 5)) := by
  obtain ⟨below, hlisted⟩ := list_innerFiles Tree.empty.id s
  have htaken : CacheTree.takeChild wrongNodes.children [0x61] =
      (CacheTree.unknown [0x61], wrongNodes.children) := by
    cbv
  have hstored : (ObjectDatabase.insertTree (Tree.ofList outerListing.items)
      (ObjectDatabase.insertTree innerListing s).2).1 = .ok (Tree.ofList outerListing.items).id := rfl
  have hfile : Bytes.afterPrefix? [0x61, 0x2d] [] = some [0x61, 0x2d] := rfl
  have hpath : Bytes.afterPrefix? [0x61, 0x2f, 0x62, 0x2f, 0x78] [] =
      some ([0x61] ++ Bytes.slash :: [0x62, 0x2f, 0x78]) := rfl
  have hslash : Bytes.slash ∉ ([0x61] : Bytes) := by decide
  have ha := CacheTree.list_unknown hpath rfl hslash htaken hlisted hstored
  simp only [ofList_nestedFiles.2.1, Nat.add_one_sub_one, List.drop_succ_cons, List.drop_zero,
    list_laterFiles, subtreeItem_nestedFiles.2.1] at ha
  rw [nestedFiles, CacheTree.list_file hfile rfl (by decide), innerFiles, ha]
  exact ⟨_, rfl⟩

/-- The listings of `a/b`, of `a` and of the root are offered in this order, and are canonical. -/
theorem canonical_of_mem_offered_nestedFiles :
    nestedFiles.Invariant ∧ (∀ e ∈ nestedFiles, e.stage = .merged) ∧
      (wrongNodes.update nestedFiles (start (TreeLog.mk []))).2.1.offered =
        [innerListing, outerListing, rootListing] ∧
      ∀ tree ∈ [innerListing, outerListing, rootListing],
        ∃ base, Bytes.IsBase base ∧ tree.Canonical nestedFiles base := by
  have hsorted : nestedFiles.IsSorted := by
    unfold Table.IsSorted
    decide
  have hT : nestedFiles.Invariant := ⟨hsorted, by decide, by decide, by decide⟩
  have hm : ∀ e ∈ nestedFiles, e.stage = .merged := by
    simp [nestedFiles, innerFiles, laterFiles, Entry.bare]
  have hoffered : (wrongNodes.update nestedFiles (start (TreeLog.mk []))).2.1.offered =
      [innerListing, outerListing, Tree.ofList rootListing.items] := by
    obtain ⟨children, hlist⟩ := list_nestedFiles (start (TreeLog.mk []))
    rw [CacheTree.update_eq_map, CacheTree.materialize, hlist]
    rfl
  rw [ofList_nestedFiles.2.2] at hoffered
  refine ⟨hT, hm, hoffered, ?_⟩
  have hcanonical := (canonical_of_mem_offered hT hm wrongNodes (TreeLog.mk [])).2
  rwa [hoffered] at hcanonical

end Recorded

end StagingIndex
