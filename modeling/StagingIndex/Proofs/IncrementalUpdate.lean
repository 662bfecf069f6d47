import Mathlib
import StagingIndex.Proofs.CountedNodes
import StagingIndex.Proofs.RebuiltDirectories
import StagingIndex.Proofs.ReplacedTables

/-! # Incremental updates

A cache tree is faithful to a table if it knows of every directory what an empty one would find out.
Materializing with it then gives what materializing with an empty one gives, and offers the database
one listing for each directory that has entries and is not known, nor any directory above it.

* `CacheTree.yields` — what an empty cache tree yields for the entries below a directory
* `CacheTree.Faithful`, `CacheTree.all_faithful_iff` — cache trees that agree with that
* `CacheTree.exists_dirs` — directories in place of the names that lead to them
* `CacheTree.update_exact` — the result of an update, and what it writes -/

namespace StagingIndex

instance {σ : Type} [ObjectDatabase σ] [AcceptsListings σ] : AcceptsListings (Recorded σ) where
  insertTree_fst t r := AcceptsListings.insertTree_fst t r.database

namespace CacheTree

variable {σ : Type} [ObjectDatabase σ] {T : Table} {base : Bytes} {t : CacheTree}

/-! ## Faithful cache trees -/

/-- The tree object that an empty cache tree yields for the entries below a directory, with a database
that accepts everything. -/
def yields (base : Bytes) (es : Table) : Except IndexError ObjectId :=
  (empty.materialize es base (TreeLog.mk [])).2.2.map Known.id

/-- A node has its subdirectories strictly sorted by name, and what it knows is the number of entries
below its directory and the tree object that an empty cache tree yields for them. -/
structure Faithful (T : Table) (base : Bytes) (t : CacheTree) : Prop where
  sorted : SiblingsSorted t
  count_eq : ∀ k, t.known = some k → k.count = (T.beginning base).length
  yields_eq : ∀ k, t.known = some k → yields base (T.beginning base) = .ok k.id

/-- An empty cache tree yields for a directory what its entries make, with any database that stores
every listing. -/
theorem materialize_empty [AcceptsListings σ] (hs : T.IsSorted) (hm : ∀ e ∈ T, e.stage = .merged)
    (hb : Bytes.IsBase base) (s : σ) :
    (empty.materialize (T.beginning base) base s).2.2 =
      .ok (Table.exact base (T.beginning base)) := by
  have hself := Table.beginning_beginning (T := T) (List.prefix_refl base)
  have hsub : (T.beginning base).IsSorted := hs.sublist List.filter_sublist
  have hmerged : ∀ e ∈ T.beginning base, e.stage = .merged := fun e he =>
    hm e (Table.mem_beginning.1 he).1
  -- The entries below the directory are a table that starts with it.
  have hstart : Table.StartsAt (T.beginning base) [] (T.beginning base) base := by
    refine ⟨rfl, by simp, ?_⟩
    rw [hself, List.takeWhile_eq_self_iff]
    exact fun e he => (Table.mem_beginning.1 he).2
  have ht : All (Truthful (T.beginning base)) base empty := all_unknown (truthful_of_none rfl)
  obtain ⟨-, hrefused⟩ := (((stepsKeep_refusedBy acceptsFrom_true.insertTree_snd hmerged).keeps
    hsub).1 empty _ base s [] hstart hb).1 trivial ht
  obtain ⟨-, hexact⟩ := ((stepsKeep_truthful.keeps hsub).1 empty _ base s [] hstart hb).1 ht
  cases hr : (empty.materialize (T.beginning base) base s).2.2 with
  | ok k => rw [hexact k hr, hself]
  | error fault => exact absurd (hrefused fault hr) (not_refusedBy acceptsFrom_true fault)

/-- What an empty cache tree yields for a directory is the tree of the directory. -/
theorem yields_beginning (hs : T.IsSorted) (hm : ∀ e ∈ T, e.stage = .merged)
    (hb : Bytes.IsBase base) : yields base (T.beginning base) = .ok (T.treeAt base).id := by
  rw [yields, materialize_empty hs hm hb]
  rfl

/-- The tree object that the entries of a whole table make is that of the root. -/
theorem id_exact_nil (T : Table) : (Table.exact [] T).id = (T.treeAt []).id := by
  rw [Table.treeAt, Table.beginning_nil]
  rfl

/-- Materializing a table without conflicts from an empty cache tree gives the tree object of the root,
with any database that stores every listing. -/
theorem update_empty [AcceptsListings σ] (hs : T.IsSorted) (hm : ∀ e ∈ T, e.stage = .merged) (s : σ) :
    (empty.update T s).2.2 = .ok (T.treeAt []).id := by
  have ht : All (Truthful T) [] empty := all_unknown (truthful_of_none rfl)
  rw [update_isOk acceptsFrom_true hs hm ht trivial, id_exact_nil]

/-- Where materializing a table from an empty cache tree succeeds, it gives the tree object of the root,
with any database that names what it stores truly. -/
theorem eq_of_update_empty [NamesListings σ] (hs : T.IsSorted) {s : σ} {id : ObjectId}
    (h : (empty.update T s).2.2 = .ok id) : id = (T.treeAt []).id := by
  have ht : All (Truthful T) [] empty := all_unknown (truthful_of_none rfl)
  rw [update_eq_exact hs ht h, id_exact_nil]

/-- A node is faithful if its subdirectories are in order and what it knows is right. -/
theorem faithful_iff (hs : T.IsSorted) (hm : ∀ e ∈ T, e.stage = .merged) (hb : Bytes.IsBase base) :
    Faithful T base t ↔ SiblingsSorted t ∧ Truthful T base t := by
  have hyields := yields_beginning hs hm hb
  constructor
  · rintro ⟨hsorted, hcount, hid⟩
    refine ⟨hsorted, fun k hk => ?_⟩
    have hid : k.id = (T.treeAt base).id := Except.ok.inj ((hid k hk).symm.trans hyields)
    show (⟨k.count, k.id⟩ : Known) = _
    rw [hcount k hk, hid]
    rfl
  · rintro ⟨hsorted, hright⟩
    refine ⟨hsorted, fun k hk => ?_, fun k hk => ?_⟩
    · rw [hright k hk]
      rfl
    · rw [hyields, hright k hk]
      rfl

/-- A cache tree is faithful if its siblings are in order and everything that is known is right. -/
theorem all_faithful_iff (hs : T.IsSorted) (hm : ∀ e ∈ T, e.stage = .merged) :
    All (Faithful T) [] t ↔
      All (fun _ n => SiblingsSorted n) [] t ∧ All (Truthful T) [] t := by
  have hbase : All (fun b _ => Bytes.IsBase b) [] t := all_isBase (Or.inl rfl)
  constructor
  · intro h
    have hboth := h.and hbase
    exact ⟨hboth.imp fun b n hn => ((faithful_iff hs hm hn.2).1 hn.1).1,
      hboth.imp fun b n hn => ((faithful_iff hs hm hn.2).1 hn.1).2⟩
  · rintro ⟨hsorted, hright⟩
    exact ((hsorted.and hright).and hbase).imp fun b n hn => (faithful_iff hs hm hn.2).2 hn.1

/-! ## Directories -/

/-- Where a directory has entries, all directories above it have. -/
theorem beginning_ne_nil_of_isPrefix {b : Bytes} (h : base <+: b) (hb : T.beginning b ≠ []) :
    T.beginning base ≠ [] := by
  intro hnil
  rw [← Table.beginning_beginning h, hnil] at hb
  exact hb rfl

/-- Names that lead to entries, or nowhere, are those of a directory. -/
theorem exists_dir (hT : T.Invariant) {names : List Bytes} (hn : ∀ n ∈ names, Bytes.slash ∉ n)
    (hne : names = [] ∨ T.beginning (Bytes.baseOf [] names) ≠ []) : ∃ d, Bytes.names d = names := by
  rcases hne with rfl | hne
  · exact ⟨[], rfl⟩
  · obtain ⟨e, he⟩ := List.exists_mem_of_ne_nil _ hne
    obtain ⟨heT, hb⟩ := Table.mem_beginning.1 he
    exact Bytes.exists_names_eq hn (hT.valid e heT) hb

/-- Nothing is known on the way to a directory with entries if neither it nor a directory above it is
known. -/
theorem unknownAlong_names_iff (hT : T.Invariant) (hs : All (fun _ n => SiblingsSorted n) [] t)
    {d : Bytes} (hd : d = [] ∨ T.beginning (Bytes.asBase d) ≠ []) :
    t.UnknownAlong d.names ↔ ∀ a, Bytes.asBase a <+: Bytes.asBase d → ∀ k, ¬ t.Knows a k := by
  rw [unknownAlong_iff]
  constructor
  · intro h a ha k hk
    exact h a.names (Bytes.names_isPrefix_iff.2 ha) ((exists_knows_iff hs).1 ⟨k, hk⟩)
  · intro h ps hps hr
    -- The names lead to a directory that has entries as well.
    obtain ⟨a, rfl⟩ : ∃ a, Bytes.names a = ps := by
      refine exists_dir hT (fun n hn => Bytes.slash_notMem_of_names (hps.subset hn)) ?_
      rcases hd with rfl | hd
      · exact Or.inl (List.prefix_nil.1 hps)
      · obtain ⟨rest, hrest⟩ := hps
        refine Or.inr (beginning_ne_nil_of_isPrefix ?_ hd)
        rw [← Bytes.baseOf_names, ← hrest, Bytes.baseOf_append]
        exact Bytes.isPrefix_baseOf _ _
    obtain ⟨k, hk⟩ := (exists_knows_iff hs).2 hr
    exact h a (Bytes.names_isPrefix_iff.1 hps) k hk

/-- The names of directories that were rebuilt are those of the directories that have entries and are
not known, nor any directory above them. -/
theorem Rebuilt.exists_dirs (hT : T.Invariant) (hs : All (fun _ n => SiblingsSorted n) [] t)
    {offered offered' : List Tree} {t' : CacheTree} {ds : List (List Bytes)}
    (h : Rebuilt T [] t offered offered' t' ds) :
    ∃ dirs : List Bytes, dirs.map Bytes.names = ds ∧ dirs.Nodup ∧
      ∀ d, d ∈ dirs ↔ (d = [] ∨ T.beginning (Bytes.asBase d) ≠ []) ∧
        ∀ a, Bytes.asBase a <+: Bytes.asBase d → ∀ k, ¬ t.Knows a k := by
  obtain ⟨dirs, rfl⟩ : ds ∈ Set.range (List.map Bytes.names) := by
    rw [Set.range_list_map]
    intro names hn
    obtain ⟨hslash, hne, -⟩ := (h.mem_iff names).1 hn
    exact exists_dir hT hslash hne
  refine ⟨dirs, rfl, h.nodup.of_map, fun d => ?_⟩
  rw [← List.mem_map_of_injective Bytes.names_injective, h.mem_iff, Bytes.names_eq_nil_iff,
    Bytes.baseOf_names]
  constructor
  · rintro ⟨-, hd, hu⟩
    exact ⟨hd, (unknownAlong_names_iff hT hs hd).1 hu⟩
  · rintro ⟨hd, hu⟩
    exact ⟨fun n => Bytes.slash_notMem_of_names, hd, (unknownAlong_names_iff hT hs hd).2 hu⟩

/-! ## Updates -/

/-- Updating a cache tree that is faithful to a table without conflicts succeeds with the tree object
that an empty cache tree gives, and leaves a faithful cache tree whose root is known. The database is
offered one listing for each of some directories: the root and those that have entries, as far as
neither they nor directories above them were known. Each of these listings makes what an empty cache
tree yields for the directory, which is known afterwards and has subdirectories only where there are
entries. -/
theorem update_exact [AcceptsListings σ] (hT : T.Invariant) (hm : ∀ e ∈ T, e.stage = .merged)
    (ht : All (Faithful T) [] t) (s : σ) :
    (∃ id, (t.update T s).2.2 = .ok id ∧ (empty.update T s).2.2 = .ok id) ∧
      All (Faithful T) [] (t.update T s).1 ∧ (t.update T s).1.known ≠ none ∧
      t.update T s = ((t.update T (Recorded.start s)).1,
        (t.update T (Recorded.start s)).2.1.database, (t.update T (Recorded.start s)).2.2) ∧
      ∃ dirs : List Bytes, dirs.Nodup ∧
        (∀ d, d ∈ dirs ↔ (d = [] ∨ T.beginning (Bytes.asBase d) ≠ []) ∧
          ∀ a, Bytes.asBase a <+: Bytes.asBase d → ∀ k, ¬ t.Knows a k) ∧
        (t.update T (Recorded.start s)).2.1.offered =
          dirs.map (fun d => T.treeAt (Bytes.asBase d)) ∧
        ∀ d ∈ dirs,
          yields (Bytes.asBase d) (T.beginning (Bytes.asBase d)) =
              .ok (T.treeAt (Bytes.asBase d)).id ∧
            ∃ n, (t.update T s).1.find d = some n ∧ Relisted T (Bytes.asBase d) n := by
  obtain ⟨hsorted, hright⟩ := (all_faithful_iff hT.sorted hm).1 ht
  have hempty : All (Truthful T) [] empty := all_unknown (truthful_of_none rfl)
  have hrecorded : t.update T s = ((t.update T (Recorded.start s)).1,
      (t.update T (Recorded.start s)).2.1.database, (t.update T (Recorded.start s)).2.2) :=
    Recorded.update_eq t T (Recorded.start s)
  have htree : (t.update T s).1 = (t.materialize T [] (Recorded.start s)).1 :=
    congrArg Prod.fst hrecorded
  obtain ⟨k, hk⟩ := materialize_isOk acceptsFrom_true hT.sorted hm hright
    (s := Recorded.start s) trivial
  obtain ⟨⟨hafter, hdone⟩, -⟩ := stepsKeep_rebuilt.materialize hT.sorted t (Recorded.start s)
  obtain ⟨hsorted', ds, hds⟩ := hdone hright hsorted k hk
  obtain ⟨dirs, rfl, hnodup, hmem⟩ := hds.exists_dirs hT hsorted
  refine ⟨⟨_, update_isOk acceptsFrom_true hT.sorted hm hright trivial,
    update_isOk acceptsFrom_true hT.sorted hm hempty trivial⟩, ?_, ?_, hrecorded,
    dirs, hnodup, hmem, ?_,
    fun d hd => ⟨yields_beginning hT.sorted hm (Bytes.isBase_asBase d), ?_⟩⟩
  · rw [htree]
    exact (all_faithful_iff hT.sorted hm).2 ⟨hsorted', (hafter hright).1⟩
  · rw [htree, known_of_materialize hk]
    exact Option.some_ne_none k
  · have hoffered := hds.offered_eq
    simp only [List.map_map, Function.comp_def, Bytes.baseOf_names, Recorded.offered_start,
      List.nil_append] at hoffered
    exact hoffered
  · rw [htree]
    have hreached := hds.relisted _ (List.mem_map_of_mem hd)
    rw [Bytes.baseOf_names, reaches_iff_exists] at hreached
    obtain ⟨n, hn, hlisted⟩ := hreached
    exact ⟨n, (find_eq_some_iff hsorted').2 hn, hlisted⟩

/-- Files `a/x` and `b/y`. -/
def twoFiles : Table := Index.twoDirectories.table

/-- The node of the directory `a`, which knows what it has to. -/
def knownDirectory : CacheTree :=
  .node [0x61] (some (Table.exact [0x61, 0x2f] (twoFiles.beginning [0x61, 0x2f]))) []

/-- A cache tree that knows of the directory `a`, and nothing else. -/
def oneKnown : CacheTree := .node [] none [knownDirectory]

/-- With `a` known, the listings of `b` and of the root are offered, and not that of `a`. -/
theorem update_exact_oneKnown :
    twoFiles.Invariant ∧ (∀ e ∈ twoFiles, e.stage = .merged) ∧ All (Faithful twoFiles) [] oneKnown ∧
      (∃ id, (oneKnown.update twoFiles (TreeLog.mk [])).2.2 = .ok id) ∧
      ∃ dirs : List Bytes,
        (oneKnown.update twoFiles (Recorded.start (TreeLog.mk []))).2.1.offered =
          dirs.map (fun d => twoFiles.treeAt (Bytes.asBase d)) ∧
        [] ∈ dirs ∧ [0x62] ∈ dirs ∧ [0x61] ∉ dirs := by
  have hT : twoFiles.Invariant := Index.twoDirectories_invariant
  have hm : ∀ e ∈ twoFiles, e.stage = .merged := by decide
  have hsorted : All (fun _ n => SiblingsSorted n) [] oneKnown := by
    simp [oneKnown, knownDirectory, All, AllBelow, SiblingsSorted]
  have hright : All (Truthful twoFiles) [] oneKnown := by
    simp [oneKnown, knownDirectory, All, AllBelow, Truthful, Bytes.below, Bytes.slash]
  have ht := (all_faithful_iff hT.sorted hm).2 ⟨hsorted, hright⟩
  obtain ⟨⟨id, hid, -⟩, -, -, -, dirs, -, hmem, hoffered, -⟩ :=
    update_exact hT hm ht (TreeLog.mk [])
  refine ⟨hT, hm, ht, ⟨id, hid⟩, dirs, hoffered, (hmem _).2 ⟨Or.inl rfl, ?_⟩,
    (hmem _).2 ⟨Or.inr (by decide), ?_⟩, fun ha => ?_⟩
  · rw [← unknownAlong_names_iff hT hsorted (Or.inl rfl)]
    rfl
  · rw [← unknownAlong_names_iff hT hsorted (Or.inr (by decide))]
    have hb : Bytes.names [0x62] = [[0x62]] := by decide
    simp [hb, oneKnown, knownDirectory]
  · have hfind : oneKnown.find [0x61] = some knownDirectory :=
      (find_eq_some_iff hsorted).2 ⟨_, List.mem_singleton_self _, rfl, rfl⟩
    exact ((hmem _).1 ha).2 [0x61] List.prefix_rfl _ ⟨_, hfind, rfl⟩

end CacheTree

end StagingIndex
