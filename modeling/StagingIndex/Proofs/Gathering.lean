import Mathlib
import StagingIndex.Proofs.EditedFiles
import StagingIndex.Proofs.Recording
import StagingIndex.Proofs.TreeCodec

/-! # What reading a stored tree gathers

A stored tree is read listing by listing. Each gives the entries of its files, in the order in which
they are listed, and a node for each of its subdirectories; nothing is compared on the way. So the
nodes are well-formed, with the right counts, exactly if in every listing the subdirectories have
different names, no name is one that paths take apart, and no file has a path below a subdirectory.

* `Tree.Nestable` — such listings
* `CacheTree.WellFormed` — what is expected of a node
* `CacheTree.Gathers` — the entries, nodes and listings that reading some items gives
* `CacheTree.gathers_of_collect` — reading a stored tree gathers the listings that are fetched
* `CacheTree.Gathers.wellFormed`, `CacheTree.Gathers.nestable` — the nodes of nestable listings, and
  the listings of well-formed nodes -/

namespace StagingIndex

/-! ## Listings -/

namespace Tree

/-- What holds of the listings that some objects hold, if each of them holds one. -/
theorem forall_ofObject_iff {os : List Object} {trees : List Tree}
    (h : os.map ofObject = trees.map .ok) {P : Tree → Prop} :
    (∀ o ∈ os, ∀ t, ofObject o = .ok t → P t) ↔ ∀ t ∈ trees, P t := by
  constructor
  · intro hall t ht
    have hmem : Except.ok t ∈ os.map ofObject := h ▸ List.mem_map_of_mem ht
    obtain ⟨o, ho, hof⟩ := List.mem_map.1 hmem
    exact hall o ho t hof
  · intro hall o ho t hof
    have hmem : ofObject o ∈ os.map ofObject := List.mem_map_of_mem ho
    rw [hof, h] at hmem
    obtain ⟨other, hother, heq⟩ := List.mem_map.1 hmem
    exact Except.ok.inj heq ▸ hall other hother

/-- Listings whose subdirectories paths can tell from each other and from the files. -/
structure Nestable (t : Tree) : Prop where
  /-- Subdirectories have different names. -/
  distinct : t.items.Pairwise fun a b =>
    a.mode = .directory → b.mode = .directory → a.name ≠ b.name
  /-- Subdirectories have names, and no slash in them. -/
  named : ∀ item ∈ t.items, item.mode = .directory → item.name ≠ [] ∧ Bytes.slash ∉ item.name
  /-- No file has a name that goes on from that of a subdirectory after a slash. -/
  apart : ∀ a ∈ t.items, a.mode = .directory → ∀ b ∈ t.items, b.mode ≠ .directory →
    b.name.beginsWith (a.name ++ [Bytes.slash]) = false

/-- Without its first item a listing is as nestable. -/
theorem Nestable.tail {item : TreeItem} {items : List TreeItem} (h : Nestable ⟨item :: items⟩) :
    Nestable ⟨items⟩ where
  distinct := (List.pairwise_cons.1 h.distinct).2
  named := fun a ha => h.named a (List.mem_cons_of_mem _ ha)
  apart := fun a ha hm b hb => h.apart a (List.mem_cons_of_mem _ ha) hm b (List.mem_cons_of_mem _ hb)

end Tree

namespace Bytes

/-- What begins with the base of a directory, and then goes on below a name, has the rest below that
name. -/
theorem beginsWith_below_append {base name s : Bytes} :
    (base ++ s).beginsWith (below base name) = s.beginsWith (name ++ [slash]) := by
  rw [Bool.eq_iff_iff, beginsWith_iff, beginsWith_iff, below, List.append_assoc,
    List.prefix_append_right_inj]

/-- The base of a subdirectory begins with that of its directory. -/
theorem asBase_prefix_join (dir name : Bytes) : asBase dir <+: asBase (join dir name) := by
  by_cases h : join dir name = []
  · have : dir = [] := by
      by_contra hd
      simp [join, hd] at h
    simp [asBase, this]
  · rw [asBase.eq_def (join dir name), if_neg h, join_eq, List.append_assoc]
    exact List.prefix_append _ _

end Bytes

namespace CacheTree

variable {σ : Type} [ObjectDatabase σ] {T : Table} {dir : Bytes} {items : List TreeItem}
  {es : List Entry} {cs : List CacheTree} {trees : List Tree}

/-! ## Reading -/

/-- The entries that reading some items of a directory gives, the nodes of their subdirectories, and
the listings of all directories below, each before those of its own subdirectories. -/
inductive Gathers : Bytes → List TreeItem → List Entry → List CacheTree → List Tree → Prop
  | done {dir : Bytes} : Gathers dir [] [] [] []
  | file {dir : Bytes} {item : TreeItem} {items : List TreeItem} {es : List Entry}
      {cs : List CacheTree} {trees : List Tree} (hm : item.mode ≠ .directory)
      (h : Gathers dir items es cs trees) :
      Gathers dir (item :: items)
        (Entry.bare (Bytes.join dir item.name) .merged item.mode item.id :: es) cs trees
  | subtree {dir : Bytes} {item : TreeItem} {items inner : List TreeItem} {es innerEs : List Entry}
      {cs innerCs : List CacheTree} {trees innerTrees : List Tree} (hm : item.mode = .directory)
      (h₁ : Gathers (Bytes.join dir item.name) inner innerEs innerCs innerTrees)
      (h₂ : Gathers dir items es cs trees) :
      Gathers dir (item :: items) (innerEs ++ es)
        (node item.name (some ⟨innerEs.length, item.id⟩) (sortByName innerCs) :: cs)
        (⟨inner⟩ :: innerTrees ++ trees)

/-- A reading of the tree of an id as a directory has gathered its listings, if it succeeds; these are
the ones that were fetched meanwhile. -/
def Gathered (id : ObjectId) (dir : Bytes) (r : Recorded σ)
    (x : Reading (Recorded σ) CacheTree) : Prop :=
  ∀ cache, x.2.2 = .ok cache → ∃ tree cs trees objects,
    Gathers dir tree.items x.1 cs trees ∧
      cache = node [] (some ⟨x.1.length, id⟩) (sortByName cs) ∧
      x.2.1.fetched = r.fetched ++ objects ∧ objects.map Tree.ofObject = (tree :: trees).map .ok

omit [ObjectDatabase σ] in
/-- Reading the items of a listing gathers them, if reading subtrees does. -/
theorem gathers_of_collectItems
    {load : ObjectId → Bytes → Recorded σ → Reading (Recorded σ) CacheTree}
    (hload : ∀ id dir r, Gathered id dir r (load id dir r)) {r r' : Recorded σ}
    (h : collectItems load dir .merged items r = (es, r', .ok cs)) :
    ∃ trees objects, Gathers dir items es cs trees ∧ r'.fetched = r.fetched ++ objects ∧
      objects.map Tree.ofObject = trees.map .ok := by
  induction items generalizing r r' es cs with
  | nil =>
    cases h
    exact ⟨[], [], .done, by simp, rfl⟩
  | cons item items ih =>
    rw [collectItems] at h
    by_cases hm : item.mode = .directory
    · rw [if_pos hm] at h
      have hgathered := hload item.id (Bytes.join dir item.name) r
      rcases hx : load item.id (Bytes.join dir item.name) r with
        ⟨read, r₁, e | ⟨own, known, children⟩⟩
      · rw [hx] at h
        cases h
      · rw [hx] at h hgathered
        obtain ⟨tree, innerCs, innerTrees, objects₁, h₁, hcache, hfetched₁, hobjects₁⟩ :=
          hgathered _ rfl
        rcases hy : collectItems load dir .merged items r₁ with ⟨more, r₂, e | cs'⟩
        · simp only [hy] at h
          cases h
        · simp only [hy, Except.map, Prod.mk.injEq, Except.ok.injEq] at h
          simp only [node.injEq] at hcache
          obtain ⟨-, rfl, rfl⟩ := hcache
          obtain ⟨rfl, rfl, rfl⟩ := h
          obtain ⟨trees, objects₂, h₂, hfetched₂, hobjects₂⟩ := ih hy
          refine ⟨_, objects₁ ++ objects₂, .subtree hm h₁ h₂, ?_, ?_⟩
          · rw [hfetched₂, hfetched₁, List.append_assoc]
          · rw [List.map_append, hobjects₁, hobjects₂, ← List.map_append]
    · rw [if_neg hm] at h
      rcases hy : collectItems load dir .merged items r with ⟨more, r₂, e | cs'⟩
      · simp only [hy] at h
        cases h
      · simp only [hy] at h
        cases h
        obtain ⟨trees, objects, hgathers, hfetched, hobjects⟩ := ih hy
        exact ⟨trees, objects, .file hm hgathers, hfetched, hobjects⟩

/-- Reading a tree gathers its listings, by induction on the depth to which they may be nested. -/
theorem gathered_collectWithin (depth : Nat) (id : ObjectId) (dir : Bytes) (r : Recorded σ) :
    Gathered id dir r (collectWithin .merged depth id dir r) := by
  induction depth generalizing id dir r with
  | zero =>
    intro cache h
    cases h
  | succ depth ih =>
    intro cache h
    rw [collectWithin, Recorded.fetch_eq] at h ⊢
    rcases hfetch : ObjectDatabase.fetch id r.database with ⟨e | _ | object, s⟩
    · rw [hfetch] at h
      cases h
    · rw [hfetch] at h
      cases h
    · simp only [hfetch] at h ⊢
      rcases htree : Tree.ofObject object with e | tree
      · simp only [htree] at h
        cases h
      · simp only [htree] at h ⊢
        generalize hx : collectItems (collectWithin (σ := Recorded σ) .merged depth) dir .merged
          tree.items _ = x at h ⊢
        obtain ⟨es, r₁, x⟩ := x
        obtain ⟨cs, rfl, rfl⟩ := Check.map_eq_ok.1 h
        obtain ⟨trees, objects, hgathers, hfetched, hobjects⟩ := gathers_of_collectItems ih hx
        refine ⟨tree, cs, trees, object :: objects, hgathers, rfl, ?_, ?_⟩
        · rw [hfetched]
          exact List.append_assoc _ _ _
        · rw [List.map_cons, htree, hobjects, List.map_cons]

/-- Reading a stored tree gathers the listings that are fetched. -/
theorem gathers_of_collect {id : ObjectId} {s : σ} {r : Recorded σ} {cache : CacheTree}
    (h : collect .merged id [] (Recorded.start s) = (es, r, .ok cache)) :
    ∃ tree cs trees, Gathers [] tree.items es cs trees ∧
      cache = node [] (some ⟨es.length, id⟩) (sortByName cs) ∧
      r.fetched.map Tree.ofObject = (tree :: trees).map .ok := by
  have hgathered := gathered_collectWithin (ObjectDatabase.nesting (Recorded.start s) + 1) id []
    (Recorded.start s)
  rw [← collect, h] at hgathered
  obtain ⟨tree, cs, trees, objects, hgathers, hcache, hfetched, hobjects⟩ := hgathered cache rfl
  refine ⟨tree, cs, trees, hgathers, hcache, ?_⟩
  rw [hfetched, Recorded.fetched_start, List.nil_append, hobjects]

/-! ## Paths and names -/

/-- All entries that are gathered are below the directory. -/
theorem Gathers.beginsWith (h : Gathers dir items es cs trees) {e : Entry} (he : e ∈ es) :
    e.path.beginsWith (Bytes.asBase dir) = true := by
  induction h with
  | done => cases he
  | @file dir item items es cs trees hm h ih =>
    rcases List.mem_cons.1 he with rfl | he
    · rw [Entry.bare, Bytes.join_eq, Bytes.beginsWith_iff]
      exact List.prefix_append _ _
    · exact ih he
  | @subtree dir item items inner es innerEs cs innerCs trees innerTrees hm h₁ h₂ ih₁ ih₂ =>
    rcases List.mem_append.1 he with he | he
    · exact Bytes.beginsWith_iff.2 ((Bytes.asBase_prefix_join dir item.name).trans
        (Bytes.beginsWith_iff.1 (ih₁ he)))
    · exact ih₂ he

/-- The nodes that are gathered have the names of the subdirectories. -/
theorem Gathers.map_name (h : Gathers dir items es cs trees) :
    cs.map name = (items.filter (·.mode = .directory)).map TreeItem.name := by
  induction h with
  | done => rfl
  | file hm h ih => simp [hm, ih]
  | subtree hm h₁ h₂ ih₁ ih₂ => simp [hm, ih₂]

/-- A node that is gathered has the name of a subdirectory. -/
theorem Gathers.exists_item (h : Gathers dir items es cs trees) {c : CacheTree} (hc : c ∈ cs) :
    ∃ item ∈ items, item.mode = .directory ∧ item.name = c.name := by
  have hmem : c.name ∈ cs.map name := List.mem_map_of_mem hc
  rw [h.map_name] at hmem
  obtain ⟨item, hitem, hname⟩ := List.mem_map.1 hmem
  obtain ⟨hitem, hm⟩ := List.mem_filter.1 hitem
  exact ⟨item, hitem, by simpa using hm, hname⟩

/-- A subdirectory has a node of its name. -/
theorem Gathers.exists_node (h : Gathers dir items es cs trees) {item : TreeItem}
    (hi : item ∈ items) (hm : item.mode = .directory) : ∃ c ∈ cs, c.name = item.name := by
  have hmem : item.name ∈ (items.filter (·.mode = .directory)).map TreeItem.name :=
    List.mem_map_of_mem (List.mem_filter.2 ⟨hi, by simpa using hm⟩)
  rw [← h.map_name] at hmem
  obtain ⟨c, hc, hname⟩ := List.mem_map.1 hmem
  exact ⟨c, hc, hname⟩

/-- The nodes that are gathered have different names if the subdirectories do. -/
theorem Gathers.pairwise_name_iff (h : Gathers dir items es cs trees) :
    cs.Pairwise (fun a b => a.name ≠ b.name) ↔ items.Pairwise fun a b =>
      a.mode = .directory → b.mode = .directory → a.name ≠ b.name := by
  have hcs : cs.Pairwise (fun a b => a.name ≠ b.name) ↔ (cs.map name).Pairwise (· ≠ ·) :=
    List.pairwise_map.symm
  rw [hcs, h.map_name, List.pairwise_map, List.pairwise_filter]
  simp only [decide_eq_true_eq]

/-- The entries of a subdirectory with a name are all below it. -/
theorem Gathers.beginning_inner {name : Bytes} {inner : List TreeItem}
    (h : Gathers (Bytes.join dir name) inner es cs trees) (hn : name ≠ []) :
    Table.beginning es (Bytes.below (Bytes.asBase dir) name) = es := by
  rw [← Bytes.asBase_join dir hn]
  exact List.filter_eq_self.2 fun e he => h.beginsWith he

/-! ## Nodes of nestable listings -/

/-- What is expected of a node: it has its subdirectories in order, with names that paths can have
between slashes, and the right count. -/
structure WellFormed (T : Table) (base : Bytes) (t : CacheTree) : Prop
    extends Fits (fun _ => True) T base t where
  named : Named t

/-- Nothing that other items of a nestable listing give is below a subdirectory. -/
theorem Gathers.beginning_eq_nil (h : Gathers dir items es cs trees) {name b : Bytes}
    (hslash : Bytes.slash ∉ name) (hb : Bytes.below (Bytes.asBase dir) name <+: b)
    (hnamed : ∀ item ∈ items, item.mode = .directory →
      item.name ≠ [] ∧ Bytes.slash ∉ item.name ∧ item.name ≠ name)
    (hfiles : ∀ item ∈ items, item.mode ≠ .directory →
      item.name.beginsWith (name ++ [Bytes.slash]) = false) : Table.beginning es b = [] := by
  refine Table.beginning_eq_nil fun e he => ?_
  suffices hout : e.path.beginsWith (Bytes.below (Bytes.asBase dir) name) = false by
    rw [← Bool.not_eq_true] at hout ⊢
    exact fun hin => hout (Bytes.beginsWith_iff.2 (hb.trans (Bytes.beginsWith_iff.1 hin)))
  induction h with
  | done => cases he
  | @file dir item items es cs trees hm h ih =>
    obtain ⟨hfile, hfiles⟩ := List.forall_mem_cons.1 hfiles
    rcases List.mem_cons.1 he with rfl | he
    · rw [Entry.bare, Bytes.join_eq, Bytes.beginsWith_below_append]
      exact hfile hm
    · exact ih hb (fun a ha => hnamed a (List.mem_cons_of_mem _ ha)) hfiles he
  | @subtree dir item items inner es innerEs cs innerCs trees innerTrees hm h₁ h₂ ih₁ ih₂ =>
    obtain ⟨hitem, hnamed⟩ := List.forall_mem_cons.1 hnamed
    rcases List.mem_append.1 he with he | he
    · -- The entry is below a subdirectory of another name.
      obtain ⟨hne, hfree, hother⟩ := hitem hm
      have hin := h₁.beginsWith he
      rw [Bytes.asBase_join dir hne] at hin
      rw [← Bool.not_eq_true]
      exact fun hname => hother (Bytes.name_eq_of_below hfree hslash hin hname)
    · exact ih₂ hb hnamed (fun a ha => hfiles a (List.mem_cons_of_mem _ ha)) he

/-- The node of a nestable listing is well-formed if the nodes below it are and the table has as many
entries below it as are gathered. -/
theorem Gathers.wellFormed_node (h : Gathers dir items es cs trees) (hn : Tree.Nestable ⟨items⟩)
    (hnul : ∀ item ∈ items, Bytes.nul ∉ item.name)
    (hcount : (T.beginning (Bytes.asBase dir)).length = es.length)
    (hcs : ∀ c ∈ cs, All (WellFormed T) (Bytes.below (Bytes.asBase dir) c.name) c) (name : Bytes)
    (id : ObjectId) :
    All (WellFormed T) (Bytes.asBase dir) (node name (some ⟨es.length, id⟩) (sortByName cs)) := by
  have hnames : ∀ c ∈ cs, c.name ≠ [] ∧ Delimited c.name := by
    intro c hc
    obtain ⟨item, hi, hm, hname⟩ := h.exists_item hc
    obtain ⟨hne, hslash⟩ := hn.named item hi hm
    exact hname ▸ ⟨hne, hslash, hnul item hi⟩
  refine all_iff.2 ⟨?_, fun c hc => hcs c (mem_sortByName.1 hc)⟩
  exact {
    sorted := siblingsSorted_sortByName (h.pairwise_name_iff.2 hn.distinct)
    delimited := fun c hc => (hnames c (mem_sortByName.1 hc)).2
    counted := fun _ k hk => by
      cases hk
      exact hcount.symm
    named := fun c hc => (hnames c (mem_sortByName.1 hc)).1 }

/-- Where listings are nestable and the table has as many entries below their subdirectories as are
gathered, all nodes are well-formed. -/
theorem Gathers.wellFormed (h : Gathers dir items es cs trees) (hn : Tree.Nestable ⟨items⟩)
    (hnul : ∀ item ∈ items, Bytes.nul ∉ item.name)
    (htrees : ∀ t ∈ trees, t.Nestable ∧ ∀ item ∈ t.items, Bytes.nul ∉ item.name)
    (hT : ∀ item ∈ items, item.mode = .directory →
      ∀ b, Bytes.below (Bytes.asBase dir) item.name <+: b →
        (T.beginning b).length = (Table.beginning es b).length) :
    ∀ c ∈ cs, All (WellFormed T) (Bytes.below (Bytes.asBase dir) c.name) c := by
  induction h with
  | done => simp
  | @file dir item items es cs trees hm h ih =>
    refine ih hn.tail (fun a ha => hnul a (List.mem_cons_of_mem _ ha)) htrees ?_
    intro a ha ham b hb
    -- The file is below none of the subdirectories.
    obtain ⟨-, hslash⟩ := hn.named a (List.mem_cons_of_mem _ ha) ham
    have hout := (Gathers.file hm (@Gathers.done dir)).beginning_eq_nil hslash hb
      (fun o ho hom => absurd (List.mem_singleton.1 ho ▸ hom) hm) fun o ho _ =>
        List.mem_singleton.1 ho ▸ hn.apart a (List.mem_cons_of_mem _ ha) ham item (by simp) hm
    rw [hT a (List.mem_cons_of_mem _ ha) ham b hb, ← List.singleton_append, Table.beginning_append,
      hout, List.nil_append]
  | @subtree dir item items inner es innerEs cs innerCs trees innerTrees hm h₁ h₂ ih₁ ih₂ =>
    obtain ⟨hne, hslash⟩ := hn.named item (by simp) hm
    obtain ⟨⟨hinner, hinnerNul⟩, htrees⟩ := List.forall_mem_cons.1 htrees
    obtain ⟨hinnerTrees, htrees⟩ := List.forall_mem_append.1 htrees
    have hother := (List.pairwise_cons.1 hn.distinct).1
    have hbase := Bytes.asBase_join dir hne
    -- Below the subdirectory are its own entries, and none of the others.
    have hself : ∀ b, Bytes.below (Bytes.asBase dir) item.name <+: b →
        (T.beginning b).length = (Table.beginning innerEs b).length := by
      intro b hb
      have hout := h₂.beginning_eq_nil hslash hb
        (fun a ha ham => ⟨(hn.tail.named a ha ham).1, (hn.tail.named a ha ham).2,
          (hother a ha hm ham).symm⟩)
        fun a ha ham => hn.apart item (by simp) hm a (List.mem_cons_of_mem _ ha) ham
      rw [hT item (by simp) hm b hb, Table.beginning_append, hout, List.append_nil]
    have hchildren := ih₁ hinner hinnerNul hinnerTrees fun a ha ham b hb => hself b (by
      rw [← hbase]
      exact (Bytes.isPrefix_baseOf _ [a.name]).trans hb)
    have hnode := h₁.wellFormed_node hinner hinnerNul
      (by rw [hbase, hself _ List.prefix_rfl, h₁.beginning_inner hne]) hchildren item.name item.id
    rw [hbase] at hnode
    refine List.forall_mem_cons.2 ⟨hnode, ?_⟩
    -- Nothing of the subdirectory is below the others.
    refine ih₂ hn.tail (fun a ha => hnul a (List.mem_cons_of_mem _ ha)) htrees ?_
    intro a ha ham b hb
    obtain ⟨-, hfree⟩ := hn.tail.named a ha ham
    have hout := (Gathers.subtree hm h₁ .done).beginning_eq_nil hfree hb
      (fun o ho _ => by
        rw [List.mem_singleton.1 ho]
        exact ⟨hne, hslash, hother a ha hm ham⟩)
      fun o ho hom => absurd (List.mem_singleton.1 ho ▸ hm) hom
    rw [List.append_nil] at hout
    rw [hT a (List.mem_cons_of_mem _ ha) ham b hb, Table.beginning_append, hout, List.nil_append]

/-! ## Listings of well-formed nodes -/

/-- A subdirectory with a name gives no more entries than are gathered below it. -/
theorem Gathers.count_le (h : Gathers dir items es cs trees) {c : CacheTree} (hc : c ∈ cs)
    (hne : c.name ≠ []) {k : Known} (hk : c.known = some k) :
    k.count ≤ (Table.beginning es (Bytes.below (Bytes.asBase dir) c.name)).length := by
  induction h with
  | done => cases hc
  | @file dir item items es cs trees hm h ih =>
    have := ih hc
    rw [← List.singleton_append, Table.beginning_append, List.length_append]
    omega
  | @subtree dir item items inner es innerEs cs innerCs trees innerTrees hm h₁ h₂ ih₁ ih₂ =>
    rw [Table.beginning_append, List.length_append]
    rcases List.mem_cons.1 hc with rfl | hc
    · cases hk
      rw [name_node, h₁.beginning_inner hne]
      exact Nat.le_add_right _ _
    · have := ih₂ hc
      omega

/-- A file is gathered with its path. -/
theorem Gathers.exists_entry (h : Gathers dir items es cs trees) {item : TreeItem}
    (hi : item ∈ items) (hm : item.mode ≠ .directory) :
    ∃ e ∈ es, e.path = Bytes.asBase dir ++ item.name := by
  induction h with
  | done => cases hi
  | @file dir first items es cs trees _ h ih =>
    rcases List.mem_cons.1 hi with rfl | hi
    · exact ⟨_, List.mem_cons_self, Bytes.join_eq dir item.name⟩
    · obtain ⟨e, he, hp⟩ := ih hi
      exact ⟨e, List.mem_cons_of_mem _ he, hp⟩
  | @subtree dir first items inner es innerEs cs innerCs trees innerTrees hfirst h₁ h₂ ih₁ ih₂ =>
    rcases List.mem_cons.1 hi with rfl | hi
    · exact absurd hfirst hm
    · obtain ⟨e, he, hp⟩ := ih₂ hi
      exact ⟨e, List.mem_append_right _ he, hp⟩

/-- With a file whose name goes on from that of a subdirectory after a slash, more entries are
gathered below the subdirectory than it gives. -/
theorem Gathers.count_lt (h : Gathers dir items es cs trees) {c : CacheTree} (hc : c ∈ cs)
    (hne : c.name ≠ []) {k : Known} (hk : c.known = some k) {item : TreeItem} (hi : item ∈ items)
    (hm : item.mode ≠ .directory) (hb : item.name.beginsWith (c.name ++ [Bytes.slash]) = true) :
    k.count < (Table.beginning es (Bytes.below (Bytes.asBase dir) c.name)).length := by
  induction h with
  | done => cases hc
  | @file dir first items es cs trees hfirst h ih =>
    rw [← List.singleton_append, Table.beginning_append, List.length_append]
    rcases List.mem_cons.1 hi with rfl | hi
    · -- The file itself comes on top of what the subdirectory gives.
      have hle := h.count_le hc hne hk
      have hin : Table.beginning [Entry.bare (Bytes.join dir item.name) .merged item.mode item.id]
          (Bytes.below (Bytes.asBase dir) c.name) =
            [Entry.bare (Bytes.join dir item.name) .merged item.mode item.id] := by
        refine List.filter_eq_self.2 fun e he => ?_
        rw [List.mem_singleton.1 he, Entry.bare, Bytes.join_eq, Bytes.beginsWith_below_append]
        exact hb
      rw [hin, List.length_singleton]
      omega
    · have := ih hc hi
      omega
  | @subtree dir first items inner es innerEs cs innerCs trees innerTrees hfirst h₁ h₂ ih₁ ih₂ =>
    rw [Table.beginning_append, List.length_append]
    rcases List.mem_cons.1 hi with rfl | hi
    · exact absurd hfirst hm
    · rcases List.mem_cons.1 hc with rfl | hc
      · cases hk
        obtain ⟨e, he, hp⟩ := h₂.exists_entry hi hm
        have hmem : e ∈ Table.beginning es (Bytes.below (Bytes.asBase dir) first.name) := by
          rw [Table.mem_beginning, hp, Bytes.beginsWith_below_append]
          exact ⟨he, hb⟩
        have hpos := List.length_pos_of_mem hmem
        rw [name_node, h₁.beginning_inner hne]
        exact Nat.lt_add_of_pos_right hpos
      · have := ih₂ hc hi
        omega

/-- Every node that is gathered is known. -/
theorem Gathers.known_ne_none (h : Gathers dir items es cs trees) {c : CacheTree} (hc : c ∈ cs) :
    c.known ≠ none := by
  induction h with
  | done => cases hc
  | file _ _ ih => exact ih hc
  | subtree _ _ _ _ ih₂ =>
    rcases List.mem_cons.1 hc with rfl | hc
    · simp
    · exact ih₂ hc

/-- Nodes that are strictly sorted once they are put into order have different names. -/
theorem pairwise_name_of_siblingsSorted {name : Bytes} {known : Option Known}
    (h : SiblingsSorted (node name known (sortByName cs))) :
    cs.Pairwise fun a b => a.name ≠ b.name := by
  have hsorted : (sortByName cs).Pairwise fun a b => a.name ≠ b.name := by
    refine h.imp fun hab heq => ?_
    simp [heq] at hab
  exact ((List.mergeSort_perm cs _).pairwise_iff fun hab => Ne.symm hab).1 hsorted

/-- A listing is nestable if its node is well-formed with all nodes below it, and no more entries were
gathered than are in the table. -/
theorem Gathers.nestable_node (h : Gathers dir items es cs trees)
    (hT : ∀ b, (Table.beginning es b).length ≤ (T.beginning b).length) {name : Bytes}
    {known : Option Known}
    (hnode : All (WellFormed T) (Bytes.asBase dir) (node name known (sortByName cs))) :
    Tree.Nestable ⟨items⟩ := by
  obtain ⟨hwell, hcs⟩ := all_iff.1 hnode
  have hnamed : ∀ c ∈ cs, c.name ≠ [] := fun c hc => hwell.named c (mem_sortByName.2 hc)
  refine ⟨h.pairwise_name_iff.1 (pairwise_name_of_siblingsSorted hwell.sorted), ?_, ?_⟩
  · intro item hi hm
    obtain ⟨c, hc, hname⟩ := h.exists_node hi hm
    exact hname ▸ ⟨hnamed c hc, (hwell.delimited c (mem_sortByName.2 hc)).1⟩
  · intro a ha ham b hb hbm
    obtain ⟨c, hc, hname⟩ := h.exists_node ha ham
    obtain ⟨k, hk⟩ := Option.ne_none_iff_exists'.1 (h.known_ne_none hc)
    have hcount := (all_iff.1 (hcs c (mem_sortByName.2 hc))).1.counted trivial k hk
    rw [← Bool.not_eq_true, ← hname]
    intro hin
    -- The count would be less than the number of entries.
    have hlt := h.count_lt hc (hnamed c hc) hk hb hbm hin
    have hle := hT (Bytes.below (Bytes.asBase dir) c.name)
    omega

/-- Where nodes are well-formed and have names, the listings below them are nestable. -/
theorem Gathers.nestable (h : Gathers dir items es cs trees)
    (hT : ∀ b, (Table.beginning es b).length ≤ (T.beginning b).length)
    (hn : ∀ c ∈ cs, c.name ≠ [])
    (hcs : ∀ c ∈ cs, All (WellFormed T) (Bytes.below (Bytes.asBase dir) c.name) c) :
    ∀ t ∈ trees, t.Nestable := by
  induction h with
  | done => simp
  | @file dir item items es cs trees hm h ih =>
    refine ih (fun b => ?_) hn hcs
    have := hT b
    rw [← List.singleton_append, Table.beginning_append, List.length_append] at this
    omega
  | @subtree dir item items inner es innerEs cs innerCs trees innerTrees hm h₁ h₂ ih₁ ih₂ =>
    obtain ⟨hne, hn⟩ := List.forall_mem_cons.1 hn
    obtain ⟨hnode, hcs⟩ := List.forall_mem_cons.1 hcs
    rw [name_node] at hne hnode
    rw [← Bytes.asBase_join dir hne] at hnode
    obtain ⟨hwell, hinner⟩ := all_iff.1 hnode
    have hparts : ∀ b, (Table.beginning innerEs b).length ≤ (T.beginning b).length ∧
        (Table.beginning es b).length ≤ (T.beginning b).length := by
      intro b
      have := hT b
      rw [Table.beginning_append, List.length_append] at this
      omega
    refine List.forall_mem_cons.2 ⟨?_, List.forall_mem_append.2 ⟨?_, ?_⟩⟩
    · exact h₁.nestable_node (fun b => (hparts b).1) hnode
    · exact ih₁ (fun b => (hparts b).1) (fun c hc => hwell.named c (mem_sortByName.2 hc))
        fun c hc => hinner c (mem_sortByName.2 hc)
    · exact ih₂ (fun b => (hparts b).2) hn hcs

/-- The cache tree of a stored tree is well-formed exactly if all its listings are nestable, for a
table of the entries that were gathered. -/
theorem Gathers.wellFormed_iff (h : Gathers [] items es cs trees) (hT : T.Perm es)
    (hnul : ∀ t ∈ (⟨items⟩ :: trees : List Tree), ∀ item ∈ t.items, Bytes.nul ∉ item.name)
    (id : ObjectId) :
    All (WellFormed T) [] (node [] (some ⟨es.length, id⟩) (sortByName cs)) ↔
      ∀ t ∈ (⟨items⟩ :: trees : List Tree), t.Nestable := by
  have hlength : ∀ b, (T.beginning b).length = (Table.beginning es b).length := fun b =>
    (hT.filter _).length_eq
  obtain ⟨hroot, hbelow⟩ := List.forall_mem_cons.1 hnul
  constructor
  · intro hnode
    obtain ⟨hwell, hcs⟩ := all_iff.1 hnode
    refine List.forall_mem_cons.2 ⟨h.nestable_node (fun b => (hlength b).ge) hnode, ?_⟩
    exact h.nestable (fun b => (hlength b).ge) (fun c hc => hwell.named c (mem_sortByName.2 hc))
      fun c hc => hcs c (mem_sortByName.2 hc)
  · intro hall
    obtain ⟨hn, htrees⟩ := List.forall_mem_cons.1 hall
    have hcs := h.wellFormed hn hroot (fun t ht => ⟨htrees t ht, hbelow t ht⟩)
      fun _ _ _ b _ => hlength b
    refine h.wellFormed_node hn hroot ?_ hcs [] id
    rw [hlength]
    exact congrArg List.length (Table.beginning_nil es)

end CacheTree

end StagingIndex
