import Mathlib
import StagingIndex.Proofs.CanonicalTrees
import StagingIndex.Proofs.IncrementalUpdate

/-! # The items of a directory

Which items a directory lists can be said without going through its entries in their order: there is
one for each of its files, and one for each of its subdirectories that has entries and a tree that is
not the empty one. As the names are different, the order of a listing is given by its items. So the
tree of a directory is given by its files and by the trees of its subdirectories.

* `Table.beginning_induction` — what holds of the entries below a directory is shown from its end, file
  by file and subdirectory by subdirectory
* `Table.Lists`, `Table.mem_listing_iff` — the items of a directory
* `Table.treeAt_eq_of_lists` — directories with the same items have the same tree -/

namespace StagingIndex

namespace Table

open CacheTree (fileItem subtreeItem)

variable {T U : Table} {base : Bytes} {pre entries left : List Entry} {item : TreeItem}

/-! ## Induction along a directory -/

/-- A table is cut where a directory starts by the first entry below it. -/
theorem exists_startsAt (hs : IsSorted T) (base : Bytes) : ∃ pre entries, StartsAt T pre entries base := by
  refine ⟨T.takeWhile fun o => !o.path.beginsWith base, T.dropWhile fun o => !o.path.beginsWith base,
    List.takeWhile_append_dropWhile.symm, fun p hp => ?_, ?_⟩
  · simpa using List.mem_takeWhile_imp (p := fun o : Entry => !o.path.beginsWith base) hp
  · have hbefore : Table.beginning (T.takeWhile fun o => !o.path.beginsWith base) base = [] :=
      beginning_eq_nil fun p hp => by
        simpa using List.mem_takeWhile_imp (p := fun o : Entry => !o.path.beginsWith base) hp
    have hsplit := beginning_append (T.takeWhile fun o => !o.path.beginsWith base)
      (T.dropWhile fun o => !o.path.beginsWith base) base
    rw [List.takeWhile_append_dropWhile, hbefore, List.nil_append] at hsplit
    rw [hsplit]
    cases hd : T.dropWhile fun o => !o.path.beginsWith base with
    | nil => rfl
    | cons e es =>
      have he := List.head?_dropWhile_not (fun o : Entry => !o.path.beginsWith base) T
      rw [hd] at he
      have hes : IsSorted (e :: es) := hd ▸ hs.sublist (List.dropWhile_sublist _)
      exact takeWhile_beginsWith hes rfl (by simpa using he)

/-- What holds where nothing is left of a directory, and before a file or a subdirectory if it holds
after it, holds of what is left where the table is cut. -/
theorem Apart.induction {P : List Entry → Prop} (hs : IsSorted T) (hb : Bytes.IsBase base) (done : P [])
    (file : ∀ {name e left}, T.Ahead base (e :: left) → e.path = base ++ name → Bytes.slash ∉ name →
      P left → P (e :: left))
    (subtree : ∀ {name inside left}, T.Entered base name inside left → P left → P (inside ++ left))
    (h : Apart T pre entries base) : P (entries.takeWhile fun o => o.path.beginsWith base) := by
  -- The recursion goes on with what follows the next file, or the next subdirectory.
  induction hn : entries.length using Nat.strong_induction_on generalizing pre entries with
  | _ n ih =>
    subst hn
    match entries with
    | [] => exact done
    | e :: es =>
      by_cases he : e.path.beginsWith base = true
      · obtain ⟨rest, hrest⟩ := Bytes.beginsWith_iff.1 he
        have hp : e.path.afterPrefix? base = some rest := Bytes.afterPrefix?_eq_some_iff.2 hrest.symm
        cases hsplit : Bytes.splitAt? Bytes.slash rest with
        | none =>
          have hslash := Bytes.splitAt?_eq_none_iff.1 hsplit
          have hahead := ahead_takeWhile hs h.eq_append hb
          have hleft := ih es.length (Nat.lt_succ_self _) (h.tail_of_file hp hslash) rfl
          rw [List.takeWhile_cons_of_pos (p := fun o : Entry => o.path.beginsWith base) he] at hahead ⊢
          exact file hahead hrest.symm hslash hleft
        | some parts =>
          obtain ⟨rfl, hslash⟩ := Bytes.eq_append_of_splitAt? hsplit
          obtain ⟨hcut, hentered⟩ := h.entered hs hp hslash hb
          rw [hcut]
          refine subtree hentered (ih _ ?_ (h.tail_of_subtree hs hp hslash) rfl)
          exact Nat.lt_succ_of_le (List.dropWhile_sublist _).length_le
      · rw [List.takeWhile_cons_of_neg (by simpa using he)]
        exact done

/-- What holds where nothing is left of a directory, and before a file or a subdirectory if it holds
after it, holds of all entries below the directory. -/
theorem beginning_induction {P : List Entry → Prop} (hs : IsSorted T) (hb : Bytes.IsBase base)
    (done : P [])
    (file : ∀ {name e left}, T.Ahead base (e :: left) → e.path = base ++ name → Bytes.slash ∉ name →
      P left → P (e :: left))
    (subtree : ∀ {name inside left}, T.Entered base name inside left → P left → P (inside ++ left)) :
    P (T.beginning base) := by
  obtain ⟨pre, entries, hstart⟩ := exists_startsAt hs base
  rw [← hstart.takeWhile_eq]
  exact hstart.apart.induction hs hb done file subtree

/-! ## Items -/

/-- What is left of a directory lists an item: that of a file that is not only meant to be added, or
that of a subdirectory with entries whose tree is not empty. -/
inductive Lists (T : Table) (base : Bytes) (left : List Entry) : TreeItem → Prop
  | file {name : Bytes} {e : Entry} (he : e ∈ left) (hp : e.path = base ++ name)
      (hn : Bytes.slash ∉ name) (hi : e.flags.intentToAdd = false) :
      Lists T base left ⟨e.mode, name, e.id⟩
  | subtree {name : Bytes} (hn : Bytes.slash ∉ name)
      (hne : Table.beginning left (Bytes.below base name) ≠ [])
      (hid : (T.treeAt (Bytes.below base name)).id ≠ Tree.empty.id) :
      Lists T base left ⟨.directory, name, (T.treeAt (Bytes.below base name)).id⟩

/-- A file is listed beside what is listed of the rest. -/
theorem lists_file_iff {name : Bytes} {e : Entry} (hp : e.path = base ++ name) (hn : Bytes.slash ∉ name) :
    T.Lists base (e :: left) item ↔ item ∈ fileItem name e ∨ T.Lists base left item := by
  have hnot : ∀ own, Table.beginning (e :: left) (Bytes.below base own) =
      Table.beginning left (Bytes.below base own) := fun own => beginning_cons_of_file hp hn own []
  constructor
  · intro h
    cases h with
    | @file own o ho hpo hno hi =>
      rcases List.mem_cons.1 ho with rfl | ho
      · obtain rfl : own = name := List.append_cancel_left (hpo.symm.trans hp)
        exact Or.inl (by simp [fileItem, hi])
      · exact Or.inr (.file ho hpo hno hi)
    | subtree hno hne hid => exact Or.inr (.subtree hno (hnot _ ▸ hne) hid)
  · rintro (h | h)
    · rw [fileItem] at h
      split at h
      · cases h
      · rename_i hi
        rw [List.mem_singleton.1 h]
        exact .file List.mem_cons_self hp hn (by simpa using hi)
    · cases h with
      | file ho hpo hno hi => exact .file (List.mem_cons_of_mem _ ho) hpo hno hi
      | subtree hno hne hid => exact .subtree hno ((hnot _).symm ▸ hne) hid

/-- A subdirectory is listed beside what is listed of the rest. -/
theorem lists_subtree_iff {name : Bytes} {inside : List Entry} (ha : T.Entered base name inside left) :
    T.Lists base (inside ++ left) item ↔
      item ∈ subtreeItem name (exact (Bytes.below base name) inside) ∨ T.Lists base left item := by
  have htree : (exact (Bytes.below base name) inside).id = (T.treeAt (Bytes.below base name)).id := by
    rw [ha.eq_beginning]
    rfl
  have hself : Table.beginning (inside ++ left) (Bytes.below base name) ≠ [] := by
    rw [show Table.beginning (inside ++ left) (Bytes.below base name) = _ from ha.beginning_append [],
      show T.beginning (Bytes.baseOf base [name]) = inside from ha.eq_beginning.symm]
    exact ha.ne_nil
  constructor
  · intro h
    cases h with
    | @file own o ho hpo hno hi =>
      rcases List.mem_append.1 ho with ho | ho
      · -- The entries of the subdirectory have a slash after the base.
        obtain ⟨rest, hrest⟩ := Bytes.beginsWith_below_iff.1 (ha.beginsWith ho)
        exact absurd (List.append_cancel_left (hpo.symm.trans hrest) ▸ by simp) hno
      · exact Or.inr (.file ho hpo hno hi)
    | @subtree own hno hne hid =>
      by_cases hown : own = name
      · subst hown
        refine Or.inl ?_
        rw [subtreeItem, htree, if_neg hid]
        exact List.mem_singleton_self _
      · rw [show Table.beginning (inside ++ left) (Bytes.below base own) =
          Table.beginning left (Bytes.below base own) from ha.beginning_append_of_ne hno hown []] at hne
        exact Or.inr (.subtree hno hne hid)
  · rintro (h | h)
    · rw [subtreeItem, htree] at h
      split at h
      · cases h
      · rename_i hid
        rw [List.mem_singleton.1 h]
        exact .subtree ha.slash hself hid
    · cases h with
      | file ho hpo hno hi => exact .file (List.mem_append_right _ ho) hpo hno hi
      | subtree hno hne hid =>
        refine .subtree hno ?_ hid
        rw [Table.beginning_append]
        exact fun hnil => hne (List.append_eq_nil_iff.1 hnil).2

/-- The items of a directory are those of its files and of its subdirectories. -/
theorem mem_listing_iff (hs : IsSorted T) (hb : Bytes.IsBase base) :
    item ∈ listing base (T.beginning base) ↔ T.Lists base (T.beginning base) item := by
  refine beginning_induction
    (P := fun left => item ∈ listing base left ↔ T.Lists base left item) hs hb ?_ ?_ ?_
  · rw [listing_nil]
    refine ⟨fun h => absurd h List.not_mem_nil, fun h => ?_⟩
    cases h with
    | file he => cases he
    | subtree _ hne => exact absurd rfl hne
  · intro name e left _ hp hn ih
    rw [listing_file (Bytes.afterPrefix?_eq_some_iff.2 hp) (Bytes.splitAt?_eq_none_iff.2 hn),
      List.mem_append, ih, lists_file_iff hp hn]
  · intro name inside left ha ih
    rw [ha.listing_append, List.mem_append, ih, lists_subtree_iff ha]

/-- In a table without conflicts there is one entry with a path at most. -/
theorem Invariant.eq_of_path (hT : T.Invariant) (hm : ∀ e ∈ T, e.stage = .merged) {a b : Entry}
    (ha : a ∈ T) (hb : b ∈ T) (hp : a.path = b.path) : a = b := by
  refine hT.sorted.eq_of_key ha hb ?_
  rw [Entry.key, Entry.key, hp, hm a ha, hm b hb]

/-- A name with entries below it is listed as a subdirectory, unless its tree is empty. -/
theorem lists_name_iff_of_below (hT : T.Invariant) {o : Entry} (ho : o ∈ T) (hn : Bytes.slash ∉ item.name)
    (hbelow : o.path.beginsWith (Bytes.below base item.name) = true) :
    T.Lists base (T.beginning base) item ↔
      item = ⟨.directory, item.name, (T.treeAt (Bytes.below base item.name)).id⟩ ∧
        (T.treeAt (Bytes.below base item.name)).id ≠ Tree.empty.id := by
  constructor
  · intro h
    cases h with
    | file he hp _ _ =>
      -- The path of the file would be a directory.
      have hsep := hT.separate _ (mem_beginning.1 he).1 o ho
      rw [hp, ← Bool.not_eq_true] at hsep
      exact absurd hbelow hsep
    | subtree _ _ hid => exact ⟨rfl, hid⟩
  · rintro ⟨hitem, hid⟩
    rw [hitem]
    refine .subtree hn ?_ hid
    have hmem : o ∈ Table.beginning (T.beginning base) (Bytes.below base item.name) :=
      mem_beginning.2 ⟨mem_beginning.2 ⟨ho, Bytes.beginsWith_of_below hbelow⟩, hbelow⟩
    exact List.ne_nil_of_mem hmem

/-- A name with an entry of its own is listed as this has it. -/
theorem lists_name_iff_of_path (hT : T.Invariant) (hm : ∀ e ∈ T, e.stage = .merged) {o : Entry}
    (ho : o ∈ T) (hn : Bytes.slash ∉ item.name) (hp : o.path = base ++ item.name)
    (hi : o.flags.intentToAdd = false) :
    T.Lists base (T.beginning base) item ↔ item = ⟨o.mode, item.name, o.id⟩ := by
  constructor
  · intro h
    cases h with
    | file he hpe _ _ =>
      rw [hT.eq_of_path hm (mem_beginning.1 he).1 ho (hpe.trans hp.symm)]
    | subtree _ hne _ =>
      -- The path of the entry would be a directory.
      obtain ⟨i, hi⟩ := List.exists_mem_of_ne_nil _ hne
      obtain ⟨hi, hb⟩ := mem_beginning.1 hi
      have hsep := hT.separate o ho i (mem_beginning.1 hi).1
      rw [hp, ← Bool.not_eq_true] at hsep
      exact absurd hb hsep
  · intro hitem
    rw [hitem]
    refine .file (mem_beginning.2 ⟨ho, ?_⟩) hp hn hi
    rw [hp, Bytes.beginsWith_iff]
    exact List.prefix_append base item.name

/-- The items of a directory are those that list its entries. -/
theorem itemized_listing (hs : IsSorted T) (hb : Bytes.IsBase base) :
    T.Itemized base (T.beginning base) (listing base (T.beginning base)) := by
  refine beginning_induction (P := fun left => T.Itemized base left (listing base left)) hs hb ?_ ?_ ?_
  · rw [listing_nil]
    exact .done
  · intro name e left ha hp hn ih
    rw [listing_file (Bytes.afterPrefix?_eq_some_iff.2 hp) (Bytes.splitAt?_eq_none_iff.2 hn)]
    exact .file ha hp hn ih
  · intro name inside left ha ih
    rw [ha.listing_append]
    exact .subtree ha ih

/-! ## Trees -/

/-- The tree of a directory of a table without conflicts is canonical. -/
theorem treeAt_canonical (hT : T.Invariant) (hm : ∀ e ∈ T, e.stage = .merged) (hb : Bytes.IsBase base) :
    (T.treeAt base).Canonical T base :=
  (itemized_listing hT.sorted hb).canonical hT hm hb

/-- A directory that lists the same items in two tables without conflicts has the same tree. -/
theorem treeAt_eq_of_lists (hT : T.Invariant) (hU : U.Invariant) (hTm : ∀ e ∈ T, e.stage = .merged)
    (hUm : ∀ e ∈ U, e.stage = .merged) (hb : Bytes.IsBase base)
    (h : ∀ item, T.Lists base (T.beginning base) item ↔ U.Lists base (U.beginning base) item) :
    T.treeAt base = U.treeAt base := by
  have hmem : ∀ item, item ∈ (T.treeAt base).items ↔ item ∈ (U.treeAt base).items := by
    intro item
    simp only [treeAt, Tree.ofList, List.mem_mergeSort]
    rw [mem_listing_iff hT.sorted hb, h, mem_listing_iff hU.sorted hb]
  have hitems : (T.treeAt base).items = (U.treeAt base).items :=
    eq_of_pairwise_compare_lt TreeItem.sortKey (treeAt_canonical hT hTm hb).increasing
      (treeAt_canonical hU hUm hb).increasing hmem
  exact congrArg Tree.mk hitems

end Table

end StagingIndex
