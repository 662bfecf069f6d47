import Mathlib
import StagingIndex.Proofs.QueuedEdits
import StagingIndex.Proofs.ReplacedTables

/-! # Directories after edits

The paths that edits touch are collected while they are merged into the table. They name all that
changes, so what is still known afterwards has the contents it had; and they name nothing below a
directory from which no edit removes an entry and where each addition, alone at its key, repeats what
is there already.

* `Edit.touched_of_repeats` — what repeats the present contents touches nothing
* `Index.knows_edit` — what is known after edits -/

namespace StagingIndex

namespace Edit

variable {t : Table} {edits : List Edit} {base : Bytes}

/-- Whether edits leave a part of a table as it is: they remove no entry that has the beginning, and
each addition that has it is the only one at its key and repeats the content of an entry. -/
structure Repeats (edits : List Edit) (t : Table) (base : Bytes) : Prop where
  /-- No entry is removed. -/
  unremoved : ∀ o ∈ t.beginning base, ∀ d ∈ edits, d.removes o = false
  /-- No addition has the key of another. -/
  only : ∀ e, add e ∈ edits → e.path.beginsWith base = true → edits.countP (addsAt e.key) = 1
  /-- All that is added is there already. -/
  present : ∀ e, add e ∈ edits → e.path.beginsWith base = true → ∃ o ∈ t, o.sameContent e = true

/-- Entries of the same content have the same key. -/
theorem key_of_sameContent {o e : Entry} (h : o.sameContent e = true) : o.key = e.key := by
  have := Entry.sameContent_iff.1 h
  exact congrArg (fun c : EntryContent => (⟨c.path, c.stage⟩ : EntryKey)) this

/-- Queues of the same edits repeat the same. -/
theorem Repeats.sorted (h : Repeats edits t base) : Repeats (sorted edits) t base where
  unremoved o ho d hd := h.unremoved o ho d (mem_sorted.1 hd)
  only e he hb := by
    rw [Edit.sorted, (List.mergeSort_perm _ _).countP_eq]
    exact h.only e (mem_sorted.1 he) hb
  present e he hb := h.present e (mem_sorted.1 he) hb

/-- If one of some edits is alone in adding at its key, the first one does not add at the key. -/
theorem addsAt_of_countP {d : Edit} {e : Entry} (he : add e ∈ edits)
    (h : (d :: edits).countP (addsAt e.key) = 1) :
    d.addsAt e.key = false ∧ edits.countP (addsAt e.key) = 1 := by
  have hpos : 0 < edits.countP (addsAt e.key) :=
    List.countP_pos_iff.2 ⟨add e, he, by simp [addsAt]⟩
  rw [List.countP_cons] at h
  cases hd : d.addsAt e.key with
  | true =>
    rw [hd, if_pos rfl] at h
    omega
  | false => exact ⟨rfl, by omega⟩

/-- An entry that a later edit adds again is left to it by the first one. -/
theorem Repeats.leaves {d : Edit} {o e : Entry} (h : Repeats (d :: edits) t base)
    (hs : (d :: edits).Pairwise fun c d => (compare c d).isLE = true) (he : add e ∈ edits)
    (hb : e.path.beginsWith base = true) (ho : o ∈ t) (hoe : o.sameContent e = true) :
    d.leaves o = true := by
  have hk : o.key = e.key := key_of_sameContent hoe
  have hpath : o.path = e.path := congrArg EntryKey.path hk
  have hpass : d.passes o = false := by
    rw [← Bool.not_eq_true]
    intro hp
    have := compare_of_passes hp ((List.pairwise_cons.1 hs).1 _ he)
    simp [hk] at this
  have hremoves : d.removes o = false := by
    refine h.unremoved o (List.mem_filter.2 ⟨ho, ?_⟩) d List.mem_cons_self
    rwa [hpath]
  have hadds : d.addsAt o.key = false := by
    rw [hk]
    exact (addsAt_of_countP he (h.only e (List.mem_cons_of_mem _ he) hb)).1
  simp [Edit.leaves, takesOut_eq, hpass, hremoves, hadds]

/-- Where an edit is done, the later ones repeat what is left. -/
theorem Repeats.tail {d : Edit} (h : Repeats (d :: edits) t base)
    (hs : (d :: edits).Pairwise fun c d => (compare c d).isLE = true) :
    Repeats edits (t.filter d.leaves) base where
  unremoved o ho c hc := by
    obtain ⟨ho, hb⟩ := List.mem_filter.1 ho
    exact h.unremoved o (List.mem_filter.2 ⟨(List.mem_filter.1 ho).1, hb⟩) c
      (List.mem_cons_of_mem _ hc)
  only e he hb := (addsAt_of_countP he (h.only e (List.mem_cons_of_mem _ he) hb)).2
  present e he hb := by
    obtain ⟨o, ho, hoe⟩ := h.present e (List.mem_cons_of_mem _ he) hb
    exact ⟨o, List.mem_filter.2 ⟨ho, h.leaves hs he hb ho hoe⟩, hoe⟩

/-- An edit that repeats what is there touches nothing of it. -/
theorem Repeats.touches {d : Edit} (h : Repeats (d :: edits) t base) :
    ∀ p ∈ d.touches (t.filter d.takesOut), p.beginsWith base = false := by
  intro p hp
  rw [← Bool.not_eq_true]
  intro hb
  have hgone : d.touches (t.filter d.takesOut) = (t.filter d.takesOut).map (·.path) →
      (∀ o, d.takesOut o = d.removes o) → False := by
    intro htouches htakes
    rw [htouches, List.mem_map] at hp
    obtain ⟨o, ho, rfl⟩ := hp
    obtain ⟨ho, hout⟩ := List.mem_filter.1 ho
    rw [htakes, h.unremoved o (List.mem_filter.2 ⟨ho, hb⟩) d List.mem_cons_self] at hout
    cases hout
  cases d with
  | add e =>
    simp only [Edit.touches] at hp
    split at hp
    · simp at hp
    · rename_i hany
      rw [List.mem_singleton.1 hp] at hb
      obtain ⟨o, ho, hoe⟩ := h.present e List.mem_cons_self hb
      have hout : takesOut (add e) o = true := by simp [takesOut, key_of_sameContent hoe]
      exact hany (List.any_eq_true.2 ⟨o, List.mem_filter.2 ⟨ho, hout⟩, hoe⟩)
  | remove q => exact hgone rfl fun _ => rfl
  | removeBelow b => exact hgone rfl fun _ => rfl

/-- Edits in order that leave a part of a table as it is touch no path in it. -/
theorem touched_of_repeats (ht : Table.IsSorted t)
    (hs : edits.Pairwise fun c d => (compare c d).isLE = true) (h : Repeats edits t base) :
    ∀ p ∈ (merge edits t).touched, p.beginsWith base = false := by
  induction edits generalizing t with
  | nil => simp [merge]
  | cons d edits ih =>
    rw [merge_cons ht]
    intro p hp
    rcases List.mem_append.1 hp with hp | hp
    · exact h.touches p hp
    · exact ih (isSorted_leaves ht d) hs.of_cons (h.tail hs) p hp

end Edit

/-! ## The cache tree -/

namespace Index

/-- After a queue of edits was applied, each directory that is known was known before to be the same,
and its entries agree with the old ones in path, stage, mode, object and whether they are only meant
to be added. A directory stays known if no edit removes one of its entries, and each addition below it
is the only one of its path and stage and repeats the content of the entry that is there. -/
theorem knows_edit {ix ix' : Index} {edits : List Edit} (ht : ix.table.Invariant) (hs : ix.InOrder)
    (h : ix.edit edits = .ok ix') :
    (∀ dir k, ix'.cache.Knows dir k → ix.cache.Knows dir k ∧
      Table.SameContents (ix.table.beginning (Bytes.asBase dir))
        (ix'.table.beginning (Bytes.asBase dir))) ∧
      ∀ dir k, ix.cache.Knows dir k → Edit.Repeats edits ix.table (Bytes.asBase dir) →
        ix'.cache.Knows dir k := by
  obtain ⟨m, hm, rfl⟩ := Check.map_eq_ok.1 h
  obtain ⟨hpaths, rfl, -⟩ := Edit.apply_eq_ok hm
  have hvalid : ∀ p ∈ (Edit.merge (Edit.sorted edits) ix.table).touched, Path.IsValid p := fun p =>
    Edit.isValid_of_mem_touched ht fun e he => hpaths e (Edit.mem_sorted.1 he)
  refine ⟨fun dir k hk => ?_, fun dir k hk hr => ?_⟩
  · obtain ⟨hk, hp⟩ := (CacheTree.knows_invalidateAll hvalid hs).1 hk
    exact ⟨hk, Edit.sameContents_of_touched ht.sorted hp⟩
  · have hp := Edit.touched_of_repeats ht.sorted (Edit.pairwise_sorted edits) hr.sorted
    exact (CacheTree.knows_invalidateAll hvalid hs).2 ⟨hk, hp⟩

/-- The file `a/x` with another size. -/
def resized : Entry := { Entry.bare [0x61, 0x2f, 0x78] .merged .regular .null with size := 1 }

/-- When the only entry of `a` is added again with another size and the only entry of `b` is removed,
`a` stays known, and `b` and the root are forgotten. -/
theorem knows_edit_resized :
    ∃ ix', twoDirectories.edit [.add resized, .remove [0x62, 0x2f, 0x79]] = .ok ix' ∧
      twoDirectories.table.Invariant ∧ twoDirectories.InOrder ∧
      ix'.cache.Knows [0x61] ⟨1, .null⟩ ∧ (∀ k, ¬ ix'.cache.Knows [0x62] k) ∧
        ∀ k, ¬ ix'.cache.Knows [] k := by
  have hr : Edit.Repeats [.add resized, .remove [0x62, 0x2f, 0x79]] twoDirectories.table
      (Bytes.asBase [0x61]) := by
    refine ⟨by decide, ?_, ?_⟩
    · simp only [List.mem_cons, Edit.add.injEq, reduceCtorEq, List.not_mem_nil, or_self, or_false]
      rintro e rfl -
      decide
    · simp only [List.mem_cons, Edit.add.injEq, reduceCtorEq, List.not_mem_nil, or_self, or_false]
      rintro e rfl -
      decide
  have h : twoDirectories.edit [.add resized, .remove [0x62, 0x2f, 0x79]] =
      .ok { twoDirectories with
        table := [resized]
        cache := .node [] none
          [.node [0x61] (some ⟨1, .null⟩) [], .node [0x62] none []] } := by
    cbv
  obtain ⟨hsound, hlocal⟩ := knows_edit twoDirectories_invariant twoDirectories_inOrder h
  refine ⟨_, h, twoDirectories_invariant, twoDirectories_inOrder,
    hlocal _ _ knows_twoDirectories hr, fun k hk => ?_, fun k hk => ?_⟩
  · have := (hsound _ _ hk).2
    revert this
    decide
  · have := (hsound _ _ hk).2
    revert this
    decide

end Index

end StagingIndex
