import Mathlib
import StagingIndex.Proofs.QueuedEdits
import StagingIndex.Proofs.Scanning

/-! # Tables split at a directory

An edit can take out everything below a directory, and a batch can keep everything below it. The one
adds a slash to the name of the directory, the other takes one from it and adds it again, so both mean
the same entries, and each entry of the table is kept by exactly one of them. The root is the
exception: it is the string without bytes, or a slash, which begin no path with a slash in front, so
that an edit takes out nothing where a batch keeps everything.

* `Edit.exists_apply_removeTree` — what is left when everything below a directory is taken out
* `Table.Splits` — each entry of a table is in exactly one of two tables
* `Index.splits_iff` — the directories at which an edit and a batch split a table
* `Index.not_splits_root` — the root is not one of them -/

namespace StagingIndex

namespace Bytes

/-- A directory has the same slash at its end, whether one was dropped first or not. -/
theorem dropFinalSlash_append_slash (s : Bytes) :
    s.dropFinalSlash ++ [slash] = s.withFinalSlash := by
  rw [dropFinalSlash, withFinalSlash]
  split
  · rename_i h
    exact List.dropLast_append_getLast? slash h
  · rfl

end Bytes

/-- A path does not begin with a slash. -/
theorem Path.IsValid.beginsWith_slash {p : Bytes} (h : IsValid p) :
    p.beginsWith [Bytes.slash] = false := by
  rw [← Bool.not_eq_true, Bytes.beginsWith_iff]
  rintro ⟨r, rfl⟩
  exact (isValid_iff.1 h).2.2.1 (Or.inl rfl)

/-- Taking out everything below a directory leaves the entries whose paths do not begin with it and a
slash. -/
theorem Edit.exists_apply_removeTree {t : Table} (ht : t.Invariant) (dir : Bytes) :
    ∃ m, apply [removeTree dir] t = .ok m ∧
      m.entries = t.filter fun e => !e.path.beginsWith dir.withFinalSlash := by
  refine (exists_apply_iff ht).2 ?_
  have hkept : kept [removeTree dir] t =
      t.filter fun e => !e.path.beginsWith dir.withFinalSlash := by
    simp [kept, removeTree, removes]
  have hadds : additions [removeTree dir] = [] := rfl
  rw [hkept, hadds, List.append_nil]
  exact (ht.sublist List.filter_sublist).normalize_eq

namespace Table

/-- Two tables split a table at a directory: the one has the entries that are not below the directory,
the other those that are, both in their order, and so each entry is in exactly one of them. -/
structure Splits (t : Table) (dir : Bytes) (removed kept : Table) : Prop where
  removed_eq : removed = t.filter fun e => e ∉ t.under dir
  kept_eq : kept = t.under dir
  once : ∀ e ∈ t, Xor (e ∈ removed) (e ∈ kept)

/-- The first of two tables that split one decides. -/
theorem splits_under_iff {t removed : Table} {dir : Bytes} :
    t.Splits dir removed (t.under dir) ↔ removed = t.filter fun e => e ∉ t.under dir := by
  constructor
  · exact Splits.removed_eq
  · rintro rfl
    refine ⟨rfl, rfl, fun e he => ?_⟩
    rw [xor_iff_not_iff]
    simp [he]

/-- Without what begins with a directory and a slash a table is split at the directory, if that is not
the root. -/
theorem filter_beginsWith_eq_iff {t : Table} (ht : t.Invariant) (dir : Bytes) :
    (t.filter fun e => !e.path.beginsWith dir.withFinalSlash) =
        (t.filter fun e => e ∉ t.under dir) ↔
      (dir ≠ [] ∧ dir ≠ [Bytes.slash]) ∨ t = [] := by
  rw [under_eq ht.sorted, Bytes.dropFinalSlash_append_slash]
  by_cases hroot : dir = [] ∨ dir = [Bytes.slash]
  · -- No path begins with a slash, and all entries are below the root.
    have hslash : dir.withFinalSlash = [Bytes.slash] := by
      rcases hroot with rfl | rfl
      · rfl
      · rfl
    have hleft : (t.filter fun e => !e.path.beginsWith [Bytes.slash]) = t := by
      rw [List.filter_eq_self]
      intro e he
      rw [(ht.valid e he).beginsWith_slash]
      rfl
    have hright : (t.filter fun e => e ∉ t) = [] := by simp
    rw [if_pos hroot, hslash, hleft, hright, ← not_or]
    exact (or_iff_right (not_not.2 hroot)).symm
  · have hsame : ∀ e ∈ t, (!e.path.beginsWith dir.withFinalSlash) =
        decide (e ∉ t.filter fun e => e.path.beginsWith dir.withFinalSlash) := by
      intro e he
      simp only [List.mem_filter, he, true_and, decide_not, Bool.decide_eq_true]
    rw [if_neg hroot]
    exact iff_of_true (List.filter_congr hsame) (Or.inl (not_or.1 hroot))

end Table

namespace Index

variable {ix : Index}

/-- A batch that keeps everything below a directory makes a table of it. -/
theorem exists_replace_keepUnder (ht : ix.table.Invariant) (dir : Bytes) :
    ∃ kept, ix.replace (Batch.empty.keepUnder ix.table dir) = .ok kept ∧
      kept.table = ix.table.under dir := by
  have hunder : (ix.table.under dir).Sublist ix.table := by
    rw [Table.under_eq ht.sorted]
    split
    · exact List.Sublist.refl _
    · exact List.filter_sublist
  have hcandidates : (Batch.empty.keepUnder ix.table dir).candidates = ix.table.under dir := rfl
  rw [replace, hcandidates, (ht.sublist hunder).normalize_eq]
  exact ⟨_, rfl, rfl⟩

/-- Taking out everything below a directory from the table of an index is accepted. -/
theorem exists_edit_removeTree (ht : ix.table.Invariant) (dir : Bytes) :
    ∃ removed, ix.edit [.removeTree dir] = .ok removed ∧
      removed.table = ix.table.filter fun e => !e.path.beginsWith dir.withFinalSlash := by
  obtain ⟨m, hm, hentries⟩ := Edit.exists_apply_removeTree ht dir
  rw [edit, hm]
  exact ⟨_, rfl, hentries⟩

/-- An edit that takes out everything below a directory and a batch that collects everything below it
are both accepted by an index. What they make of its table splits it at the directory if and only if
that is not the root, the string without bytes or a slash, or if there is no entry at all. -/
theorem splits_iff (ht : ix.table.Invariant) (dir : Bytes) :
    ∃ removed kept : Index, ix.edit [.removeTree dir] = .ok removed ∧
      ix.replace (Batch.empty.keepUnder ix.table dir) = .ok kept ∧
      (Batch.empty.keepUnder ix.table dir).candidates = ix.table.under dir ∧
      (ix.table.Splits dir removed.table kept.table ↔
        (dir ≠ [] ∧ dir ≠ [Bytes.slash]) ∨ ix.table = []) := by
  obtain ⟨removed, hedit, hremoved⟩ := exists_edit_removeTree ht dir
  obtain ⟨kept, hreplace, hkept⟩ := exists_replace_keepUnder ht dir
  refine ⟨removed, kept, hedit, hreplace, rfl, ?_⟩
  rw [hkept, Table.splits_under_iff, hremoved, Table.filter_beginsWith_eq_iff ht]

/-- An index with a directory `a` and files whose names stand on both sides of it. -/
def closeIndex : Index := { Index.new [] .standard with table := Table.closeNames }

/-- At the directory `a`, given with a slash, the table splits into the file in conflict and the
others. -/
theorem splits_iff_closeNames :
    closeIndex.table.Invariant ∧ ∃ removed kept : Index,
      closeIndex.edit [.removeTree [0x61, Bytes.slash]] = .ok removed ∧
      closeIndex.replace (Batch.empty.keepUnder closeIndex.table [0x61, Bytes.slash]) = .ok kept ∧
      closeIndex.table.Splits [0x61, Bytes.slash] removed.table kept.table := by
  have ht : closeIndex.table.Invariant := by
    have h : Table.normalize .reject closeIndex.table = .ok closeIndex.table := by cbv
    exact Table.normalize_invariant h
  obtain ⟨removed, kept, hedit, hreplace, -, hsplits⟩ := splits_iff ht [0x61, Bytes.slash]
  exact ⟨ht, removed, kept, hedit, hreplace, hsplits.2 (Or.inl (by decide))⟩

/-- At the root the table does not split: the edit leaves all entries, and the batch keeps all of
them. -/
theorem not_splits_root :
    (closeIndex.edit [.removeTree []]).map Index.table = .ok Table.closeNames ∧
      (closeIndex.replace (Batch.empty.keepUnder closeIndex.table [])).map Index.table =
        .ok Table.closeNames ∧
      ¬ closeIndex.table.Splits [] Table.closeNames Table.closeNames := by
  refine ⟨by cbv, by cbv, fun h => ?_⟩
  have hnone : (closeIndex.table.filter fun e => e ∉ closeIndex.table.under []) = [] := by decide
  have hremoved := h.removed_eq
  rw [hnone] at hremoved
  cases hremoved

end Index

end StagingIndex
