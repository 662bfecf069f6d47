import Mathlib
import StagingIndex.Proofs.TableInvariant

/-! # Lookups agree with a scan

A lookup halves the table and looks at few entries. In a sorted table it gives what a look at one
entry after another gives, for every path and for every directory, whether or not there is an entry:
the first position of a path, or else the only one at which an entry of the path keeps the order; the
entries of a path, its lowest stage and its merged entry; and what is below a directory, however close
to its own the names beside it are.

* `Table.locate_eq` — where a lookup ends
* `Table.findIdx?_eq`, `Table.isSorted_insertIdx_iff` — where a scan finds a path, and where it would go
* `Table.findMerged_eq_find?` — the merged entry of a path is its first
* `Table.under_eq` — what is below a directory
* `Table.AgreesWithScan`, `Table.agreesWithScan` — all lookups -/

namespace StagingIndex

/-! ## A slash at the end -/

namespace Bytes

/-- Only the empty string and the slash are empty without a final slash. -/
theorem dropFinalSlash_eq_nil_iff {s : Bytes} : s.dropFinalSlash = [] ↔ s = [] ∨ s = [slash] := by
  rw [dropFinalSlash]
  split
  · rename_i h
    constructor
    · intro hnil
      have hs := List.dropLast_append_getLast? slash h
      rw [hnil] at hs
      exact Or.inr hs.symm
    · rintro (rfl | rfl)
      · rfl
      · rfl
  · rename_i h
    constructor
    · exact Or.inl
    · rintro (rfl | rfl)
      · rfl
      · exact absurd rfl h

end Bytes

namespace Table

variable {t : Table} {p : Bytes} {e : Entry}

/-! ## The position of a path -/

/-- A lookup ends after the entries that stand before the path; the next one has the path if any
has. -/
theorem locate_eq (h : IsSorted t) (p : Bytes) :
    t.locate p = if ∃ e ∈ t, e.path = p then .present (t.takeWhile (isBefore p)).length
      else .absent (t.takeWhile (isBefore p)).length := by
  have hpoint := Search.partitionPoint_eq (h.pairwise_isBefore p)
  have hfind := find_isSome_iff h (p := p)
  rw [find, locate, hpoint] at hfind
  rw [locate, hpoint]
  cases he : t[(t.takeWhile (isBefore p)).length]? with
  | none =>
    simp only [he, Option.isSome_none, Bool.false_eq_true, false_iff] at hfind
    rw [if_neg hfind]
  | some e =>
    by_cases hp : e.path = p
    · rw [if_pos ⟨e, List.mem_of_getElem? he, hp⟩]
      exact if_pos hp
    · simp only [he, if_neg hp, Option.isSome_none, Bool.false_eq_true, false_iff] at hfind
      rw [if_neg hfind]
      exact if_neg hp

/-- Where a path has an entry, its first one follows the entries that stand before the path. -/
theorem findIdx?_eq (h : IsSorted t) (hp : ∃ e ∈ t, e.path = p) :
    t.findIdx? (fun e => e.path = p) = some (t.takeWhile (isBefore p)).length := by
  induction t with
  | nil => simp at hp
  | cons a t ih =>
    rw [List.findIdx?_cons, List.takeWhile_cons]
    by_cases ha : a.path = p
    · simp [ha, isBefore]
    · obtain ⟨e, he, hep⟩ := hp
      have het : e ∈ t := (List.mem_cons.1 he).resolve_left fun hea => ha (hea ▸ hep)
      -- The path of `a` is not after that of `e`, and another one.
      have hle := (List.pairwise_cons.1 h.pairwise_path).1 e het
      rw [hep] at hle
      have hbefore : isBefore p a = true := by
        rw [isBefore, compare_eq_lt_of_ne hle ha]
        rfl
      rw [ih h.of_cons ⟨e, het, hep⟩]
      simp [ha, hbefore]

/-- An entry of another path comes before an entry of a path if it stands before the path. -/
theorem compare_key_eq_lt_iff {o : Entry} (ho : o.path ≠ e.path) :
    compare o.key e.key = .lt ↔ isBefore e.path o = true := by
  rw [EntryKey.compare_eq_lt_iff, isBefore, beq_iff_eq]
  exact or_iff_left fun h => ho h.1

/-- It comes after such an entry if it does not. -/
theorem compare_key_eq_gt_iff {o : Entry} (ho : o.path ≠ e.path) :
    compare e.key o.key = .lt ↔ isBefore e.path o = false := by
  have hne : compare o.key e.key ≠ .eq := fun h =>
    ho (congrArg EntryKey.path (Std.LawfulEqOrd.eq_of_compare h))
  rw [← Bool.not_eq_true, ← compare_key_eq_lt_iff ho, ← Std.OrientedCmp.gt_iff_lt]
  cases hc : compare o.key e.key with
  | lt => simp
  | eq => exact absurd hc hne
  | gt => simp

/-- An entry of a path that a table does not have keeps the order where it follows the entries that
stand before the path, and nowhere else. -/
theorem isSorted_insertIdx_iff (h : IsSorted t) (hp : ∀ o ∈ t, o.path ≠ e.path) {i : Nat} :
    i ≤ t.length ∧ IsSorted (t.insertIdx i e) ↔ i = (t.takeWhile (isBefore e.path)).length := by
  induction t generalizing i with
  | nil =>
    constructor
    · rintro ⟨hi, -⟩
      exact Nat.le_zero.1 hi
    · rintro rfl
      exact ⟨le_rfl, List.pairwise_singleton _ _⟩
  | cons a t ih =>
    obtain ⟨ha, ht⟩ := List.forall_mem_cons.1 hp
    obtain ⟨hat, hst⟩ := List.pairwise_cons.1 h
    cases hb : isBefore e.path a with
    | false =>
      -- The entry comes before `a`, so it can only be the first.
      have hea := (compare_key_eq_gt_iff ha).2 hb
      rw [List.takeWhile_cons_of_neg (by simp [hb]), List.length_nil]
      constructor
      · rintro ⟨hi, hs⟩
        cases i with
        | zero => rfl
        | succ i =>
          have hmem : e ∈ t.insertIdx i e :=
            (List.mem_insertIdx (Nat.le_of_succ_le_succ hi)).2 (Or.inl rfl)
          rw [List.insertIdx_succ_cons] at hs
          have hae := (compare_key_eq_lt_iff ha).1 ((List.pairwise_cons.1 hs).1 e hmem)
          rw [hb] at hae
          cases hae
      · rintro rfl
        refine ⟨Nat.zero_le _, List.pairwise_cons.2 ⟨?_, h⟩⟩
        exact List.forall_mem_cons.2 ⟨hea, fun o ho => Std.TransCmp.lt_trans hea (hat o ho)⟩
    | true =>
      -- The entry comes after `a`, so it is not the first.
      have hae := (compare_key_eq_lt_iff ha).2 hb
      rw [List.takeWhile_cons_of_pos hb]
      cases i with
      | zero =>
        refine iff_of_false ?_ (Nat.zero_ne_add_one _)
        rintro ⟨-, hs⟩
        have hea := (compare_key_eq_gt_iff ha).1 ((List.pairwise_cons.1 hs).1 a List.mem_cons_self)
        rw [hb] at hea
        cases hea
      | succ i =>
        rw [List.length_cons, List.length_cons, Nat.add_right_cancel_iff, ← ih hst ht,
          List.insertIdx_succ_cons, Nat.add_le_add_iff_right]
        refine and_congr_right fun hi => ?_
        rw [IsSorted, List.pairwise_cons]
        refine and_iff_right ?_
        intro o ho
        rcases (List.mem_insertIdx hi).1 ho with rfl | ho
        · exact hae
        · exact hat o ho

/-! ## The merged entry -/

/-- The merged entry of a path is its first, so that a look at the first is enough, also where the path
is in conflict as well. -/
theorem findMerged_eq_find? (h : IsSorted t) (p : Bytes) :
    t.findMerged p = t.find? fun e => e.path = p ∧ e.stage = .merged := by
  rw [findMerged, find_eq_head? h, List.head?_filter]
  induction t with
  | nil => rfl
  | cons a t ih =>
    by_cases ha : a.path = p
    · rw [List.find?_cons_of_pos (by simpa using ha)]
      by_cases hm : a.stage = .merged
      · rw [List.find?_cons_of_pos (by simp [ha, hm])]
        simp [Option.filter, hm]
      · rw [List.find?_cons_of_neg (by simp [hm])]
        have hnone : t.find? (fun e => e.path = p ∧ e.stage = .merged) = none := by
          rw [List.find?_eq_none]
          intro b hb hbp
          rw [decide_eq_true_eq] at hbp
          -- Later entries of the path are at higher stages, and none is below the merged one.
          have hlt := h.stage_lt hb (ha.trans hbp.1.symm)
          have hle := Stage.compare_merged a.stage
          rw [hbp.2, ← Std.OrientedCmp.gt_iff_lt] at hlt
          rw [hlt] at hle
          cases hle
        rw [hnone]
        simp [Option.filter, hm]
    · rw [List.find?_cons_of_neg (by simpa using ha), List.find?_cons_of_neg (by simp [ha])]
      exact ih h.of_cons

/-! ## The entries below a directory -/

/-- Below a directory are the entries whose paths begin with it and a slash, which it may have already;
everything is below the root. -/
theorem under_eq (h : IsSorted t) (dir : Bytes) :
    t.under dir = if dir = [] ∨ dir = [Bytes.slash] then t
      else t.filter fun e => e.path.beginsWith (dir.dropFinalSlash ++ [Bytes.slash]) := by
  split
  · rename_i hdir
    rw [under, if_pos (Bytes.dropFinalSlash_eq_nil_iff.2 hdir)]
  · rename_i hdir
    exact under_eq_filter h fun hnil => hdir (Bytes.dropFinalSlash_eq_nil_iff.1 hnil)

/-! ## All lookups -/

/-- What is found in a table is what a look at one entry after another finds, for a path `p` and below
the directory `p`. -/
structure AgreesWithScan (t : Table) (p : Bytes) : Prop where
  /-- A path is found at its first position. -/
  present : ∀ i, t.locate p = .present i ↔ t.findIdx? (fun e => e.path = p) = some i
  /-- A path that is not found has no entry, and the position that is given is the only one at which an
  entry of the path keeps the table sorted. -/
  absent : ∀ e : Entry, e.path = p → ∀ i, t.locate p = .absent i ↔
    (∀ o ∈ t, o.path ≠ p) ∧ i ≤ t.length ∧ IsSorted (t.insertIdx i e)
  /-- The entry that is found is the first of the path. -/
  find : t.find p = t.find? fun e => e.path = p
  /-- The merged entry that is found is the merged entry of the path. -/
  findMerged : t.findMerged p = t.find? fun e => e.path = p ∧ e.stage = .merged
  /-- The stages of a path are all its entries. -/
  stages : t.stages p = t.filter fun e => e.path = p
  /-- Below a directory are all entries whose paths begin with the directory and a slash, which it may
  have already; all entries are below the root. -/
  under : t.under p = if p = [] ∨ p = [Bytes.slash] then t
    else t.filter fun e => e.path.beginsWith (p.dropFinalSlash ++ [Bytes.slash])

/-- In a sorted table every lookup agrees with a scan, for every path and every directory. -/
theorem agreesWithScan (h : IsSorted t) (p : Bytes) : t.AgreesWithScan p where
  present i := by
    rw [locate_eq h]
    split
    · rename_i hp
      rw [findIdx?_eq h hp, Search.Place.present.injEq, Option.some.injEq]
    · rename_i hp
      have hnone : t.findIdx? (fun e => e.path = p) = none := by
        rw [List.findIdx?_eq_none_iff]
        intro e he
        exact decide_eq_false fun hep => hp ⟨e, he, hep⟩
      simp [hnone]
  absent e he i := by
    subst he
    rw [locate_eq h]
    split
    · rename_i hp
      obtain ⟨o, ho, hoe⟩ := hp
      simp only [reduceCtorEq, false_iff]
      exact fun hnone => hnone.1 o ho hoe
    · rename_i hp
      have hne : ∀ o ∈ t, o.path ≠ e.path := fun o ho hoe => hp ⟨o, ho, hoe⟩
      rw [Search.Place.absent.injEq, isSorted_insertIdx_iff h hne, and_iff_right hne, eq_comm]
  find := by rw [find_eq_head? h, List.head?_filter]
  findMerged := findMerged_eq_find? h p
  stages := stages_eq_filter h p
  under := under_eq h p

/-- Files `a-b` and `a.b`, a file `x` in conflict in the directory `a`, and a file `a0`: names that
stand on both sides of the directory. -/
def closeNames : Table :=
  [.bare [0x61, 0x2d, 0x62] .merged .regular .null, .bare [0x61, 0x2e, 0x62] .merged .regular .null,
    .bare [0x61, 0x2f, 0x78] .ours .regular .null, .bare [0x61, 0x2f, 0x78] .theirs .regular .null,
    .bare [0x61, 0x30] .merged .regular .null]

/-- The file in conflict is found at its lower stage and has no merged entry, it alone is below `a`,
and a file `a` would come first. -/
theorem agreesWithScan_closeNames :
    IsSorted closeNames ∧ closeNames.locate [0x61, 0x2f, 0x78] = .present 2 ∧
      closeNames.findMerged [0x61, 0x2f, 0x78] = none ∧ closeNames.locate [0x61] = .absent 0 ∧
      closeNames.under [0x61] = closeNames.stages [0x61, 0x2f, 0x78] := by
  have hs : IsSorted closeNames := by
    have h : normalize .reject closeNames = .ok closeNames := by cbv
    exact (normalize_invariant h).sorted
  have hfile := agreesWithScan hs [0x61, 0x2f, 0x78]
  have hdirectory := agreesWithScan hs [0x61]
  refine ⟨hs, (hfile.present 2).2 (by decide), hfile.findMerged.trans (by decide), ?_, ?_⟩
  · refine (hdirectory.absent (.bare [0x61] .merged .regular .null) rfl 0).2 ⟨by decide, by decide, ?_⟩
    unfold IsSorted
    decide
  · rw [hdirectory.under, hfile.stages]
    decide

end Table

end StagingIndex
