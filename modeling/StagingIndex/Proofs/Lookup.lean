import Mathlib
import StagingIndex.Proofs.ByteOrder
import StagingIndex.Proofs.Halving
import StagingIndex.Table

/-! # Lookups in a sorted table

Every lookup is a binary search for the ends of a run. In a table that is sorted by key a lookup
gives just the entries that a look at every entry would give.

* `Table.IsSorted` — strictly increasing keys
* `Table.stages_eq_filter` — the stages of a path are its entries
* `Table.under_eq_filter` — below a directory are the entries whose paths begin with it
* `Table.find_isSome_iff` — a path is found if it has an entry -/

namespace StagingIndex

namespace Table

variable {t : Table}

/-- Strictly increasing keys. -/
def IsSorted (t : Table) : Prop := t.Pairwise fun a b => compare a.key b.key = .lt

/-- No two entries of a sorted table have the same key. -/
theorem IsSorted.nodup_key (h : IsSorted t) : (t.map Entry.key).Nodup := by
  refine List.pairwise_map.2 (h.imp ?_)
  intro a b hab heq
  simp [heq] at hab

/-- Entries of a sorted table with the same key are the same. -/
theorem IsSorted.eq_of_key {a b : Entry} (h : IsSorted t) (ha : a ∈ t) (hb : b ∈ t)
    (hk : a.key = b.key) : a = b :=
  List.inj_on_of_nodup_map h.nodup_key ha hb hk

/-- In a sorted table the paths never go back. -/
theorem IsSorted.pairwise_path (h : IsSorted t) :
    t.Pairwise fun a b => (compare a.path b.path).isLE = true :=
  h.imp fun hab => EntryKey.compare_path_of_lt hab

/-- Entries before a path come first. -/
theorem IsSorted.pairwise_isBefore (h : IsSorted t) (p : Bytes) :
    t.Pairwise fun a b => isBefore p b = true → isBefore p a = true := by
  refine h.pairwise_path.imp ?_
  intro a b hab hb
  simp only [isBefore, beq_iff_eq] at hb ⊢
  exact Std.TransCmp.lt_of_isLE_of_lt hab hb

/-- An entry that is left when those before `p` are dropped is not before `p`. -/
theorem IsSorted.not_isBefore_of_mem_dropWhile (h : IsSorted t) {p : Bytes} {e : Entry}
    (he : e ∈ t.dropWhile (isBefore p)) : isBefore p e = false := by
  rw [Search.dropWhile_eq_filter (h.pairwise_isBefore p), List.mem_filter] at he
  simpa using he.2

/-- The run between two conditions holds the entries of the second one, if no entry satisfies both
and each comes first where it is searched. -/
theorem run_eq_filter {before inside : Entry → Bool}
    (hb : t.Pairwise fun a b => before b = true → before a = true)
    (hi : (t.dropWhile before).Pairwise fun a b => inside b = true → inside a = true)
    (hd : ∀ e, inside e = true → before e = false) : run before inside t = t.filter inside := by
  -- Both searches stop where a look at one entry after another would.
  rw [run, Search.drop_partitionPoint hb, Search.take_partitionPoint hi,
    Search.takeWhile_eq_filter hi, Search.dropWhile_eq_filter hb, List.filter_filter]
  apply List.filter_congr
  intro e _
  cases h : inside e with
  | true => simp [hd e h]
  | false => simp

/-! ## The entries of one path -/

/-- Among entries not before `p` those of the path `p` come first. -/
theorem IsSorted.pairwise_path_eq (h : IsSorted t) (p : Bytes) :
    (t.dropWhile (isBefore p)).Pairwise
      fun a b => decide (b.path = p) = true → decide (a.path = p) = true := by
  have hsub := List.dropWhile_sublist (isBefore p) (l := t)
  refine (List.Pairwise.and_mem.1 (IsSorted.pairwise_path (h.sublist hsub))).imp ?_
  rintro a b ⟨ha, -, hab⟩ hb
  simp only [decide_eq_true_eq] at hb ⊢
  have hna := h.not_isBefore_of_mem_dropWhile ha
  simp only [isBefore, beq_eq_false_iff_ne] at hna
  rw [hb] at hab
  cases hc : compare a.path p with
  | lt => exact absurd hc hna
  | eq => exact Std.LawfulEqOrd.eq_of_compare hc
  | gt => simp [hc] at hab

/-- The stages of a path are all entries of the path. -/
theorem stages_eq_filter (h : IsSorted t) (p : Bytes) :
    t.stages p = t.filter fun e => e.path = p := by
  refine run_eq_filter (h.pairwise_isBefore p) (h.pairwise_path_eq p) ?_
  intro e he
  simp only [decide_eq_true_eq] at he
  simp [isBefore, he]

/-- The entry found for a path is the first of the path. -/
theorem find_eq_head? (h : IsSorted t) (p : Bytes) :
    t.find p = (t.filter fun e => e.path = p).head? := by
  have hpoint := Search.getElem?_partitionPoint (h.pairwise_isBefore p)
  rw [← stages_eq_filter h, find, locate]
  -- The first entry that is not before the path is the first of the run.
  have hrun : t.stages p = (t.dropWhile (isBefore p)).takeWhile fun e => e.path = p := by
    rw [stages_eq_filter h, Search.takeWhile_eq_filter (h.pairwise_path_eq p),
      Search.dropWhile_eq_filter (h.pairwise_isBefore p), List.filter_filter]
    apply List.filter_congr
    intro e _
    by_cases he : e.path = p
    · simp [he, isBefore]
    · simp [he]
  rw [hrun, hpoint]
  cases hd : t.dropWhile (isBefore p) with
  | nil => rfl
  | cons e es =>
    rw [hd] at hpoint
    by_cases he : e.path = p
    · simp [he, hpoint]
    · simp [he]

/-- A path is found if it has an entry. -/
theorem find_isSome_iff (h : IsSorted t) {p : Bytes} :
    (t.find p).isSome = true ↔ ∃ e ∈ t, e.path = p := by
  rw [find_eq_head? h, List.isSome_head?]
  simp

/-! ## The entries below a directory -/

/-- The entries whose paths have a beginning. -/
def beginning (t : Table) (base : Bytes) : Table :=
  t.filter fun e => e.path.beginsWith base

/-- Among entries not before `base` those that begin with it come first. -/
theorem IsSorted.pairwise_beginsWith (h : IsSorted t) (base : Bytes) :
    (t.dropWhile (isBefore base)).Pairwise
      fun a b => b.path.beginsWith base = true → a.path.beginsWith base = true := by
  have hsub := List.dropWhile_sublist (isBefore base) (l := t)
  refine (List.Pairwise.and_mem.1 (IsSorted.pairwise_path (h.sublist hsub))).imp ?_
  rintro a b ⟨ha, -, hab⟩ hb
  have hna := h.not_isBefore_of_mem_dropWhile ha
  simp only [isBefore, beq_eq_false_iff_ne] at hna
  -- `a` lies between the beginning itself and `b`.
  refine Bytes.beginsWith_of_between (a := base) (c := b.path) (by simp) hb ?_ hab
  rw [← Std.OrientedCmp.isGE_iff_isLE]
  cases hc : compare a.path base with
  | lt => exact absurd hc hna
  | eq => rfl
  | gt => rfl

/-- Below a directory with a name are the entries whose paths begin with the name and a slash. -/
theorem under_eq_filter (h : IsSorted t) {dir : Bytes} (hd : dir.dropFinalSlash ≠ []) :
    t.under dir = beginning t (dir.dropFinalSlash ++ [Bytes.slash]) := by
  simp only [under, hd, if_false]
  refine run_eq_filter (h.pairwise_isBefore _) (h.pairwise_beginsWith _) ?_
  intro e he
  have := Bytes.compare_ne_lt_of_beginsWith he
  simpa [isBefore] using this

/-- Below the directory without a name are all entries. -/
theorem under_nil (t : Table) : t.under [] = t := by
  simp [under, Bytes.dropFinalSlash]

@[simp] theorem beginning_nil (t : List Entry) : beginning t [] = t := by
  simp [beginning]

@[simp] theorem mem_beginning {base : Bytes} {e : Entry} :
    e ∈ beginning t base ↔ e ∈ t ∧ e.path.beginsWith base = true := by
  simp [beginning]

/-- In a table whose first entry has a beginning the entries that have it come first. -/
theorem IsSorted.pairwise_beginsWith_of_head (h : IsSorted t) {base : Bytes} {e : Entry}
    {es : List Entry} (ht : t = e :: es) (he : e.path.beginsWith base = true) :
    t.Pairwise fun a b => b.path.beginsWith base = true → a.path.beginsWith base = true := by
  refine (List.Pairwise.and_mem.1 h.pairwise_path).imp ?_
  rintro a b ⟨ha, -, hab⟩ hb
  subst ht
  rcases List.mem_cons.1 ha with rfl | ha
  · exact he
  · have hea := (List.pairwise_cons.1 h.pairwise_path).1 a ha
    exact Bytes.beginsWith_of_between he hb hea hab

/-- The entries with a beginning come one after another: after the first that has it, the first that
has not ends them. -/
theorem takeWhile_beginsWith (h : IsSorted t) {base : Bytes} {e : Entry} {es : List Entry}
    (ht : t = e :: es) (he : e.path.beginsWith base = true) :
    t.takeWhile (fun e => e.path.beginsWith base) = beginning t base :=
  Search.takeWhile_eq_filter (h.pairwise_beginsWith_of_head ht he)

/-- After the entries with a beginning there is none that has it. -/
theorem dropWhile_beginsWith (h : IsSorted t) {base : Bytes} {e : Entry} {es : List Entry}
    (ht : t = e :: es) (he : e.path.beginsWith base = true) :
    t.dropWhile (fun e => e.path.beginsWith base) = t.filter fun e => !e.path.beginsWith base :=
  Search.dropWhile_eq_filter (h.pairwise_beginsWith_of_head ht he)

end Table

end StagingIndex
