import Mathlib
import StagingIndex.Proofs.TableInvariant
import StagingIndex.Edit

/-! # Edits of a table

Edits are merged into a table in one pass. Each edit passes over the entries before it, takes out
the ones it is about, and leaves the rest to the edits that follow; only the paths that were added
are checked afterwards.

* `Edit.passes`, `Edit.takesOut`, `Edit.leaves` — what an edit makes of an entry
* `Edit.passes_iff` — an entry stands before an edit if adding it would come before
* `Edit.merge_cons` — one step of the pass
* `Edit.merge_isSorted` — the result is sorted
* `Edit.apply_invariant` — what edits make of a table satisfies the conditions again -/

namespace StagingIndex

namespace Edit

variable {t : Table} {edits : List Edit}

/-! ## One edit -/

/-- Whether an entry stands before an edit. -/
def passes : Edit → Entry → Bool
  | add e, o => compare o.key e.key == .lt
  | remove p, o => Table.isBefore p o
  | removeBelow base, o => Table.isBefore base o

/-- Whether an edit takes an entry out. -/
def takesOut : Edit → Entry → Bool
  | add e, o => o.key = e.key
  | remove p, o => o.path = p
  | removeBelow base, o => o.path.beginsWith base

/-- Whether an entry is left to the edits that follow. -/
def leaves (d : Edit) (o : Entry) : Bool := !d.passes o && !d.takesOut o

/-- The entry that an edit puts in, given the edits that follow. -/
def puts : Edit → List Edit → List Entry
  | add e, edits => if addsKey e.key edits then [] else [e]
  | _, _ => []

/-- The paths that an edit touches, given what it takes out. -/
def touches : Edit → List Entry → List Bytes
  | add e, gone => if gone.any fun o => o.sameContent e then [] else [e.path]
  | _, gone => gone.map (·.path)

/-- The path that an edit adds. -/
def adds : Edit → List Bytes
  | add e => [e.path]
  | _ => []

/-! ## The order of edits -/

instance : Std.TransOrd Edit :=
  inferInstanceAs (Std.TransCmp (compareLex (compareOn Edit.path) (compareOn Edit.rank)))

/-- Edits are compared by path, and by rank where the paths are the same. -/
theorem compare_eq (c d : Edit) :
    compare c d = (compare c.path d.path).then (compare c.rank d.rank) := rfl

/-- Additions are in the order of their keys. -/
theorem compare_add_add (e f : Entry) : compare (add e) (add f) = compare e.key f.key := by
  have hrank : compare (add e).rank (add f).rank = compare e.stage f.stage := by
    simp only [rank]
    cases e.stage <;> cases f.stage <;> rfl
  rw [compare_eq, hrank]
  rfl

/-- An entry stands before an edit if adding it would come before. -/
theorem passes_iff {d : Edit} {o : Entry} : d.passes o = true ↔ compare (add o) d = .lt := by
  have hremoval : ∀ p, (Table.isBefore p o = true) ↔
      (compare o.path p).then (compare (1 + o.stage.toNat) 0) = .lt := by
    intro p
    have hrank : compare (1 + o.stage.toNat) 0 = .gt := Nat.compare_eq_gt.2 (by omega)
    rw [Table.isBefore, beq_iff_eq, hrank]
    cases compare o.path p <;> simp
  cases d with
  | add e => rw [passes, beq_iff_eq, compare_add_add]
  | remove p => exact hremoval p
  | removeBelow base => exact hremoval base

/-- An entry that stands before an edit stands before later ones. -/
theorem passes_of_isLE {c d : Edit} {o : Entry} (ho : c.passes o = true)
    (hcd : (compare c d).isLE = true) : d.passes o = true :=
  passes_iff.2 (Std.TransCmp.lt_of_lt_of_isLE (passes_iff.1 ho) hcd)

/-! ## What an edit takes out -/

/-- What an edit takes out does not stand before it. -/
theorem passes_eq_false {d : Edit} {o : Entry} (h : d.takesOut o = true) : d.passes o = false := by
  cases d with
  | add e =>
    simp only [takesOut, decide_eq_true_eq] at h
    simp [passes, h]
  | remove p =>
    simp only [takesOut, decide_eq_true_eq] at h
    simp [passes, Table.isBefore, h]
  | removeBelow base =>
    have := Bytes.compare_ne_lt_of_beginsWith h
    simpa [passes, Table.isBefore] using this

/-- Entries that stand before an edit come first. -/
theorem pairwise_passes (h : Table.IsSorted t) (d : Edit) :
    t.Pairwise fun a b => d.passes b = true → d.passes a = true := by
  refine h.imp fun hab hb => passes_iff.2 ?_
  rw [← compare_add_add] at hab
  exact Std.TransCmp.lt_trans hab (passes_iff.1 hb)

/-- After the entries that stand before an edit, those that it takes out come first. -/
theorem pairwise_takesOut (h : Table.IsSorted t) (d : Edit) :
    (t.dropWhile d.passes).Pairwise fun a b => d.takesOut b = true → d.takesOut a = true := by
  cases d with
  | add e =>
    have hsub := List.dropWhile_sublist (passes (add e)) (l := t)
    have hmem : ∀ a ∈ t.dropWhile (passes (add e)), compare a.key e.key ≠ .lt := by
      intro a ha
      rw [Search.dropWhile_eq_filter (pairwise_passes h _), List.mem_filter] at ha
      simpa [passes] using ha.2
    refine (List.Pairwise.and_mem.1 (h.sublist hsub)).imp ?_
    rintro a b ⟨ha, -, hab⟩ hb
    simp only [takesOut, decide_eq_true_eq] at hb
    exact absurd (hb ▸ hab) (hmem a ha)
  | remove p => exact h.pairwise_path_eq p
  | removeBelow base => exact h.pairwise_beginsWith base

/-- After the entries that stand before an edit, those that it takes out. -/
theorem takeWhile_takesOut (h : Table.IsSorted t) (d : Edit) :
    (t.dropWhile d.passes).takeWhile d.takesOut = t.filter d.takesOut := by
  rw [Search.takeWhile_eq_filter (pairwise_takesOut h d),
    Search.dropWhile_eq_filter (pairwise_passes h d), List.filter_filter]
  apply List.filter_congr
  intro o _
  cases ho : d.takesOut o with
  | true => simp [passes_eq_false ho]
  | false => simp

/-- After those, the entries that are left. -/
theorem dropWhile_takesOut (h : Table.IsSorted t) (d : Edit) :
    (t.dropWhile d.passes).dropWhile d.takesOut = t.filter d.leaves := by
  rw [Search.dropWhile_eq_filter (pairwise_takesOut h d),
    Search.dropWhile_eq_filter (pairwise_passes h d), List.filter_filter]
  apply List.filter_congr
  intro o _
  rw [leaves, Bool.and_comm]

/-- An edit cuts a table into three parts. -/
theorem filter_append_filter (h : Table.IsSorted t) (d : Edit) :
    t.filter d.passes ++ (t.filter d.takesOut ++ t.filter d.leaves) = t := by
  rw [← takeWhile_takesOut h, ← dropWhile_takesOut h, List.takeWhile_append_dropWhile,
    ← Search.takeWhile_eq_filter (pairwise_passes h d), List.takeWhile_append_dropWhile]

/-- Nothing that follows an entry of a sorted table has its key. -/
theorem takesOut_add_eq_false {e o b : Entry} {rest : List Entry}
    (h : Table.IsSorted (o :: rest)) (ho : o.key = e.key) (hb : b ∈ rest) :
    takesOut (add e) b = false := by
  have hlt := (List.pairwise_cons.1 h).1 b hb
  simp only [takesOut, decide_eq_false_iff_not]
  intro hk
  rw [ho, hk, Std.ReflOrd.compare_self] at hlt
  cases hlt

/-- One step of the pass: an edit keeps what stands before it, puts in its entry, and leaves to the
edits that follow what it neither keeps nor takes out. -/
theorem merge_cons (h : Table.IsSorted t) (d : Edit) (edits : List Edit) :
    merge (d :: edits) t =
      ⟨t.filter d.passes ++ (d.puts edits ++ (merge edits (t.filter d.leaves)).entries),
        d.touches (t.filter d.takesOut) ++ (merge edits (t.filter d.leaves)).touched,
        d.adds ++ (merge edits (t.filter d.leaves)).added⟩ := by
  have hpass := Search.takeWhile_eq_filter (pairwise_passes h d)
  have htake := takeWhile_takesOut h d
  have hdrop := dropWhile_takesOut h d
  cases d with
  | add e =>
    have hp : (fun o : Entry => compare o.key e.key == .lt) = passes (add e) := rfl
    -- An addition looks at one entry only, the first that does not stand before it.
    have hrest : Table.IsSorted (t.dropWhile (passes (add e))) :=
      h.sublist (List.dropWhile_sublist _)
    simp only [merge, List.span_eq_takeWhile_dropWhile, hp, hpass, ← htake, ← hdrop]
    cases hr : t.dropWhile (passes (add e)) with
    | nil =>
      simp only [puts, touches, adds]
      split <;> rfl
    | cons o rest =>
      rw [hr] at hrest
      by_cases ho : o.key = e.key
      · have ht : takesOut (add e) o = true := by simp [takesOut, ho]
        have hnone := fun b => takesOut_add_eq_false (b := b) hrest ho
        have htake : rest.takeWhile (takesOut (add e)) = [] := by
          rw [List.takeWhile_eq_nil_iff]
          intro hpos
          simp [hnone _ (List.getElem_mem hpos)]
        have hdrop : rest.dropWhile (takesOut (add e)) = rest := by
          rw [List.dropWhile_eq_self_iff]
          intro hpos
          simp [hnone _ (List.getElem_mem hpos)]
        simp only [ho, if_true, List.takeWhile_cons_of_pos ht, List.dropWhile_cons_of_pos ht, htake,
          hdrop, puts, touches, adds]
        split <;> rfl
      · have ht : ¬ takesOut (add e) o = true := by simp [takesOut, ho]
        simp only [ho, if_false, List.takeWhile_cons_of_neg ht, List.dropWhile_cons_of_neg ht,
          puts, touches, adds]
        split <;> rfl
  | remove p =>
    -- A removal takes out a run of entries, as the pass does.
    have hp : Table.isBefore p = passes (remove p) := rfl
    have ht : (fun o : Entry => decide (o.path = p)) = takesOut (remove p) := rfl
    simp only [merge, List.span_eq_takeWhile_dropWhile, hp, ht, hpass, htake, hdrop]
    rfl
  | removeBelow base =>
    have hp : Table.isBefore base = passes (removeBelow base) := rfl
    have ht : (fun o : Entry => o.path.beginsWith base) = takesOut (removeBelow base) := rfl
    simp only [merge, List.span_eq_takeWhile_dropWhile, hp, ht, hpass, htake, hdrop]
    rfl

/-- What is left is part of the table. -/
theorem isSorted_leaves (h : Table.IsSorted t) (d : Edit) : Table.IsSorted (t.filter d.leaves) :=
  h.sublist List.filter_sublist

/-! ## The whole pass -/

/-- The paths that were added are those of the additions. -/
theorem merge_added (h : Table.IsSorted t) : (merge edits t).added = edits.flatMap adds := by
  induction edits generalizing t with
  | nil => rfl
  | cons d edits ih => rw [merge_cons h, ih (isSorted_leaves h d), List.flatMap_cons]

/-- What an edit puts in is what it adds. -/
theorem mem_puts {d : Edit} {o : Entry} (h : o ∈ d.puts edits) : d = add o := by
  cases d with
  | add e =>
    simp only [puts] at h
    split at h
    · simp at h
    · rw [List.mem_singleton.1 h]
  | remove p => simp [puts] at h
  | removeBelow base => simp [puts] at h

/-- Entries of the result were there before or have been added. -/
theorem mem_merge (h : Table.IsSorted t) {o : Entry} (ho : o ∈ (merge edits t).entries) :
    o ∈ t ∨ add o ∈ edits := by
  induction edits generalizing t with
  | nil => exact Or.inl ho
  | cons d edits ih =>
    rw [merge_cons h] at ho
    simp only [List.mem_append] at ho
    rcases ho with ho | ho | ho
    · exact Or.inl (List.mem_filter.1 ho).1
    · exact Or.inr (mem_puts ho ▸ List.mem_cons_self)
    · rcases ih (isSorted_leaves h d) ho with ho | ho
      · exact Or.inl (List.mem_filter.1 ho).1
      · exact Or.inr (List.mem_cons_of_mem _ ho)

/-- An entry whose path was not added was there before. -/
theorem mem_of_notMem_added (h : Table.IsSorted t) {o : Entry}
    (ho : o ∈ (merge edits t).entries) (hp : o.path ∉ (merge edits t).added) : o ∈ t := by
  rcases mem_merge h ho with ho | ho
  · exact ho
  · rw [merge_added h] at hp
    exact absurd (List.mem_flatMap.2 ⟨add o, ho, by simp [adds]⟩) hp

/-! ## The order of the result -/

/-- An entry that stands before an edit is before what is added later. -/
theorem compare_of_passes {d : Edit} {o e : Entry} (ho : d.passes o = true)
    (hd : (compare d (add e)).isLE = true) : compare o.key e.key = .lt := by
  rw [← compare_add_add]
  exact passes_iff.1 (passes_of_isLE ho hd)

/-- Between two additions of the same key there are only additions of that key. -/
theorem addsKey_of_between {c : Edit} {o e : Entry} (hk : o.key = e.key)
    (hoc : (compare (add o) c).isLE = true) (hce : (compare c (add e)).isLE = true) :
    addsKey o.key (c :: edits) = true := by
  have hpath : o.path = e.path := congrArg EntryKey.path hk
  have hstage : o.stage = e.stage := congrArg EntryKey.stage hk
  -- The two additions are equal as edits, so `c` is equal to both.
  have hco : (compare c (add o)).isLE = true := by
    simpa only [compare_eq, path, rank, hpath, hstage] using hce
  obtain ⟨hp, hr⟩ := compareLex_eq_eq.1 (Std.OrientedCmp.isLE_antisymm hoc hco)
  have hp : o.path = c.path := Std.LawfulEqOrd.eq_of_compare hp
  have hr : 1 + o.stage.toNat = c.rank := Std.LawfulEqOrd.eq_of_compare hr
  cases c with
  | add f =>
    have hf : o.stage.toNat = f.stage.toNat := by
      simpa [rank] using hr
    have hf : o.stage = f.stage := by
      simpa using congrArg Stage.ofNat? hf
    simp only [path] at hp
    simp [addsKey, Entry.key, hp, hf]
  | remove p => simp [rank] at hr
  | removeBelow base => simp [rank] at hr

/-- Of edits in order the one that follows an addition has the same key if any later one has. -/
theorem addsKey_iff {o : Entry}
    (hs : (add o :: edits).Pairwise fun c d => (compare c d).isLE = true) :
    addsKey o.key edits = true ↔ ∃ e, add e ∈ edits ∧ e.key = o.key := by
  obtain ⟨hle, hs⟩ := List.pairwise_cons.1 hs
  cases edits with
  | nil => simp [addsKey]
  | cons c edits =>
    constructor
    · intro h
      cases c with
      | add e => exact ⟨e, List.mem_cons_self, by simpa [addsKey] using h⟩
      | remove p => cases h
      | removeBelow base => cases h
    · rintro ⟨e, he, hk⟩
      -- The next edit is between the two.
      have hce : (compare c (add e)).isLE = true := by
        rcases List.mem_cons.1 he with rfl | he
        · simp
        · exact (List.pairwise_cons.1 hs).1 _ he
      exact addsKey_of_between hk.symm (hle c List.mem_cons_self) hce

/-- What an edit puts in is before what is added later: of several additions with the same key only
the last one puts its entry in. -/
theorem compare_of_mem_puts {d : Edit} {o e : Entry}
    (hs : (d :: edits).Pairwise fun c d => (compare c d).isLE = true) (ho : o ∈ d.puts edits)
    (he : add e ∈ edits) : compare o.key e.key = .lt := by
  obtain rfl := mem_puts ho
  have hoe := (List.pairwise_cons.1 hs).1 _ he
  rw [compare_add_add] at hoe
  refine compare_eq_lt_of_ne hoe fun hk => ?_
  have hadds : addsKey o.key edits = true := (addsKey_iff hs).2 ⟨e, he, hk.symm⟩
  simp [puts, hadds] at ho

/-- Edits in order make a sorted table of a sorted one. -/
theorem merge_isSorted (h : Table.IsSorted t)
    (hs : edits.Pairwise fun c d => (compare c d).isLE = true) :
    Table.IsSorted (merge edits t).entries := by
  induction edits generalizing t with
  | nil => exact h
  | cons d edits ih =>
    have hm := ih (isSorted_leaves h d) hs.of_cons
    -- The table is cut in three, and the middle part is replaced by what is put in.
    have hcut := h
    rw [← filter_append_filter h d, Table.IsSorted, List.pairwise_append,
      List.pairwise_append] at hcut
    obtain ⟨hpass, -, hbefore⟩ := hcut
    rw [merge_cons h]
    refine List.pairwise_append.2 ⟨hpass, List.pairwise_append.2 ⟨?_, hm, ?_⟩, ?_⟩
    · cases d with
      | add e =>
        simp only [puts]
        split
        · exact List.Pairwise.nil
        · exact List.pairwise_singleton _ _
      | remove p => exact List.Pairwise.nil
      | removeBelow base => exact List.Pairwise.nil
    · -- What is put in is before what is left, and before what is added later.
      intro o ho e he
      rcases mem_merge (isSorted_leaves h d) he with he | he
      · obtain rfl := mem_puts ho
        have hleaves := (List.mem_filter.1 he).2
        simp only [leaves, passes, takesOut, Bool.and_eq_true, Bool.not_eq_true',
          beq_eq_false_iff_ne, decide_eq_false_iff_not] at hleaves
        cases hc : compare o.key e.key with
        | lt => rfl
        | eq => exact absurd (Std.LawfulEqOrd.eq_of_compare hc).symm hleaves.2
        | gt => exact absurd (Std.OrientedCmp.gt_iff_lt.1 hc) hleaves.1
      · exact compare_of_mem_puts hs ho he
    -- What stands before the edit is before all the rest.
    · intro o ho e he
      have hop := (List.mem_filter.1 ho).2
      rcases List.mem_append.1 he with he | he
      · obtain rfl := mem_puts he
        exact compare_of_passes hop (by simp)
      · rcases mem_merge (isSorted_leaves h d) he with he | he
        · exact hbefore o ho e (List.mem_append_right _ he)
        · exact compare_of_passes hop ((List.pairwise_cons.1 hs).1 _ he)

/-! ## The checks -/

/-- Edits put into order are the same edits. -/
@[simp] theorem mem_sorted {d : Edit} : d ∈ sorted edits ↔ d ∈ edits := by
  simp [sorted]

/-- Edits put into order never go back. -/
theorem pairwise_sorted (edits : List Edit) :
    (sorted edits).Pairwise fun c d => (compare c d).isLE = true :=
  pairwise_mergeSort_compare id edits

/-- The entries that are added, in the order in which they were queued. -/
def additions (edits : List Edit) : List Entry :=
  edits.filterMap fun | add e => some e | _ => none

@[simp] theorem additions_cons_add (e : Entry) (edits : List Edit) :
    additions (add e :: edits) = e :: additions edits := rfl

@[simp] theorem additions_cons_remove (p : Bytes) (edits : List Edit) :
    additions (remove p :: edits) = additions edits := rfl

@[simp] theorem additions_cons_removeBelow (base : Bytes) (edits : List Edit) :
    additions (removeBelow base :: edits) = additions edits := rfl

@[simp] theorem mem_additions {e : Entry} : e ∈ additions edits ↔ add e ∈ edits := by
  induction edits with
  | nil => simp [additions]
  | cons d edits ih => cases d <;> simp [ih]

/-- The paths of additions are accepted if all of them are paths. -/
theorem checkPaths_eq_ok_iff :
    checkPaths edits = .ok () ↔ ∀ e, add e ∈ edits → Path.IsValid e.path := by
  have hadditions : checkPaths edits = Table.checkPaths (additions edits) := rfl
  rw [hadditions, Table.checkPaths_eq_ok_iff]
  simp only [mem_additions]

/-- What edits give if they are accepted: every path that was added passes both checks. -/
theorem apply_eq_ok {m : Merged} (h : apply edits t = .ok m) :
    (∀ e, add e ∈ edits → Path.IsValid e.path) ∧ m = merge (sorted edits) t ∧
      ∀ p ∈ m.added, Table.checkStages m.entries p = .ok () ∧
        Table.checkDirectory m.entries p = .ok () := by
  simp only [apply, Check.bind_eq_ok] at h
  obtain ⟨⟨⟩, hpaths, ⟨⟩, hall, h⟩ := h
  cases h
  refine ⟨checkPaths_eq_ok_iff.1 hpaths, rfl, ?_⟩
  intro p hp
  have := Check.forM_eq_ok.1 hall p (Table.mem_dedup.2 hp)
  simpa only [Check.unit_bind_eq_ok] using this

/-- What edits make of a table satisfies the conditions if the table does. Two entries that were
there before satisfy them as before, and of any other two one was added and checked. -/
theorem apply_invariant {m : Merged} (ht : Table.Invariant t) (h : apply edits t = .ok m) :
    Table.Invariant m.entries := by
  obtain ⟨hpaths, rfl, hchecks⟩ := apply_eq_ok h
  have hs := merge_isSorted ht.sorted (pairwise_sorted edits)
  -- Every entry was there before or has a path that was checked.
  have hold : ∀ o ∈ (merge (sorted edits) t).entries,
      o ∈ t ∨ o.path ∈ (merge (sorted edits) t).added := by
    intro o ho
    by_cases hp : o.path ∈ (merge (sorted edits) t).added
    · exact Or.inr hp
    · exact Or.inl (mem_of_notMem_added ht.sorted ho hp)
  have hvalid : ∀ o ∈ (merge (sorted edits) t).entries, Path.IsValid o.path := by
    intro o ho
    rcases mem_merge ht.sorted ho with ho | ho
    · exact ht.valid o ho
    · exact hpaths o (mem_sorted.1 ho)
  refine ⟨hs, hvalid, ?_, ?_⟩
  · intro a ha b hb hab hm
    rcases hold a ha with hao | hadd
    · rcases hold b hb with hbo | hadd
      · exact ht.unmixed a hao b hbo hab hm
      · exact (Table.checkStages_eq_ok_iff hs).1 (hchecks _ hadd).1 a ha b hb hab rfl hm
    · exact (Table.checkStages_eq_ok_iff hs).1 (hchecks _ hadd).1 a ha b hb rfl hab.symm hm
  · intro a ha b hb
    rcases hold a ha with hao | hadd
    · rcases hold b hb with hbo | hadd
      · exact ht.separate a hao b hbo
      · exact ((Table.checkDirectory_eq_ok_iff hs (hvalid b hb)).1 (hchecks _ hadd).2).2 a ha
    · exact ((Table.checkDirectory_eq_ok_iff hs (hvalid a ha)).1 (hchecks _ hadd).2).1 b hb

end Edit

end StagingIndex
