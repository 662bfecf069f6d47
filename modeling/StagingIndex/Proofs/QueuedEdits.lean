import Mathlib
import StagingIndex.Proofs.LatestEntries
import StagingIndex.Proofs.Merge
import StagingIndex.Proofs.Runs

/-! # Queued edits

What a queue of edits makes of a table can be told without the pass: it is the table that a batch
makes of the entries that no edit removes, followed by all that are added. An entry that an
edit lets pass is not taken out by later ones, and of several additions with the same key only the
last puts its entry in, as in a batch where the last one counts.

* `Edit.removes`, `Edit.kept` — the entries that stay
* `Edit.mem_merge_iff` — the entries of the result of one pass
* `Edit.exists_apply_iff` — edits are accepted when the batch is, and make the same table
* `Session.perform_edit_iff_normalize` — the same of an index in use -/

namespace StagingIndex

namespace Edit

variable {t u : Table} {edits edits' : List Edit} {k : EntryKey}

/-! ## What is removed and added -/

/-- Whether an edit removes an entry. -/
def removes : Edit → Entry → Bool
  | add _, _ => false
  | remove p, o => o.path = p
  | removeBelow base, o => o.path.beginsWith base

/-- Whether an edit adds an entry with a key. -/
def addsAt (k : EntryKey) : Edit → Bool
  | add e => e.key = k
  | _ => false

/-- The entries of a table that no edit removes. -/
def kept (edits : List Edit) (t : Table) : Table := t.filter fun o => !edits.any (·.removes o)

/-- Entries are kept if no edit removes them. -/
theorem mem_kept {o : Entry} : o ∈ kept edits t ↔ o ∈ t ∧ ∀ d ∈ edits, d.removes o = false := by
  simp [kept]

/-- An edit takes out what it removes and what it replaces. -/
theorem takesOut_eq (d : Edit) (o : Entry) : d.takesOut o = (d.removes o || d.addsAt o.key) := by
  cases d <;> simp [takesOut, removes, addsAt, eq_comm]

/-- What adds at a key is an addition with the key. -/
theorem addsAt_iff {d : Edit} : d.addsAt k = true ↔ ∃ e, d = add e ∧ e.key = k := by
  cases d <;> simp [addsAt]

/-- There is no last addition at a key if no edit adds at it. -/
theorem latest_additions_eq_none_iff :
    Table.latest k (additions edits) = none ↔ ∀ d ∈ edits, d.addsAt k = false := by
  rw [Table.latest_eq_none_iff]
  constructor
  · intro h d hd
    rw [← Bool.not_eq_true, addsAt_iff]
    rintro ⟨e, rfl, hk⟩
    exact h e (mem_additions.2 hd) hk
  · intro h e he
    simpa [addsAt] using h _ (mem_additions.1 he)

/-- No edit takes an entry out if none removes it and none adds at its key. -/
theorem forall_takesOut_iff {e : Entry} :
    (∀ d ∈ edits, d.takesOut e = false) ↔
      (∀ d ∈ edits, d.removes e = false) ∧ Table.latest e.key (additions edits) = none := by
  rw [latest_additions_eq_none_iff, ← forall₂_and]
  simp only [takesOut_eq, Bool.or_eq_false_iff]

/-- The additions at a key are those of the edits that add at the key. -/
theorem filter_additions (k : EntryKey) (edits : List Edit) :
    (additions edits).filter (·.key = k) = additions (edits.filter (addsAt k)) := by
  induction edits with
  | nil => rfl
  | cons d edits ih =>
    cases d with
    | add e => by_cases h : e.key = k <;> simp [addsAt, h, ih]
    | remove p => simpa [addsAt] using ih
    | removeBelow base => simpa [addsAt] using ih

/-- Putting edits into order does not change which addition is the last at a key. -/
theorem latest_additions_sorted (k : EntryKey) (edits : List Edit) :
    Table.latest k (additions (sorted edits)) = Table.latest k (additions edits) := by
  -- Additions at one key tie, so they keep their order.
  have hle : (edits.filter (addsAt k)).Pairwise fun c d => (compare c d).isLE = true := by
    refine List.pairwise_of_forall_mem_list fun c hc d hd => ?_
    obtain ⟨e, rfl, he⟩ := addsAt_iff.1 (List.mem_filter.1 hc).2
    obtain ⟨f, rfl, hf⟩ := addsAt_iff.1 (List.mem_filter.1 hd).2
    simp [compare_add_add, he, hf]
  have hsorted : (sorted edits).filter (addsAt k) = edits.filter (addsAt k) :=
    filter_mergeSort_compare id hle
  rw [Table.latest, filter_additions, hsorted, ← filter_additions, Table.latest]

/-! ## The pass -/

/-- An entry that stands before an edit is not taken out by a later one. -/
theorem takesOut_of_passes {c d : Edit} {o : Entry} (ho : c.passes o = true)
    (hcd : (compare c d).isLE = true) : d.takesOut o = false := by
  rw [← Bool.not_eq_true]
  intro hd
  have hnot := passes_eq_false hd
  rw [passes_of_isLE ho hcd] at hnot
  cases hnot

/-- With one more edit in front, the last addition at a key is what the edit puts in, or is as
before. -/
theorem latest_additions_cons {d : Edit} {e : Entry}
    (hs : (d :: edits).Pairwise fun c d => (compare c d).isLE = true) :
    Table.latest e.key (additions (d :: edits)) = some e ↔
      e ∈ d.puts edits ∨ Table.latest e.key (additions edits) = some e := by
  cases d with
  | add f =>
    rw [additions_cons_add, Table.latest_cons]
    by_cases hf : f.key = e.key
    · cases ha : addsKey f.key edits with
      | true =>
        -- A later addition at the key counts.
        obtain ⟨g, hg, hgk⟩ := (addsKey_iff hs).1 ha
        have hne : Table.latest e.key (additions edits) ≠ none := fun hnone =>
          Table.latest_eq_none_iff.1 hnone g (mem_additions.2 hg) (hgk.trans hf)
        obtain ⟨l, hl⟩ := Option.ne_none_iff_exists'.1 hne
        simp [puts, ha, hl]
      | false =>
        have hnone : Table.latest e.key (additions edits) = none := by
          refine Table.latest_eq_none_iff.2 fun g hg hgk => ?_
          rw [(addsKey_iff hs).2 ⟨g, mem_additions.1 hg, hgk.trans hf.symm⟩] at ha
          cases ha
        have hputs : (add f).puts edits = [f] := by simp [puts, ha]
        simp [hputs, hnone, hf, eq_comm]
    · have hne : e ≠ f := fun h => hf (h ▸ rfl)
      have hputs : e ∉ (add f).puts edits := fun h => hne (by cases mem_puts h; rfl)
      simp [hf, hputs]
  | remove p => simp [puts]
  | removeBelow base => simp [puts]

/-- What edits in order make of a table: the last addition at each key, and the entries of the table
that no edit takes out. -/
theorem mem_merge_iff {e : Entry} (h : Table.IsSorted t)
    (hs : edits.Pairwise fun c d => (compare c d).isLE = true) :
    e ∈ (merge edits t).entries ↔
      Table.latest e.key (additions edits) = some e ∨
        e ∈ t ∧ ∀ d ∈ edits, d.takesOut e = false := by
  induction edits generalizing t with
  | nil => simp [merge, additions]
  | cons d edits ih =>
    rw [merge_cons h, latest_additions_cons hs]
    simp only [List.mem_append, ih (isSorted_leaves h d) hs.of_cons, List.mem_filter,
      List.forall_mem_cons, leaves, Bool.and_eq_true, Bool.not_eq_true']
    -- What stands before the edit is taken out neither by it nor by those that follow.
    have hpass : d.passes e = true → d.takesOut e = false ∧ ∀ c ∈ edits, c.takesOut e = false :=
      fun hp => ⟨takesOut_of_passes hp (by simp),
        fun c hc => takesOut_of_passes hp ((List.pairwise_cons.1 hs).1 c hc)⟩
    cases hp : d.passes e with
    | true =>
      have := hpass hp
      tauto
    | false => tauto

/-- What a queue of edits makes of a table: at each key the last of the entries that are kept,
followed by those that are added. -/
theorem mem_merge_sorted_iff {e : Entry} (h : Table.IsSorted t) :
    e ∈ (merge (sorted edits) t).entries ↔
      Table.latest e.key (kept edits t ++ additions edits) = some e := by
  have hkept : Table.IsSorted (kept edits t) := h.sublist List.filter_sublist
  rw [mem_merge_iff h (pairwise_sorted edits), forall_takesOut_iff, latest_additions_sorted,
    Table.latest_append, Option.or_eq_some_iff, hkept.latest_eq_some_iff, mem_kept]
  simp only [mem_sorted]
  tauto

/-- A path that is added is one of the result. -/
theorem exists_mem_of_mem_added (h : Table.IsSorted t) {p : Bytes}
    (hp : p ∈ (merge (sorted edits) t).added) :
    ∃ e ∈ (merge (sorted edits) t).entries, e.path = p := by
  rw [merge_added h, List.mem_flatMap] at hp
  obtain ⟨d, hd, hp⟩ := hp
  cases d with
  | add e =>
    have hadd : e ∈ kept edits t ++ additions edits := by
      rw [List.mem_append, mem_additions]
      exact Or.inr (mem_sorted.1 hd)
    -- Some candidate has the key, so there is a last one.
    have hne : Table.latest e.key (kept edits t ++ additions edits) ≠ none := fun hnone =>
      Table.latest_eq_none_iff.1 hnone e hadd rfl
    obtain ⟨f, hf⟩ := Option.ne_none_iff_exists'.1 hne
    have hk := (Table.mem_of_latest hf).2
    refine ⟨f, (mem_merge_sorted_iff h).2 (hk ▸ hf), ?_⟩
    rw [List.mem_singleton.1 hp]
    exact congrArg EntryKey.path hk
  | remove q => simp [adds] at hp
  | removeBelow base => simp [adds] at hp

/-! ## Agreement with batches -/

/-- Edits are accepted if all that is added has a path and the table they make satisfies the
conditions of one. -/
theorem apply_eq_ok_iff {m : Merged} (ht : t.Invariant) :
    apply edits t = .ok m ↔ (∀ e, add e ∈ edits → Path.IsValid e.path) ∧
      m = merge (sorted edits) t ∧ Table.Invariant m.entries := by
  constructor
  · intro h
    obtain ⟨hpaths, hm, -⟩ := apply_eq_ok h
    exact ⟨hpaths, hm, apply_invariant ht h⟩
  · rintro ⟨hpaths, rfl, hinv⟩
    have hchecks : ((Table.dedup (merge (sorted edits) t).added).forM fun p => do
        Table.checkStages (merge (sorted edits) t).entries p
        Table.checkDirectory (merge (sorted edits) t).entries p) = .ok () := by
      refine Check.forM_eq_ok.2 fun p hp => ?_
      obtain ⟨f, hf, rfl⟩ := exists_mem_of_mem_added ht.sorted (Table.mem_dedup.1 hp)
      refine Check.unit_bind_eq_ok.2 ⟨?_, ?_⟩
      · refine (Table.checkStages_eq_ok_iff hinv.sorted).2 fun a ha b hb hap hbp => ?_
        exact hinv.unmixed a ha b hb (hap.trans hbp.symm)
      · refine (Table.checkDirectory_eq_ok_iff hinv.sorted (hinv.valid f hf)).2 ⟨?_, ?_⟩
        · exact fun b hb => hinv.separate f hf b hb
        · exact fun a ha => hinv.separate a ha f hf
    simp only [apply, Check.bind_eq_ok]
    exact ⟨(), checkPaths_eq_ok_iff.2 hpaths, (), hchecks, rfl⟩

/-- Edits are accepted when a batch of the entries that are kept and those that are added is, and then
they make the same table. -/
theorem exists_apply_iff (ht : t.Invariant) :
    (∃ m, apply edits t = .ok m ∧ m.entries = u) ↔
      Table.normalize .lastWins (kept edits t ++ additions edits) = .ok u := by
  have hvalid : (∀ e ∈ kept edits t ++ additions edits, Path.IsValid e.path) ↔
      ∀ e, add e ∈ edits → Path.IsValid e.path := by
    simp only [List.mem_append, mem_additions]
    exact ⟨fun h e he => h e (Or.inr he),
      fun h e he => he.elim (fun he => ht.valid e (mem_kept.1 he).1) (h e)⟩
  rw [Table.normalize_lastWins_eq_ok_iff, hvalid]
  constructor
  · rintro ⟨m, hm, rfl⟩
    obtain ⟨hpaths, rfl, hinv⟩ := (apply_eq_ok_iff ht).1 hm
    exact ⟨hpaths, hinv, fun e => mem_merge_sorted_iff ht.sorted⟩
  · rintro ⟨hpaths, hinv, hu⟩
    have heq : (merge (sorted edits) t).entries = u := by
      refine Table.eq_of_mem_iff (merge_isSorted ht.sorted (pairwise_sorted edits)) hinv.sorted ?_
      exact fun e => (mem_merge_sorted_iff ht.sorted).trans (hu e).symm
    exact ⟨_, (apply_eq_ok_iff ht).2 ⟨hpaths, rfl, heq ▸ hinv⟩, heq⟩

/-! ## The order of the queue -/

/-- Queues of the same edits keep the same entries. -/
theorem kept_perm (h : edits'.Perm edits) : kept edits' t = kept edits t := by
  refine List.filter_congr fun o _ => ?_
  rw [h.any_eq]

/-- Which batch a queue stands for does not depend on its order, apart from that of additions with the
same key. -/
theorem normalize_perm (h : edits'.Perm edits)
    (hadds : ∀ k, (additions edits').filter (·.key = k) = (additions edits).filter (·.key = k)) :
    Table.normalize .lastWins (kept edits' t ++ additions edits') = .ok u ↔
      Table.normalize .lastWins (kept edits t ++ additions edits) = .ok u := by
  have hlatest : ∀ k, Table.latest k (kept edits' t ++ additions edits') =
      Table.latest k (kept edits t ++ additions edits) := fun k => by
    rw [Table.latest_append, Table.latest_append, kept_perm h, Table.latest, hadds, ← Table.latest]
  rw [Table.normalize_lastWins_eq_ok_iff, Table.normalize_lastWins_eq_ok_iff]
  simp only [hlatest]
  simp only [List.mem_append, mem_additions, h.mem_iff, kept_perm h]

end Edit

/-! ## An index in use -/

namespace Session

variable {σ : Type} [ObjectDatabase σ] {s : Session σ} {edits : List Edit} {t : Table}

/-- A queue is accepted by an index in use, and gives a table, if the edits do. -/
theorem perform_edit_eq_ok_iff :
    (s.perform (.edit edits)).2 = .ok () ∧ (s.perform (.edit edits)).1.index.table = t ↔
      ∃ m, Edit.apply edits s.index.table = .ok m ∧ m.entries = t := by
  rw [perform, Index.edit]
  cases Edit.apply edits s.index.table with
  | ok m => simp [Except.map, take]
  | error e => simp [Except.map, take]

/-- A queue that is refused changes nothing. -/
theorem perform_edit_of_error {e : IndexError} (h : (s.perform (.edit edits)).2 = .error e) :
    (s.perform (.edit edits)).1 = s := by
  rw [perform] at h ⊢
  cases hr : s.index.edit edits with
  | ok ix => simp [hr, take] at h
  | error e => rfl

/-- A queue of edits is accepted when a batch of the entries that no edit removes, followed by all
that are added, is accepted where the last of equal keys counts; the index then has the table of that
batch. A queue that is refused changes nothing. So a queue of the same edits in another order is
accepted as well and gives the same table, if additions with the same key are in the same order in
both. -/
theorem perform_edit_iff_normalize (ht : s.index.table.Invariant) (edits : List Edit) :
    (∀ t, (s.perform (.edit edits)).2 = .ok () ∧ (s.perform (.edit edits)).1.index.table = t ↔
      Table.normalize .lastWins (Edit.kept edits s.index.table ++ Edit.additions edits) = .ok t) ∧
      (∀ e, (s.perform (.edit edits)).2 = .error e → (s.perform (.edit edits)).1 = s) ∧
      ∀ edits' : List Edit, edits'.Perm edits →
        (∀ k, (Edit.additions edits').filter (·.key = k) =
          (Edit.additions edits).filter (·.key = k)) →
        ((s.perform (.edit edits')).2 = .ok () ↔ (s.perform (.edit edits)).2 = .ok ()) ∧
          (s.perform (.edit edits')).1.index.table = (s.perform (.edit edits)).1.index.table := by
  have hagree : ∀ edits t,
      (s.perform (.edit edits)).2 = .ok () ∧ (s.perform (.edit edits)).1.index.table = t ↔
        Table.normalize .lastWins (Edit.kept edits s.index.table ++ Edit.additions edits) = .ok t :=
    fun edits t => perform_edit_eq_ok_iff.trans (Edit.exists_apply_iff ht)
  refine ⟨hagree edits, fun e => perform_edit_of_error, fun edits' hperm hadds => ?_⟩
  have hsame : ∀ t,
      (s.perform (.edit edits')).2 = .ok () ∧ (s.perform (.edit edits')).1.index.table = t ↔
        (s.perform (.edit edits)).2 = .ok () ∧ (s.perform (.edit edits)).1.index.table = t :=
    fun t => by rw [hagree, hagree, Edit.normalize_perm hperm hadds]
  have hok : (s.perform (.edit edits')).2 = .ok () ↔ (s.perform (.edit edits)).2 = .ok () :=
    ⟨fun h => ((hsame _).1 ⟨h, rfl⟩).1, fun h => ((hsame _).2 ⟨h, rfl⟩).1⟩
  refine ⟨hok, ?_⟩
  cases hr : (s.perform (.edit edits)).2 with
  | ok u => exact ((hsame _).2 ⟨hr, rfl⟩).2
  | error e =>
    -- Both are refused, so both leave the table as it was.
    cases hr' : (s.perform (.edit edits')).2 with
    | ok u =>
      have := hok.1 hr'
      rw [hr] at this
      cases this
    | error e' => rw [perform_edit_of_error hr, perform_edit_of_error hr']

/-- A file `d-x`, and a directory `d` with a file `a`. -/
def similarNames : Session MemoryDatabase where
  index := { Index.new [] .standard with
    table := [.bare [0x64, 0x2d, 0x78] .merged .regular .null,
      .bare [0x64, 0x2f, 0x61] .merged .regular .null] }
  database := MemoryDatabase.empty
  disk := .vacant

/-- The file `d/b`. -/
def belowDirectory : Entry := .bare [0x64, 0x2f, 0x62] .merged .regular .null

/-- An addition of `d/b`, the removal of all below `d`, and another addition of `d/b`. -/
def removeBetweenAdditions : List Edit :=
  [.add belowDirectory, .removeTree [0x64], .add { belowDirectory with size := 1 }]

/-- Wherever the removal of all below `d` is queued, the file `d-x` stays, and the last addition of
`d/b` counts. -/
theorem perform_edit_removeBetweenAdditions :
    similarNames.index.table.Invariant ∧
      (similarNames.perform (.edit removeBetweenAdditions)).2 = .ok () ∧
      (similarNames.perform (.edit removeBetweenAdditions)).1.index.table =
        [.bare [0x64, 0x2d, 0x78] .merged .regular .null, { belowDirectory with size := 1 }] ∧
      (similarNames.perform (.edit [.removeTree [0x64], .add belowDirectory,
          .add { belowDirectory with size := 1 }])).1.index.table =
        (similarNames.perform (.edit removeBetweenAdditions)).1.index.table := by
  have ht : similarNames.index.table.Invariant := by
    have h : Table.normalize .reject similarNames.index.table = .ok similarNames.index.table := by cbv
    exact Table.normalize_invariant h
  obtain ⟨hagree, -, horder⟩ := perform_edit_iff_normalize ht removeBetweenAdditions
  obtain ⟨hok, htable⟩ := (hagree [.bare [0x64, 0x2d, 0x78] .merged .regular .null,
    { belowDirectory with size := 1 }]).2 (by cbv)
  refine ⟨ht, hok, htable, (horder _ (.swap _ _ _) fun k => ?_).2⟩
  simp [removeBetweenAdditions, Edit.removeTree]

end Session

end StagingIndex
