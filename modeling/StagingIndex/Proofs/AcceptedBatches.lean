import Mathlib
import StagingIndex.Proofs.LatestEntries

/-! # Which batches make a table

A batch is accepted by its candidates as they come, unsorted and with repetitions: each must have a
path, no path may be merged and in conflict, none may be a directory of another, and where repetitions
are rejected there may be none. Sorting brings candidates with the same key together in the order in
which they were added, so the table has the last of each; and as it has the keys of the candidates, the
checks of the table are checks of the candidates.

* `Table.Acceptable` — what is asked of candidates
* `Table.exists_unify_iff`, `Table.mem_unify_iff` — when equal keys can be made one, and what is left
* `Table.checkAll_eq_ok_iff_of_latest` — the checks of the table see the candidates
* `Table.normalize_iff_acceptable` — which batches make a table, and which table -/

namespace StagingIndex

namespace Table

variable {policy : DuplicatePolicy} {es : List Entry} {t : Table} {e : Entry}

/-- What is asked of the candidates of a batch. -/
structure Acceptable (policy : DuplicatePolicy) (es : List Entry) : Prop where
  /-- All paths are paths. -/
  valid : ∀ e ∈ es, Path.IsValid e.path
  /-- The last candidate with a key counts, or there is only one with each. -/
  distinct : policy = .lastWins ∨ (es.map Entry.key).Nodup
  /-- A path with a merged candidate has no candidate at another stage. -/
  unmixed : ∀ a ∈ es, ∀ b ∈ es, a.path = b.path → a.stage = .merged → b.stage = .merged
  /-- No path is a directory of another. -/
  separate : ∀ a ∈ es, ∀ b ∈ es, b.path.beginsWith (a.path ++ [Bytes.slash]) = false

/-! ## Candidates in order -/

/-- Candidates in order are strictly increasing if no two have the same key. -/
theorem isSorted_iff_nodup (hle : es.Pairwise fun a b => (compare a.key b.key).isLE = true) :
    IsSorted es ↔ (es.map Entry.key).Nodup := by
  refine ⟨IsSorted.nodup_key, fun h => ?_⟩
  have hne : es.Pairwise fun a b => a.key ≠ b.key := List.pairwise_map.1 h
  exact (hle.and hne).imp fun ⟨hab, hne⟩ => compare_eq_lt_of_ne hab hne

/-- Equal keys can be made one if the last candidate counts, or if there are none. -/
theorem exists_unify_iff (hle : es.Pairwise fun a b => (compare a.key b.key).isLE = true) :
    (∃ t, unify policy es = .ok t) ↔ policy = .lastWins ∨ (es.map Entry.key).Nodup := by
  cases policy with
  | lastWins => simp [exists_unify_lastWins]
  | reject =>
    rw [← isSorted_iff_nodup hle]
    simp only [reduceCtorEq, false_or]
    constructor
    · rintro ⟨t, ht⟩
      have hsorted := isSorted_of_unify hle ht
      rwa [eq_of_unify ht] at hsorted
    · exact fun hs => ⟨es, hs.unify_eq⟩

/-- What is left of candidates in order is the last one at each key. -/
theorem mem_unify_iff (hle : es.Pairwise fun a b => (compare a.key b.key).isLE = true)
    (h : unify policy es = .ok t) : e ∈ t ↔ latest e.key es = some e := by
  cases policy with
  | lastWins => exact mem_unify_lastWins hle h
  | reject =>
    obtain rfl := eq_of_unify h
    exact (isSorted_of_unify hle h).latest_eq_some_iff.symm

/-! ## The checks of the table -/

/-- Where the last candidates are taken, each candidate leaves one with its key. -/
theorem exists_mem_of_latest (hmem : ∀ e, e ∈ t ↔ latest e.key es = some e) (he : e ∈ es) :
    ∃ o ∈ t, o.path = e.path ∧ o.stage = e.stage := by
  have hne : latest e.key es ≠ none := fun hnone => latest_eq_none_iff.1 hnone e he rfl
  obtain ⟨o, ho⟩ := Option.ne_none_iff_exists'.1 hne
  have hkey : o.key = e.key := (mem_of_latest ho).2
  refine ⟨o, (hmem o).2 (hkey ▸ ho), congrArg EntryKey.path hkey, congrArg EntryKey.stage hkey⟩

/-- The checks of a table of the last candidates ask of the candidates that none has a path that is
merged and in conflict, and none one that is a directory of another. -/
theorem checkAll_eq_ok_iff_of_latest (hs : IsSorted t) (hmem : ∀ e, e ∈ t ↔ latest e.key es = some e)
    (hv : ∀ e ∈ es, Path.IsValid e.path) :
    t.checkAll = .ok () ↔
      (∀ a ∈ es, ∀ b ∈ es, a.path = b.path → a.stage = .merged → b.stage = .merged) ∧
        ∀ a ∈ es, ∀ b ∈ es, b.path.beginsWith (a.path ++ [Bytes.slash]) = false := by
  have hsub : ∀ e ∈ t, e ∈ es := fun e he => (mem_of_latest ((hmem e).1 he)).1
  rw [checkAll_eq_ok_iff hs fun e he => hv e (hsub e he)]
  constructor
  · -- Candidates that break a condition leave entries that break it.
    rintro ⟨hmix, hsep⟩
    refine ⟨fun a ha b hb hab hm => ?_, fun a ha b hb => ?_⟩
    · obtain ⟨a', ha', hap, has⟩ := exists_mem_of_latest hmem ha
      obtain ⟨b', hb', hbp, hbs⟩ := exists_mem_of_latest hmem hb
      rw [← hbs]
      exact hmix a' ha' b' hb' ((hap.trans hab).trans hbp.symm) (has.trans hm)
    · obtain ⟨a', ha', hap, -⟩ := exists_mem_of_latest hmem ha
      obtain ⟨b', hb', hbp, -⟩ := exists_mem_of_latest hmem hb
      rw [← hap, ← hbp]
      exact hsep a' ha' b' hb'
  · rintro ⟨hmix, hsep⟩
    exact ⟨fun a ha b hb => hmix a (hsub a ha) b (hsub b hb),
      fun a ha b hb => hsep a (hsub a ha) b (hsub b hb)⟩

/-! ## Batches -/

/-- Sorting candidates repeats no key that was not repeated. -/
theorem nodup_key_sorted : ((sorted es).map Entry.key).Nodup ↔ (es.map Entry.key).Nodup :=
  ((List.mergeSort_perm es _).map Entry.key).nodup_iff

/-- Equal keys of candidates can be made one if their policy allows it. -/
theorem exists_unify_sorted_iff :
    (∃ t, unify policy (sorted es) = .ok t) ↔ policy = .lastWins ∨ (es.map Entry.key).Nodup := by
  rw [exists_unify_iff (pairwise_sorted es), nodup_key_sorted]

/-- What is left of candidates that are put into order is sorted, and has the last one at each key. -/
theorem latest_of_unify_sorted (h : unify policy (sorted es) = .ok t) :
    IsSorted t ∧ ∀ e, e ∈ t ↔ latest e.key es = some e := by
  have hle := pairwise_sorted es
  exact ⟨isSorted_of_unify hle h, fun e => by rw [mem_unify_iff hle h, latest_sorted]⟩

/-- The candidates of a batch that makes a table are acceptable. -/
theorem acceptable_of_normalize (h : normalize policy es = .ok t) : Acceptable policy es := by
  obtain ⟨hpaths, ht, hall⟩ := normalize_eq_ok.1 h
  obtain ⟨hs, hmem⟩ := latest_of_unify_sorted ht
  have hv := checkPaths_eq_ok_iff.1 hpaths
  obtain ⟨hmix, hsep⟩ := (checkAll_eq_ok_iff_of_latest hs hmem hv).1 hall
  exact ⟨hv, exists_unify_sorted_iff.1 ⟨t, ht⟩, hmix, hsep⟩

/-- Acceptable candidates make a table. -/
theorem Acceptable.exists_normalize (h : Acceptable policy es) : ∃ t, normalize policy es = .ok t := by
  obtain ⟨t, ht⟩ := exists_unify_sorted_iff.2 h.distinct
  obtain ⟨hs, hmem⟩ := latest_of_unify_sorted ht
  have hall := (checkAll_eq_ok_iff_of_latest hs hmem h.valid).2 ⟨h.unmixed, h.separate⟩
  exact ⟨t, normalize_eq_ok.2 ⟨checkPaths_eq_ok_iff.2 h.valid, ht, hall⟩⟩

/-- Acceptable candidates of different keys make a table of all of them. -/
theorem Acceptable.normalize_eq (h : Acceptable .reject es) : normalize policy es = .ok (sorted es) := by
  have hnodup : (es.map Entry.key).Nodup := h.distinct.resolve_left (by simp)
  have hs : IsSorted (sorted es) :=
    (isSorted_iff_nodup (pairwise_sorted es)).2 (nodup_key_sorted.2 hnodup)
  have hunify : unify .reject (sorted es) = .ok (sorted es) := hs.unify_eq
  obtain ⟨-, hmem⟩ := latest_of_unify_sorted hunify
  have hall := (checkAll_eq_ok_iff_of_latest hs hmem h.valid).2 ⟨h.unmixed, h.separate⟩
  exact normalize_eq_ok.2 ⟨checkPaths_eq_ok_iff.2 h.valid, hs.unify_eq, hall⟩

/-- A batch makes a table just if its candidates are acceptable, and then it makes the sorted table
that has at each key of a candidate the one that was added last, and nothing else. -/
theorem normalize_iff_acceptable (policy : DuplicatePolicy) (es : List Entry) :
    ((∃ t, normalize policy es = .ok t) ↔ Acceptable policy es) ∧
      ∀ t, normalize policy es = .ok t ↔
        Acceptable policy es ∧ IsSorted t ∧ ∀ e, e ∈ t ↔ latest e.key es = some e := by
  refine ⟨⟨fun ⟨_, h⟩ => acceptable_of_normalize h, Acceptable.exists_normalize⟩, fun t => ?_⟩
  constructor
  · intro h
    exact ⟨acceptable_of_normalize h, latest_of_unify_sorted (normalize_eq_ok.1 h).2.1⟩
  · -- The table that is made has the same entries, and sorted tables are given by these.
    rintro ⟨h, hs, hmem⟩
    obtain ⟨u, hu⟩ := h.exists_normalize
    obtain ⟨hus, humem⟩ := latest_of_unify_sorted (normalize_eq_ok.1 hu).2.1
    obtain rfl : t = u := eq_of_mem_iff hs hus fun e => (hmem e).trans (humem e).symm
    exact hu

end Table

end StagingIndex
