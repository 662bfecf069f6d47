import Mathlib
import StagingIndex.Proofs.TableInvariant

/-! # The latest entries

Where the last of several candidates with the same key counts, a batch makes the sorted table that has
at each key the candidate that was added last. Sorting does not disturb this, as candidates with the
same key keep the order they came in; and a sorted table is given by the entries it has.

* `Table.latest` — the last of some candidates at a key
* `Table.eq_of_mem_iff` — sorted tables with the same entries are the same
* `Table.normalize_lastWins_eq_ok_iff` — which table a batch makes, and when -/

namespace StagingIndex

namespace Table

variable {es t u : List Entry} {e : Entry} {k : EntryKey}

/-! ## The last candidate at a key -/

/-- The last of some candidates at a key. -/
def latest (k : EntryKey) (es : List Entry) : Option Entry := (es.filter (·.key = k)).getLast?

@[simp] theorem latest_nil (k : EntryKey) : latest k [] = none := rfl

/-- Of candidates and more candidates the latter count first. -/
theorem latest_append (k : EntryKey) (xs ys : List Entry) :
    latest k (xs ++ ys) = (latest k ys).or (latest k xs) := by
  simp [latest, List.getLast?_append]

/-- The first candidate counts where no other has its key. -/
theorem latest_cons (k : EntryKey) (e : Entry) (es : List Entry) :
    latest k (e :: es) = (latest k es).or (if e.key = k then some e else none) := by
  have : latest k [e] = if e.key = k then some e else none := by
    by_cases h : e.key = k <;> simp [latest, h]
  rw [← this, ← latest_append, List.singleton_append]

/-- There is no candidate at a key that none has. -/
theorem latest_eq_none_iff : latest k es = none ↔ ∀ e ∈ es, e.key ≠ k := by
  simp [latest]

/-- The last candidate at a key is a candidate with the key. -/
theorem mem_of_latest (h : latest k es = some e) : e ∈ es ∧ e.key = k := by
  simpa using List.mem_of_getLast? h

/-- The entries of a sorted table are the last ones at their keys. -/
theorem IsSorted.latest_eq_some_iff (h : IsSorted t) : latest e.key t = some e ↔ e ∈ t := by
  constructor
  · exact fun he => (mem_of_latest he).1
  · intro he
    cases hl : latest e.key t with
    | none => exact absurd rfl (latest_eq_none_iff.1 hl e he)
    | some f =>
      obtain ⟨hf, hk⟩ := mem_of_latest hl
      rw [h.eq_of_key hf he hk]

/-- Sorted tables with the same entries are the same. -/
theorem eq_of_mem_iff (ht : IsSorted t) (hu : IsSorted u) (h : ∀ e, e ∈ t ↔ e ∈ u) : t = u :=
  eq_of_pairwise_compare_lt Entry.key ht hu h

/-- Sorting candidates does not change which is the last at a key. -/
@[simp] theorem latest_sorted (k : EntryKey) (es : List Entry) : latest k (sorted es) = latest k es := by
  have hle : (es.filter (·.key = k)).Pairwise fun a b => (compare a.key b.key).isLE = true := by
    refine List.pairwise_of_forall_mem_list fun a ha b hb => ?_
    have hak : a.key = k := by simpa using (List.mem_filter.1 ha).2
    have hbk : b.key = k := by simpa using (List.mem_filter.1 hb).2
    simp [hak, hbk]
  rw [latest, sorted, filter_mergeSort_compare Entry.key hle, latest]

/-! ## Batches -/

/-- Equal keys are always made one where the last one counts. -/
theorem exists_unify_lastWins (es : List Entry) : ∃ t, unify .lastWins es = .ok t := by
  fun_induction unify .lastWins es with
  | case1 a b es hk hp => cases hp
  | case2 a b es hk hp ih => exact ih
  | case3 a b es hk ih =>
    obtain ⟨t, ht⟩ := ih
    exact ⟨a :: t, by rw [ht]; rfl⟩
  | case4 es hne => exact ⟨es, rfl⟩

/-- Where the last one counts, what is left of candidates in order is the last one at each key. -/
theorem mem_unify_lastWins (hle : es.Pairwise fun a b => (compare a.key b.key).isLE = true)
    (h : unify .lastWins es = .ok t) : e ∈ t ↔ latest e.key es = some e := by
  fun_induction unify .lastWins es generalizing t with
  | case1 a b es hk hp => cases hp
  | case2 a b es hk hp ih =>
    -- The first candidate is never the last one at its key.
    rw [ih hle.of_cons h, latest_cons _ a]
    by_cases ha : a.key = e.key
    · have hne : latest e.key (b :: es) ≠ none := fun hnone =>
        latest_eq_none_iff.1 hnone b List.mem_cons_self (hk.symm.trans ha)
      obtain ⟨f, hf⟩ := Option.ne_none_iff_exists'.1 hne
      simp [hf]
    · simp [ha]
  | case3 a b es hk ih =>
    obtain ⟨s, hs, rfl⟩ := Check.map_eq_ok.1 h
    obtain ⟨ha, hbs⟩ := List.pairwise_cons.1 hle
    -- All other candidates come after the first one.
    have hnone : latest a.key (b :: es) = none := by
      refine latest_eq_none_iff.2 fun f hf hkey => ?_
      have hab : compare a.key b.key = .lt := compare_eq_lt_of_ne (ha b List.mem_cons_self) hk
      have hlt : compare a.key f.key = .lt := by
        rcases List.mem_cons.1 hf with rfl | hf
        · exact hab
        · exact Std.TransCmp.lt_of_lt_of_isLE hab ((List.pairwise_cons.1 hbs).1 f hf)
      simp [hkey] at hlt
    rw [List.mem_cons, ih hle.of_cons hs, latest_cons _ a]
    by_cases hae : a.key = e.key
    · rw [hae] at hnone
      simp [hnone, hae, eq_comm]
    · have hne : e ≠ a := fun h => hae (h ▸ rfl)
      simp [hae, hne]
  | case4 es hne =>
    cases h
    rcases es with _ | ⟨f, _ | ⟨b, es⟩⟩
    · simp
    · have hf : IsSorted [f] := List.pairwise_singleton _ f
      exact hf.latest_eq_some_iff.symm
    · exact absurd rfl (hne f b es)

/-- Where the last one counts, a batch makes the table that has at each key the candidate that was
added last, if the candidates have paths and this table satisfies its conditions. -/
theorem normalize_lastWins_eq_ok_iff :
    normalize .lastWins es = .ok t ↔
      (∀ e ∈ es, Path.IsValid e.path) ∧ Invariant t ∧ ∀ e, e ∈ t ↔ latest e.key es = some e := by
  obtain ⟨s, hs⟩ := exists_unify_lastWins (sorted es)
  have hmem : ∀ e, e ∈ s ↔ latest e.key es = some e := fun e => by
    rw [mem_unify_lastWins (pairwise_sorted es) hs, latest_sorted]
  constructor
  · intro h
    obtain ⟨hpaths, ht, -⟩ := normalize_eq_ok.1 h
    obtain rfl : s = t := Except.ok.inj (hs.symm.trans ht)
    exact ⟨checkPaths_eq_ok_iff.1 hpaths, normalize_invariant h, hmem⟩
  · rintro ⟨hpaths, hinv, ht⟩
    obtain rfl : s = t := eq_of_mem_iff (isSorted_of_unify (pairwise_sorted es) hs) hinv.sorted
      fun e => (hmem e).trans (ht e).symm
    exact normalize_eq_ok.2 ⟨checkPaths_eq_ok_iff.2 hpaths, hs, hinv.checkAll⟩

end Table

end StagingIndex
