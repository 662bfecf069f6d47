import Mathlib
import StagingIndex.Proofs.BodyCodec
import StagingIndex.Proofs.CachedRuns

/-! # A file in nested directories

A table with one file has as many levels of directories as there are slashes in its path, and
materializing it gives a cache tree with as many levels. Nothing bounds their number.

* `Path.isValid_baseOf` — the path of a file in nested directories
* `CacheTree.Nested` — directories one in another, each known to have one entry
* `CacheTree.materialize_nested` — materializing the file
* `Session.run_nested` — an index with the file alone, materialized -/

namespace StagingIndex

/-! ## The path -/

namespace Bytes

/-- A directory within others begins with them and their slashes. -/
theorem baseOf_eq (base : Bytes) (names : List Bytes) :
    baseOf base names = base ++ names.flatMap fun name => name ++ [slash] := by
  induction names generalizing base with
  | nil => simp [baseOf]
  | cons name names ih =>
    have := ih (below base name)
    simpa [baseOf, below] using this

end Bytes

namespace Path

/-- What can stand between the slashes of a path. -/
structure IsComponent (c : Bytes) : Prop where
  faultless : componentFault? c = none
  slash_notMem : Bytes.slash ∉ c
  nul_notMem : Bytes.nul ∉ c

/-- A component is not empty. -/
theorem IsComponent.ne_nil {c : Bytes} (h : IsComponent c) : c ≠ [] := by
  rintro rfl
  exact absurd h.faultless (by decide)

/-- Components with slashes between them are a path. -/
theorem isValid_baseOf {names : List Bytes} {last : Bytes} (hn : ∀ c ∈ names, IsComponent c)
    (hl : IsComponent last) : IsValid (Bytes.baseOf [] names ++ last) := by
  have hcomponents : Bytes.components (Bytes.baseOf [] names ++ last) = names ++ [last] := by
    rw [Bytes.components_baseOf fun c hc => (hn c hc).slash_notMem,
      Bytes.components_of_notMem hl.slash_notMem]
  refine isValid_iff.2 ⟨?_, ?_, ?_, ?_⟩
  · simp [hl.ne_nil]
  · rw [Bytes.baseOf_eq, List.mem_append, not_or]
    refine ⟨?_, hl.nul_notMem⟩
    simp only [List.nil_append, List.mem_flatMap, List.mem_append, List.mem_singleton, not_exists,
      not_and, not_or]
    exact fun c hc => ⟨(hn c hc).nul_notMem, by decide⟩
  -- The path starts with the first name and ends with the last, and neither has a slash.
  · rintro (hfirst | hlast)
    · cases names with
      | nil => exact hl.slash_notMem (List.mem_of_head? hfirst)
      | cons name names =>
        have hname := hn name (by simp)
        obtain ⟨b, name, rfl⟩ := List.exists_cons_of_ne_nil hname.ne_nil
        rw [Bytes.baseOf_eq] at hfirst
        refine hname.slash_notMem ?_
        simp only [List.nil_append, List.flatMap_cons, List.cons_append, List.head?_cons,
          Option.some.injEq] at hfirst
        simp [hfirst]
    · rw [List.getLast?_append_of_ne_nil _ hl.ne_nil] at hlast
      exact hl.slash_notMem (List.mem_of_getLast? hlast)
  · rw [hcomponents]
    intro c hc
    rcases List.mem_append.1 hc with hc | hc
    · exact (hn c hc).faultless
    · rw [List.mem_singleton.1 hc]
      exact hl.faultless

end Path

/-! ## The nodes -/

namespace CacheTree

/-- Directories one in another, each known to have one entry. -/
def Nested : List Bytes → CacheTree → Prop
  | [], t => (∃ id, t.known = some ⟨1, id⟩) ∧ t.children = []
  | name :: names, t =>
    (∃ id, t.known = some ⟨1, id⟩) ∧ ∃ c, t.children = [c] ∧ c.name = name ∧ Nested names c

variable {names : List Bytes} {t : CacheTree}

/-- Nested directories make as many levels as they are. -/
theorem Nested.height (h : Nested names t) : t.height = names.length := by
  induction names generalizing t with
  | nil =>
    cases t with
    | node name known children =>
      obtain ⟨-, rfl⟩ := h
      rfl
  | cons name names ih =>
    cases t with
    | node own known children =>
      obtain ⟨-, c, rfl, -, hc⟩ := h
      simp [CacheTree.height, heights, ih hc]

/-- A node that knows one entry and has at most one subdirectory takes up 37 bytes besides its
name. -/
theorem length_header (name : Bytes) (id : ObjectId) {n : Nat} (hn : n ≤ 1) :
    (header name (some ⟨1, id⟩) n).length = name.length + 37 := by
  have hdigits : ∀ m, m ≤ 1 → (Numeral.digits 10 m).length = 1 := by
    intro m hm
    rw [Numeral.digits, if_neg (by omega)]
    rfl
  simp only [header, List.length_append, List.length_cons, hdigits 1 (Nat.le_refl 1), hdigits n hn,
    id.length_bytes]

/-- Nested directories take up 37 bytes each besides their names. -/
theorem Nested.length_body (h : Nested names t) :
    t.body.length = t.name.length + names.flatten.length + 37 * (names.length + 1) := by
  induction names generalizing t with
  | nil =>
    cases t with
    | node name known children =>
      obtain ⟨⟨id, rfl⟩, rfl⟩ := h
      simp [body, bodies, length_header]
  | cons name names ih =>
    cases t with
    | node own known children =>
      obtain ⟨⟨id, rfl⟩, c, rfl, rfl, hc⟩ := h
      simp only [body, bodies, List.length_append, List.length_nil, List.length_cons,
        length_header own id (Nat.le_refl 1), ih hc, name_node, List.flatten_cons]
      omega

/-! ## Materializing -/

variable {σ : Type} [ObjectDatabase σ] {e : Entry}

/-- Materializing a file in nested directories makes a node for each of them. -/
theorem materialize_nested [AcceptsListings σ] {last : Bytes} (hm : e.stage = .merged)
    (hn : ∀ c ∈ names, Bytes.slash ∉ c) (hl : Bytes.slash ∉ last) (base : Bytes)
    (hp : e.path = Bytes.baseOf base names ++ last) (name : Bytes) (s : σ) :
    ∃ t s' id, materialize (unknown name) [e] base s = (t, s', .ok ⟨1, id⟩) ∧ t.name = name ∧
      Nested names t := by
  -- By induction on the directories between the file and the one that is materialized.
  induction names generalizing base name s with
  | nil =>
    have hafter : e.path.afterPrefix? base = some last := Bytes.afterPrefix?_eq_some_iff.2 hp
    have hlist : list [] [e] base s = ([], s, .ok (fileItem last e ++ [], 1)) := by
      rw [list_file hafter hm hl, list_nil]
      rfl
    exact ⟨_, _, _, materialize_unknown name hlist (AcceptsListings.insertTree_fst _ _), rfl, ⟨_, rfl⟩,
      by simp [sortByName]⟩
  | cons inner names ih =>
    have hinner : Bytes.slash ∉ inner := hn inner (by simp)
    have hafter : e.path.afterPrefix? base = some (inner ++ Bytes.slash ::
        (Bytes.baseOf [] names ++ last)) := by
      rw [Bytes.afterPrefix?_eq_some_iff, hp, Bytes.baseOf_eq, Bytes.baseOf_eq]
      simp
    obtain ⟨c, s₁, id, hchild, hname, hnested⟩ := ih
      (fun d hd => hn d (List.mem_cons_of_mem _ hd)) (base ++ inner ++ [Bytes.slash])
      (by simpa [Bytes.baseOf, Bytes.below] using hp) inner s
    have hlist : list [] [e] base s =
        ([c], s₁, .ok (subtreeItem inner ⟨1, id⟩ ++ [], 1)) := by
      have htaken : materialize (takeChild [] inner).1 [e] (base ++ inner ++ [Bytes.slash]) s =
          (c, s₁, .ok ⟨1, id⟩) := by
        rw [takeChild_nil]
        exact hchild
      rw [list_subtree hafter hm hinner htaken, List.drop_nil, list_nil]
      rfl
    exact ⟨_, _, _, materialize_unknown name hlist (AcceptsListings.insertTree_fst _ _), rfl, ⟨_, rfl⟩, c,
      by simp [sortByName], hname, hnested⟩

/-- A tree without nodes below the root forgets nothing but the root. -/
theorem invalidateAll_empty (paths : List Bytes) : empty.invalidateAll paths = empty := by
  refine invalidateAll_induction (motive := fun t => t = empty) ?_ rfl paths
  rintro names t rfl
  cases names with
  | nil => rfl
  | cons name names =>
    rw [empty, unknown, forgetAlong]
    split
    · rename_i i hi
      obtain ⟨t, ht, -⟩ := name_of_locate hi
      cases ht
    · rfl

end CacheTree

/-! ## The index -/

namespace Session

variable {σ : Type} [ObjectDatabase σ] {names : List Bytes} {last : Bytes} {e : Entry}

/-- An index to which a file in nested directories was added, and which was materialized then, has a
node for each directory. -/
theorem run_nested [AcceptsListings σ] (path : Bytes) (settings : Settings) (database : σ)
    (disk : Disk) (hm : e.stage = .merged) (hn : ∀ c ∈ names, Path.IsComponent c)
    (hl : Path.IsComponent last) (hp : e.path = Bytes.baseOf [] names ++ last) :
    ((start path settings database disk).run [.replace ⟨[e]⟩, .writeTree]).index.table = [e] ∧
      ((start path settings database disk).run [.replace ⟨[e]⟩, .writeTree]).index.cache.name =
        [] ∧
      CacheTree.Nested names
        ((start path settings database disk).run [.replace ⟨[e]⟩, .writeTree]).index.cache := by
  have hvalid : Path.IsValid e.path := hp ▸ Path.isValid_baseOf hn hl
  have hreplace : (Index.new path settings).replace ⟨[e]⟩ =
      .ok { Index.new path settings with table := [e] } := by
    rw [Index.replace, (Table.invariant_singleton hvalid).normalize_eq]
    simp only [Except.map, Index.replaceTable, CacheTree.invalidateChanges, Index.new,
      CacheTree.invalidateAll_empty]
  have hconf : Table.conflictPaths [e] = [] :=
    Table.conflictPaths_eq_nil_iff.2 (by simpa using hm)
  obtain ⟨t, s', id, hmat, hname, hnested⟩ := CacheTree.materialize_nested hm
    (fun c hc => (hn c hc).slash_notMem) hl.slash_notMem [] hp [] database
  have hmat : CacheTree.empty.materialize [e] [] database = (t, s', .ok ⟨1, id⟩) := hmat
  have hindex : ((start path settings database disk).run
      [.replace ⟨[e]⟩, .writeTree]).index =
        { Index.new path settings with table := [e], cache := t } := by
    rw [run_cons, run_cons, run_nil]
    simp only [perform, start, hreplace, take, Index.writeTree, hconf, if_true,
      CacheTree.update_eq_map]
    simp only [Index.new, hmat]
  rw [hindex]
  exact ⟨rfl, hname, hnested⟩

end Session

end StagingIndex
