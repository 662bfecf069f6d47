import Mathlib
import StagingIndex.Proofs.Progress

/-! # Materializing with a cache tree

The database may refuse whatever it is offered, as long as it names what it takes truly. For every
subdirectory that is met one node is taken out of those that were there, or a new one, which knows
nothing.

* `NamesListings`, `AcceptsListings`, `AcceptsFrom` — what is asked of databases
* `TreeLog`, `RefusingLog` — databases that record what they are offered, or only count and refuse it
* `MemoryDatabase.write_of_null`, `MemoryDatabase.write_of_ne` — what a database in memory refuses, and
  what it stores
* `CacheTree.Truthful` — what a node knows is right
* `CacheTree.all_takeChild` — the node that is taken out
* `CacheTree.list_file`, `CacheTree.list_subtree`, `CacheTree.materialize_unknown` — its single steps,
  where they succeed
* `CacheTree.list_unfinished`, `CacheTree.materialize_unlisted`, `CacheTree.materialize_refused` — and
  where they fail -/

namespace StagingIndex

/-! ## Databases -/

/-- A database that gives a listing it stores its name. It may refuse to store it. -/
class NamesListings (σ : Type) [ObjectDatabase σ] : Prop where
  id_of_insertTree : ∀ (t : Tree) (s s' : σ) (id : ObjectId),
    ObjectDatabase.insertTree t s = (.ok id, s') → id = t.id

/-- A database that stores every listing under its name. -/
class AcceptsListings (σ : Type) [ObjectDatabase σ] : Prop where
  insertTree_fst : ∀ (t : Tree) (s : σ), (ObjectDatabase.insertTree t s).1 = .ok t.id

/-- A database that stores every listing under its name from certain states on. -/
structure AcceptsFrom {σ : Type} [ObjectDatabase σ] (P : σ → Prop) : Prop where
  insertTree_fst : ∀ (t : Tree) (s : σ), P s → (ObjectDatabase.insertTree t s).1 = .ok t.id
  insertTree_snd : ∀ (t : Tree) (s : σ), P s → P (ObjectDatabase.insertTree t s).2

/-- A database that accepts everything does so from every state on. -/
theorem acceptsFrom_true {σ : Type} [ObjectDatabase σ] [AcceptsListings σ] :
    AcceptsFrom fun _ : σ => True where
  insertTree_fst t s _ := AcceptsListings.insertTree_fst t s
  insertTree_snd _ _ _ := trivial

/-- A database that stores every listing under its name names what it stores. -/
instance {σ : Type} [ObjectDatabase σ] [AcceptsListings σ] : NamesListings σ where
  id_of_insertTree := by
    intro t s s' id h
    have := AcceptsListings.insertTree_fst t s
    rw [h] at this
    cases this
    rfl

/-- A database that records the listings it is given, and nothing else. -/
structure TreeLog where
  trees : List Tree

instance : ObjectDatabase TreeLog where
  insertTree t l := (.ok t.id, ⟨l.trees ++ [t]⟩)
  fetch _ l := (.ok none, l)
  nesting _ := 0

instance : AcceptsListings TreeLog where
  insertTree_fst _ _ := rfl

/-- A database that accepts listings, but for those of given numbers, counted from zero. -/
structure RefusingLog where
  refused : List Nat
  /-- How many listings were offered so far. -/
  offered : Nat

instance : ObjectDatabase RefusingLog where
  insertTree t l :=
    (if l.refused.contains l.offered then .error (.io "write refused") else .ok t.id,
      { l with offered := l.offered + 1 })
  fetch _ l := (.ok none, l)
  nesting _ := 0

instance : NamesListings RefusingLog where
  id_of_insertTree := by
    intro t l l' id h
    have hid := congrArg Prod.fst h
    simp only [ObjectDatabase.insertTree] at hid
    split at hid
    · cases hid
    · exact (Except.ok.inj hid).symm

/-- Once it has refused all that it is to refuse, it accepts everything. -/
theorem RefusingLog.acceptsFrom :
    AcceptsFrom fun l : RefusingLog => ∀ n ∈ l.refused, n < l.offered where
  insertTree_fst t l hl := by
    have hnew : ¬ l.refused.contains l.offered = true := by
      rw [List.contains_iff_mem]
      exact fun hm => Nat.lt_irrefl _ (hl _ hm)
    exact if_neg hnew
  insertTree_snd _ _ hl n hn := Nat.lt_succ_of_lt (hl n hn)

namespace MemoryDatabase

/-- An object of the name that stands for no object is refused. -/
theorem write_of_null {o : Object} (h : o.id = .null) (d : MemoryDatabase) :
    d.write o = (.error .nullName, d) := if_pos (ObjectId.isNull_iff.2 h)

/-- Every other object is stored under its name. -/
theorem write_of_ne {o : Object} (h : o.id ≠ .null) (d : MemoryDatabase) :
    d.write o = (.ok o.id,
      { objects := if d.contains o.id then d.objects else d.objects ++ [(o.id, o)]
        writes := d.writes + 1 }) := if_neg fun hnull => h (ObjectId.isNull_iff.1 hnull)

/-- An object that is stored gets its name. -/
theorem id_of_write {o : Object} {d : MemoryDatabase} {id : ObjectId}
    (h : (d.write o).1 = .ok id) : id = o.id := by
  by_cases hnull : o.id = .null
  · rw [write_of_null hnull] at h
    cases h
  · rw [write_of_ne hnull] at h
    cases h
    rfl

end MemoryDatabase

instance : NamesListings MemoryDatabase where
  id_of_insertTree _ _ _ _ h := MemoryDatabase.id_of_write (congrArg Prod.fst h)

instance : NamesListings RefusingDatabase where
  id_of_insertTree := by
    intro t s s' id h
    simp only [ObjectDatabase.insertTree] at h
    split at h
    · cases h
    · exact MemoryDatabase.id_of_write (congrArg Prod.fst h)

namespace CacheTree

variable {σ : Type} [ObjectDatabase σ] {T : Table} {base : Bytes}

/-- What a node knows of its directory is right. -/
def Truthful (T : Table) (base : Bytes) (t : CacheTree) : Prop :=
  ∀ k, t.known = some k → k = Table.exact base (T.beginning base)

/-- A node that knows nothing knows nothing wrong. -/
theorem truthful_of_none {t : CacheTree} (h : t.known = none) : Truthful T base t := by
  intro k hk
  rw [h] at hk
  cases hk

/-! ## Taking nodes out -/

/-- The node taken out for a name has the name, and is one of the nodes or a new one. -/
theorem takeChild_fst (ts : List CacheTree) (name : Bytes) :
    (takeChild ts name).1.name = name ∧
      ((takeChild ts name).1 = unknown name ∨ (takeChild ts name).1 ∈ ts) := by
  rw [takeChild]
  split
  · rename_i i hi
    obtain ⟨t, ht, hn⟩ := name_of_locate hi
    simp only [ht, Option.getD_some]
    exact ⟨hn, Or.inr (List.mem_of_getElem? ht)⟩
  · exact ⟨rfl, Or.inl rfl⟩

/-- The nodes that are left are some of the nodes, in their order. -/
theorem takeChild_snd_sublist (ts : List CacheTree) (name : Bytes) :
    (takeChild ts name).2.Sublist ts := by
  rw [takeChild]
  split
  · exact List.eraseIdx_sublist _ _
  · exact List.Sublist.refl _

/-- The nodes that are left are some of the nodes. -/
theorem takeChild_snd_subset (ts : List CacheTree) (name : Bytes) : (takeChild ts name).2 ⊆ ts :=
  (takeChild_snd_sublist ts name).subset

/-- Of sorted siblings the one that is taken out for a name is the one that has it. -/
theorem takeChild_fst_of_mem {ts : List CacheTree} {c : CacheTree}
    (hs : ts.Pairwise fun a b => compare a.name b.name = .lt) (hc : c ∈ ts) :
    (takeChild ts c.name).1 = c := by
  obtain ⟨i, hi⟩ := List.mem_iff_getElem?.1 hc
  simp [takeChild, locate_eq_present hs hi, hi]

/-- Of sorted siblings those that are left are the ones with other names. -/
theorem mem_takeChild_snd {ts : List CacheTree} {name : Bytes} {c : CacheTree}
    (hs : ts.Pairwise fun a b => compare a.name b.name = .lt) :
    c ∈ (takeChild ts name).2 ↔ c ∈ ts ∧ c.name ≠ name := by
  rw [takeChild]
  split
  · rename_i i hi
    obtain ⟨d, hd, rfl⟩ := name_of_locate hi
    rw [List.mem_eraseIdx_iff_getElem?]
    constructor
    · rintro ⟨j, hj, hc⟩
      exact ⟨List.mem_of_getElem? hc, fun hn => hj (eq_of_name hs hc hd hn)⟩
    · rintro ⟨hc, hn⟩
      obtain ⟨j, hj⟩ := List.mem_iff_getElem?.1 hc
      refine ⟨j, ?_, hj⟩
      rintro rfl
      exact hn (congrArg CacheTree.name (Option.some.inj (hj.symm.trans hd)))
  · rename_i i hi
    refine ⟨fun hc => ⟨hc, ?_⟩, fun h => h.1⟩
    rintro rfl
    obtain ⟨j, hj⟩ := List.mem_iff_getElem?.1 hc
    cases hi.symm.trans (locate_eq_present hs hj)

/-- What holds of all nodes below the subdirectories, and of a node that knows nothing, holds of the
node that is taken out. -/
theorem all_takeChild {P : Bytes → CacheTree → Prop} {ts : List CacheTree} {name : Bytes}
    (h : ∀ c ∈ ts, All P (Bytes.below base c.name) c)
    (hu : P (Bytes.below base name) (unknown name)) :
    All P (Bytes.below base name) (takeChild ts name).1 := by
  obtain ⟨hn, hu' | hm⟩ := takeChild_fst ts name
  · rw [hu']
    exact all_unknown hu
  · have := h _ hm
    rwa [hn] at this

/-- Nodes put into order are the same nodes. -/
@[simp] theorem mem_sortByName {ts : List CacheTree} {c : CacheTree} :
    c ∈ sortByName ts ↔ c ∈ ts := by
  simp [sortByName]

/-- A node that is materialized keeps its name, even if that fails. -/
theorem name_materialize (t : CacheTree) (entries : List Entry) (base : Bytes) (s : σ) :
    (materialize t entries base s).1.name = t.name := by
  rw [materialize]
  split
  · rfl
  · split
    · rfl
    · split <;> rfl

/-- A node that is materialized knows its directory. -/
theorem known_of_materialize {t : CacheTree} {entries : List Entry} {base : Bytes} {s : σ} {k : Known}
    (h : (materialize t entries base s).2.2 = .ok k) :
    (materialize t entries base s).1.known = some k := by
  rw [materialize] at h ⊢
  cases hk : t.known with
  | some k' =>
    simp only [hk] at h ⊢
    split at h
    · rw [← Except.ok.inj h]
    · cases h
  | none =>
    simp only [hk] at h ⊢
    split at h
    · cases h
    · split at h
      · cases h
      · exact congrArg some (Except.ok.inj h)

/-! ## Single steps -/

variable {e : Entry} {es : List Entry} {rest : Bytes} {previous : List CacheTree}

/-- A merged file is listed before what follows it. -/
theorem list_file (hp : e.path.afterPrefix? base = some rest) (hm : e.stage = .merged)
    (hs : Bytes.slash ∉ rest) (s : σ) :
    list previous (e :: es) base s =
      match list previous es base s with
      | (children, s, r) =>
        (children, s, r.map fun (items, n) => (fileItem rest e ++ items, n + 1)) := by
  have hsplit := Bytes.splitAt?_eq_none_iff.2 hs
  rw [list]
  split
  · simp_all
  · rename_i r hr
    obtain rfl : rest = r := by simp_all
    rw [if_neg (by simp [hm])]
    split
    · rfl
    · simp_all

/-- Where the next entry is in a subdirectory, that is materialized first. -/
theorem list_below {name : Bytes} (hp : e.path.afterPrefix? base =
      some (name ++ Bytes.slash :: rest)) (hm : e.stage = .merged) (hn : Bytes.slash ∉ name) (s : σ) :
    list previous (e :: es) base s =
      match materialize (takeChild previous name).1 (e :: es) (base ++ name ++ [Bytes.slash]) s with
      | (_, s, .error fault) => ([], s, .error fault)
      | (child, s, .ok k) =>
        match list (takeChild previous name).2 (es.drop (k.count - 1)) base s with
        | (children, s, r) =>
          (child :: children, s,
            r.map fun (items, n) => (subtreeItem name k ++ items, k.count + n)) := by
  have hsplit := Bytes.splitAt?_append hn rest
  rw [list]
  split
  · simp_all
  · rename_i r hr
    obtain rfl : name ++ Bytes.slash :: rest = r := by simp_all
    rw [if_neg (by simp [hm])]
    split
    · simp_all
    · rename_i n r hnr
      rw [hsplit] at hnr
      cases hnr
      rfl

/-- A subdirectory that could be materialized is listed before what follows its entries. -/
theorem list_subtree {name : Bytes} (hp : e.path.afterPrefix? base =
      some (name ++ Bytes.slash :: rest)) (hm : e.stage = .merged) (hn : Bytes.slash ∉ name)
    {s s' : σ} {child : CacheTree} {k : Known}
    (h : materialize (takeChild previous name).1 (e :: es) (base ++ name ++ [Bytes.slash]) s =
      (child, s', .ok k)) :
    list previous (e :: es) base s =
      match list (takeChild previous name).2 (es.drop (k.count - 1)) base s' with
      | (children, s, r) =>
        (child :: children, s,
          r.map fun (items, n) => (subtreeItem name k ++ items, k.count + n)) := by
  rw [list_below hp hm hn, h]

/-- A subdirectory that could not be materialized ends the listing. -/
theorem list_unfinished {name : Bytes} (hp : e.path.afterPrefix? base =
      some (name ++ Bytes.slash :: rest)) (hm : e.stage = .merged) (hn : Bytes.slash ∉ name)
    {s s' : σ} {child : CacheTree} {fault : IndexError}
    (h : materialize (takeChild previous name).1 (e :: es) (base ++ name ++ [Bytes.slash]) s =
      (child, s', .error fault)) :
    list previous (e :: es) base s = ([], s', .error fault) := by
  rw [list_below hp hm hn, h]

/-- What is listed of no entries. -/
theorem list_nil (previous : List CacheTree) (base : Bytes) (s : σ) :
    list previous [] base s = ([], s, .ok ([], 0)) := by
  rw [list]

/-- A directory that is not known is materialized if it can be listed and its listing is stored. -/
theorem materialize_unknown (name : Bytes) {s s' : σ} {children : List CacheTree}
    {items : List TreeItem} {n : Nat} (h : list [] es base s = (children, s', .ok (items, n)))
    (hid : (ObjectDatabase.insertTree (Tree.ofList items) s').1 = .ok (Tree.ofList items).id) :
    materialize (unknown name) es base s =
      (node name (some ⟨n, (Tree.ofList items).id⟩) (sortByName children),
        (ObjectDatabase.insertTree (Tree.ofList items) s').2, .ok ⟨n, (Tree.ofList items).id⟩) := by
  rw [materialize, unknown]
  simp only [known_node, children_node, h]
  split
  · rename_i e s₁ he
    rw [he] at hid
    cases hid
  · rename_i id s₁ he
    rw [he] at hid ⊢
    cases hid
    rfl

/-- It is not if it cannot be listed. -/
theorem materialize_unlisted (name : Bytes) {s s' : σ} {children : List CacheTree}
    {fault : IndexError} (h : list [] es base s = (children, s', .error fault)) :
    materialize (unknown name) es base s = (node name none children, s', .error fault) := by
  rw [materialize, unknown]
  simp only [known_node, children_node, name_node, h]

/-- And it is not if its listing is refused. -/
theorem materialize_refused (name : Bytes) {s s₁ s₂ : σ} {children : List CacheTree}
    {items : List TreeItem} {n : Nat} {fault : StoreError}
    (h : list [] es base s = (children, s₁, .ok (items, n)))
    (hi : ObjectDatabase.insertTree (Tree.ofList items) s₁ = (.error fault, s₂)) :
    materialize (unknown name) es base s =
      (node name none (sortByName children), s₂, .error (.store fault)) := by
  rw [materialize, unknown]
  simp only [known_node, children_node, name_node, h, hi]

/-- Where there are no nodes, a new one is taken. -/
theorem takeChild_nil (name : Bytes) : takeChild [] name = (unknown name, []) := by
  obtain ⟨-, h | h⟩ := takeChild_fst [] name
  · exact Prod.ext h (List.subset_nil.1 (takeChild_snd_subset [] name))
  · cases h

/-- A subdirectory without a node is listed once its own listing is stored. -/
theorem list_unknown {name : Bytes} {left : List CacheTree} (hp : e.path.afterPrefix? base =
      some (name ++ Bytes.slash :: rest)) (hm : e.stage = .merged) (hn : Bytes.slash ∉ name)
    (htaken : takeChild previous name = (unknown name, left))
    {s s' : σ} {children : List CacheTree} {items : List TreeItem} {n : Nat}
    (h : list [] (e :: es) (base ++ name ++ [Bytes.slash]) s = (children, s', .ok (items, n)))
    (hid : (ObjectDatabase.insertTree (Tree.ofList items) s').1 = .ok (Tree.ofList items).id) :
    list previous (e :: es) base s =
      match list left (es.drop (n - 1)) base (ObjectDatabase.insertTree (Tree.ofList items) s').2 with
      | (more, s, r) =>
        (node name (some ⟨n, (Tree.ofList items).id⟩) (sortByName children) :: more, s,
          r.map fun (others, m) => (subtreeItem name ⟨n, (Tree.ofList items).id⟩ ++ others, n + m)) := by
  have hmat := materialize_unknown name h hid
  have hchild : (takeChild previous name).1 = unknown name := congrArg Prod.fst htaken
  have hleft : (takeChild previous name).2 = left := congrArg Prod.snd htaken
  rw [← hchild] at hmat
  have hstep := list_subtree hp hm hn hmat
  rwa [hleft] at hstep

end CacheTree

end StagingIndex
