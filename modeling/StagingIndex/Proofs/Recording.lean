import Mathlib
import StagingIndex.Index
import StagingIndex.Proofs.Materialization

/-! # Recording what a database is asked

A database can be wrapped so that it writes down which listings it is offered and which objects it
gives. Nothing else changes: the index and the database inside come out as they would without it.
What an operation offers and fetches is therefore said of the wrapped database.

* `Recorded` — a database that writes down what it is asked
* `Recorded.update_eq` — materializing goes on as without recording
* `Recorded.readTree_eq` — reading a stored tree goes on as without recording -/

namespace StagingIndex

/-- A database that writes down what it is asked. -/
structure Recorded (σ : Type) where
  database : σ
  /-- The listings that were offered, the oldest first, refused ones included. -/
  offered : List Tree
  /-- The objects that were given, the oldest first. -/
  fetched : List Object

namespace Recorded

variable {σ : Type}

/-- A database that has not been asked anything yet. -/
def start (s : σ) : Recorded σ := ⟨s, [], []⟩

@[simp] theorem database_start (s : σ) : (start s).database = s := rfl

@[simp] theorem offered_start (s : σ) : (start s).offered = [] := rfl

@[simp] theorem fetched_start (s : σ) : (start s).fetched = [] := rfl

variable [ObjectDatabase σ]

instance : ObjectDatabase (Recorded σ) where
  insertTree t r :=
    let (x, s) := ObjectDatabase.insertTree t r.database
    (x, { r with database := s, offered := r.offered ++ [t] })
  fetch id r :=
    let (x, s) := ObjectDatabase.fetch id r.database
    (x, { r with database := s, fetched := r.fetched ++ (x.toOption.join).toList })
  nesting r := ObjectDatabase.nesting r.database

/-- Storing a listing writes it down. -/
theorem insertTree_eq (t : Tree) (r : Recorded σ) :
    ObjectDatabase.insertTree t r = ((ObjectDatabase.insertTree t r.database).1,
      ⟨(ObjectDatabase.insertTree t r.database).2, r.offered ++ [t], r.fetched⟩) := rfl

/-- Fetching writes down the object that is given, if any is. -/
theorem fetch_eq (id : ObjectId) (r : Recorded σ) :
    ObjectDatabase.fetch id r = ((ObjectDatabase.fetch id r.database).1,
      ⟨(ObjectDatabase.fetch id r.database).2, r.offered,
        r.fetched ++ ((ObjectDatabase.fetch id r.database).1.toOption.join).toList⟩) := rfl

@[simp] theorem nesting_eq (r : Recorded σ) :
    ObjectDatabase.nesting r = ObjectDatabase.nesting r.database := rfl

/-! ## Materializing -/

/-- Materializing and listing go on as without recording, by induction on the calls that they make of
each other. -/
theorem materialize_database :
    (∀ (t : CacheTree) (entries : List Entry) (base : Bytes) (r : Recorded σ),
      t.materialize entries base r.database =
        ((t.materialize entries base r).1, (t.materialize entries base r).2.1.database,
          (t.materialize entries base r).2.2)) ∧
    ∀ (previous : List CacheTree) (entries : List Entry) (base : Bytes) (r : Recorded σ),
      CacheTree.list previous entries base r.database =
        ((CacheTree.list previous entries base r).1,
          (CacheTree.list previous entries base r).2.1.database,
          (CacheTree.list previous entries base r).2.2) := by
  apply CacheTree.materialize.mutual_induct_unfolding
    (fun t entries base (r : Recorded σ) x =>
      t.materialize entries base r.database = (x.1, x.2.1.database, x.2.2))
    (fun previous entries base (r : Recorded σ) x =>
      CacheTree.list previous entries base r.database = (x.1, x.2.1.database, x.2.2))
  case case1 =>
    intro t entries base r k hk
    rw [CacheTree.materialize, hk]
  case case2 =>
    intro t entries base r hk children r₁ e hlist ih
    rw [hlist] at ih
    rw [CacheTree.materialize, hk, ih]
  case case3 =>
    intro t entries base r hk children r₁ items n hlist e r₂ hins ih
    rw [hlist] at ih
    rw [insertTree_eq, Prod.mk.injEq] at hins
    obtain ⟨hins, rfl⟩ := hins
    rw [CacheTree.materialize, hk, ih]
    simp only
    rw [← Prod.mk.eta (p := ObjectDatabase.insertTree (Tree.ofList items) r₁.database), hins]
  case case4 =>
    intro t entries base r hk children r₁ items n hlist id r₂ hins ih
    rw [hlist] at ih
    rw [insertTree_eq, Prod.mk.injEq] at hins
    obtain ⟨hins, rfl⟩ := hins
    rw [CacheTree.materialize, hk, ih]
    simp only
    rw [← Prod.mk.eta (p := ObjectDatabase.insertTree (Tree.ofList items) r₁.database), hins]
  case case5 =>
    intro previous base r
    rw [CacheTree.list]
  case case6 =>
    intro previous base r e es hp
    rw [CacheTree.list]
    split
    · rfl
    · simp_all
  case case7 =>
    intro previous base r e es below hp hm
    rw [CacheTree.list]
    split
    · simp_all
    · rw [if_pos hm]
  case case8 =>
    intro previous base r e es rest hp hm hsplit children r₁ x hlist ih
    rw [hlist] at ih
    rw [CacheTree.list_file hp (not_not.1 hm) (Bytes.splitAt?_eq_none_iff.1 hsplit), ih]
  case case9 =>
    intro previous base r e es below hp hm name rest hsplit c r₁ err hchild ih
    rw [hchild] at ih
    obtain ⟨rfl, hn⟩ := Bytes.eq_append_of_splitAt? hsplit
    exact CacheTree.list_unfinished hp (not_not.1 hm) hn ih
  case case10 =>
    intro previous base r e es below hp hm name rest hsplit child r₁ k hchild children r₂ x hlist
      ih₁ ih₂
    rw [hchild] at ih₁
    rw [hlist] at ih₂
    obtain ⟨rfl, hn⟩ := Bytes.eq_append_of_splitAt? hsplit
    rw [CacheTree.list_subtree hp (not_not.1 hm) hn ih₁, ih₂]

/-- Materializing a table goes on as without recording. -/
theorem update_eq (t : CacheTree) (entries : List Entry) (r : Recorded σ) :
    t.update entries r.database = ((t.update entries r).1, (t.update entries r).2.1.database,
      (t.update entries r).2.2) := by
  rw [CacheTree.update_eq_map, CacheTree.update_eq_map, materialize_database.1]

/-! ## Reading stored trees -/

omit [ObjectDatabase σ] in
/-- Reading the items of a listing goes on as without recording, if reading subtrees does. -/
theorem collectItems_database {load : ObjectId → Bytes → σ → CacheTree.Reading σ CacheTree}
    {load' : ObjectId → Bytes → Recorded σ → CacheTree.Reading (Recorded σ) CacheTree}
    (hload : ∀ id dir r, load id dir r.database =
      ((load' id dir r).1, (load' id dir r).2.1.database, (load' id dir r).2.2))
    (dir : Bytes) (stage : Stage) (items : List TreeItem) (r : Recorded σ) :
    CacheTree.collectItems load dir stage items r.database =
      ((CacheTree.collectItems load' dir stage items r).1,
        (CacheTree.collectItems load' dir stage items r).2.1.database,
        (CacheTree.collectItems load' dir stage items r).2.2) := by
  induction items generalizing r with
  | nil => rfl
  | cons item items ih =>
    rw [CacheTree.collectItems, CacheTree.collectItems]
    split
    · rw [hload]
      match load' item.id (Bytes.join dir item.name) r with
      | (read, r₁, .error e) => rfl
      | (read, r₁, .ok (.node _ known children)) =>
        simp only [ih r₁]
    · simp only [ih r]

/-- Reading a tree goes on as without recording, by induction on the depth to which it may be
nested. -/
theorem collectWithin_database (stage : Stage) (depth : Nat) (id : ObjectId) (dir : Bytes)
    (r : Recorded σ) :
    CacheTree.collectWithin stage depth id dir r.database =
      ((CacheTree.collectWithin stage depth id dir r).1,
        (CacheTree.collectWithin stage depth id dir r).2.1.database,
        (CacheTree.collectWithin stage depth id dir r).2.2) := by
  induction depth generalizing id dir r with
  | zero => rfl
  | succ depth ih =>
    rw [CacheTree.collectWithin, CacheTree.collectWithin, fetch_eq]
    match h : ObjectDatabase.fetch id r.database with
    | (.error e, s) => rfl
    | (.ok none, s) => rfl
    | (.ok (some object), s) =>
      simp only
      cases Tree.ofObject object with
      | error e => rfl
      | ok tree =>
        have := collectItems_database (fun id dir r => ih id dir r) dir stage tree.items
          ⟨s, r.offered, r.fetched ++ [object]⟩
        simp only at this ⊢
        rw [this]
        rfl

/-- Reading a stored tree into an index goes on as without recording. -/
theorem readTree_eq (ix : Index) (id : ObjectId) (r : Recorded σ) :
    ix.readTree id r.database = ((ix.readTree id r).1, (ix.readTree id r).2.database) := by
  rw [Index.readTree, Index.readTree, CacheTree.collect, CacheTree.collect, nesting_eq,
    collectWithin_database]
  match CacheTree.collectWithin .merged (ObjectDatabase.nesting r.database + 1) id [] r with
  | (read, r₁, .error e) => rfl
  | (read, r₁, .ok cache) => rfl

end Recorded

end StagingIndex
