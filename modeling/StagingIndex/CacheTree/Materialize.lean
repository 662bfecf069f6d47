import StagingIndex.CacheTree.Basic
import StagingIndex.Database

/-! # Materializing directories

To write the table as tree objects, every directory is listed: its files come from the table, its
subdirectories are materialized first. A directory whose node knows its tree is not listed again, if
the count it knows agrees with the table; all others are listed, their listing is stored, and their
node knows it from then on.

* `CacheTree.covers` — whether a count agrees with the entries of a directory
* `CacheTree.materialize` — one directory and everything below it
* `CacheTree.update` — the whole table -/

namespace StagingIndex

namespace CacheTree

variable {σ : Type} [ObjectDatabase σ]

/-- Whether the first `count` entries could be exactly those below `base`: the last of them is below
it, and the next one is not. -/
def covers (count : Nat) (entries : List Entry) (base : Bytes) : Bool :=
  count ≤ entries.length &&
    (count = 0 || (entries[count - 1]?.map fun e => e.path.beginsWith base).getD false) &&
    (entries[count]?.map fun e => !e.path.beginsWith base).getD true

/-- The node of a name, taken out of the others; a new one if there is none. -/
def takeChild (ts : List CacheTree) (name : Bytes) : CacheTree × List CacheTree :=
  match locate ts name with
  | .present i => (ts[i]?.getD (unknown name), ts.eraseIdx i)
  | .absent _ => (unknown name, ts)

/-- The item that lists a materialized directory, unless it came out empty. -/
def subtreeItem (name : Bytes) (k : Known) : List TreeItem :=
  if k.id = Tree.empty.id then [] else [⟨.directory, name, k.id⟩]

/-- The item that lists an entry of the table, unless it is only meant to be added. -/
def fileItem (name : Bytes) (e : Entry) : List TreeItem :=
  if e.flags.intentToAdd then [] else [⟨e.mode, name, e.id⟩]

/-- The length of the path that comes first. -/
def firstLength : List Entry → Nat
  | [] => 0
  | e :: _ => e.path.length

/-- What remains of a path below a directory that it lies in is shorter than the path. -/
theorem length_le_firstLength {e : Entry} {es : List Entry} {base name rest : Bytes}
    (h : e.path.afterPrefix? base = some (name ++ Bytes.slash :: rest)) :
    (base ++ name ++ [Bytes.slash]).length ≤ firstLength (e :: es) := by
  have := Bytes.afterPrefix?_eq_some_iff.1 h
  simp only [firstLength, this, List.length_append, List.length_cons, List.length_nil]
  omega

mutual

/-- Materialize the directory `base`, which is empty or ends in a slash, with the entries from the
first one below it. The result has the node as it is afterwards, the database, and what is now known
of the directory. A node below which anything failed comes out with those subdirectories that were
done before. -/
def materialize (t : CacheTree) (entries : List Entry) (base : Bytes) (s : σ) :
    CacheTree × σ × Except IndexError Known :=
  match t.known with
  | some k =>
    (t, s,
      if covers k.count entries base then .ok k
      else .error (.corruptCacheTree (.staleCount k.count base)))
  | none =>
    match list t.children entries base s with
    | (children, s, .error e) => (node t.name none children, s, .error e)
    | (children, s, .ok (items, count)) =>
      match ObjectDatabase.insertTree (Tree.ofList items) s with
      | (.error e, s) => (node t.name none (sortByName children), s, .error (.store e))
      | (.ok id, s) =>
        (node t.name (some ⟨count, id⟩) (sortByName children), s, .ok ⟨count, id⟩)
termination_by (entries.length, firstLength entries - base.length, 1)

/-- List the entries below `base`, with nodes for subdirectories taken from `previous`. The result
has the nodes of the subdirectories that were met, the database, and the items with the number of
entries they stand for. -/
def list (previous : List CacheTree) (entries : List Entry) (base : Bytes) (s : σ) :
    List CacheTree × σ × Except IndexError (List TreeItem × Nat) :=
  match entries with
  | [] => ([], s, .ok ([], 0))
  | e :: es =>
    match _hp : e.path.afterPrefix? base with
    | none => ([], s, .ok ([], 0))
    | some below =>
      if e.stage ≠ .merged then ([], s, .error (.unresolvedConflict [e.path]))
      else
        match _hs : below.splitAt? Bytes.slash with
        | none =>
          match list previous es base s with
          | (children, s, r) =>
            (children, s, r.map fun (items, n) => (fileItem below e ++ items, n + 1))
        | some (name, _rest) =>
          match materialize (takeChild previous name).1 (e :: es)
              (base ++ name ++ [Bytes.slash]) s with
          | (_, s, .error err) => ([], s, .error err)
          | (child, s, .ok k) =>
            match list (takeChild previous name).2 (es.drop (k.count - 1)) base s with
            | (children, s, r) =>
              (child :: children, s,
                r.map fun (items, n) => (subtreeItem name k ++ items, k.count + n))
termination_by (entries.length, firstLength entries - base.length, 0)
decreasing_by
  · refine Prod.Lex.left _ _ ?_
    simp only [List.length_cons]
    omega
  · obtain ⟨h, -⟩ := Bytes.eq_append_of_splitAt? _hs
    have : _ ≤ firstLength (e :: es) := length_le_firstLength (h ▸ _hp)
    simp only [List.length_append, List.length_cons, List.length_nil] at this
    refine Prod.Lex.right _ (Prod.Lex.left _ _ ?_)
    simp only [List.length_append, List.length_cons, List.length_nil]
    omega
  · refine Prod.Lex.left _ _ ?_
    simp only [List.length_drop, List.length_cons]
    omega

end

/-- The tree object of the root, which has to cover all entries. -/
def rootId (entries : List Entry) (k : Known) : Except IndexError ObjectId :=
  if k.count = entries.length then .ok k.id
  else .error (.corruptCacheTree (.rootCovers k.count entries.length))

/-- Materialize a whole table. -/
def update (t : CacheTree) (entries : List Entry) (s : σ) :
    CacheTree × σ × Except IndexError ObjectId :=
  match materialize t entries [] s with
  | (t, s, r) => (t, s, r.bind (rootId entries))

end CacheTree

end StagingIndex
